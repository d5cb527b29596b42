/-
  LinearHeap/Proofs/Boundary.lean
  ===============================
  **Requests over the boundary.**  A caller brings memory and variables, any of
  which may be missing, and a request names a session to open or a handle to do
  something with.  `Registry.perform` is the boundary with all its entry points;
  an effect is what a caller can see of a request.

  `Service.alone` says what a service on a handle has to come to, given the seat of
  that handle and nothing else: the first check that fails, or what the session
  itself would do.  Every entry point does exactly that (`perform_of_refused`,
  `perform_of_admitted`), and of the seats it touches only its own (`Reseats`).
-/
import LinearHeap.Registry.Basic
import LinearHeap.Proofs.SlotTables
import LinearHeap.Proofs.Acts

namespace LinearHeap

/-- What a caller brings: the guest's memory, and variables for answers.  Whatever is `none` is
    a null pointer. -/
structure Caller where
  memory : Option Memory := none
  handle : Option Handle := none
  address : Option Addr := none
  start : Option Addr := none
  frontier : Option Addr := none
  snapshot : Option Snapshot := none

/-- What a caller can ask of the session behind a handle. -/
inductive Service where
  | close
  | call (c : Call)
  | readBounds
  | readCounters
  deriving DecidableEq

inductive Request where
  | create (config : Session.Config)
  | serve (handle : Handle) (x : Service)

/-- What a caller gets back: the status code, and what it brought as the request left it. -/
structure Effect where
  code : Int
  caller : Caller

/-- The effect of a reply that may bring an address. -/
def Reply.addressing (w : Caller) (reply : Reply (Option Addr)) : Effect × Registry :=
  (⟨reply.status.code, { w with memory := reply.memory, address := reply.out }⟩, reply.registry)

/-- The effect of a reply to a drop. -/
def Reply.dropping (w : Caller) (reply : Reply Unit) : Effect × Registry :=
  (⟨reply.status.code, { w with memory := reply.memory }⟩, reply.registry)

namespace Registry

def perform (r : Registry) (w : Caller) : Request → Effect × Registry
  | .create config =>
      let reply := r.openSession config w.handle
      (⟨reply.status.code, { w with handle := reply.out }⟩, reply.registry)
  | .serve handle .close =>
      let reply := r.closeSession handle
      (⟨reply.status.code, w⟩, reply.registry)
  | .serve handle (.call (.newObject size)) =>
      (r.newObject handle w.memory size w.address).addressing w
  | .serve handle (.call (.dropObject a size)) =>
      (r.dropObject handle w.memory a size).dropping w
  | .serve handle (.call (.newSlice length element)) =>
      (r.newSlice handle w.memory length element w.address).addressing w
  | .serve handle (.call (.dropSlice slice element)) =>
      (r.dropSlice handle w.memory slice element).dropping w
  | .serve handle .readBounds =>
      let reply := r.readBounds handle w.start w.frontier
      (⟨reply.status.code, { w with start := reply.out.1, frontier := reply.out.2 }⟩,
        reply.registry)
  | .serve handle .readCounters =>
      let reply := r.readCounters handle w.snapshot
      (⟨reply.status.code, { w with snapshot := reply.out }⟩, reply.registry)

end Registry

/-! ### What a service comes to on its own seat -/

namespace Service

/-- A variable for the answer is missing. -/
def lacksVariable (w : Caller) : Service → Bool
  | .close => false
  | .call c => c.func.returnsAddress && w.address.isNone
  | .readBounds => w.start.isNone || w.frontier.isNone
  | .readCounters => w.snapshot.isNone

def lacksMemory (w : Caller) : Service → Bool
  | .call _ => w.memory.isNone
  | _ => false

/-- The session that a service may work on, or the code of the first check that it fails. -/
def screen (x : Service) (w : Caller) (seat : Option Seat) : Except Int Session :=
  if x.lacksVariable w then .error (-2)
  else match seat with
    | none => .error (-1)
    | some seat =>
        if x.lacksMemory w then .error (-2)
        else if seat.poisoned && x != .close then .error (-20)
        else .ok seat.session

/-- What a service does with a session, and the seat that it leaves.  A call that faults leaves
    memory as it was when it stopped, and poisons the seat. -/
def work (x : Service) (w : Caller) (s : Session) : Effect × Option Seat :=
  match x with
  | .close => (⟨0, w⟩, none)
  | .call c =>
      let left := (Session.answer c).runOn s (w.memory.getD (.zeros 0))
      let w := { w with memory := some left.ambient.memory }
      match left.result with
      | .ok (.ok a) => (⟨0, { w with address := a.or w.address }⟩, some { session := left.own })
      | .ok (.error e) => (⟨(Status.ofCallError e).code, w⟩, some { session := left.own })
      | .error _ => (⟨-128, w⟩, some { session := left.own, poisoned := true })
  | .readBounds =>
      (⟨0, { w with start := some s.heap.start, frontier := some s.heap.frontier }⟩,
        some { session := s })
  | .readCounters => (⟨0, { w with snapshot := some s.snapshot }⟩, some { session := s })

/-- What a service comes to on the seat of its handle.  One that fails a check changes
    nothing. -/
def alone (x : Service) (w : Caller) (seat : Option Seat) : Effect × Option Seat :=
  match x.screen w seat with
  | .error code => (⟨code, w⟩, seat)
  | .ok s => x.work w s

variable {x : Service} {w : Caller} {seat : Option Seat} {s : Session} {code : Int}

theorem alone_of_refused (h : x.screen w seat = .error code) :
    x.alone w seat = (⟨code, w⟩, seat) := by
  rw [alone, h]

theorem alone_of_admitted (h : x.screen w seat = .ok s) : x.alone w seat = x.work w s := by
  rw [alone, h]

/-- An admitted service has what it needs, and a seat that is not poisoned unless it is to be
    closed. -/
theorem screen_eq_ok (h : x.screen w seat = .ok s) :
    x.lacksVariable w = false ∧ x.lacksMemory w = false ∧
      ∃ a, seat = some a ∧ a.session = s ∧ (x = .close ∨ a.poisoned = false) := by
  unfold screen at h
  split at h
  · cases h
  · rename_i hv
    split at h
    · cases h
    · rename_i a
      split at h
      · cases h
      · rename_i hm
        split at h
        · cases h
        · rename_i hp
          cases h
          refine ⟨Bool.eq_false_iff.2 hv, Bool.eq_false_iff.2 hm, a, rfl, rfl, ?_⟩
          by_cases hx : x = .close
          · exact Or.inl hx
          · exact Or.inr (by simpa [hx] using hp)

/-- The ways to fail a check. -/
theorem screen_eq_error (h : x.screen w seat = .error code) :
    (x.lacksVariable w = true ∧ code = -2) ∨
    (x.lacksVariable w = false ∧ seat = none ∧ code = -1) ∨
    (x.lacksVariable w = false ∧ x.lacksMemory w = true ∧ seat.isSome = true ∧ code = -2) ∨
    (x.lacksVariable w = false ∧ x.lacksMemory w = false ∧ x ≠ .close ∧ code = -20 ∧
      ∃ a, seat = some a ∧ a.poisoned = true) := by
  unfold screen at h
  split at h
  · rename_i hv
    cases h
    exact Or.inl ⟨hv, rfl⟩
  · rename_i hv
    have hv := Bool.eq_false_iff.2 hv
    split at h
    · cases h
      exact Or.inr (Or.inl ⟨hv, rfl, rfl⟩)
    · rename_i a
      split at h
      · rename_i hm
        cases h
        exact Or.inr (Or.inr (Or.inl ⟨hv, hm, rfl, rfl⟩))
      · rename_i hm
        split at h
        · rename_i hp
          cases h
          simp only [Bool.and_eq_true, bne_iff_ne] at hp
          exact Or.inr (Or.inr (Or.inr
            ⟨hv, Bool.eq_false_iff.2 hm, hp.2, rfl, a, rfl, hp.1⟩))
        · cases h

end Service

/-! ### What opening comes to -/

/-- Opening a session never faults. -/
theorem Session.exists_create {σ : Type} (config : Config) (s : σ) (m : Ambient) :
    ∃ opened m', (create config : Act σ _) s m = ⟨.ok opened, s, m'⟩ := by
  rw [create, Heap.create]
  cases Placement.start config.start with
  | error e => exact ⟨_, _, rfl⟩
  | ok start => exact ⟨_, _, rfl⟩

/-- The session that a configuration opens, if its heap can be placed. -/
def Session.opened? (config : Config) : Option Session :=
  match ((create config : Act Unit _).runOn () (.zeros 0)).result with
  | .ok (.ok s) => some s
  | _ => none

/-! ### What a service does to the seats -/

/-- The second table is the first one with this seat, or none, for the handle. -/
inductive Reseats (t : SlotTable Seat) (h : Handle) : Option Seat → SlotTable Seat → Prop
  | same : Reseats t h (t.get? h) t
  | replaced {a : Seat} (ha : t.get? h = some a) (b : Seat) :
      Reseats t h (some b) (t.replace h b)
  | removed {a : Seat} (ha : t.get? h = some a) : Reseats t h none (t.remove h).2

namespace Reseats

variable {t t' : SlotTable Seat} {h k : Handle} {seat : Option Seat} {issued : List Handle}

theorem get? (hr : Reseats t h seat t') : t'.get? k = if k = h then seat else t.get? k := by
  cases hr with
  | same =>
      split
      · rename_i hk
        rw [hk]
      · rfl
  | replaced ha b => exact SlotTable.get?_replace ha
  | removed ha => exact SlotTable.get?_remove ha

theorem kept (hr : Reseats t h seat t') (hk : t.Kept issued) : t'.Kept issued := by
  cases hr with
  | same => exact hk
  | replaced ha b => exact hk.replace ha
  | removed ha => exact hk.remove ha

/-- A value less is occupied exactly if the seat was taken away. -/
theorem occupied (hr : Reseats t h seat t') (hk : t.Kept issued) :
    t'.occupied + (if (t.get? h).isSome then 1 else 0) =
      t.occupied + (if seat.isSome then 1 else 0) := by
  cases hr with
  | same => rfl
  | replaced ha b => simp [SlotTable.replace, ha]
  | removed ha =>
      have hoccupied := (hk.occupied_remove ha).1
      simp only [ha, Option.isSome_some, Option.isSome_none, if_true, Bool.false_eq_true, if_false]
      omega

theorem size_eq (hr : Reseats t h seat t') : t'.slots.size = t.slots.size := by
  cases hr with
  | same => rfl
  | replaced ha b => simp [SlotTable.replace, ha]
  | removed ha => simp [SlotTable.remove_of_get? ha]

end Reseats

namespace Registry

variable {r : Registry} {h : Handle} {x : Service} {c : Call} {w : Caller} {s : Session}
  {code : Int}

/-! ### Entry points that run an act -/

theorem serve_of_refused {α : Type} (act : Act Session α)
    (hv : Service.lacksVariable w (.call c) = false)
    (hr : Service.screen (.call c) w (r.seats.get? h) = .error code) :
    ∃ status : Status, status.code = code ∧ r.serve h w.memory act =
      { status := status, out := .error status, memory := w.memory, registry := r } := by
  rcases Service.screen_eq_error hr with ⟨hv', -⟩ | ⟨-, hnone, rfl⟩ | ⟨-, hm, ha, rfl⟩ |
    ⟨-, hm, -, rfl, a, ha, hp⟩
  · rw [hv] at hv'
    cases hv'
  · exact ⟨.noSession, rfl, by rw [serve, hnone]⟩
  · obtain ⟨a, ha⟩ := Option.isSome_iff_exists.1 ha
    have hm : w.memory = none := Option.isNone_iff_eq_none.1 hm
    exact ⟨.badArgument, rfl, by rw [serve, ha, hm]⟩
  · obtain ⟨m, hm⟩ : ∃ m, w.memory = some m :=
      Option.isSome_iff_exists.1 (by simpa [Service.lacksMemory] using hm)
    exact ⟨.poisoned, rfl, by simp [serve, ha, hm, hp]⟩

section Admitted

variable {α : Type} {act : Act Session α} {a : Seat} {m : Memory} {s' : Session} {m' : Ambient}
  (ha : r.seats.get? h = some a) (hp : a.poisoned = false)
include ha hp

theorem serve_of_ok {b : α} (hact : act.runOn a.session m = ⟨.ok b, s', m'⟩) :
    r.serve h (some m) act =
      { status := .ok, out := .ok b, memory := some m'.memory
        registry := { r with seats := r.seats.replace h { session := s' } }
        journal := m'.journal } := by
  simp [serve, ha, hp, hact]

theorem serve_of_fault {e : Fault} (hact : act.runOn a.session m = ⟨.error e, s', m'⟩) :
    r.serve h (some m) act =
      { status := .faulted, out := .error .faulted, memory := some m'.memory
        registry :=
          { seats := r.seats.replace h { session := s', poisoned := true }
            lastFault := e.message }
        journal := m'.journal.push (.faultCaught e.message) } := by
  simp [serve, ha, hp, hact]

end Admitted

/-- An admitted call has a memory, and a seat that is not poisoned. -/
theorem exists_of_admitted (ha : Service.screen (.call c) w (r.seats.get? h) = .ok s) :
    ∃ a m, r.seats.get? h = some a ∧ a.session = s ∧ a.poisoned = false ∧ w.memory = some m := by
  obtain ⟨-, hm, a, hseat, hs, hp⟩ := Service.screen_eq_ok ha
  obtain ⟨m, hm⟩ : ∃ m, w.memory = some m :=
    Option.isSome_iff_exists.1 (by simpa [Service.lacksMemory] using hm)
  exact ⟨a, m, hseat, hs, hp.resolve_left nofun, hm⟩

/-- A request has this effect, and leaves this of the seat of its handle. -/
structure Does (r : Registry) (h : Handle) (does : Effect × Option Seat)
    (done : Effect × Registry) : Prop where
  effect : done.1 = does.1
  seats : Reseats r.seats h does.2 done.2.seats

theorem serveAddress_of_refused (act : Act Session Addr) (hf : c.func.returnsAddress = true)
    (hr : Service.screen (.call c) w (r.seats.get? h) = .error code) :
    (r.serveAddress h w.memory act w.address).addressing w = (⟨code, w⟩, r) := by
  rcases haddress : w.address with _ | old
  · have hv : Service.lacksVariable w (.call c) = true := by
      simp [Service.lacksVariable, hf, haddress]
    obtain rfl : -2 = code := by simpa [Service.screen, hv] using hr
    simp only [serveAddress, Reply.addressing]
    rw [← haddress]
    rfl
  · have hv : Service.lacksVariable w (.call c) = false := by
      simp [Service.lacksVariable, haddress]
    obtain ⟨status, rfl, hserve⟩ := serve_of_refused act hv hr
    simp only [serveAddress, Reply.addressing, hserve]
    rw [← haddress]

theorem serveDrop_of_refused (act : Act Session (Except Refusal Unit))
    (hf : c.func.returnsAddress = false)
    (hr : Service.screen (.call c) w (r.seats.get? h) = .error code) :
    (r.serveDrop h w.memory act).dropping w = (⟨code, w⟩, r) := by
  have hv : Service.lacksVariable w (.call c) = false := by
    simp [Service.lacksVariable, hf]
  obtain ⟨status, rfl, hserve⟩ := serve_of_refused act hv hr
  simp only [serveDrop, Reply.dropping, hserve]

theorem serveAddress_of_admitted {act : Act Session Addr} (hf : c.func.returnsAddress = true)
    (hc : Session.answer c = do return .ok (some (← act)))
    (ha : Service.screen (.call c) w (r.seats.get? h) = .ok s) :
    r.Does h (Service.work (.call c) w s)
      ((r.serveAddress h w.memory act w.address).addressing w) := by
  have hv := (Service.screen_eq_ok ha).1
  obtain ⟨old, haddress⟩ : ∃ old, w.address = some old :=
    Option.isSome_iff_exists.1 (by simpa [Service.lacksVariable, hf] using hv)
  obtain ⟨a, m, hseat, rfl, hp, hm⟩ := exists_of_admitted ha
  rcases hact : act.runOn a.session m with ⟨e | b, s', m'⟩
  · have hanswer : (Session.answer c).runOn a.session m = ⟨.error e, s', m'⟩ := by
      rw [hc]
      exact Act.bind_of_error hact
    constructor
    · simp [Service.work, serveAddress, Reply.addressing, serve_of_fault hseat hp hact, hm,
        hanswer, haddress, Status.code]
    · simp only [Service.work, serveAddress, Reply.addressing, serve_of_fault hseat hp hact, hm,
        hanswer, haddress, Option.getD_some]
      exact .replaced hseat _
  · have hanswer : (Session.answer c).runOn a.session m = ⟨.ok (.ok (some b)), s', m'⟩ := by
      rw [hc]
      exact Act.bind_of_ok hact
    constructor
    · simp [Service.work, serveAddress, Reply.addressing, serve_of_ok hseat hp hact, hm, hanswer,
        haddress, Status.code]
    · simp only [Service.work, serveAddress, Reply.addressing, serve_of_ok hseat hp hact, hm,
        hanswer, haddress, Option.getD_some]
      exact .replaced hseat _

theorem serveDrop_of_admitted {act : Act Session (Except Refusal Unit)}
    (hc : Session.answer c = do return Session.dropAnswer (← act))
    (ha : Service.screen (.call c) w (r.seats.get? h) = .ok s) :
    r.Does h (Service.work (.call c) w s) ((r.serveDrop h w.memory act).dropping w) := by
  obtain ⟨a, m, hseat, rfl, hp, hm⟩ := exists_of_admitted ha
  rcases hact : act.runOn a.session m with ⟨e | answer, s', m'⟩
  · have hanswer : (Session.answer c).runOn a.session m = ⟨.error e, s', m'⟩ := by
      rw [hc]
      exact Act.bind_of_error hact
    constructor
    · simp [Service.work, serveDrop, Reply.dropping, serve_of_fault hseat hp hact, hm, hanswer,
        Status.code]
    · simp only [Service.work, serveDrop, Reply.dropping, serve_of_fault hseat hp hact, hm,
        hanswer, Option.getD_some]
      exact .replaced hseat _
  · have hanswer : (Session.answer c).runOn a.session m =
        ⟨.ok (Session.dropAnswer answer), s', m'⟩ := by
      rw [hc]
      exact Act.bind_of_ok hact
    have hserve := serve_of_ok hseat hp hact
    rcases answer with cause | ⟨⟩
    · constructor
      · simp [Service.work, serveDrop, Reply.dropping, hserve, hm, hanswer, Session.dropAnswer,
          Status.ofDrop, Status.ofCallError]
      · simp only [Service.work, serveDrop, Reply.dropping, hserve, hm, hanswer,
          Session.dropAnswer, Option.getD_some]
        exact .replaced hseat _
    · constructor
      · simp [Service.work, serveDrop, Reply.dropping, hserve, hm, hanswer, Session.dropAnswer,
          Status.ofDrop, Status.code]
      · simp only [Service.work, serveDrop, Reply.dropping, hserve, hm, hanswer,
          Session.dropAnswer, Option.getD_some]
        exact .replaced hseat _

/-! ### Entry points that look at a session -/

theorem session?_of_refused (hv : x.lacksVariable w = false)
    (hlook : x = .readBounds ∨ x = .readCounters)
    (hr : x.screen w (r.seats.get? h) = .error code) :
    ∃ status : Status, status.code = code ∧ r.session? h = .error status := by
  rcases Service.screen_eq_error hr with ⟨hv', -⟩ | ⟨-, hnone, rfl⟩ | ⟨-, hm, -⟩ |
    ⟨-, -, -, rfl, a, ha, hp⟩
  · rw [hv] at hv'
    cases hv'
  · exact ⟨.noSession, rfl, by rw [session?, hnone]⟩
  · rcases hlook with rfl | rfl <;> cases hm
  · exact ⟨.poisoned, rfl, by simp [session?, ha, hp]⟩

theorem session?_of_admitted (hlook : x = .readBounds ∨ x = .readCounters)
    (ha : x.screen w (r.seats.get? h) = .ok s) :
    r.session? h = .ok s ∧ r.seats.get? h = some { session := s } := by
  obtain ⟨-, -, ⟨session, poisoned⟩, hseat, rfl, hp⟩ := Service.screen_eq_ok ha
  have hp : poisoned = false := hp.resolve_left (by rcases hlook with rfl | rfl <;> nofun)
  subst hp
  exact ⟨by simp [session?, hseat], hseat⟩

theorem readBounds_of_refused (hr : Service.readBounds.screen w (r.seats.get? h) = .error code) :
    r.perform w (.serve h .readBounds) = (⟨code, w⟩, r) := by
  rcases w with ⟨memory, handle, address, _ | start, _ | frontier, snapshot⟩
  case some.some =>
    obtain ⟨status, rfl, hs⟩ := session?_of_refused rfl (Or.inl rfl) hr
    simp only [perform, readBounds, hs]
  all_goals
    cases hr
    rfl

theorem readBounds_of_admitted (ha : Service.readBounds.screen w (r.seats.get? h) = .ok s) :
    r.Does h (Service.readBounds.work w s) (r.perform w (.serve h .readBounds)) := by
  obtain ⟨hs, hseat⟩ := session?_of_admitted (Or.inl rfl) ha
  have hv := (Service.screen_eq_ok ha).1
  rcases w with ⟨memory, handle, address, _ | start, _ | frontier, snapshot⟩
  case some.some =>
    constructor
    · simp only [perform, readBounds, hs, Service.work, Status.code]
    · simp only [perform, readBounds, hs, Service.work, ← hseat]
      exact .same
  all_goals cases hv

theorem readCounters_of_refused
    (hr : Service.readCounters.screen w (r.seats.get? h) = .error code) :
    r.perform w (.serve h .readCounters) = (⟨code, w⟩, r) := by
  rcases w with ⟨memory, handle, address, start, frontier, _ | snapshot⟩
  · cases hr
    rfl
  · obtain ⟨status, rfl, hs⟩ := session?_of_refused rfl (Or.inr rfl) hr
    simp only [perform, readCounters, hs]

theorem readCounters_of_admitted (ha : Service.readCounters.screen w (r.seats.get? h) = .ok s) :
    r.Does h (Service.readCounters.work w s) (r.perform w (.serve h .readCounters)) := by
  obtain ⟨hs, hseat⟩ := session?_of_admitted (Or.inr rfl) ha
  have hv := (Service.screen_eq_ok ha).1
  rcases w with ⟨memory, handle, address, start, frontier, _ | snapshot⟩
  · cases hv
  · constructor
    · simp only [perform, readCounters, hs, Service.work, Status.code]
    · simp only [perform, readCounters, hs, Service.work, ← hseat]
      exact .same

/-! ### All entry points -/

theorem close_of_refused (hr : Service.close.screen w (r.seats.get? h) = .error code) :
    r.perform w (.serve h .close) = (⟨code, w⟩, r) := by
  rcases Service.screen_eq_error hr with ⟨hv, -⟩ | ⟨-, hnone, rfl⟩ | ⟨-, hm, -⟩ | ⟨-, -, hx, -⟩
  · cases hv
  · simp only [perform, closeSession, SlotTable.remove_of_get?_eq_none hnone]
    rfl
  · cases hm
  · exact absurd rfl hx

theorem close_of_admitted (ha : Service.close.screen w (r.seats.get? h) = .ok s) :
    r.Does h (Service.close.work w s) (r.perform w (.serve h .close)) := by
  obtain ⟨-, -, a, hseat, -⟩ := Service.screen_eq_ok ha
  have hremoved := Reseats.removed hseat
  rw [SlotTable.remove_of_get? hseat] at hremoved
  constructor
  · simp only [perform, closeSession, SlotTable.remove_of_get? hseat]
    rfl
  · simp only [perform, closeSession, SlotTable.remove_of_get? hseat]
    exact hremoved

/-- A service that fails a check changes nothing. -/
theorem perform_of_refused (hr : x.screen w (r.seats.get? h) = .error code) :
    r.perform w (.serve h x) = (⟨code, w⟩, r) := by
  cases x with
  | close => exact close_of_refused hr
  | call c =>
      cases c with
      | newObject size => exact serveAddress_of_refused _ rfl hr
      | dropObject a size => exact serveDrop_of_refused _ rfl hr
      | newSlice length element => exact serveAddress_of_refused _ rfl hr
      | dropSlice slice element => exact serveDrop_of_refused _ rfl hr
  | readBounds => exact readBounds_of_refused hr
  | readCounters => exact readCounters_of_refused hr

theorem perform_of_admitted (ha : x.screen w (r.seats.get? h) = .ok s) :
    r.Does h (x.work w s) (r.perform w (.serve h x)) := by
  cases x with
  | close => exact close_of_admitted ha
  | call c =>
      cases c with
      | newObject size => exact serveAddress_of_admitted rfl rfl ha
      | dropObject a size => exact serveDrop_of_admitted rfl ha
      | newSlice length element => exact serveAddress_of_admitted rfl rfl ha
      | dropSlice slice element => exact serveDrop_of_admitted rfl ha
  | readBounds => exact readBounds_of_admitted ha
  | readCounters => exact readCounters_of_admitted ha

theorem perform_serve (r : Registry) (w : Caller) (h : Handle) (x : Service) :
    r.Does h (x.alone w (r.seats.get? h)) (r.perform w (.serve h x)) := by
  cases ha : x.screen w (r.seats.get? h) with
  | error code =>
      rw [Service.alone_of_refused ha, perform_of_refused ha]
      exact ⟨rfl, .same⟩
  | ok s =>
      rw [Service.alone_of_admitted ha]
      exact perform_of_admitted ha

/-! ### Opening -/

theorem perform_create_of_missing {config : Session.Config} (hw : w.handle = none) :
    r.perform w (.create config) = (⟨-2, w⟩, r) := by
  rcases w with ⟨memory, _ | handle, address, start, frontier, snapshot⟩
  · rfl
  · cases hw

theorem perform_create_of_misplaced {config : Session.Config} {old : Handle}
    (hw : w.handle = some old) (hs : Session.opened? config = none) :
    r.perform w (.create config) = (⟨-3, w⟩, r) := by
  rcases w with ⟨memory, handle, address, start, frontier, snapshot⟩
  obtain rfl : handle = some old := hw
  obtain ⟨opened, m', hcreate⟩ := Session.exists_create config () { memory := .zeros 0 }
  have hcreate : (Session.create config : Act Unit _).runOn () (.zeros 0) = ⟨.ok opened, (), m'⟩ :=
    hcreate
  rcases opened with e | s
  · simp only [perform, openSession, hcreate]
    cases e <;> rfl
  · simp [Session.opened?, hcreate] at hs

theorem perform_create_of_opened {config : Session.Config} {old : Handle}
    (hw : w.handle = some old) (hs : Session.opened? config = some s) :
    r.perform w (.create config) =
      (⟨0, { w with handle := some (r.seats.insert { session := s }).1 }⟩,
        { r with seats := (r.seats.insert { session := s }).2 }) := by
  obtain ⟨opened, m', hcreate⟩ := Session.exists_create config () { memory := .zeros 0 }
  have hcreate : (Session.create config : Act Unit _).runOn () (.zeros 0) = ⟨.ok opened, (), m'⟩ :=
    hcreate
  rcases opened with e | s'
  · simp [Session.opened?, hcreate] at hs
  · obtain rfl : s' = s := by simpa [Session.opened?, hcreate] using hs
    simp only [perform, openSession, hw, hcreate]
    rfl

end Registry

end LinearHeap
