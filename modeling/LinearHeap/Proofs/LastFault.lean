/-
  LinearHeap/Proofs/LastFault.lean
  ================================
  **The text of the last fault is exact, and stays.**  A thread crosses the boundary
  to send a request, to ask for the number of sessions, or to recite the text of the
  last fault, which is copied into a buffer of the caller's.

  One step lemma carries all of it: a request either meets no fault, and leaves the
  text alone, or meets one, comes back with −128, and leaves the text of that fault
  (`Registry.heeds_perform`).  So what a thread recites is the text of the fault
  behind its latest −128, however many crossings came since
  (`Thread.Remembers`, `last_fault_remembered`).  `Registry.Recites` says what
  reciting a text comes to, down to the byte that ends it.
-/
import LinearHeap.Proofs.Boundary

namespace LinearHeap

/-! ### The fault behind a request -/

/-- The fault that stopped an act, if one did. -/
def Outcome.fault? {σ α : Type} (o : Outcome σ α) : Option Fault :=
  match o.result with
  | .ok _ => none
  | .error e => some e

/-- Whatever is made of the value of an act, the fault is the act's own. -/
theorem Act.fault?_map {σ α β : Type} (x : Act σ α) (f : α → β) (s : σ) (m : Ambient) :
    ((do return f (← x)) s m).fault? = (x s m).fault? := by
  rcases h : x s m with ⟨e | a, s', m'⟩
  · rw [bind_of_error h]
    rfl
  · rw [bind_of_ok h]
    rfl

/-- The fault that a service meets in the session of a seat: only a call that passes all checks
    gets as far as to meet one. -/
def Service.fault? (x : Service) (w : Caller) (seat : Option Seat) : Option Fault :=
  match x, x.screen w seat with
  | .call c, .ok s => ((Session.answer c).runOn s (w.memory.getD (.zeros 0))).fault?
  | _, _ => none

/-- The fault that a request meets. -/
def Registry.fault? (r : Registry) (w : Caller) : Request → Option Fault
  | .create config =>
      if w.handle.isSome then
        ((Session.create config : Act Unit _).runOn () (.zeros 0)).fault?
      else none
  | .serve h x => x.fault? w (r.seats.get? h)

namespace Service

variable {x : Service} {c : Call} {w : Caller} {seat : Option Seat} {s : Session} {code : Int}

theorem fault?_of_refused (h : x.screen w seat = .error code) : x.fault? w seat = none := by
  unfold fault?
  rw [h]
  cases x <;> rfl

theorem fault?_of_admitted (h : screen (.call c) w seat = .ok s) :
    fault? (.call c) w seat =
      ((Session.answer c).runOn s (w.memory.getD (.zeros 0))).fault? := by
  unfold fault?
  rw [h]

/-- No check is failed with the code of a fault. -/
theorem code_ne_of_refused (h : x.screen w seat = .error code) : code ≠ -128 := by
  rcases screen_eq_error h with ⟨-, rfl⟩ | ⟨-, -, rfl⟩ | ⟨-, -, -, rfl⟩ | ⟨-, -, -, rfl, -⟩
  all_goals decide

/-- A call that was let in comes back with −128 exactly if it met a fault. -/
theorem code_work : ((work (.call c) w s).1.code = -128) ↔
    ((Session.answer c).runOn s (w.memory.getD (.zeros 0))).fault?.isSome = true := by
  rcases h : (Session.answer c).runOn s (w.memory.getD (.zeros 0)) with ⟨fault | err | a, s', m'⟩
  · simp only [work, h, Outcome.fault?, Option.isSome_some]
  · simp only [work, h, Outcome.fault?, Option.isSome_none, Bool.false_eq_true, iff_false]
    exact fun hcode => Status.ofCallError_ne_faulted err (Status.code_injective hcode)
  · simp [work, h, Outcome.fault?]

end Service

/-! ### One request -/

namespace Registry

variable {r : Registry} {h : Handle} {x : Service} {c : Call} {w : Caller} {s : Session}
  {code : Int}

/-- What becomes of the text of the last fault, if a request has met this fault or none. -/
structure Heeds (r : Registry) (met : Option Fault) (done : Effect × Registry) : Prop where
  code : done.1.code = -128 ↔ met.isSome = true
  text : done.2.lastFault = (met.map Fault.message).getD r.lastFault

/-- A request that meets no fault, and leaves the text alone. -/
theorem Heeds.quiet {done : Effect × Registry} (hcode : done.1.code ≠ -128)
    (htext : done.2.lastFault = r.lastFault) : r.Heeds none done where
  code := ⟨fun h => absurd h hcode, nofun⟩
  text := htext

theorem lastFault_serve {α : Type} {act : Act Session α} {a : Seat} {m : Memory}
    (ha : r.seats.get? h = some a) (hp : a.poisoned = false) :
    (r.serve h (some m) act).registry.lastFault =
      ((act.runOn a.session m).fault?.map Fault.message).getD r.lastFault := by
  rcases hact : act.runOn a.session m with ⟨e | b, s', m'⟩
  · rw [serve_of_fault ha hp hact]
    rfl
  · rw [serve_of_ok ha hp hact]
    rfl

theorem registry_serveAddress (act : Act Session Addr) (memory : Option Memory) (old : Addr) :
    (r.serveAddress h memory act (some old)).registry = (r.serve h memory act).registry := by
  unfold serveAddress
  dsimp only
  split <;> rfl

theorem registry_serveDrop (act : Act Session (Except Refusal Unit)) (memory : Option Memory) :
    (r.serveDrop h memory act).registry = (r.serve h memory act).registry := by
  unfold serveDrop
  dsimp only
  split <;> rfl

section Admitted

variable (ha : Service.screen (.call c) w (r.seats.get? h) = .ok s)
include ha

/-- An act that answers a call leaves the text of the fault that the call meets. -/
theorem lastFault_serve_of_admitted {α : Type} {act : Act Session α}
    {f : α → Except CallError (Option Addr)} (hc : Session.answer c = do return f (← act)) :
    (r.serve h w.memory act).registry.lastFault =
      ((Service.fault? (.call c) w (r.seats.get? h)).map Fault.message).getD r.lastFault := by
  obtain ⟨a, m, hseat, rfl, hp, hm⟩ := exists_of_admitted ha
  have hmet : ((Session.answer c).runOn a.session m).fault? = (act.runOn a.session m).fault? := by
    rw [hc]
    exact Act.fault?_map act f _ _
  rw [Service.fault?_of_admitted ha, hm, Option.getD_some, hmet]
  exact lastFault_serve hseat hp

theorem lastFault_serveAddress {act : Act Session Addr} (hf : c.func.returnsAddress = true)
    (hc : Session.answer c = do return .ok (some (← act))) :
    ((r.serveAddress h w.memory act w.address).addressing w).2.lastFault =
      ((Service.fault? (.call c) w (r.seats.get? h)).map Fault.message).getD r.lastFault := by
  have hv := (Service.screen_eq_ok ha).1
  obtain ⟨old, hold⟩ : ∃ old, w.address = some old :=
    Option.isSome_iff_exists.1 (by simpa [Service.lacksVariable, hf] using hv)
  rw [← lastFault_serve_of_admitted ha hc, Reply.addressing, hold]
  exact congrArg lastFault (registry_serveAddress act w.memory old)

theorem lastFault_serveDrop {act : Act Session (Except Refusal Unit)}
    (hc : Session.answer c = do return Session.dropAnswer (← act)) :
    ((r.serveDrop h w.memory act).dropping w).2.lastFault =
      ((Service.fault? (.call c) w (r.seats.get? h)).map Fault.message).getD r.lastFault := by
  rw [← lastFault_serve_of_admitted ha hc, Reply.dropping]
  exact congrArg lastFault (registry_serveDrop act w.memory)

/-- A call that was let in leaves the text of the fault that it met, and else the old one. -/
theorem lastFault_of_admitted :
    (r.perform w (.serve h (.call c))).2.lastFault =
      ((Service.fault? (.call c) w (r.seats.get? h)).map Fault.message).getD r.lastFault := by
  cases c with
  | newObject size => exact lastFault_serveAddress ha rfl rfl
  | dropObject a size => exact lastFault_serveDrop ha rfl
  | newSlice length element => exact lastFault_serveAddress ha rfl rfl
  | dropSlice slice element => exact lastFault_serveDrop ha rfl

end Admitted

/-- Looking at a session, and closing one, leave the text alone. -/
theorem lastFault_perform_of_not_call (hx : ∀ c, x ≠ .call c) :
    (r.perform w (.serve h x)).2.lastFault = r.lastFault := by
  cases x with
  | close =>
      simp only [perform, closeSession]
      split <;> rfl
  | call c => exact absurd rfl (hx c)
  | readBounds =>
      simp only [perform, readBounds]
      split
      · split <;> rfl
      · rfl
  | readCounters =>
      simp only [perform, readCounters]
      split
      · rfl
      · split <;> rfl

theorem heeds_serve (r : Registry) (w : Caller) (h : Handle) (x : Service) :
    r.Heeds (x.fault? w (r.seats.get? h)) (r.perform w (.serve h x)) := by
  cases ha : x.screen w (r.seats.get? h) with
  | error code =>
      rw [Service.fault?_of_refused ha, perform_of_refused ha]
      exact .quiet (Service.code_ne_of_refused ha) rfl
  | ok s =>
      have heffect := (perform_of_admitted ha).effect
      cases x with
      | call c =>
          constructor
          · rw [heffect, Service.code_work, Service.fault?_of_admitted ha]
          · exact lastFault_of_admitted ha
      | close => exact .quiet (by rw [heffect]; nofun) (lastFault_perform_of_not_call nofun)
      | readBounds => exact .quiet (by rw [heffect]; nofun) (lastFault_perform_of_not_call nofun)
      | readCounters =>
          exact .quiet (by rw [heffect]; nofun) (lastFault_perform_of_not_call nofun)

theorem heeds_create (r : Registry) (w : Caller) (config : Session.Config) :
    r.Heeds (r.fault? w (.create config)) (r.perform w (.create config)) := by
  have hmet : r.fault? w (.create config) = none := by
    obtain ⟨opened, m', hcreate⟩ := Session.exists_create config () { memory := .zeros 0 }
    simp only [fault?, Act.runOn, hcreate, Outcome.fault?, ite_self]
  rw [hmet]
  rcases hw : w.handle with _ | old
  · rw [perform_create_of_missing hw]
    exact .quiet nofun rfl
  · rcases hs : Session.opened? config with _ | s
    · rw [perform_create_of_misplaced hw hs]
      exact .quiet nofun rfl
    · rw [perform_create_of_opened hw hs]
      exact .quiet nofun rfl

/-- A request meets no fault and leaves the text alone, or it meets one, comes back with −128,
    and leaves the text of that fault. -/
theorem heeds_perform (r : Registry) (w : Caller) (q : Request) :
    r.Heeds (r.fault? w q) (r.perform w q) := by
  cases q with
  | create config => exact heeds_create r w config
  | serve h x => exact heeds_serve r w h x

end Registry

/-! ### Crossings -/

/-- What a thread crosses the boundary for. -/
inductive Crossing where
  | request (w : Caller) (q : Request)
  /-- How many sessions there are. -/
  | count
  /-- The text of the last fault, into a buffer of this capacity. -/
  | recite (buffer : Option (List UInt8)) (capacity : Nat)

/-- What a thread comes back with. -/
inductive Return where
  | effect (e : Effect)
  | count (n : Nat)
  | text (length : Nat) (buffer : Option (List UInt8))

/-- The number that a call returns. -/
def Return.code : Return → Int
  | .effect e => e.code
  | .count n => n
  | .text length _ => length

namespace Registry

def cross (r : Registry) : Crossing → Return × Registry
  | .request w q => (.effect (r.perform w q).1, (r.perform w q).2)
  | .count => (.count r.sessionCount, r)
  | .recite buffer capacity =>
      (.text r.lastFaultLength (r.lastFaultInto buffer capacity), r)

/-- The fault that a crossing meets. -/
def crossingFault? (r : Registry) : Crossing → Option Fault
  | .request w q => r.fault? w q
  | _ => none

theorem code_cross (r : Registry) (e : Crossing) :
    (r.cross e).1.code = -128 ↔ (r.crossingFault? e).isSome = true := by
  cases e with
  | request w q => exact (heeds_perform r w q).code
  | count =>
      simp only [cross, crossingFault?, Return.code, Option.isSome_none, Bool.false_eq_true,
        iff_false]
      omega
  | recite buffer capacity =>
      simp only [cross, crossingFault?, Return.code, Option.isSome_none, Bool.false_eq_true,
        iff_false]
      omega

theorem lastFault_cross (r : Registry) (e : Crossing) :
    (r.cross e).2.lastFault = ((r.crossingFault? e).map Fault.message).getD r.lastFault := by
  cases e with
  | request w q => exact (heeds_perform r w q).text
  | count => rfl
  | recite buffer capacity => rfl

end Registry

/-! ### Reciting a text -/

theorem length_toList_bytes (bytes : ByteArray) : bytes.toList.length = bytes.size := by
  have hloop : ∀ i r, (ByteArray.toList.loop bytes i r).length = r.length + (bytes.size - i) := by
    intro i r
    fun_induction ByteArray.toList.loop bytes i r with
    | case1 i r hi ih =>
        rw [ih, List.length_cons]
        omega
    | case2 i r hi =>
        rw [List.length_reverse]
        omega
  rw [ByteArray.toList, hloop, List.length_nil]
  omega

/-- A buffer that took a text: as many bytes of it as leave room for one more, then a zero byte,
    and then what was there before. -/
structure Takes (text old new : List UInt8) : Prop where
  length : new.length = old.length
  copied : ∀ i < min text.length (old.length - 1), new[i]? = text[i]?
  ended : new[min text.length (old.length - 1)]? = some 0
  kept : ∀ i > min text.length (old.length - 1), new[i]? = old[i]?

theorem takes_of_room {text old : List UInt8} {room : Nat} (h : old.length = room + 1) :
    Takes text old ((text.take room ++ [0]) ++ old.drop (text.take room ++ [0]).length) := by
  have hlength : (text.take room).length = min text.length (old.length - 1) := by
    rw [List.length_take, h]
    omega
  constructor
  · simp only [List.length_append, List.length_drop, List.length_singleton, hlength]
    omega
  · intro i hi
    rw [List.append_assoc, List.getElem?_append_left (by omega),
      List.getElem?_take_of_lt (by omega)]
  · rw [List.append_assoc, List.getElem?_append_right (by omega), hlength, Nat.sub_self]
    rfl
  · intro i hi
    have hcopied : (text.take room ++ [0]).length ≤ i := by
      rw [List.length_append, hlength, List.length_singleton]
      omega
    rw [List.getElem?_append_right hcopied, List.getElem?_drop, Nat.add_sub_cancel' hcopied]

/-- This is the text that is recited.  Whatever the buffer, its full length comes back, as far as
    the boundary can report it, and the registry is as it was. -/
structure Registry.Recites (r : Registry) (text : String) : Prop where
  /-- A null buffer takes nothing. -/
  null : ∀ capacity,
    r.cross (.recite none capacity) = (.text (min text.utf8ByteSize 2147483647) none, r)
  /-- A buffer without capacity takes nothing. -/
  full : ∀ buffer,
    r.cross (.recite buffer 0) = (.text (min text.utf8ByteSize 2147483647) buffer, r)
  takes : ∀ capacity old, 0 < capacity → old.length = capacity →
    ∃ new, Takes text.toUTF8.toList old new ∧ r.cross (.recite (some old) capacity) =
      (.text (min text.utf8ByteSize 2147483647) (some new), r)
  /-- The length is exact for every text that the boundary can report the length of. -/
  exact : text.utf8ByteSize < 2147483648 → ∀ buffer capacity,
    (r.cross (.recite buffer capacity)).1.code = text.toUTF8.toList.length

theorem Registry.recites (r : Registry) : r.Recites r.lastFault where
  null capacity := rfl
  full buffer := by cases buffer <;> rfl
  takes := by
    intro capacity old hpos hlength
    obtain ⟨room, rfl⟩ := Nat.exists_eq_add_of_lt hpos
    rw [Nat.zero_add] at hlength ⊢
    exact ⟨_, takes_of_room hlength, rfl⟩
  exact := by
    intro hsize buffer capacity
    have hlength : r.lastFault.toUTF8.toList.length = r.lastFault.utf8ByteSize :=
      length_toList_bytes _
    have hmin : r.lastFaultLength = r.lastFault.utf8ByteSize := Nat.min_eq_left (by
      rw [lengthLimit]
      omega)
    rw [hlength, ← hmin]
    rfl

/-! ### A thread -/

/-- A crossing with what came of it, and the fault that it met. -/
structure Exchange where
  crossing : Crossing
  returned : Return
  met : Option Fault

/-- A thread at the boundary: the registry, and all its crossings, the latest first. -/
structure Thread where
  registry : Registry := {}
  log : List Exchange := []

namespace Thread

def step (t : Thread) (e : Crossing) : Thread where
  registry := (t.registry.cross e).2
  log := ⟨e, (t.registry.cross e).1, t.registry.crossingFault? e⟩ :: t.log

def run (t : Thread) (es : List Crossing) : Thread := es.foldl step t

/-- What a thread recites is the text of the fault behind its latest −128. -/
structure Remembers (t : Thread) : Prop where
  /-- A crossing comes back with −128 exactly if a fault stopped it. -/
  faulted : ∀ x ∈ t.log, x.returned.code = -128 ↔ x.met.isSome = true
  /-- As long as none did, the text is empty. -/
  silent : (∀ x ∈ t.log, x.returned.code ≠ -128) → t.registry.Recites ""
  /-- Nothing that came since the latest one that did makes a difference. -/
  latest : ∀ since x before, t.log = since ++ x :: before → x.returned.code = -128 →
    (∀ y ∈ since, y.returned.code ≠ -128) →
    ∃ e, x.met = some e ∧ t.registry.Recites e.message

/-- The text of the latest fault in a record, and the empty text if there is none. -/
def lastText : List Exchange → String
  | [] => ""
  | x :: before => (x.met.map Fault.message).getD (lastText before)

/-- What every step keeps: the registry has the text of the latest fault in the record. -/
structure Recorded (t : Thread) : Prop where
  faulted : ∀ x ∈ t.log, x.returned.code = -128 ↔ x.met.isSome = true
  text : t.registry.lastFault = lastText t.log

variable {t : Thread} {since : List Exchange}

theorem lastText_of_silent (before : List Exchange) (h : ∀ y ∈ since, y.met = none) :
    lastText (since ++ before) = lastText before := by
  induction since with
  | nil => rfl
  | cons y since ih =>
      rw [List.cons_append, lastText, h y List.mem_cons_self]
      exact ih fun z hz => h z (List.mem_cons_of_mem y hz)

theorem recorded_empty : Recorded {} where
  faulted := by
    intro x hx
    cases hx
  text := rfl

theorem Recorded.step (h : t.Recorded) (e : Crossing) : (t.step e).Recorded where
  faulted := by
    intro x hx
    rcases List.mem_cons.1 hx with rfl | hx
    · exact Registry.code_cross t.registry e
    · exact h.faulted x hx
  text := by
    show (t.registry.cross e).2.lastFault = _
    rw [Registry.lastFault_cross, h.text]
    rfl

theorem Recorded.run (h : t.Recorded) (es : List Crossing) : (t.run es).Recorded := by
  induction es generalizing t with
  | nil => exact h
  | cons e es ih => exact ih (h.step e)

theorem Recorded.met_eq_none (h : t.Recorded) {y : Exchange} (hy : y ∈ t.log)
    (hcode : y.returned.code ≠ -128) : y.met = none := by
  rw [ne_eq, h.faulted y hy] at hcode
  simpa using hcode

theorem Recorded.remembers (h : t.Recorded) : t.Remembers where
  faulted := h.faulted
  silent := by
    intro hnone
    have htext : t.registry.lastFault = "" := by
      have hsilent := lastText_of_silent [] fun y hy => h.met_eq_none hy (hnone y hy)
      rw [h.text, ← List.append_nil t.log, hsilent]
      rfl
    rw [← htext]
    exact t.registry.recites
  latest := by
    intro since x before hlog hcode hsince
    have hmem : ∀ y ∈ since, y ∈ t.log := by
      intro y hy
      rw [hlog]
      exact List.mem_append_left _ hy
    have hx : x ∈ t.log := by
      rw [hlog]
      exact List.mem_append_right _ List.mem_cons_self
    obtain ⟨e, he⟩ := Option.isSome_iff_exists.1 ((h.faulted x hx).1 hcode)
    refine ⟨e, he, ?_⟩
    have htext : t.registry.lastFault = e.message := by
      have hsilent := lastText_of_silent (x :: before) fun y hy =>
        h.met_eq_none (hmem y hy) (hsince y hy)
      rw [h.text, hlog, hsilent, lastText, he]
      rfl
    rw [← htext]
    exact t.registry.recites

end Thread

/-- After every sequence of crossings a thread remembers exactly the latest fault. -/
theorem last_fault_remembered (es : List Crossing) : (Thread.run {} es).Remembers :=
  (Thread.recorded_empty.run es).remembers

/-- A session is poisoned by the first fault, and the calls that follow are turned away; the
    text stays. -/
example :
    let w : Caller := { memory := some (.zeros 8), handle := some ⟨0, 0⟩, address := some 0 }
    let t := Thread.run {} [.request w (.create {}),
      .request w (.serve ⟨0, 0⟩ (.call (.newObject 8))),
      .request w (.serve ⟨0, 0⟩ (.call (.newObject 4))), .request w (.serve ⟨9, 0⟩ .close)]
    t.log.map (fun x => x.returned.code) = [-1, -20, -128, 0] ∧
      t.registry.lastFaultInto (some [1, 1, 1, 1, 1]) 5 = some [119, 105, 108, 100, 0] := by
  decide +kernel

end LinearHeap
