/-
  LinearHeap/Proofs/Visits.lean
  =============================
  **A guest that may do anything a session lets it do.**  It calls the four
  functions with any words at all, and writes into whatever payload is out,
  records of slices included.  A visit is the session and its memory, together
  with the addresses that are out and every address that was ever handed out or
  taken back.

  `Safe` is what a ledger is kept for: chains that end and hold nothing that is
  out, blocks that do not overlap, and no address handed out twice or taken back
  twice in a row.  One drop is not refused and destroys it: of a slice whose
  record names itself as its content (`Doubles`).
-/
import LinearHeap.Session.Basic
import LinearHeap.Proofs.Tenancy

namespace LinearHeap

structure Visit where
  session : Session
  ambient : Ambient
  /-- Payload addresses that are out. -/
  live : List Addr := []
  /-- All payload addresses handed out so far, each as often as it was. -/
  handed : List Addr := []
  /-- All payload addresses taken back so far, each as often as it was. -/
  returned : List Addr := []

inductive Turn where
  | call (c : Call)
  /-- The guest writes, and memory is `after` from then on. -/
  | write (after : Memory)
  /-- Memory grows to `after`. -/
  | grow (after : Memory)

namespace Visit

def memory (s : Visit) : Memory := s.ambient.memory

/-- A new session, with nothing handed out. -/
def opened (session : Session) (m : Ambient) : Visit := { session := session, ambient := m }

/-! ### One turn -/

def outcome (s : Visit) (c : Call) : Outcome Session (Except CallError (Option Addr)) :=
  Session.answer c s.session s.ambient

def accepts (s : Visit) (c : Call) : Bool :=
  match (s.outcome c).result with
  | .ok (.ok _) => true
  | _ => false

/-- Payload addresses that the turn takes out; a record whose content was refused is one. -/
def taken (s : Visit) : Turn → List Addr
  | .call (.newObject size) =>
      match (Heap.allocate size s.session.heap s.ambient).result with
      | .ok a => [a]
      | .error _ => []
  | .call (.newSlice length element) =>
      Heap.sliceBlocks length element s.session.heap s.ambient
  | _ => []

/-- Payload addresses that the turn frees: an accepted drop of a slice frees what its record
    names, and the record. -/
def released (s : Visit) : Turn → List Addr
  | .call (.dropObject a size) => if s.accepts (.dropObject a size) then [a] else []
  | .call (.dropSlice handle element) =>
      if s.accepts (.dropSlice handle element) then
        match s.memory.load? handle with
        | some data => [data, handle]
        | none => []
      else []
  | _ => []

def after (s : Visit) : Turn → Session × Ambient
  | .call c => ((s.outcome c).own, (s.outcome c).ambient)
  | .write after | .grow after => (s.session, { s.ambient with memory := after })

def step (s : Visit) (t : Turn) : Visit where
  session := (s.after t).1
  ambient := (s.after t).2
  live := s.taken t ++ s.live.filter (· ∉ s.released t)
  handed := s.taken t ++ s.handed
  returned := s.released t ++ s.returned

def Writable (s : Visit) (i : Nat) : Prop := ∃ a ∈ s.live, s.memory.InPayload a i

instance (s : Visit) : DecidablePred s.Writable := fun i =>
  inferInstanceAs (Decidable (∃ a ∈ s.live, s.memory.InPayload a i))

def Allows (s : Visit) : Turn → Prop
  | .call _ => True
  | .write after => s.memory.Written s.Writable after
  | .grow after => s.memory.Grown after

instance (s : Visit) : DecidablePred s.Allows
  | .call _ => inferInstanceAs (Decidable True)
  | .write after => inferInstanceAs (Decidable (s.memory.Written s.Writable after))
  | .grow after => inferInstanceAs (Decidable (s.memory.Grown after))

/-- A drop of a slice is accepted although the record names itself as its content. -/
def Doubles (s : Visit) : Turn → Prop
  | .call (.dropSlice handle element) =>
      s.accepts (.dropSlice handle element) = true ∧ s.memory.load? handle = some handle
  | _ => False

instance (s : Visit) : DecidablePred s.Doubles
  | .call (.dropSlice handle element) =>
      inferInstanceAs (Decidable (s.accepts (.dropSlice handle element) = true ∧
        s.memory.load? handle = some handle))
  | .call (.newObject _) | .call (.dropObject ..) | .call (.newSlice ..) | .write _ | .grow _ =>
      inferInstanceAs (Decidable False)

/-! ### Runs -/

def run (s : Visit) (ts : List Turn) : Visit := ts.foldl step s

def Lawful (s : Visit) : List Turn → Prop
  | [] => True
  | t :: ts => s.Allows t ∧ (s.step t).Lawful ts

def decidableLawful (s : Visit) : (ts : List Turn) → Decidable (s.Lawful ts)
  | [] => inferInstanceAs (Decidable True)
  | t :: ts =>
      have := (s.step t).decidableLawful ts
      inferInstanceAs (Decidable (s.Allows t ∧ (s.step t).Lawful ts))

instance (s : Visit) : DecidablePred s.Lawful := s.decidableLawful

/-- No turn of the run doubles. -/
def NeverDoubles (s : Visit) : List Turn → Prop
  | [] => True
  | t :: ts => ¬ s.Doubles t ∧ (s.step t).NeverDoubles ts

def decidableNeverDoubles (s : Visit) : (ts : List Turn) → Decidable (s.NeverDoubles ts)
  | [] => inferInstanceAs (Decidable True)
  | t :: ts =>
      have := (s.step t).decidableNeverDoubles ts
      inferInstanceAs (Decidable (¬ s.Doubles t ∧ (s.step t).NeverDoubles ts))

instance (s : Visit) : DecidablePred s.NeverDoubles := s.decidableNeverDoubles

/-! ### What drops release -/

section Released

variable {s : Visit} {session : Session} {m : Ambient} {answer : Option Addr}

theorem accepts_of_ok {c : Call} (hcall : s.outcome c = ⟨.ok (.ok answer), session, m⟩) :
    s.accepts c = true := by
  rw [accepts, hcall]

theorem not_accepts_of_refused {c : Call} {e : CallError}
    (hcall : s.outcome c = ⟨.ok (.error e), session, m⟩) : s.accepts c = false := by
  rw [accepts, hcall]

theorem released_dropObject {a : Addr} {size : Word}
    (hcall : s.outcome (.dropObject a size) = ⟨.ok (.ok answer), session, m⟩) :
    s.released (.call (.dropObject a size)) = [a] := by
  simp only [released, accepts_of_ok hcall, if_true]

theorem released_dropSlice {handle data : Addr} {element : Word}
    (hcall : s.outcome (.dropSlice handle element) = ⟨.ok (.ok answer), session, m⟩)
    (hload : s.memory.load? handle = some data) :
    s.released (.call (.dropSlice handle element)) = [data, handle] := by
  simp only [released, accepts_of_ok hcall, if_true, hload]

end Released

/-! ### Safety -/

structure Safe (s : Visit) : Prop where
  /-- Every chain ends, passes no block twice and no block that is out. -/
  chains : ∀ k, ∃ bs, FreeChain.Linked s.memory (s.session.heap.chainHead k) bs ∧ bs.Nodup ∧
    ∀ b ∈ bs, ∀ a ∈ s.live, Block.ofPayload a ≠ .ok b
  headers : ∀ a ∈ s.live, (s.memory.sizeAt? a).isSome
  apart : ∀ a ∈ s.live, ∀ b ∈ s.live, a ≠ b → ∀ i, s.memory.InBlock a i → ¬ s.memory.InBlock b i
  nodup : s.live.Nodup
  /-- Between two hand-outs of an address it is taken back exactly once. -/
  alternating : ∀ a, s.returned.count a ≤ s.handed.count a ∧
    s.handed.count a ≤ s.returned.count a + 1

end Visit

/-! ### Opening -/

/-- A heap that was created inside the memory is the one that is created whatever the memory. -/
theorem Heap.create_of_createInside {σ : Type} {requested : Addr} {s s' : σ} {m m' : Ambient}
    {h : Heap} (hc : Heap.createInside requested s m = ⟨.ok (.ok h), s', m'⟩) :
    Heap.create requested s m = ⟨.ok (.ok h), s', m'⟩ := by
  have hsize : (Act.memorySize : Act σ Nat) s m = ⟨.ok m.memory.size, s, m⟩ := rfl
  rw [Heap.createInside, Act.bind_of_ok hsize] at hc
  cases hcheck : Placement.check requested m.memory.size with
  | error e =>
      rw [hcheck] at hc
      cases hc
  | ok start =>
      rw [hcheck] at hc
      exact hc

namespace Session

variable {σ : Type} {config : Config} {s s' : σ} {m m' : Ambient} {session : Session}

theorem create_of_createInside
    (hc : createInside config s m = ⟨.ok (.ok session), s', m'⟩) :
    create config s m = ⟨.ok (.ok session), s', m'⟩ := by
  rcases hinside : Heap.createInside config.start s m with ⟨_ | _ | h, s₁, m₁⟩
  · rw [createInside, Act.bind_of_error hinside] at hc
    cases hc
  · rw [createInside, Act.bind_of_ok hinside] at hc
    cases hc
  · rw [createInside, Act.bind_of_ok hinside] at hc
    rw [create, Act.bind_of_ok (Heap.create_of_createInside hinside)]
    exact hc

/-- A session that was opened has an empty heap at an aligned start, and a ledger if it was to
    keep one; memory is untouched. -/
theorem create_eq_ok (hc : create config s m = ⟨.ok (.ok session), s', m'⟩) :
    session.heap = Heap.empty session.heap.start ∧ session.heap.start.toNat % 4 = 0 ∧
      session.ledger = (if config.tracking then some {} else none) ∧ m'.memory = m.memory := by
  rcases hcreate : Heap.create config.start s m with ⟨_ | _ | h, s₁, m₁⟩
  · rw [create, Act.bind_of_error hcreate] at hc
    cases hc
  · rw [create, Act.bind_of_ok hcreate] at hc
    cases hc
  · rw [create, Act.bind_of_ok hcreate] at hc
    obtain ⟨hempty, haligned, hmem⟩ := Heap.create_eq_ok hcreate
    cases hc
    exact ⟨hempty, haligned, rfl, hmem⟩

end Session

end LinearHeap
