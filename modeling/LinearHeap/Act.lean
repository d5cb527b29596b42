/-
  LinearHeap/Act.lean
  ===================
  **Operations that may fault halfway.**  An act works on a state of its own (a
  free list, a heap, a session) and on what all of them share: the guest's
  memory, a meter of the words moved, and the journal.  A fault ends an act
  without undoing it, so the outcome of an act always carries the state that was
  reached, beside the value or the fault.

  `load` and `store` are the only acts that touch memory; each moves one word on
  the meter even when its word lies outside memory.  `within` runs an act on one
  part of a larger state.
-/
import LinearHeap.Fault
import LinearHeap.Memory
import LinearHeap.Event

namespace LinearHeap

/-- The words moved so far.  The meter is unbounded; one of 64 bits shows the same until it reaches
    `Word.countBound`. -/
structure Traffic where
  reads : Nat := 0
  writes : Nat := 0
  deriving DecidableEq, Repr

structure Ambient where
  memory : Memory
  traffic : Traffic := {}
  /-- The events noted so far, oldest first. -/
  journal : Array Event := #[]

namespace Ambient

def countRead (m : Ambient) : Ambient :=
  { m with traffic := { m.traffic with reads := m.traffic.reads + 1 } }

def countWrite (m : Ambient) : Ambient :=
  { m with traffic := { m.traffic with writes := m.traffic.writes + 1 } }

def countReads (m : Ambient) : Nat → Ambient
  | 0 => m
  | n + 1 => m.countRead.countReads n

@[simp] theorem memory_countRead (m : Ambient) : m.countRead.memory = m.memory := rfl

@[simp] theorem memory_countWrite (m : Ambient) : m.countWrite.memory = m.memory := rfl

theorem countReads_eq (m : Ambient) (n : Nat) :
    m.countReads n = { m with traffic := { m.traffic with reads := m.traffic.reads + n } } := by
  induction n generalizing m with
  | zero => rfl
  | succ n ih => simp [countReads, ih, countRead, Nat.add_assoc, Nat.add_comm 1 n]

end Ambient

/-- What an act leaves behind: a value or the fault that stopped it, and the state reached. -/
structure Outcome (σ α : Type) where
  result : Except Fault α
  own : σ
  ambient : Ambient

/-- An operation on a state `σ` and the ambient. -/
def Act (σ α : Type) : Type := σ → Ambient → Outcome σ α

namespace Act

variable {σ τ α β γ : Type}

@[always_inline, inline] def done (a : α) : Act σ α := fun s m => ⟨.ok a, s, m⟩

/-- Runs an act and, if it did not fault, goes on with its value. -/
@[always_inline, inline] def andThen (x : Act σ α) (f : α → Act σ β) : Act σ β := fun s m =>
  match x s m with
  | ⟨.ok a, s', m'⟩ => f a s' m'
  | ⟨.error e, s', m'⟩ => ⟨.error e, s', m'⟩

instance : Monad (Act σ) where
  pure := done
  bind := andThen

@[inline] def fault (e : Fault) : Act σ α := fun s m => ⟨.error e, s, m⟩

@[inline] def check : Except Fault α → Act σ α
  | .ok a => done a
  | .error e => fault e

instance : MonadLift (Except Fault) (Act σ) where
  monadLift := check

/-! ### The act's own state -/

@[inline] def own : Act σ σ := fun s m => ⟨.ok s, s, m⟩

@[inline] def update (f : σ → σ) : Act σ Unit := fun s m => ⟨.ok (), f s, m⟩

/-- A part of a larger state: how to read it and how to replace it. -/
structure Part (τ σ : Type) where
  get : τ → σ
  set : τ → σ → τ

/-- Runs an act on one part of a larger state.  The part keeps what a faulting act did. -/
@[inline] def within (p : Part τ σ) (x : Act σ α) : Act τ α := fun t m =>
  match x (p.get t) m with
  | ⟨r, s, m'⟩ => ⟨r, p.set t s, m'⟩

/-! ### The ambient -/

def note (e : Event) : Act σ Unit := fun s m =>
  ⟨.ok (), s, { m with journal := m.journal.push e }⟩

def memorySize : Act σ Nat := fun s m => ⟨.ok m.memory.size, s, m⟩

/-- Cuts or extends the memory to `n` bytes; the owner of the memory does this, not the heap. -/
def resize (n : Nat) : Act σ Unit := fun s m =>
  ⟨.ok (), s, { m with memory := m.memory.resize n }⟩

def load (a : Addr) : Act σ Word := fun s m =>
  match m with
  | ⟨memory, ⟨reads, writes⟩, journal⟩ =>
      match memory.load? a with
      | some w => ⟨.ok w, s, ⟨memory, ⟨reads + 1, writes⟩, journal⟩⟩
      | none =>
          ⟨.error (.wordOutside a memory.size), s, ⟨memory, ⟨reads + 1, writes⟩, journal⟩⟩

def store (a : Addr) (w : Word) : Act σ Unit := fun s m =>
  match m with
  | ⟨memory, ⟨reads, writes⟩, journal⟩ =>
      if memory.HasWord a then
        ⟨.ok (), s, ⟨memory.store a w, ⟨reads, writes + 1⟩, journal⟩⟩
      else ⟨.error (.wordOutside a memory.size), s, ⟨memory, ⟨reads, writes + 1⟩, journal⟩⟩

/-- Runs an act on a memory, with the meter at zero and an empty journal. -/
def runOn (x : Act σ α) (s : σ) (memory : Memory) : Outcome σ α := x s { memory := memory }

/-! ### Laws -/

theorem bind_eq (x : Act σ α) (f : α → Act σ β) (s : σ) (m : Ambient) :
    (x >>= f) s m = match x s m with
      | ⟨.ok a, s', m'⟩ => f a s' m'
      | ⟨.error e, s', m'⟩ => ⟨.error e, s', m'⟩ := rfl

@[simp] theorem pure_eq (a : α) (s : σ) (m : Ambient) :
    (pure a : Act σ α) s m = ⟨.ok a, s, m⟩ := rfl

theorem bind_of_ok {x : Act σ α} {f : α → Act σ β} {s s' : σ} {m m' : Ambient} {a : α}
    (h : x s m = ⟨.ok a, s', m'⟩) : (x >>= f) s m = f a s' m' := by
  simp [bind_eq, h]

theorem bind_of_error {x : Act σ α} {f : α → Act σ β} {s s' : σ} {m m' : Ambient} {e : Fault}
    (h : x s m = ⟨.error e, s', m'⟩) : (x >>= f) s m = ⟨.error e, s', m'⟩ := by
  simp [bind_eq, h]

theorem bind_pure_unit (x : Act σ α) : (x >>= pure) = x := by
  funext s m
  rcases h : x s m with ⟨_ | a, s', m'⟩ <;> simp [bind_eq, h]

theorem bind_assoc (x : Act σ α) (f : α → Act σ β) (g : β → Act σ γ) :
    ((x >>= f) >>= g) = (x >>= fun a => f a >>= g) := by
  funext s m
  rcases h : x s m with ⟨_ | a, s', m'⟩ <;> simp [bind_eq, h]

instance : LawfulMonad (Act σ) :=
  LawfulMonad.mk' (Act σ) (fun x => bind_pure_unit x) (fun _ _ => rfl)
    (fun x f g => bind_assoc x f g)

theorem load_of_some {a : Addr} {s : σ} {m : Ambient} {w : Word} (h : m.memory.load? a = some w) :
    (load a : Act σ Word) s m = ⟨.ok w, s, m.countRead⟩ := by
  rcases m with ⟨memory, ⟨reads, writes⟩, journal⟩
  simp_all [load, Ambient.countRead]

/-- A word outside memory is not read, but it was asked for. -/
theorem load_of_none {a : Addr} {s : σ} {m : Ambient} (h : m.memory.load? a = none) :
    (load a : Act σ Word) s m =
      ⟨.error (.wordOutside a m.memory.size), s, m.countRead⟩ := by
  rcases m with ⟨memory, ⟨reads, writes⟩, journal⟩
  simp_all [load, Ambient.countRead]

theorem store_of_hasWord {a : Addr} {w : Word} {s : σ} {m : Ambient} (h : m.memory.HasWord a) :
    (store a w : Act σ Unit) s m =
      ⟨.ok (), s, { m.countWrite with memory := m.memory.store a w }⟩ := by
  rcases m with ⟨memory, ⟨reads, writes⟩, journal⟩
  simp_all [store, Ambient.countWrite]

/-- A word outside memory is not written, but it was asked for. -/
theorem store_of_not_hasWord {a : Addr} {w : Word} {s : σ} {m : Ambient}
    (h : ¬ m.memory.HasWord a) :
    (store a w : Act σ Unit) s m =
      ⟨.error (.wordOutside a m.memory.size), s, m.countWrite⟩ := by
  rcases m with ⟨memory, ⟨reads, writes⟩, journal⟩
  simp_all [store, Ambient.countWrite]

end Act

end LinearHeap
