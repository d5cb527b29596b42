/-
  LinearHeap/Memory.lean
  ======================
  **Linear memory: bytes addressed by 32-bit offsets.**  The heap owns no memory;
  each operation works on the memory it is handed.  A word may lie at any offset,
  aligned or not, and is in range exactly when its four bytes are, computed
  without wrapping: the last word of a memory of `n` bytes starts at `n - 4`.

  `byte?` is the view through which everything else is stated: what a store
  changes, what growth adds, and which bytes differ between two memories.
-/
import LinearHeap.Word

namespace LinearHeap

structure Memory where
  bytes : ByteArray

namespace Memory

def size (m : Memory) : Nat := m.bytes.size

def byte? (m : Memory) (i : Nat) : Option UInt8 := m.bytes[i]?

def zeros (n : Nat) : Memory := ⟨⟨Array.replicate n 0⟩⟩

/-! ### Words -/

/-- All four bytes of the word at `a` lie inside the memory. -/
def HasWord (m : Memory) (a : Addr) : Prop := a.toNat + 4 ≤ m.bytes.size

instance (m : Memory) (a : Addr) : Decidable (m.HasWord a) :=
  inferInstanceAs (Decidable (a.toNat + 4 ≤ m.bytes.size))

def load? (m : Memory) (a : Addr) : Option Word :=
  if h : a.toNat + 4 ≤ m.bytes.size then
    some (Word.ofBytes m.bytes[a.toNat] m.bytes[a.toNat + 1] m.bytes[a.toNat + 2]
      m.bytes[a.toNat + 3])
  else none

/-- The memory with the bytes of `w` at `a`; bytes past the end are dropped. -/
def store (m : Memory) (a : Addr) (w : Word) : Memory :=
  let i := a.toNat
  ⟨(((m.bytes.set! i (Word.byte w 0)).set! (i + 1) (Word.byte w 1)).set! (i + 2)
    (Word.byte w 2)).set! (i + 3) (Word.byte w 3)⟩

/-! ### Size -/

def take (m : Memory) (n : Nat) : Memory := ⟨m.bytes.extract 0 n⟩

/-- The memory with its first bytes replaced by all of `part`. -/
def overlay (m part : Memory) : Memory :=
  ⟨part.bytes ++ m.bytes.extract part.size m.size⟩

/-- The memory cut or extended with zeros to exactly `n` bytes. -/
def resize (m : Memory) (n : Nat) : Memory :=
  if n ≤ m.size then m.take n else ⟨m.bytes ++ (zeros (n - m.size)).bytes⟩

/-! ### Differences -/

/-- The maximal runs of bytes below offset `i` of `after` that differ from `before`, each
    with its offset, in front of the runs already found from `i` on. -/
def changesBelow (before after : Memory) :
    Nat → List (Nat × List UInt8) → List (Nat × List UInt8)
  | 0, runs => runs
  | i + 1, runs =>
      let new := (after.byte? i).getD 0
      if (before.byte? i).getD 0 = new then changesBelow before after i runs
      else match runs with
        | (start, run) :: rest =>
            if start = i + 1 then changesBelow before after i ((i, new :: run) :: rest)
            else changesBelow before after i ((i, [new]) :: runs)
        | [] => changesBelow before after i [(i, [new])]

/-- The maximal runs of changed bytes, in ascending order, each with its new bytes.  A byte
    that growth added counts as having been zero; one that a cut removed is not reported. -/
def changes (before after : Memory) : List (Nat × List UInt8) :=
  changesBelow before after after.size []

/-! ### Laws of word access

Every law follows from two views of the bytes: what a load reads (`load?_eq_some_iff`) and
what a store leaves behind (`byte?_store`). -/

theorem byte?_eq (m : Memory) (i : Nat) : m.byte? i = m.bytes.data[i]? := by
  simp only [byte?, getElem?_def]
  rfl

theorem byte?_isSome_iff {m : Memory} {i : Nat} : (m.byte? i).isSome ↔ i < m.size := by
  simp [byte?_eq, size]

theorem hasWord_iff {m : Memory} {a : Addr} : m.HasWord a ↔ a.toNat + 4 ≤ m.size := Iff.rfl

theorem load?_eq_none_iff {m : Memory} {a : Addr} : m.load? a = none ↔ ¬ m.HasWord a := by
  simp only [load?, HasWord]
  split <;> simp_all

/-- The word that is read is the word whose bytes lie there. -/
theorem load?_eq_some_iff {m : Memory} {a : Addr} {w : Word} :
    m.load? a = some w ↔ ∀ k < 4, m.byte? (a.toNat + k) = some (Word.byte w k) := by
  constructor
  · intro h
    simp only [load?] at h
    split at h
    · rename_i hs
      simp only [Option.some.injEq] at h
      subst h
      obtain ⟨e₀, e₁, e₂, e₃⟩ := Word.byte_ofBytes m.bytes[a.toNat] m.bytes[a.toNat + 1]
        m.bytes[a.toNat + 2] m.bytes[a.toNat + 3]
      intro k hk
      match k, hk with
      | 0, _ => rw [e₀]; exact getElem?_pos m.bytes _ (by omega)
      | 1, _ => rw [e₁]; exact getElem?_pos m.bytes _ (by omega)
      | 2, _ => rw [e₂]; exact getElem?_pos m.bytes _ (by omega)
      | 3, _ => rw [e₃]; exact getElem?_pos m.bytes _ (by omega)
    · cases h
  · intro h
    have hs : a.toNat + 4 ≤ m.bytes.size := by
      have h₃ := byte?_isSome_iff.1 (Option.isSome_of_eq_some (h 3 (by omega)))
      simp only [size] at h₃
      omega
    have get (k : Nat) (hk : k < 4) :
        getElem m.bytes (a.toNat + k) (by omega) = Word.byte w k := by
      have hb := h k hk
      rw [byte?, getElem?_pos m.bytes _ (by omega)] at hb
      exact Option.some.inj hb
    simp only [load?, hs, dif_pos, Option.some.injEq]
    rw [get 1 (by omega), get 2 (by omega), get 3 (by omega)]
    have g₀ := get 0 (by omega)
    simp only [Nat.add_zero] at g₀
    rw [g₀, Word.ofBytes_byte]

theorem data_store (m : Memory) (a : Addr) (w : Word) :
    (m.store a w).bytes.data =
      (((m.bytes.data.setIfInBounds a.toNat (Word.byte w 0)).setIfInBounds (a.toNat + 1)
        (Word.byte w 1)).setIfInBounds (a.toNat + 2) (Word.byte w 2)).setIfInBounds (a.toNat + 3)
        (Word.byte w 3) := rfl

@[simp] theorem size_store (m : Memory) (a : Addr) (w : Word) : (m.store a w).size = m.size := by
  show (m.store a w).bytes.data.size = m.bytes.data.size
  simp only [data_store, Array.size_setIfInBounds]

/-- A store changes the four bytes of its word and no other. -/
theorem byte?_store {m : Memory} {a : Addr} {w : Word} (h : m.HasWord a) (i : Nat) :
    (m.store a w).byte? i =
      if a.toNat ≤ i ∧ i < a.toNat + 4 then some (Word.byte w (i - a.toNat)) else m.byte? i := by
  have hs : a.toNat + 4 ≤ m.bytes.size := h
  simp only [byte?_eq, data_store, Array.getElem?_setIfInBounds]
  by_cases hi : a.toNat ≤ i ∧ i < a.toNat + 4
  · obtain ⟨k, rfl⟩ := Nat.exists_eq_add_of_le hi.1
    have hk : k < 4 := by omega
    match k, hk with
    | 0, _ => simp; omega
    | 1, _ => simp; omega
    | 2, _ => simp; omega
    | 3, _ => simp; omega
  · have e₀ : a.toNat ≠ i := by omega
    have e₁ : a.toNat + 1 ≠ i := by omega
    have e₂ : a.toNat + 2 ≠ i := by omega
    have e₃ : a.toNat + 3 ≠ i := by omega
    simp [hi, e₀, e₁, e₂, e₃]

theorem load?_store {m : Memory} {a : Addr} {w : Word} (h : m.HasWord a) :
    (m.store a w).load? a = some w := by
  refine load?_eq_some_iff.2 fun k hk => ?_
  rw [byte?_store h, if_pos ⟨by omega, by omega⟩, Nat.add_sub_cancel_left]

theorem load?_store_of_disjoint {m : Memory} {a b : Addr} {w : Word} (h : m.HasWord a)
    (hd : a.toNat + 4 ≤ b.toNat ∨ b.toNat + 4 ≤ a.toNat) :
    (m.store a w).load? b = m.load? b := by
  refine Option.ext fun v => ?_
  simp only [load?_eq_some_iff]
  refine forall_congr' fun k => forall_congr' fun hk => ?_
  rw [byte?_store h, if_neg (by omega)]

end Memory

end LinearHeap
