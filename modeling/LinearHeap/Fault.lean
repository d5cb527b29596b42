/-
  LinearHeap/Fault.lean
  =====================
  **What can stop an operation.**  A fault is fatal to the operation that meets
  it: whatever the operation had done so far stays done, and it returns no value.
  There is one cause per constructor; `Fault.message` holds every wording.

  Sums and products of words and counts are checked: `Word.sum` and the count
  totals fault where the result would leave its range.  A heap is specified so:
  an overflow of 32 bits is as fatal as an access outside memory.  That every sum
  of words is checked is therefore an assumption about the build.  A heap built
  with its overflow checks turned off wraps at the same places, and from there on
  nothing that is proved here need hold of it.
-/
import LinearHeap.Placement

namespace LinearHeap

/-- The cause that stopped an operation. -/
inductive Fault where
  | sumOverflow
  | productOverflow
  /-- A position past the end of a table of `length` entries. -/
  | noSuchIndex (length index : Nat)
  /-- A word access that does not lie inside a memory of `size` bytes. -/
  | wordOutside (addr : Addr) (size : Nat)
  /-- A payload address too low to have a header below it. -/
  | belowHeaders (payload : Addr)
  /-- A request that rounds past the address space. -/
  | requestTooLarge (size : Word)
  /-- A slice whose content size leaves the address space. -/
  | sliceTooLarge (length element : Word)
  /-- A new block of `size` bytes at `frontier` that crosses the end of the address space. -/
  | blockPastSpace (size : Word) (frontier : Addr)
  /-- A new block of `size` bytes at `frontier` that crosses the end of a memory of
      `memory` bytes. -/
  | blockPastMemory (size : Word) (frontier : Addr) (memory : Nat)
  /-- An arena whose heap cannot be placed. -/
  | placementRejected (error : PlacementError)
  /-- A free chain that comes back to a block it has already passed. -/
  | endlessChain
  deriving DecidableEq, Repr

def Fault.message : Fault → String
  | .sumOverflow => "attempt to add with overflow"
  | .productOverflow => "attempt to multiply with overflow"
  | .noSuchIndex length index =>
      s!"index out of bounds: the len is {length} but the index is {index}"
  | .wordOutside addr size =>
      s!"linear memory access at {Word.hex addr} is out of bounds (memory is {size} bytes)"
  | .belowHeaders payload =>
      s!"payload address {Word.hex payload} lies below any block header"
  | .requestTooLarge size =>
      s!"allocation of {size.toNat} bytes exceeds the 32-bit address space"
  | .sliceTooLarge length element =>
      s!"slice of {length.toNat} x {element.toNat} bytes exceeds the address space"
  | .blockPastSpace size frontier =>
      s!"wilderness exhausted: {size.toNat}-byte block at {Word.hex frontier} overflows the address space"
  | .blockPastMemory size frontier memory =>
      s!"wilderness exhausted: {size.toNat}-byte block at {Word.hex frontier} is out of bounds (memory is {memory} bytes)"
  | .placementRejected error => s!"test heap config rejected: {error.message}"
  | .endlessChain => "free chain does not end"

/-! ### Checked arithmetic -/

/-- The sum of two words, inside the address space. -/
def Word.sum (a b : Word) : Except Fault Word :=
  if a.toNat + b.toNat < Word.bound then .ok (a + b) else .error .sumOverflow

/-- The sum of two counts, inside the 64-bit range. -/
def countSum (a b : Nat) : Except Fault Nat :=
  if a + b < Word.countBound then .ok (a + b) else .error .sumOverflow

/-- The product of two counts, inside the 64-bit range. -/
def countProduct (a b : Nat) : Except Fault Nat :=
  if a * b < Word.countBound then .ok (a * b) else .error .productOverflow

/-- A sum of words that is returned is the sum in unbounded arithmetic. -/
theorem Word.sum_eq_ok_iff {a b c : Word} :
    Word.sum a b = .ok c ↔ c.toNat = a.toNat + b.toNat := by
  have ha := a.toNat_lt
  have hc := c.toNat_lt
  by_cases h : a.toNat + b.toNat < Word.bound
  · simp only [Word.sum, h, if_true, Except.ok.injEq, ← UInt32.toNat_inj, UInt32.toNat_add]
    simp only [Word.bound] at h
    omega
  · simp only [Word.sum, h, if_false, reduceCtorEq, false_iff]
    simp only [Word.bound] at h
    omega

end LinearHeap
