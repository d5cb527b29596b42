/-
  LinearHeap/Placement.lean
  =========================
  **Where a heap may start.**  A guest names the first byte past its static data;
  the heap starts at that byte if it is a multiple of eight and otherwise one
  whole slot of eight past the next multiple.  A placement is refused when the
  aligned start leaves the address space, and, when it is checked against a
  memory, when it lies past the memory's end.
-/
import LinearHeap.Word

namespace LinearHeap

inductive PlacementError where
  /-- Aligning the requested start leaves the address space. -/
  | startOverflow (requested : Addr)
  /-- The aligned start lies past the end of a memory of `size` bytes. -/
  | startOutside (start : Addr) (size : Nat)
  deriving DecidableEq, Repr

def PlacementError.message : PlacementError → String
  | .startOverflow requested => s!"heap start {Word.hex requested} overflows when aligned"
  | .startOutside start size =>
      s!"heap start {Word.hex start} is beyond linear memory ({size} bytes)"

namespace Placement

/-- The aligned start for a requested one: a multiple of eight is kept, any other start
    moves to the second multiple of eight above it.  `none` past the address space. -/
def roundUp? (requested : Addr) : Option Addr :=
  let excess := requested.toNat % 8
  if excess = 0 then some requested
  else if requested.toNat + (16 - excess) < Word.bound then
    some (UInt32.ofNat (requested.toNat + (16 - excess)))
  else none

/-- The aligned start, or the error that names the requested one. -/
def start (requested : Addr) : Except PlacementError Addr :=
  match roundUp? requested with
  | some start => .ok start
  | none => .error (.startOverflow requested)

/-- Checks a requested start against a memory of `size` bytes and returns the aligned
    start.  A heap may start exactly at the end of memory: it is empty until memory grows. -/
def check (requested : Addr) (size : Nat) : Except PlacementError Addr :=
  match start requested with
  | .error e => .error e
  | .ok start =>
      if size < start.toNat then .error (.startOutside start size) else .ok start

/-- An aligned start is a multiple of eight and at most fifteen bytes above the request. -/
theorem roundUp?_eq_some {requested start : Addr} (h : roundUp? requested = some start) :
    start.toNat % 8 = 0 ∧ requested.toNat ≤ start.toNat ∧ start.toNat ≤ requested.toNat + 15 := by
  have hr := requested.toNat_lt
  by_cases hz : requested.toNat % 8 = 0
  · simp only [roundUp?, hz, if_true, Option.some.injEq] at h
    subst h
    omega
  · by_cases hb : requested.toNat + (16 - requested.toNat % 8) < Word.bound
    · simp only [roundUp?, hz, hb, if_true, if_false, Option.some.injEq] at h
      subst h
      simp only [Word.bound] at hb
      rw [UInt32.toNat_ofNat']
      omega
    · simp [roundUp?, hz, hb] at h

end Placement

end LinearHeap
