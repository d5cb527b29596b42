/-
  LinearHeap/Heap/Counters.lean
  =============================
  **Running counters of a heap.**  Each allocation is counted once, by where its
  block came from: carved out of the wilderness, reused from a bin, or reused
  from the first-fit list.  Each block that joins a free chain is counted once,
  by the chain; the remainder of a split joins a chain too.

  Totals are reported as 64-bit counts: a total that does not fit is a fault.  The
  counters themselves are unbounded.  A heap that keeps each of them in 64 bits
  has the same ones until one of them reaches `Word.countBound`.
-/
import LinearHeap.Fault

namespace LinearHeap

/-- What a heap has done so far. -/
structure Counters where
  /-- Allocations carved out of the wilderness. -/
  carved : Nat := 0
  /-- Allocations served by a bin. -/
  binReuses : Nat := 0
  /-- Allocations served by the first-fit list. -/
  fitReuses : Nat := 0
  /-- Those of them that split the block they found. -/
  splits : Nat := 0
  binFrees : Nat := 0
  fitFrees : Nat := 0
  deriving DecidableEq, Repr

namespace Counters

def allocations (c : Counters) : Nat := c.carved + c.binReuses + c.fitReuses

def reuses (c : Counters) : Nat := c.binReuses + c.fitReuses

def reportedAllocations (c : Counters) : Except Fault Nat := do
  countSum (← countSum c.carved c.binReuses) c.fitReuses

/-- The share of allocations that reused a block; zero before the first allocation. -/
def reuseShare (c : Counters) : Except Fault Float := do
  let total ← c.reportedAllocations
  if total = 0 then return 0.0
  else return (UInt64.ofNat c.reuses).toFloat / (UInt64.ofNat total).toFloat

end Counters

end LinearHeap
