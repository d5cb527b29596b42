/-
  LinearHeap/Heap/Basic.lean
  ==========================
  **The heap.**  Eight bins for the small exact sizes, a first-fit list for all
  others, and the carved region with the wilderness beyond it.  The heap itself
  keeps only the heads of its chains, the bounds of the region and its counters;
  everything else lies in the guest's memory.

      allocate n   pad n; its bin if it has one, else the first fit,
                   and the wilderness when the chain cannot serve it
      free a       the chain that the header of the block at `a` names

  The chain of a block is decided by its header at the time it is freed: a block
  cut out of a large one may go into a bin, and an empty bin never takes from the
  first-fit list.  The heap trusts its caller: freeing an address twice, or one
  that was never handed out, damages a chain and is not noticed.
-/
import LinearHeap.FreeList.Bins
import LinearHeap.FreeList.Fit
import LinearHeap.FreeList.Walk
import LinearHeap.Region
import LinearHeap.Heap.Counters

namespace LinearHeap

structure Heap where
  region : Region
  /-- The chains of the eight small sizes. -/
  bins : Bins := {}
  /-- The chain of all other sizes. -/
  fits : FitList := {}
  counters : Counters := {}
  deriving DecidableEq

namespace Heap

/-! ### Parts -/

def binsPart : Act.Part Heap Bins := ⟨bins, fun h b => { h with bins := b }⟩

def fitsPart : Act.Part Heap FitList := ⟨fits, fun h f => { h with fits := f }⟩

def regionPart : Act.Part Heap Region := ⟨region, fun h r => { h with region := r }⟩

def count (f : Counters → Counters) : Act Heap Unit :=
  Act.update fun h => { h with counters := f h.counters }

/-! ### Creation -/

def empty (start : Addr) : Heap := { region := .startingAt start }

/-- Creates a heap at the aligned start for a requested one, whatever the memory. -/
def create {σ : Type} (requested : Addr) : Act σ (Except PlacementError Heap) :=
  match Placement.start requested with
  | .error e => return .error e
  | .ok start => do
      Act.note (.heapCreated requested start)
      return .ok (empty start)

/-- Creates a heap whose start lies inside the memory. -/
def createInside {σ : Type} (requested : Addr) : Act σ (Except PlacementError Heap) := do
  match Placement.check requested (← Act.memorySize) with
  | .error e => return .error e
  | .ok _ => create requested

/-! ### Freeing -/

def shelve (b : Block) : Act Heap Unit := do
  let size ← b.readSize
  match SizeClass.ofSize? size with
  | some c =>
      Act.within binsPart (Bins.push c b)
      count fun n => { n with binFrees := n.binFrees + 1 }
  | none =>
      Act.within fitsPart (FitList.push b)
      count fun n => { n with fitFrees := n.fitFrees + 1 }
  Act.note (.blockFreed b.header size)

def free (a : Addr) : Act Heap Unit := do
  let b ← Block.ofPayload a
  shelve b

/-! ### Allocating

Each of these serves a padded size. -/

def fromWilderness (size : Word) : Act Heap Block := do
  let b ← Act.within regionPart (Region.carve size)
  count fun n => { n with carved := n.carved + 1 }
  return b

/-- Serves a size from its bin, or from the wilderness if the bin is empty. -/
def fromBin (c : SizeClass) (size : Word) : Act Heap Block := do
  match ← Act.within binsPart (Bins.pop c) with
  | some b =>
      count fun n => { n with binReuses := n.binReuses + 1 }
      return b
  | none => fromWilderness size

/-- Serves a size from the first block that fits, or from the wilderness if none does.  The
    remainder of a split joins the chain of its own size. -/
def fromFits (size : Word) : Act Heap Block := do
  match ← Act.within fitsPart (FitList.take size) with
  | some (.whole b) =>
      count fun n => { n with fitReuses := n.fitReuses + 1 }
      return b
  | some (.split b remainder) =>
      count fun n => { n with fitReuses := n.fitReuses + 1, splits := n.splits + 1 }
      shelve remainder
      return b
  | none => fromWilderness size

/-- Serves a size from its bin if it has one, and otherwise from the first fit. -/
def serve (size : Word) : Act Heap Block :=
  match SizeClass.ofSize? size with
  | some c => fromBin c size
  | none => fromFits size

/-- Allocates a block of at least the bytes requested and returns its payload address. -/
def allocate (request : Word) : Act Heap Addr := do
  let size ← paddedSize request
  let b ← serve size
  b.payload

/-! ### Looking -/

def start (h : Heap) : Addr := h.region.start

def frontier (h : Heap) : Addr := h.region.frontier

/-- A payload address lies in the carved region. -/
def holds (h : Heap) (a : Addr) : Bool :=
  h.start.toNat + Block.headerBytes.toNat ≤ a.toNat && a.toNat < h.frontier.toNat

def binHead (h : Heap) (c : SizeClass) : Link := h.bins.head c

def fitHead (h : Heap) : Link := h.fits.head

end Heap

end LinearHeap
