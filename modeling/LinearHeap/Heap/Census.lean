/-
  LinearHeap/Heap/Census.lean
  ===========================
  **A census of the free chains.**  It walks every chain through memory, so its
  cost grows with the number of free blocks.  Blocks of a bin all have the bin's
  size and are only counted; the sizes of the first-fit list are added up from
  its headers.
-/
import LinearHeap.Heap.Basic

namespace LinearHeap

/-- What lies in the free chains. -/
structure Census where
  binBlocks : Vector Nat 8 := Vector.replicate 8 0
  fitBlocks : Nat := 0
  fitBytes : Nat := 0
  /-- Bytes carved so far, headers included. -/
  carvedBytes : Word := 0
  deriving DecidableEq

namespace Census

/-- Payload bytes in the bins, as a 64-bit count. -/
def binBytes (c : Census) : Except Fault Nat :=
  SizeClass.all.foldlM (fun total k => do
    countSum total (← countProduct (c.binBlocks.get k) (SizeClass.bytes k).toNat)) 0

/-- Payload bytes in all chains, as a 64-bit count. -/
def freeBytes (c : Census) : Except Fault Nat := do
  countSum (← c.binBytes) c.fitBytes

/-- Blocks in all chains, as a 64-bit count. -/
def freeBlocks (c : Census) : Except Fault Nat := do
  let inBins ← SizeClass.all.foldlM (fun total k => countSum total (c.binBlocks.get k)) 0
  countSum inBins c.fitBlocks

end Census

namespace Heap

/-- Counts the blocks of a first-fit list and adds up their sizes, passing at most `steps`
    blocks; `blocks` and `bytes` are what was counted before. -/
def measureFits : (steps : Nat) → Link → (blocks bytes : Nat) → Act Heap (Nat × Nat)
  | _, none, blocks, bytes => return (blocks, bytes)
  | 0, some _, _, _ => Act.fault .endlessChain
  | steps + 1, some b, blocks, bytes => do
      let next ← b.readLink
      let size ← b.readSize
      measureFits steps next (blocks + 1) (bytes + size.toNat)

/-- Walks all free chains, the bins first. -/
def census : Act Heap Census := do
  let h ← Act.own
  let binBlocks ← SizeClass.all.foldlM (fun counts c => do
    let blocks ← FreeChain.walkAll (h.binHead c)
    return counts.setIfInBounds c blocks.length) (Vector.replicate 8 0)
  let memoryBytes ← Act.memorySize
  let (fitBlocks, fitBytes) ← measureFits (memoryBytes + 1) h.fitHead 0 0
  return { binBlocks, fitBlocks, fitBytes, carvedBytes := h.region.carvedBytes }

end Heap

end LinearHeap
