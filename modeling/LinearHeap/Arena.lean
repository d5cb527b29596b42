/-
  LinearHeap/Arena.lean
  =====================
  **An arena: a heap together with the memory it lives in.**  An arena starts out
  zeroed and does not grow.  One whose heap cannot be placed is a fault.
-/
import LinearHeap.Heap.Slice
import LinearHeap.Heap.Census

namespace LinearHeap

structure Arena where
  heap : Heap
  memory : Memory

namespace Arena

def pageBytes : Nat := 64 * 1024

/-- An arena of zeroed bytes, with a heap at the aligned start for a requested one. -/
def create (requested : Addr) (bytes : Nat) : Except Fault Arena :=
  match Placement.check requested bytes with
  | .ok start => .ok ⟨Heap.empty start, .zeros bytes⟩
  | .error e => .error (.placementRejected e)

/-- An arena of one page, with the heap at its first byte. -/
def page : Except Fault Arena := create 0 pageBytes

def run {α : Type} (x : Act Heap α) (a : Arena) : Except Fault α × Arena :=
  match x.runOn a.heap a.memory with
  | ⟨result, heap, ambient⟩ => (result, ⟨heap, ambient.memory⟩)

def payloads (blocks : List Block) : Except Fault (List Addr) := blocks.mapM Block.payload

def binContents (c : SizeClass) : Act Heap (List Addr) := do
  let h ← Act.own
  let blocks ← FreeChain.walkAll (h.binHead c)
  payloads blocks

def fitContents : Act Heap (List Addr) := do
  let h ← Act.own
  let blocks ← FreeChain.walkAll h.fitHead
  payloads blocks

end Arena

end LinearHeap
