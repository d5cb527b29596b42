/-
  LinearHeap/Script/Basic.lean
  ============================
  **Scripts: sequences of allocations and frees to replay.**  A free names a live
  allocation by its index, modulo how many are live, so every script is legal:
  none can free an address twice or one that was not handed out.  A free with
  nothing live does nothing.
-/
import LinearHeap.Heap.Basic
import LinearHeap.SwapRemove

namespace LinearHeap

namespace Script

inductive Step where
  | alloc (size : Word)
  /-- Free the live allocation at this index, modulo the number of live ones. -/
  | free (index : Nat)
  deriving DecidableEq, Repr

def Step.isAlloc : Step → Bool
  | .alloc _ => true
  | .free _ => false

/-- What the steps so far have left. -/
structure Remains where
  /-- Address and requested size of every live allocation. -/
  live : Array (Addr × Word) := #[]
  /-- The highest frontier seen. -/
  peak : Addr
  deriving DecidableEq, Repr

end Script

abbrev Script := List Script.Step

namespace Script

/-- Replays a script on top of what earlier steps have left. -/
def play : Script → Remains → Act Heap Remains
  | [], left => return left
  | .alloc size :: rest, ⟨live, peak⟩ => do
      let a ← Heap.allocate size
      let h ← Act.own
      play rest ⟨live.push (a, size), max peak h.frontier⟩
  | .free index :: rest, ⟨live, peak⟩ => do
      let i := index % live.size
      match live[i]? with
      | some (a, _) =>
          Heap.free a
          play rest ⟨swapRemove live i, peak⟩
      | none => play rest ⟨live, peak⟩

def run (script : Script) : Act Heap Remains := do
  let h ← Act.own
  play script { peak := h.frontier }

end Script

end LinearHeap
