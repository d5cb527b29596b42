/-
  LinearHeap/FreeList/Walk.lean
  =============================
  **Walking a free chain.**  A chain is a link to its first block; each block
  links to the next.  `walk` lists at most a given number of blocks, `walkAll`
  lists the whole chain.

  Nothing keeps a damaged chain from coming back to a block it has passed.  A
  block that can be read has its eight bytes in memory, so a chain that ends has
  fewer blocks than the memory has bytes: `walkAll` looks one block further and
  faults if there is one.
-/
import LinearHeap.Block

namespace LinearHeap

namespace FreeChain

variable {σ : Type}

/-- The first blocks of a chain, at most `limit` of them.  The link of every listed block is
    read, the last one's too. -/
def walk : (limit : Nat) → (head : Link) → Act σ (List Block)
  | 0, _ => pure []
  | _ + 1, none => pure []
  | limit + 1, some b => do
      let next ← b.readLink
      let rest ← walk limit next
      return b :: rest

def walkAll (head : Link) : Act σ (List Block) := do
  let bytes ← Act.memorySize
  let blocks ← walk (bytes + 1) head
  if bytes < blocks.length then Act.fault .endlessChain else return blocks

end FreeChain

end LinearHeap
