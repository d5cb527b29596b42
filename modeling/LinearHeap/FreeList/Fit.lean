/-
  LinearHeap/FreeList/Fit.lean
  ============================
  **The first-fit list: every size the bins do not serve.**  Blocks are kept in
  the order they were freed, the latest first, and a search takes the first one
  that is large enough.  A block with enough slack is split: the low part serves
  the request and the high part is a free block of its own, which the caller puts
  on the chain of its size.

      before   │ free                                              │
      after    │ size │ payload  │ free - size - 4 │ rest           │
               └ the block ──────┘└ the remainder ─────────────────┘

  A damaged list may run in a circle.  A block that was read lies in memory, so a
  search that has passed more blocks than the memory has bytes has met one of
  them twice and would go on for ever; it faults instead.
-/
import LinearHeap.Block

namespace LinearHeap

inductive Fit where
  /-- A block given whole; its header keeps the size it had. -/
  | whole (block : Block)
  /-- A block cut to the size asked for, and the free block made of the rest, which is in no
      chain yet. -/
  | split (block remainder : Block)
  deriving DecidableEq, Repr

def Fit.block : Fit → Block
  | .whole b => b
  | .split b _ => b

def Fit.remainder? : Fit → Link
  | .whole _ => none
  | .split _ r => some r

/-- The first-fit list: its first block. -/
structure FitList where
  head : Link := none
  deriving DecidableEq, Repr

namespace FitList

/-- The least slack worth a split: a header, the smallest payload, and a word more. -/
def leastSlack : Word := 12

def isEmpty (list : FitList) : Bool := list.head.isNone

def push (b : Block) : Act FitList Unit := do
  let list ← Act.own
  b.writeLink list.head
  Act.update fun _ => ⟨some b⟩

/-- Takes a block out of the list: what came before it, another block or the head, now links
    to what came after it. -/
def splice (prev next : Link) : Act FitList Unit :=
  match prev with
  | some p => p.writeLink next
  | none => Act.update fun _ => ⟨next⟩

/-- Cuts a block of `free` bytes, already taken out of the list, down to `size` if the slack
    is worth it.  `size` is at most `free`. -/
def cut (b : Block) (free size : Word) : Act FitList Fit := do
  let slack := free - size
  if slack < leastSlack then return .whole b
  else
    let payload ← b.payload
    let header ← Word.sum payload size
    let remainder : Block := ⟨header⟩
    b.writeSize size
    remainder.writeSize (slack - Block.headerBytes)
    Act.note (.blockSplit b.header size header (slack - Block.headerBytes))
    return .split b remainder

/-- Searches the list from `cursor` on, with `prev` the block before it, passing at most
    `steps` blocks. -/
def search (size : Word) : (steps : Nat) → (prev cursor : Link) → Act FitList (Option Fit)
  | _, _, none => return none
  | 0, _, some _ => Act.fault .endlessChain
  | steps + 1, prev, some b => do
      let free ← b.readSize
      let next ← b.readLink
      if free < size then search size steps (some b) next
      else
        splice prev next
        return some (← cut b free size)

/-- Takes the first block of at least `size` bytes out of the list, cut to size if the slack
    allows it. -/
def take (size : Word) : Act FitList (Option Fit) := do
  let bytes ← Act.memorySize
  let list ← Act.own
  search size (bytes + 1) none list.head

/-! ### Laws -/

/-- Putting a block on the list writes one word, the block's link to the old first block. -/
theorem push_of_hasWord {list : FitList} {m : Ambient} {b : Block} {slot : Addr}
    (hs : b.linkSlot = .ok slot) (h : m.memory.HasWord slot) :
    push b list m =
      ⟨.ok (), ⟨some b⟩,
        { m.countWrite with memory := m.memory.store slot (Link.toWord list.head) }⟩ := by
  refine (Act.bind_of_ok (x := Act.own) rfl).trans ?_
  exact Act.bind_of_ok (Block.writeLink_of_hasWord hs h)

/-- Slack below the threshold goes with the block, and nothing is written. -/
theorem cut_of_lt {b : Block} {free size : Word} {list : FitList} {m : Ambient}
    (h : free - size < leastSlack) : cut b free size list m = ⟨.ok (.whole b), list, m⟩ := by
  simp only [cut, if_pos h]
  rfl

/-- The end of the list is reached without a fit, and nothing has changed. -/
theorem search_none {size : Word} {steps : Nat} {prev : Link} {list : FitList} {m : Ambient} :
    search size steps prev none list m = ⟨.ok none, list, m⟩ := by
  cases steps <;> rfl

theorem search_of_lt {size free : Word} {steps : Nat} {prev next : Link} {b : Block}
    {list : FitList} {m : Ambient} (hf : b.size? m.memory = some free)
    (hl : b.link? m.memory = some next) (hlt : free < size) :
    search size (steps + 1) prev (some b) list m =
      search size steps (some b) next list m.countRead.countRead := by
  refine (Act.bind_of_ok (Block.readSize_of_size? hf)).trans ?_
  refine (Act.bind_of_ok (Block.readLink_of_link? (m := m.countRead) hl)).trans ?_
  rw [if_pos hlt]

theorem search_of_le {size free : Word} {steps : Nat} {prev next : Link} {b : Block}
    {list : FitList} {m : Ambient} (hf : b.size? m.memory = some free)
    (hl : b.link? m.memory = some next) (hle : ¬ free < size) :
    search size (steps + 1) prev (some b) list m =
      (do
        splice prev next
        return some (← cut b free size)) list m.countRead.countRead := by
  refine (Act.bind_of_ok (Block.readSize_of_size? hf)).trans ?_
  refine (Act.bind_of_ok (Block.readLink_of_link? (m := m.countRead) hl)).trans ?_
  rw [if_neg hle]

end FitList

end LinearHeap
