/-
  LinearHeap/Region.lean
  ======================
  **The carved region, and the wilderness beyond its frontier.**  Every block is
  carved out of the wilderness once, at the frontier, and from then on only moves
  between guests and free chains; the frontier never goes back.  When the memory
  grows is its owner's business.

  A block has to end inside the address space and inside memory.  The first is
  checked first, and a block that fails either check is not carved at all.
-/
import LinearHeap.Block

namespace LinearHeap

/-- The carved region `[start, frontier)`. -/
structure Region where
  start : Addr
  /-- One past the last byte of the last block carved. -/
  frontier : Addr
  deriving DecidableEq, Repr

namespace Region

def startingAt (start : Addr) : Region := ⟨start, start⟩

/-- Bytes carved so far, headers included. -/
def carvedBytes (r : Region) : Word := r.frontier - r.start

/-- A block has its header in the region. -/
def holds (r : Region) (b : Block) : Bool :=
  r.start ≤ b.header && b.header < r.frontier

/-- Carves a block with a payload of `size` bytes at the frontier. -/
def carve (size : Word) : Act Region Block := do
  let r ← Act.own
  let bytes ← Act.memorySize
  let newFrontier := r.frontier.toNat + Block.headerBytes.toNat + size.toNat
  if Word.bound ≤ newFrontier then Act.fault (.blockPastSpace size r.frontier)
  else if bytes < newFrontier then Act.fault (.blockPastMemory size r.frontier bytes)
  else
    let b : Block := ⟨r.frontier⟩
    let frontier : Addr := UInt32.ofNat newFrontier
    b.writeSize size
    Act.update fun r => { r with frontier := frontier }
    Act.note (.blockCarved b.header size frontier)
    return b

/-! ### Laws -/

/-- A block that ends inside the address space and inside memory is carved at the frontier,
    with one word written: its header. -/
theorem carve_of_le {size : Word} {r : Region} {m : Ambient}
    (hspace : r.frontier.toNat + 4 + size.toNat < Word.bound)
    (hmemory : r.frontier.toNat + 4 + size.toNat ≤ m.memory.size) :
    let frontier := UInt32.ofNat (r.frontier.toNat + 4 + size.toNat)
    carve size r m =
      ⟨.ok ⟨r.frontier⟩, { r with frontier := frontier },
        { m.countWrite with
          memory := m.memory.store r.frontier size
          journal := m.journal.push (.blockCarved r.frontier size frontier) }⟩ := by
  intro frontier
  have hword : m.memory.HasWord r.frontier := by
    rw [Memory.hasWord_iff]
    omega
  refine (Act.bind_of_ok (x := Act.own) rfl).trans ?_
  refine (Act.bind_of_ok (x := Act.memorySize) rfl).trans ?_
  have h₁ : ¬ Word.bound ≤ r.frontier.toNat + Block.headerBytes.toNat + size.toNat :=
    Nat.not_le.2 hspace
  have h₂ : ¬ m.memory.size < r.frontier.toNat + Block.headerBytes.toNat + size.toNat :=
    Nat.not_lt.2 hmemory
  simp only [if_neg h₁, if_neg h₂]
  exact Act.bind_of_ok (Act.store_of_hasWord hword)

/-- A block that ends past the address space or past memory is not carved, and nothing
    changes. -/
theorem carve_of_lt {size : Word} {r : Region} {m : Ambient}
    (h : Word.bound ≤ r.frontier.toNat + 4 + size.toNat ∨
      m.memory.size < r.frontier.toNat + 4 + size.toNat) :
    carve size r m =
      ⟨.error (if Word.bound ≤ r.frontier.toNat + 4 + size.toNat then
          .blockPastSpace size r.frontier
        else .blockPastMemory size r.frontier m.memory.size), r, m⟩ := by
  have h4 : Block.headerBytes.toNat = 4 := rfl
  refine (Act.bind_of_ok (x := Act.own) rfl).trans ?_
  refine (Act.bind_of_ok (x := Act.memorySize) rfl).trans ?_
  simp only [h4]
  by_cases hs : Word.bound ≤ r.frontier.toNat + 4 + size.toNat
  · simp only [if_pos hs]
    rfl
  · have hm : m.memory.size < r.frontier.toNat + 4 + size.toNat := h.resolve_left hs
    simp only [if_neg hs, if_pos hm]
    rfl

end Region

end LinearHeap
