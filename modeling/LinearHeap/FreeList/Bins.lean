/-
  LinearHeap/FreeList/Bins.lean
  =============================
  **The bins: one chain for each of the eight small sizes.**  A bin is last in,
  first out, so taking from it and putting into it move one word each and never
  search.  All blocks of a bin have the bin's exact size in their headers, which
  are left alone while they are free.
-/
import LinearHeap.Block
import LinearHeap.SizeClass

namespace LinearHeap

structure Bins where
  heads : Vector Link 8 := Vector.replicate 8 none
  deriving DecidableEq

namespace Bins

def head (bins : Bins) (c : SizeClass) : Link := bins.heads[c]

def setHead (bins : Bins) (c : SizeClass) (link : Link) : Bins :=
  ⟨bins.heads.set c link⟩

def isEmpty (bins : Bins) : Bool := bins.heads.all Option.isNone

/-- Takes the block that was put into a bin last. -/
def pop (c : SizeClass) : Act Bins Link := do
  match (← Act.own).head c with
  | none => return none
  | some b =>
      let next ← b.readLink
      Act.update (·.setHead c next)
      return some b

def push (c : SizeClass) (b : Block) : Act Bins Unit := do
  let bins ← Act.own
  b.writeLink (bins.head c)
  Act.update (·.setHead c (some b))

/-! ### Laws -/

@[simp] theorem head_setHead_same (bins : Bins) (c : SizeClass) (l : Link) :
    (bins.setHead c l).head c = l := by
  simp [head, setHead]

theorem head_setHead_of_ne (bins : Bins) {c d : SizeClass} (l : Link) (h : c ≠ d) :
    (bins.setHead c l).head d = bins.head d := by
  have : c.val ≠ d.val := fun e => h (Fin.ext e)
  simp [head, setHead, this]

/-- An empty bin gives nothing and moves no word. -/
theorem pop_of_head_eq_none {c : SizeClass} {bins : Bins} {m : Ambient}
    (h : bins.head c = none) : pop c bins m = ⟨.ok none, bins, m⟩ := by
  refine (Act.bind_of_ok (x := Act.own) rfl).trans ?_
  rw [h]
  rfl

/-- A bin gives its first block and reads one word. -/
theorem pop_of_head_eq_some {c : SizeClass} {bins : Bins} {m : Ambient} {b : Block} {next : Link}
    (h : bins.head c = some b) (hl : b.link? m.memory = some next) :
    pop c bins m = ⟨.ok (some b), bins.setHead c next, m.countRead⟩ := by
  refine (Act.bind_of_ok (x := Act.own) rfl).trans ?_
  rw [h]
  exact Act.bind_of_ok (Block.readLink_of_link? hl)

/-- Putting a block into a bin writes one word, the block's link to the old first block. -/
theorem push_of_hasWord {c : SizeClass} {bins : Bins} {m : Ambient} {b : Block} {slot : Addr}
    (hs : b.linkSlot = .ok slot) (h : m.memory.HasWord slot) :
    push c b bins m =
      ⟨.ok (), bins.setHead c (some b),
        { m.countWrite with memory := m.memory.store slot (Link.toWord (bins.head c)) }⟩ := by
  refine (Act.bind_of_ok (x := Act.own) rfl).trans ?_
  exact Act.bind_of_ok (Block.writeLink_of_hasWord hs h)

end Bins

end LinearHeap
