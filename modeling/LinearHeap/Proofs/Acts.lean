/-
  LinearHeap/Proofs/Acts.lean
  ===========================
  **What each act of the heap computes.**  One equation for each way an act can
  go, with the state, the memory, the meter and the journal it leaves behind.
  Everything about whole calls is derived from these equations; nothing after
  this file looks into an act again.

  Bins and first-fit list are addressed together, as the nine chains
  (`chainHead`, `setHead`).
-/
import LinearHeap.Heap.Slice
import LinearHeap.Proofs.Bytes

namespace LinearHeap

namespace Act

variable {σ τ α : Type}

theorem check_of_ok {x : Except Fault α} {a : α} {s : σ} {m : Ambient} (h : x = .ok a) :
    (check x : Act σ α) s m = ⟨.ok a, s, m⟩ := by
  rw [h]
  rfl

theorem check_of_error {x : Except Fault α} {e : Fault} {s : σ} {m : Ambient}
    (h : x = .error e) : (check x : Act σ α) s m = ⟨.error e, s, m⟩ := by
  rw [h]
  rfl

theorem map_of_ok {β : Type} {x : Act σ α} {f : α → β} {s s' : σ} {m m' : Ambient} {a : α}
    (h : x s m = ⟨.ok a, s', m'⟩) : (f <$> x) s m = ⟨.ok (f a), s', m'⟩ := bind_of_ok h

theorem within_of_eq {p : Part τ σ} {x : Act σ α} {t : τ} {s : σ} {m m' : Ambient}
    {r : Except Fault α} (h : x (p.get t) m = ⟨r, s, m'⟩) :
    within p x t m = ⟨r, p.set t s, m'⟩ := by
  simp [within, h]

end Act

@[simp] theorem Ambient.memory_countReads (m : Ambient) (n : Nat) :
    (m.countReads n).memory = m.memory := by rw [Ambient.countReads_eq]

/-- Memory and meter after a word was written. -/
def Ambient.storing (m : Ambient) (a : Addr) (w : Word) : Ambient :=
  { m.countWrite with memory := m.memory.store a w }

@[simp] theorem Ambient.memory_storing (m : Ambient) (a : Addr) (w : Word) :
    (m.storing a w).memory = m.memory.store a w := rfl

theorem Ambient.storing_storing (m : Ambient) (a b : Addr) (v w : Word) :
    (m.storing a v).storing b w =
      { m.countWrite.countWrite with memory := (m.memory.store a v).store b w } := by
  simp only [storing, countWrite]

theorem Act.store_storing {σ : Type} {a : Addr} {w : Word} {s : σ} {m : Ambient}
    (h : m.memory.HasWord a) : (store a w : Act σ Unit) s m = ⟨.ok (), s, m.storing a w⟩ :=
  Act.store_of_hasWord h

theorem Ambient.hasWord_storing {m : Ambient} {a b : Addr} {w : Word}
    (h : m.memory.HasWord b) : (m.storing a w).memory.HasWord b := Memory.hasWord_store.2 h

/-! ### Blocks -/

namespace Block

/-- The address of the link, where it does not leave the address space. -/
def slot (b : Block) : Addr := b.header + headerBytes

theorem toNat_slot {b : Block} (h : b.header.toNat + 4 < Word.bound) :
    b.slot.toNat = b.header.toNat + 4 := by
  have h4 : headerBytes.toNat = 4 := rfl
  simp only [Word.bound] at h
  rw [slot, UInt32.toNat_add, h4]
  omega

theorem payload_of_lt {b : Block} (h : b.header.toNat + 4 < Word.bound) :
    b.payload = .ok b.slot := payload_eq_ok_iff.2 (toNat_slot h)

theorem hasWord_slot {b : Block} {m : Memory} (h : b.header.toNat + 4 < Word.bound)
    (hm : b.header.toNat + 8 ≤ m.size) : m.HasWord b.slot := by
  rw [Memory.hasWord_iff, toNat_slot h]
  omega

theorem sizeAt_of_size? {σ : Type} {a : Addr} {b : Block} {size : Word} {s : σ} {m : Ambient}
    (ha : a.toNat = b.header.toNat + 4) (hs : b.size? m.memory = some size) :
    (sizeAt a : Act σ Word) s m = ⟨.ok size, s, m.countRead⟩ := by
  have hb := Act.check_of_ok (s := s) (m := m) (ofPayload_eq_ok_iff.2 ha)
  exact (Act.bind_of_ok hb).trans (readSize_of_size? hs)

end Block

/-! ### The first-fit list -/

namespace FitList

/-- Memory and meter after a block that `before` leads to has been taken out: the last block of
    `before`, if there is one, links past it. -/
def relinked (before : List Block) (next : Link) (m : Ambient) : Ambient :=
  match before.getLast? with
  | some p => { m.countWrite with memory := m.memory.store p.slot (Link.toWord next) }
  | none => m

def relinkedHead (before : List Block) (next : Link) (list : FitList) : FitList :=
  if before = [] then ⟨next⟩ else list

theorem splice_getLast? {before : List Block} {next : Link} {list : FitList} {m : Ambient}
    (h : ∀ p ∈ before, p.header.toNat + 4 < Word.bound ∧ p.header.toNat + 8 ≤ m.memory.size) :
    splice before.getLast? next list m =
      ⟨.ok (), relinkedHead before next list, relinked before next m⟩ := by
  rcases hp : before.getLast? with _ | p
  · have hnil : before = [] := List.getLast?_eq_none_iff.1 hp
    subst hnil
    rfl
  · have hmem : p ∈ before := List.mem_of_getLast? hp
    have hne : before ≠ [] := List.ne_nil_of_mem hmem
    have hslot := Block.payload_of_lt (h p hmem).1
    have hword := Block.hasWord_slot (h p hmem).1 (h p hmem).2
    simp only [relinked, relinkedHead, hp, if_neg hne]
    exact Block.writeLink_of_hasWord hslot hword

/-- A search that meets small blocks only has read two words of each and found nothing. -/
theorem search_of_all_lt {size : Word} {steps : Nat} {prev cursor : Link} {bs : List Block}
    {list : FitList} {m : Ambient} (hl : FreeChain.Linked m.memory cursor bs)
    (hsmall : ∀ b ∈ bs, ∃ free, b.size? m.memory = some free ∧ free < size)
    (hsteps : bs.length ≤ steps) :
    search size steps prev cursor list m = ⟨.ok none, list, m.countReads (2 * bs.length)⟩ := by
  induction bs generalizing prev cursor steps m with
  | nil =>
      rw [FreeChain.linked_nil_iff] at hl
      subst hl
      exact search_none
  | cons b bs ih =>
      obtain ⟨rfl, next, hnext, htail⟩ := hl
      obtain ⟨free, hfree, hlt⟩ := hsmall b List.mem_cons_self
      cases steps with
      | zero => cases hsteps
      | succ steps =>
          rw [search_of_lt hfree hnext hlt]
          exact ih htail (fun c hc => hsmall c (List.mem_cons_of_mem b hc))
            (Nat.le_of_succ_le_succ hsteps)

/-- A search passes the small blocks in front and stops at the first one that is large
    enough. -/
theorem search_of_first_fit {size free : Word} {steps : Nat} {prev cursor next : Link}
    {before after : List Block} {b : Block} {list : FitList} {m : Ambient}
    (hl : FreeChain.Linked m.memory cursor (before ++ b :: after))
    (hsmall : ∀ c ∈ before, ∃ free, c.size? m.memory = some free ∧ free < size)
    (hb : b.size? m.memory = some free) (hfit : ¬ free < size)
    (hnext : b.link? m.memory = some next) (hsteps : before.length < steps) :
    search size steps prev cursor list m =
      (do
        splice (before.getLast?.or prev) next
        return some (← cut b free size)) list (m.countReads (2 * (before.length + 1))) := by
  induction before generalizing prev cursor steps m with
  | nil =>
      obtain ⟨rfl, next', hnext', -⟩ := hl
      cases steps with
      | zero => cases hsteps
      | succ steps => exact search_of_le hb hnext hfit
  | cons c before ih =>
      obtain ⟨rfl, next', hnext', htail⟩ := hl
      obtain ⟨small, hs, hlt⟩ := hsmall c List.mem_cons_self
      cases steps with
      | zero => cases hsteps
      | succ steps =>
          -- the block passed last is the one to link past the fit
          have hprev : before.getLast?.or (some c) = (c :: before).getLast?.or prev := by
            rw [List.getLast?_cons]
            cases before.getLast? <;> rfl
          rw [search_of_lt hs hnext' hlt, ← hprev]
          exact ih (m := m.countRead.countRead) htail
            (fun d hd => hsmall d (List.mem_cons_of_mem c hd)) hb hnext
            (Nat.lt_of_succ_lt_succ hsteps)

/-- Memory, meter and journal after a block was cut in two: the lower header is written first. -/
def divided (b rest : Block) (free size : Word) (m : Ambient) : Ambient :=
  { m.countWrite.countWrite with
    memory := (m.memory.store b.header size).store rest.header (free - size - Block.headerBytes)
    journal := m.journal.push
      (.blockSplit b.header size rest.header (free - size - Block.headerBytes)) }

theorem cut_of_le {b rest : Block} {free size : Word} {list : FitList} {m : Ambient}
    (hslack : ¬ free - size < leastSlack)
    (hrest : rest.header.toNat = b.header.toNat + 4 + size.toNat)
    (hb : m.memory.HasWord b.header) (hr : m.memory.HasWord rest.header) :
    cut b free size list m = ⟨.ok (.split b rest), list, divided b rest free size m⟩ := by
  have hb4 : b.header.toNat + 4 < Word.bound := by
    have hlt := rest.header.toNat_lt
    simp only [Word.bound]
    omega
  have hsum : Word.sum b.slot size = .ok rest.header := by
    rw [Word.sum_eq_ok_iff, Block.toNat_slot hb4, hrest]
  have hr' := Ambient.hasWord_storing (a := b.header) (w := size) hr
  simp only [cut, if_neg hslack]
  refine (Act.bind_of_ok (Act.check_of_ok (Block.payload_of_lt hb4))).trans ?_
  refine (Act.bind_of_ok (Act.check_of_ok hsum)).trans ?_
  refine (Act.bind_of_ok (Act.store_storing hb)).trans ?_
  refine (Act.bind_of_ok (Act.store_storing hr')).trans ?_
  rw [Ambient.storing_storing]
  rfl

@[simp] theorem size_relinked (before : List Block) (next : Link) (m : Ambient) :
    (relinked before next m).memory.size = m.memory.size := by
  unfold relinked
  split
  · exact Memory.size_store _ _ _
  · rfl

theorem take_of_all_lt {size : Word} {bs : List Block} {list : FitList} {m : Ambient}
    (hl : FreeChain.Linked m.memory list.head bs)
    (hsmall : ∀ b ∈ bs, ∃ free, b.size? m.memory = some free ∧ free < size) :
    take size list m = ⟨.ok none, list, m.countReads (2 * bs.length)⟩ := by
  refine (Act.bind_of_ok (x := Act.memorySize) rfl).trans ?_
  refine (Act.bind_of_ok (x := Act.own) rfl).trans ?_
  exact search_of_all_lt hl hsmall (Nat.le_succ_of_le (FreeChain.length_le_size hl))

section FirstFit

variable {size free : Word} {next : Link} {before after : List Block} {b : Block}
  {list : FitList} {m : Ambient}

theorem take_of_first_fit (hl : FreeChain.Linked m.memory list.head (before ++ b :: after))
    (hsmall : ∀ c ∈ before, ∃ free, c.size? m.memory = some free ∧ free < size)
    (hspace : ∀ c ∈ before, c.header.toNat + 4 < Word.bound)
    (hb : b.size? m.memory = some free) (hfit : ¬ free < size)
    (hnext : b.link? m.memory = some next) :
    take size list m =
      (some <$> cut b free size) (relinkedHead before next list)
        (relinked before next (m.countReads (2 * (before.length + 1)))) := by
  have hlen := FreeChain.length_le_size hl
  simp only [List.length_append, List.length_cons] at hlen
  have hprev : ∀ c ∈ before, c.header.toNat + 4 < Word.bound ∧
      c.header.toNat + 8 ≤ (m.countReads (2 * (before.length + 1))).memory.size := by
    intro c hc
    rw [Ambient.memory_countReads]
    exact ⟨hspace c hc, FreeChain.header_le_of_mem hl (List.mem_append_left _ hc)⟩
  refine (Act.bind_of_ok (x := Act.memorySize) rfl).trans ?_
  refine (Act.bind_of_ok (x := Act.own) rfl).trans ?_
  refine (search_of_first_fit hl hsmall hb hfit hnext (by omega)).trans ?_
  rw [Option.or_none]
  exact Act.bind_of_ok (splice_getLast? hprev)

end FirstFit

end FitList

/-! ### The nine chains of a heap -/

namespace Heap

def chainHead (h : Heap) : Option SizeClass → Link
  | some c => h.binHead c
  | none => h.fitHead

def setHead (h : Heap) (k : Option SizeClass) (l : Link) : Heap :=
  match k with
  | some c => { h with bins := h.bins.setHead c l }
  | none => { h with fits := ⟨l⟩ }

@[simp] theorem chainHead_setHead_same (h : Heap) (k : Option SizeClass) (l : Link) :
    (h.setHead k l).chainHead k = l := by
  rcases k with _ | c
  · rfl
  · exact Bins.head_setHead_same h.bins c l

theorem chainHead_setHead_of_ne (h : Heap) {j k : Option SizeClass} (l : Link) (hjk : j ≠ k) :
    (h.setHead k l).chainHead j = h.chainHead j := by
  rcases j with _ | d <;> rcases k with _ | c
  · exact absurd rfl hjk
  · rfl
  · rfl
  · exact Bins.head_setHead_of_ne h.bins l fun he => hjk (by rw [he])

@[simp] theorem region_setHead (h : Heap) (k : Option SizeClass) (l : Link) :
    (h.setHead k l).region = h.region := by cases k <;> rfl

/-- The heap with other counters. -/
def counting (h : Heap) (f : Counters → Counters) : Heap := { h with counters := f h.counters }

@[simp] theorem region_counting (h : Heap) (f : Counters → Counters) :
    (h.counting f).region = h.region := rfl

@[simp] theorem chainHead_counting (h : Heap) (f : Counters → Counters)
    (k : Option SizeClass) : (h.counting f).chainHead k = h.chainHead k := by cases k <;> rfl

end Heap

/-- One more block has joined a chain. -/
def Counters.joined (k : Option SizeClass) (n : Counters) : Counters :=
  match k with
  | some _ => { n with binFrees := n.binFrees + 1 }
  | none => { n with fitFrees := n.fitFrees + 1 }

namespace Heap

/-- The heap after a block joined a chain. -/
def joined (h : Heap) (k : Option SizeClass) (b : Block) : Heap :=
  (h.setHead k (some b)).counting (Counters.joined k)

@[simp] theorem chainHead_joined_same (h : Heap) (k : Option SizeClass) (b : Block) :
    (h.joined k b).chainHead k = some b := by
  rw [joined, chainHead_counting, chainHead_setHead_same]

end Heap

/-- Memory, meter and journal after a block was put in front of a chain. -/
def Ambient.linking (m : Ambient) (b : Block) (size : Word) (next : Link) : Ambient :=
  { m.countRead.countWrite with
    memory := m.memory.store b.slot (Link.toWord next)
    journal := m.journal.push (.blockFreed b.header size) }

namespace Heap

theorem shelve_of_size? {b : Block} {size : Word} {h : Heap} {m : Ambient}
    (hs : b.size? m.memory = some size) (hspace : b.header.toNat + 4 < Word.bound)
    (hmem : b.header.toNat + 8 ≤ m.memory.size) :
    shelve b h m = ⟨.ok (), h.joined (SizeClass.ofSize? size) b,
      m.linking b size (h.chainHead (SizeClass.ofSize? size))⟩ := by
  have hslot := Block.payload_of_lt hspace
  have hword : m.countRead.memory.HasWord b.slot := Block.hasWord_slot hspace hmem
  refine (Act.bind_of_ok (Block.readSize_of_size? hs)).trans ?_
  cases hk : SizeClass.ofSize? size with
  | some c =>
      have hpush := Act.within_of_eq (p := binsPart) (t := h)
        (Bins.push_of_hasWord (c := c) hslot hword)
      refine (Act.bind_of_ok hpush).trans ?_
      rfl
  | none =>
      have hpush := Act.within_of_eq (p := fitsPart) (t := h)
        (FitList.push_of_hasWord hslot hword)
      refine (Act.bind_of_ok hpush).trans ?_
      rfl

/-- Freeing a payload address puts the block four bytes below it on the chain that its header
    names. -/
theorem free_of_size? {a : Addr} {b : Block} {size : Word} {h : Heap} {m : Ambient}
    (ha : a.toNat = b.header.toNat + 4) (hs : b.size? m.memory = some size)
    (hmem : b.header.toNat + 8 ≤ m.memory.size) :
    free a h m = ⟨.ok (), h.joined (SizeClass.ofSize? size) b,
      m.linking b size (h.chainHead (SizeClass.ofSize? size))⟩ := by
  have hspace : b.header.toNat + 4 < Word.bound := ha ▸ a.toNat_lt
  refine (Act.bind_of_ok (Act.check_of_ok (Block.ofPayload_eq_ok_iff.2 ha))).trans ?_
  exact shelve_of_size? hs hspace hmem

/-! ### Serving a size -/

/-- The heap after its frontier moved. -/
def carvedTo (h : Heap) (stop : Nat) : Heap :=
  { h with region := { h.region with frontier := UInt32.ofNat stop } }

@[simp] theorem chainHead_carvedTo (h : Heap) (stop : Nat) (k : Option SizeClass) :
    (h.carvedTo stop).chainHead k = h.chainHead k := by cases k <;> rfl

theorem fromWilderness_of_le {size : Word} {h : Heap} {m : Ambient}
    (hspace : h.frontier.toNat + 4 + size.toNat < Word.bound)
    (hmemory : h.frontier.toNat + 4 + size.toNat ≤ m.memory.size) :
    fromWilderness size h m =
      ⟨.ok ⟨h.frontier⟩,
        (h.carvedTo (h.frontier.toNat + 4 + size.toNat)).counting
          fun n => { n with carved := n.carved + 1 },
        { m.countWrite with
          memory := m.memory.store h.frontier size
          journal := m.journal.push (.blockCarved h.frontier size
            (UInt32.ofNat (h.frontier.toNat + 4 + size.toNat))) }⟩ :=
  Act.bind_of_ok (Act.within_of_eq (Region.carve_of_le hspace hmemory))

/-- What stops a block that cannot be carved. -/
def shortage (h : Heap) (m : Memory) (size : Word) : Fault :=
  if Word.bound ≤ h.frontier.toNat + 4 + size.toNat then .blockPastSpace size h.frontier
  else .blockPastMemory size h.frontier m.size

theorem fromWilderness_of_lt {size : Word} {h : Heap} {m : Ambient}
    (hfull : Word.bound ≤ h.frontier.toNat + 4 + size.toNat ∨
      m.memory.size < h.frontier.toNat + 4 + size.toNat) :
    fromWilderness size h m = ⟨.error (h.shortage m.memory size), h, m⟩ :=
  Act.bind_of_error (Act.within_of_eq (Region.carve_of_lt hfull))

theorem fromBin_of_some {c : SizeClass} {size : Word} {h : Heap} {m : Ambient} {b : Block}
    {next : Link} (hb : h.binHead c = some b) (hnext : b.link? m.memory = some next) :
    fromBin c size h m =
      ⟨.ok b, (h.setHead (some c) next).counting
        fun n => { n with binReuses := n.binReuses + 1 }, m.countRead⟩ :=
  Act.bind_of_ok (Act.within_of_eq (p := binsPart) (Bins.pop_of_head_eq_some hb hnext))

theorem fromBin_of_none {c : SizeClass} {size : Word} {h : Heap} {m : Ambient}
    (hb : h.binHead c = none) : fromBin c size h m = fromWilderness size h m :=
  Act.bind_of_ok (Act.within_of_eq (p := binsPart) (Bins.pop_of_head_eq_none hb))

theorem fromFits_of_all_lt {size : Word} {bs : List Block} {h : Heap} {m : Ambient}
    (hl : FreeChain.Linked m.memory h.fitHead bs)
    (hsmall : ∀ b ∈ bs, ∃ free, b.size? m.memory = some free ∧ free < size) :
    fromFits size h m = fromWilderness size h (m.countReads (2 * bs.length)) :=
  Act.bind_of_ok (Act.within_of_eq (FitList.take_of_all_lt hl hsmall))

/-- The heap after a block that `before` leads to has been taken out of the first-fit list. -/
def relinked (h : Heap) (before : List Block) (next : Link) : Heap :=
  { h with fits := FitList.relinkedHead before next h.fits }

section FirstFit

variable {size free : Word} {next : Link} {before after : List Block} {b : Block} {h : Heap}
  {m : Ambient}

theorem fromFits_of_whole (hl : FreeChain.Linked m.memory h.fitHead (before ++ b :: after))
    (hsmall : ∀ c ∈ before, ∃ free, c.size? m.memory = some free ∧ free < size)
    (hspace : ∀ c ∈ before, c.header.toNat + 4 < Word.bound)
    (hb : b.size? m.memory = some free) (hfit : ¬ free < size)
    (hnext : b.link? m.memory = some next) (hslack : free - size < FitList.leastSlack) :
    fromFits size h m =
      ⟨.ok b, (h.relinked before next).counting
          fun n => { n with fitReuses := n.fitReuses + 1 },
        FitList.relinked before next (m.countReads (2 * (before.length + 1)))⟩ := by
  have htake : FitList.take size h.fits m = ⟨.ok (some (.whole b)),
      FitList.relinkedHead before next h.fits,
      FitList.relinked before next (m.countReads (2 * (before.length + 1)))⟩ := by
    refine (FitList.take_of_first_fit hl hsmall hspace hb hfit hnext).trans ?_
    exact Act.map_of_ok (FitList.cut_of_lt hslack)
  exact Act.bind_of_ok (Act.within_of_eq (p := fitsPart) htake)

theorem fromFits_of_split {rest : Block}
    (hl : FreeChain.Linked m.memory h.fitHead (before ++ b :: after))
    (hsmall : ∀ c ∈ before, ∃ free, c.size? m.memory = some free ∧ free < size)
    (hspace : ∀ c ∈ before, c.header.toNat + 4 < Word.bound)
    (hb : b.size? m.memory = some free) (hfit : ¬ free < size)
    (hnext : b.link? m.memory = some next) (hslack : ¬ free - size < FitList.leastSlack)
    (hrest : rest.header.toNat = b.header.toNat + 4 + size.toNat)
    (hroom : rest.header.toNat + 4 ≤ m.memory.size) :
    fromFits size h m =
      (do shelve rest; return b)
        ((h.relinked before next).counting
          fun n => { n with fitReuses := n.fitReuses + 1, splits := n.splits + 1 })
        (FitList.divided b rest free size
          (FitList.relinked before next (m.countReads (2 * (before.length + 1))))) := by
  have hsize : (FitList.relinked before next
      (m.countReads (2 * (before.length + 1)))).memory.size = m.memory.size := by
    rw [FitList.size_relinked, Ambient.memory_countReads]
  have hcut : FitList.cut b free size (FitList.relinkedHead before next h.fits)
      (FitList.relinked before next (m.countReads (2 * (before.length + 1)))) =
      ⟨.ok (.split b rest), FitList.relinkedHead before next h.fits,
        FitList.divided b rest free size
          (FitList.relinked before next (m.countReads (2 * (before.length + 1))))⟩ := by
    apply FitList.cut_of_le hslack hrest
    · rw [Memory.hasWord_iff, hsize]
      omega
    · rw [Memory.hasWord_iff, hsize]
      exact hroom
  have htake := (FitList.take_of_first_fit hl hsmall hspace hb hfit hnext).trans
    (Act.map_of_ok hcut)
  refine (Act.bind_of_ok (Act.within_of_eq (p := fitsPart) htake)).trans ?_
  exact Act.bind_of_ok (x := count _) rfl

end FirstFit

theorem serve_of_class {c : SizeClass} {size : Word} (hc : SizeClass.ofSize? size = some c) :
    serve size = fromBin c size := by
  rw [serve, hc]

theorem serve_of_no_class {size : Word} (hc : SizeClass.ofSize? size = none) :
    serve size = fromFits size := by
  rw [serve, hc]

theorem allocate_of_serve {request size : Word} {b : Block} {h h' : Heap} {m m' : Ambient}
    (hsize : paddedSize request = .ok size) (hserve : serve size h m = ⟨.ok b, h', m'⟩)
    (hspace : b.header.toNat + 4 < Word.bound) :
    allocate request h m = ⟨.ok b.slot, h', m'⟩ := by
  refine (Act.bind_of_ok (Act.check_of_ok hsize)).trans ?_
  refine (Act.bind_of_ok hserve).trans ?_
  exact Act.check_of_ok (Block.payload_of_lt hspace)

theorem allocate_of_serve_error {request size : Word} {e : Fault} {h h' : Heap}
    {m m' : Ambient} (hsize : paddedSize request = .ok size)
    (hserve : serve size h m = ⟨.error e, h', m'⟩) :
    allocate request h m = ⟨.error e, h', m'⟩ :=
  (Act.bind_of_ok (Act.check_of_ok hsize)).trans (Act.bind_of_error hserve)

theorem allocate_of_padded_error {request : Word} {e : Fault} {h : Heap} {m : Ambient}
    (hsize : paddedSize request = .error e) : allocate request h m = ⟨.error e, h, m⟩ :=
  Act.bind_of_error (Act.check_of_error hsize)

end Heap

/-! ### Slice records -/

namespace SliceRecord

variable {σ : Type} {handle lengthAt : Addr} {s : σ} {m : Ambient}

theorem read_of_load? {data length : Word} (hat : lengthAt.toNat = handle.toNat + 4)
    (hdata : m.memory.load? handle = some data)
    (hlength : m.memory.load? lengthAt = some length) :
    (read handle : Act σ SliceRecord) s m = ⟨.ok ⟨data, length⟩, s, m.countRead.countRead⟩ := by
  have hsum : Word.sum handle 4 = .ok lengthAt := Word.sum_eq_ok_iff.2 hat
  refine (Act.bind_of_ok (Act.load_of_some hdata)).trans ?_
  refine (Act.bind_of_ok (Act.check_of_ok hsum)).trans ?_
  exact Act.bind_of_ok (Act.load_of_some (m := m.countRead) hlength)

theorem write_of_hasWord {r : SliceRecord} (hat : lengthAt.toNat = handle.toNat + 4)
    (hdata : m.memory.HasWord handle) (hlength : m.memory.HasWord lengthAt) :
    (r.write handle : Act σ Unit) s m =
      ⟨.ok (), s,
        { m.countWrite.countWrite with
          memory := (m.memory.store handle r.data).store lengthAt r.length }⟩ := by
  have hsum : Word.sum handle 4 = .ok lengthAt := Word.sum_eq_ok_iff.2 hat
  have hlength' := Ambient.hasWord_storing (a := handle) (w := r.data) hlength
  refine (Act.bind_of_ok (Act.store_storing hdata)).trans ?_
  refine (Act.bind_of_ok (Act.check_of_ok hsum)).trans ?_
  rw [Act.store_storing hlength', Ambient.storing_storing]

end SliceRecord

end LinearHeap
