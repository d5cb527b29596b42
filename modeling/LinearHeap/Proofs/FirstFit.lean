/-
  LinearHeap/Proofs/FirstFit.lean
  ===============================
  **Taking a fit out of any list.**  The search asks little of a list: that it
  ends, and that its blocks lie inside memory and the address space and share no
  byte (`FitList.Carries`).  They may start at any byte, and have any size from
  one word on.

  Then the search returns.  It gives the first block that is large enough, whole
  or cut, and the rest of the list stays as it was, in its order
  (`takes_first_fit`).  Two facts carry the proof.  Linking past a block is one
  store, into the link of the block before it, and no other block owns a byte of
  that link (`Carries.relinked`); and what is written into a block that has been
  taken out is nothing to the blocks that are left (`Carries.spared`).
-/
import LinearHeap.Proofs.Moves

namespace LinearHeap

/-- A link that leads along some blocks is a link to the first of them. -/
theorem FreeChain.head?_of_linked {m : Memory} {l : Link} {bs : List Block}
    (h : Linked m l bs) : l = bs.head? := by
  cases bs with
  | nil => exact h
  | cons b bs => exact h.1

/-- The extent falls into a part of the given size and a rest, each with a header of its own. -/
structure Extent.FallsInto (e : Extent) (size : Nat) (low high : Extent) : Prop where
  lower : low = ⟨e.header, size⟩
  upper : high = ⟨e.header + 4 + size, e.size - size - 4⟩
  room : 8 ≤ high.size
  covers : ∀ i, e.Covers i ↔ low.Covers i ∨ high.Covers i
  apart : low.Apart high

theorem Extent.fallsInto_of_slack {e : Extent} {size : Nat} (hslack : 12 ≤ e.size - size) :
    e.FallsInto size ⟨e.header, size⟩ ⟨e.header + 4 + size, e.size - size - 4⟩ where
  lower := rfl
  upper := rfl
  room := by
    show 8 ≤ e.size - size - 4
    omega
  covers := by
    intro i
    simp only [Covers, stop]
    omega
  apart := Or.inl (Nat.le_refl _)

/-- What is left of a number beyond a word, as a word. -/
theorem toNat_ofNat_sub {n : Nat} {size : Word} (hn : n < Word.bound) (hle : size.toNat ≤ n) :
    (UInt32.ofNat n - size).toNat = n - size.toNat := by
  have hword : (UInt32.ofNat n).toNat = n := toNat_ofNat_of_lt hn
  rw [UInt32.toNat_sub_of_le, hword]
  rwa [UInt32.le_iff_toNat_le, hword]

namespace FitList

/-! ### Lists in memory -/

/-- The list is made of these extents, in this order. -/
structure Carries (list : FitList) (m : Memory) (es : List Extent) : Prop where
  linked : FreeChain.Linked m list.head (es.map Extent.block)
  headers : ∀ e ∈ es, (e.block.size? m).map UInt32.toNat = some e.size
  room : ∀ e ∈ es, 4 ≤ e.size
  inside : ∀ e ∈ es, e.stop ≤ m.size
  space : ∀ e ∈ es, e.stop ≤ Word.bound
  apart : es.Pairwise Extent.Apart

/-- The byte belongs to the link of the last of these extents. -/
def LastLink (before : List Extent) (i : Nat) : Prop :=
  ∃ p, before.getLast? = some p ∧ p.header + 4 ≤ i ∧ i < p.header + 8

/-- What is left of a list when one of its extents is taken out. -/
theorem sublist_rest (before : List Extent) (e : Extent) (after : List Extent) :
    (before ++ after).Sublist (before ++ e :: after) :=
  (List.Sublist.refl before).append (List.sublist_cons_self e after)

namespace Carries

variable {list list' : FitList} {m m' : Memory} {es fs before after : List Extent} {e : Extent}

theorem header_lt (h : list.Carries m es) (he : e ∈ es) : e.header + 4 < Word.bound := by
  have hroom := h.room e he
  have hspace := h.space e he
  simp only [Extent.stop] at hspace
  omega

theorem size_lt (h : list.Carries m es) (he : e ∈ es) : e.size < Word.bound := by
  have hspace := h.space e he
  simp only [Extent.stop] at hspace
  omega

theorem toNat_header (h : list.Carries m es) (he : e ∈ es) :
    e.block.header.toNat = e.header := by
  have hlt := h.header_lt he
  exact Extent.toNat_header_block (by omega)

theorem block_lt (h : list.Carries m es) (he : e ∈ es) :
    e.block.header.toNat + 4 < Word.bound := by
  rw [h.toNat_header he]
  exact h.header_lt he

theorem toNat_slot (h : list.Carries m es) (he : e ∈ es) :
    e.block.slot.toNat = e.header + 4 := by
  rw [Block.toNat_slot (h.block_lt he), h.toNat_header he]

theorem hasWord_slot (h : list.Carries m es) (he : e ∈ es) : m.HasWord e.block.slot := by
  have hroom := h.room e he
  have hinside := h.inside e he
  simp only [Extent.stop] at hinside
  rw [Memory.hasWord_iff, h.toNat_slot he]
  omega

theorem size?_block (h : list.Carries m es) (he : e ∈ es) :
    e.block.size? m = some (UInt32.ofNat e.size) := by
  obtain ⟨size, hload, hsize⟩ := Option.map_eq_some_iff.1 (h.headers e he)
  rw [hload, ← hsize, UInt32.ofNat_toNat]

theorem size_lt_iff (h : list.Carries m es) (he : e ∈ es) {size : Word} :
    UInt32.ofNat e.size < size ↔ e.size < size.toNat := by
  rw [UInt32.lt_iff_toNat_lt, toNat_ofNat_of_lt (h.size_lt he)]

/-- Extents that are too small are blocks that are too small. -/
theorem small_blocks (h : list.Carries m es) (hsub : fs ⊆ es) {size : Word}
    (hsmall : ∀ f ∈ fs, f.size < size.toNat) :
    ∀ b ∈ fs.map Extent.block, ∃ free, b.size? m = some free ∧ free < size := by
  intro b hb
  obtain ⟨f, hf, rfl⟩ := List.mem_map.1 hb
  exact ⟨_, h.size?_block (hsub hf), (h.size_lt_iff (hsub hf)).2 (hsmall f hf)⟩

theorem holds_header (h : list.Carries m es) (he : e ∈ es) :
    m.Holds e.header (UInt32.ofNat e.size) := by
  rw [← h.toNat_header he]
  exact Memory.load?_eq_some_iff_holds.1 (h.size?_block he)

/-- A header is read wherever its four bytes are kept. -/
theorem size?_congr (h : list.Carries m es) (he : e ∈ es)
    (hsame : ∀ i, e.header ≤ i → i < e.header + 4 → m'.byte? i = m.byte? i) :
    (e.block.size? m').map UInt32.toNat = some e.size := by
  have hkept : m'.Holds e.block.header.toNat (UInt32.ofNat e.size) := by
    rw [h.toNat_header he]
    exact (h.holds_header he).congr hsame
  rw [Block.size?, Memory.load?_eq_some_iff_holds.2 hkept, Option.map_some,
    toNat_ofNat_of_lt (h.size_lt he)]

/-- A part of the list is a list, if it is linked and its headers are kept. -/
theorem of_linked (h : list.Carries m es) (hsub : fs.Sublist es) (hsize : m'.size = m.size)
    (hlinked : FreeChain.Linked m' list'.head (fs.map Extent.block))
    (hheaders : ∀ f ∈ fs, ∀ i, f.header ≤ i → i < f.header + 4 → m'.byte? i = m.byte? i) :
    list'.Carries m' fs where
  linked := hlinked
  headers := fun f hf => h.size?_congr (hsub.subset hf) (hheaders f hf)
  room := fun f hf => h.room f (hsub.subset hf)
  inside := by
    intro f hf
    rw [hsize]
    exact h.inside f (hsub.subset hf)
  space := fun f hf => h.space f (hsub.subset hf)
  apart := h.apart.sublist hsub

/-- What is written into an extent apart from the list does not reach the list. -/
theorem spared (h : list.Carries m es) (hout : ∀ f ∈ es, f.Apart e)
    (hchange : m.ChangesOnly e.Covers m') : list.Carries m' es := by
  have hsame : ∀ f ∈ es, ∀ i, f.header ≤ i → i < f.header + 8 → m'.byte? i = m.byte? i := by
    intro f hf i hl hu
    have hroom := h.room f hf
    apply hchange.byte
    exact Extent.not_covers_of_apart (hout f hf) ⟨hl, by simp only [Extent.stop]; omega⟩
  refine h.of_linked (List.Sublist.refl es) hchange.size ?_ fun f hf i hl hu =>
    hsame f hf i hl (by omega)
  -- the links are kept with the headers: a link that was read is read again
  have hlink : ∀ b ∈ es.map Extent.block, b.link? m' = b.link? m := by
    intro b hb
    obtain ⟨f, hf, rfl⟩ := List.mem_map.1 hb
    obtain ⟨front, rear, hfr⟩ := List.append_of_mem (List.mem_map_of_mem (f := Extent.block) hf)
    have hlinked := h.linked
    rw [hfr] at hlinked
    obtain ⟨next, hnext, -⟩ := FreeChain.exists_link?_of_append hlinked
    rw [hnext]
    apply Block.link?_congr hnext
    rw [h.toNat_header hf]
    exact fun i hl hu => hsame f hf i (by omega) hu
  exact FreeChain.linked_congr h.linked hlink

/-- No link of a list leads to a block at the end mark. -/
theorem ne_endMark (h : list.Carries m es) (hsub : fs ⊆ es) :
    (fs.map Extent.block).head? ≠ some ⟨Link.endMark⟩ := by
  intro hend
  cases fs with
  | nil => cases hend
  | cons f fs =>
      have hlt := h.block_lt (hsub List.mem_cons_self)
      rw [Option.some.inj hend] at hlt
      exact absurd hlt (by decide)

/-! ### Taking a block out -/

section Split

variable (h : list.Carries m (before ++ e :: after))

include h

theorem apart_of_mem_rest : ∀ f ∈ before ++ after, f.Apart e := by
  obtain ⟨-, hrear, hcross⟩ := List.pairwise_append.1 h.apart
  intro f hf
  rcases List.mem_append.1 hf with hf | hf
  · exact hcross f hf e List.mem_cons_self
  · exact ((List.pairwise_cons.1 hrear).1 f hf).symm

/-- The link of the block that is taken out leads to the block behind it. -/
theorem link?_taken : e.block.link? m = some (after.map Extent.block).head? := by
  have hlinked := h.linked
  rw [List.map_append, List.map_cons] at hlinked
  obtain ⟨next, hnext, htail⟩ := FreeChain.exists_link?_of_append hlinked
  rw [hnext, FreeChain.head?_of_linked htail]

end Split

/-- A block linked anew, past the one behind it, leaves a list without that one. -/
theorem store_link {p : Extent} (h : list.Carries m ((before ++ [p]) ++ e :: after)) :
    list.Carries (m.store p.block.slot (Link.toWord (after.map Extent.block).head?))
      ((before ++ [p]) ++ after) := by
  have hp : p ∈ (before ++ [p]) ++ e :: after := by simp
  have hslot := h.toNat_slot hp
  have hword := h.hasWord_slot hp
  -- whatever else is on the list lies apart from the block that is linked anew
  obtain ⟨hfront, -, hcross⟩ := List.pairwise_append.1 h.apart
  have hbefore : ∀ f ∈ before, p.Apart f := fun f hf =>
    ((List.pairwise_append.1 hfront).2.2 f hf p (List.mem_singleton.2 rfl)).symm
  have hafter : ∀ f ∈ after, p.Apart f := fun f hf =>
    hcross p (by simp) f (List.mem_cons_of_mem e hf)
  have hroom := h.room p hp
  have hlink : ∀ f ∈ (before ++ [p]) ++ e :: after, p.Apart f →
      f.block.link? (m.store p.block.slot (Link.toWord (after.map Extent.block).head?)) =
        f.block.link? m := by
    intro f hf hapart
    have hroomf := h.room f hf
    apply FreeChain.link?_store_of_disjoint hword
    simp only [Extent.Apart, Extent.stop] at hapart
    rw [hslot, h.toNat_header hf]
    omega
  refine h.of_linked (sublist_rest _ _ _) (Memory.size_store _ _ _) ?_ ?_
  · have hlinked := h.linked
    simp only [List.map_append, List.map_cons, List.append_assoc, List.cons_append,
      List.nil_append] at hlinked ⊢
    have htail : FreeChain.Linked m (after.map Extent.block).head? (after.map Extent.block) := by
      obtain ⟨next, hnext, hrest⟩ := FreeChain.exists_link?_of_append hlinked
      obtain ⟨-, next', -, htail⟩ := hrest
      rwa [← FreeChain.head?_of_linked htail]
    refine FreeChain.linked_redirect hlinked ?_ ?_ (FreeChain.linked_congr htail ?_)
    · intro b hb
      obtain ⟨f, hf, rfl⟩ := List.mem_map.1 hb
      exact hlink f (by simp [hf]) (hbefore f hf)
    · have hend : (after.map Extent.block).head? ≠ some ⟨Link.endMark⟩ :=
        h.ne_endMark fun f hf => by simp [hf]
      rw [Block.link?_eq_some_iff (h.block_lt hp)]
      refine ⟨_, ?_, Link.ofWord_toWord hend⟩
      rw [h.toNat_header hp, ← hslot]
      exact Memory.holds_store hword
    · intro b hb
      obtain ⟨f, hf, rfl⟩ := List.mem_map.1 hb
      exact hlink f (by simp [hf]) (hafter f hf)
  · intro f hf i hl hu
    apply Memory.byte?_store_of_off hword
    rw [hslot]
    by_cases hfp : f = p
    · subst hfp
      omega
    · have hapart : p.Apart f := by
        simp only [List.mem_append, List.mem_singleton] at hf
        rcases hf with (hf | hf) | hf
        · exact hbefore f hf
        · exact absurd hf hfp
        · exact hafter f hf
      have hroomf := h.room f ((sublist_rest _ _ _).subset hf)
      simp only [Extent.Apart, Extent.stop] at hapart
      omega

theorem relinked {m : Ambient} (h : list.Carries m.memory (before ++ e :: after)) :
    (relinkedHead (before.map Extent.block) (after.map Extent.block).head? list).Carries
      (FitList.relinked (before.map Extent.block) (after.map Extent.block).head? m).memory
      (before ++ after) ∧
    m.memory.ChangesOnly (LastLink before)
      (FitList.relinked (before.map Extent.block) (after.map Extent.block).head? m).memory := by
  rcases List.eq_nil_or_concat before with rfl | ⟨front, p, rfl⟩
  · refine ⟨?_, Memory.ChangesOnly.refl _ _⟩
    obtain ⟨-, next, -, htail⟩ := h.linked
    refine h.of_linked (sublist_rest _ _ _) rfl ?_ fun _ _ _ _ _ => rfl
    show FreeChain.Linked m.memory (after.map Extent.block).head? (after.map Extent.block)
    rwa [← FreeChain.head?_of_linked htail]
  · rw [List.concat_eq_append] at h ⊢
    have hp : p ∈ (front ++ [p]) ++ e :: after := by simp
    have hlast : ((front ++ [p]).map Extent.block).getLast? = some p.block := by simp
    have hne : (front ++ [p]).map Extent.block ≠ [] := by simp
    simp only [FitList.relinked, relinkedHead, hlast, if_neg hne]
    refine ⟨h.store_link, ?_⟩
    apply Memory.ChangesOnly.store (h.hasWord_slot hp)
    intro i hl hu
    rw [h.toNat_slot hp] at hl hu
    exact ⟨p, by simp, hl, hu⟩

end Carries

/-! ### What a search gives -/

/-- The extent is given for the size, whole or cut.  What stood before and behind it is left, in its
    order. -/
structure Gives (m : Memory) (size : Nat) (before : List Extent) (e : Extent)
    (after : List Extent) (fit : Fit) (list : FitList) (m' : Memory) : Prop where
  small : ∀ f ∈ before, f.size < size
  large : size ≤ e.size
  left : list.Carries m' (before ++ after)
  whole_iff : e.size - size < 12 ↔
    fit = .whole e.block ∧ (e.block.size? m').map UInt32.toNat = some e.size
  cut_iff : 12 ≤ e.size - size ↔ ∃ low high : Extent, e.FallsInto size low high ∧
    fit = .split low.block high.block ∧
    (low.block.size? m').map UInt32.toNat = some low.size ∧
    (high.block.size? m').map UInt32.toNat = some high.size
  /-- The link of the block in front of it, if there is one, and two headers, if it is cut. -/
  written : m.ChangesOnly (fun i => LastLink before i ∨ (12 ≤ e.size - size ∧
    ((e.header ≤ i ∧ i < e.header + 4) ∨
      (e.header + 4 + size ≤ i ∧ i < e.header + 4 + size + 4)))) m'

/-- Cutting writes the two headers, one behind the other, and nothing else. -/
theorem divided_headers {b rest : Block} {size : Word} (free : Word) {m : Ambient}
    (hb : m.memory.HasWord b.header) (hr : m.memory.HasWord rest.header)
    (hrest : rest.header.toNat = b.header.toNat + 4 + size.toNat) :
    b.size? (divided b rest free size m).memory = some size ∧
      rest.size? (divided b rest free size m).memory =
        some (free - size - Block.headerBytes) ∧
      m.memory.ChangesOnly (fun i =>
        (b.header.toNat ≤ i ∧ i < b.header.toNat + 4) ∨
          (rest.header.toNat ≤ i ∧ i < rest.header.toNat + 4))
        (divided b rest free size m).memory := by
  have hr' : (m.memory.store b.header size).HasWord rest.header := Memory.hasWord_store.2 hr
  refine ⟨?_, Memory.load?_store hr', ?_⟩
  · exact (Memory.load?_store_of_disjoint hr' (by omega)).trans (Memory.load?_store hb)
  · exact (Memory.ChangesOnly.store hb fun i hl hu => Or.inl ⟨hl, hu⟩).trans
      (Memory.ChangesOnly.store hr' fun i hl hu => Or.inr ⟨hl, hu⟩)

/-- Cutting divides an extent that lies inside memory, whatever lies around it. -/
theorem exists_cut {e : Extent} {size : Word} {m : Ambient} (list : FitList)
    (hinside : e.stop ≤ m.memory.size) (hspace : e.stop ≤ Word.bound)
    (hslack : 12 ≤ e.size - size.toNat) :
    ∃ (low high : Extent) (m' : Ambient), e.FallsInto size.toNat low high ∧
      cut e.block (UInt32.ofNat e.size) size list m =
        ⟨.ok (.split low.block high.block), list, m'⟩ ∧
      (low.block.size? m'.memory).map UInt32.toNat = some low.size ∧
      (high.block.size? m'.memory).map UInt32.toNat = some high.size ∧
      m.memory.ChangesOnly (fun i => (e.header ≤ i ∧ i < e.header + 4) ∨
        (e.header + 4 + size.toNat ≤ i ∧ i < e.header + 4 + size.toNat + 4)) m'.memory := by
  simp only [Extent.stop] at hinside hspace
  have hsub : (UInt32.ofNat e.size - size).toNat = e.size - size.toNat :=
    toNat_ofNat_sub (by omega) (by omega)
  have hword : ¬ UInt32.ofNat e.size - size < leastSlack := by
    rw [UInt32.lt_iff_toNat_lt, hsub]
    exact Nat.not_lt.2 hslack
  have h4 : Block.headerBytes.toNat = 4 := rfl
  have hupper : (UInt32.ofNat e.size - size - Block.headerBytes).toNat =
      e.size - size.toNat - 4 := by
    rw [UInt32.toNat_sub_of_le, hsub, h4]
    rw [UInt32.le_iff_toNat_le, hsub, h4]
    omega
  have hheader : e.block.header.toNat = e.header := Extent.toNat_header_block (by omega)
  have hrest : (Extent.block ⟨e.header + 4 + size.toNat, e.size - size.toNat - 4⟩).header.toNat =
      e.header + 4 + size.toNat := Extent.toNat_header_block (by dsimp only; omega)
  have hb : m.memory.HasWord e.block.header := by
    rw [Memory.hasWord_iff, hheader]
    omega
  have hr : m.memory.HasWord
      (Extent.block ⟨e.header + 4 + size.toNat, e.size - size.toNat - 4⟩).header := by
    rw [Memory.hasWord_iff, hrest]
    omega
  have hmeet := hrest.trans (congrArg (· + 4 + size.toNat) hheader.symm)
  obtain ⟨hlow, hhigh, hwritten⟩ := divided_headers (UInt32.ofNat e.size) hb hr hmeet
  rw [hheader, hrest] at hwritten
  refine ⟨_, _, _, Extent.fallsInto_of_slack hslack, cut_of_le hword hmeet hb hr, ?_, ?_, hwritten⟩
  · exact congrArg (Option.map UInt32.toNat) hlow
  · rw [hhigh, Option.map_some, hupper]

section FirstFit

variable {list : FitList} {m : Ambient} {es before after : List Extent} {e : Extent} {size : Word}

/-- A search comes to cutting the first block that is large enough, with the list linked past it. -/
theorem Carries.exists_take (h : list.Carries m.memory (before ++ e :: after))
    (hsmall : ∀ f ∈ before, f.size < size.toNat) (hlarge : size.toNat ≤ e.size) :
    ∃ list₁ m₁, take size list m = (some <$> cut e.block (UInt32.ofNat e.size) size) list₁ m₁ ∧
      list₁.Carries m₁.memory (before ++ after) ∧
      m.memory.ChangesOnly (LastLink before) m₁.memory := by
  have hsub : before ⊆ before ++ e :: after := List.subset_append_left _ _
  have he : e ∈ before ++ e :: after := List.mem_append_right _ List.mem_cons_self
  have hlinked := h.linked
  rw [List.map_append, List.map_cons] at hlinked
  have hlt : ∀ b ∈ before.map Extent.block, b.header.toNat + 4 < Word.bound := by
    intro b hb
    obtain ⟨f, hf, rfl⟩ := List.mem_map.1 hb
    exact h.block_lt (hsub hf)
  have htake := take_of_first_fit hlinked (h.small_blocks hsub hsmall) hlt (h.size?_block he)
    (fun hlt => Nat.not_lt.2 hlarge ((h.size_lt_iff he).1 hlt)) h.link?_taken
  obtain ⟨hleft, hchange⟩ := Carries.relinked
    (m := m.countReads (2 * ((before.map Extent.block).length + 1)))
    (by rwa [Ambient.memory_countReads])
  rw [Ambient.memory_countReads] at hchange
  exact ⟨_, _, htake, hleft, hchange⟩

theorem Carries.gives_whole (h : list.Carries m.memory (before ++ e :: after))
    (hsmall : ∀ f ∈ before, f.size < size.toNat) (hlarge : size.toNat ≤ e.size)
    (hslack : e.size - size.toNat < 12) :
    ∃ list' m', take size list m = ⟨.ok (some (.whole e.block)), list', m'⟩ ∧
      Gives m.memory size.toNat before e after (.whole e.block) list' m'.memory := by
  have he : e ∈ before ++ e :: after := List.mem_append_right _ List.mem_cons_self
  have hword : UInt32.ofNat e.size - size < leastSlack := by
    rw [UInt32.lt_iff_toNat_lt, toNat_ofNat_sub (h.size_lt he) hlarge]
    exact hslack
  obtain ⟨list₁, m₁, htake, hleft, hchange⟩ := h.exists_take hsmall hlarge
  refine ⟨list₁, m₁, htake.trans (Act.map_of_ok (cut_of_lt hword)), ?_⟩
  refine ⟨hsmall, hlarge, hleft, ⟨fun _ => ⟨rfl, ?_⟩, fun _ => hslack⟩, ?_,
    hchange.mono fun i hi => Or.inl hi⟩
  · apply h.size?_congr he
    intro i hl hu
    apply hchange.byte
    -- the link that was written is a link of another block
    rintro ⟨p, hp, hpl, hpu⟩
    have hp := List.mem_of_getLast? hp
    have hroom := h.room e he
    have hroomp := h.room p (List.mem_append_left _ hp)
    exact Extent.not_covers_of_apart
      (h.apart_of_mem_rest p (List.mem_append_left _ hp))
      ⟨by omega, by simp only [Extent.stop]; omega⟩ ⟨hl, by simp only [Extent.stop]; omega⟩
  · constructor
    · intro hcut
      omega
    · rintro ⟨low, high, -, hfit, -⟩
      cases hfit

theorem Carries.gives_cut (h : list.Carries m.memory (before ++ e :: after))
    (hsmall : ∀ f ∈ before, f.size < size.toNat) (hlarge : size.toNat ≤ e.size)
    (hslack : 12 ≤ e.size - size.toNat) :
    ∃ fit list' m', take size list m = ⟨.ok (some fit), list', m'⟩ ∧
      Gives m.memory size.toNat before e after fit list' m'.memory := by
  have he : e ∈ before ++ e :: after := List.mem_append_right _ List.mem_cons_self
  obtain ⟨list₁, m₁, htake, hleft, hchange⟩ := h.exists_take hsmall hlarge
  have hinside : e.stop ≤ m₁.memory.size := by
    rw [hchange.size]
    exact h.inside e he
  obtain ⟨low, high, m', hfalls, hcut, hlow, hhigh, hwritten⟩ :=
    exists_cut list₁ hinside (h.space e he) hslack
  refine ⟨_, list₁, m', htake.trans (Act.map_of_ok hcut), ?_⟩
  refine ⟨hsmall, hlarge, ?_, ?_, ?_, ?_⟩
  · apply hleft.spared h.apart_of_mem_rest
    apply hwritten.mono
    simp only [Extent.Covers, Extent.stop]
    omega
  · constructor
    · intro hwhole
      omega
    · rintro ⟨hfit, -⟩
      cases hfit
  · exact ⟨fun _ => ⟨low, high, hfalls, rfl, hlow, hhigh⟩, fun _ => hslack⟩
  · exact (hchange.mono fun i hi => Or.inl hi).trans (hwritten.mono fun i hi => Or.inr ⟨hslack, hi⟩)

end FirstFit

/-- On every list of blocks that share no byte and lie in memory, a search returns.  It finds
    nothing just when every block is too small, and then nothing has changed; otherwise it gives the
    first block that is large enough and leaves the others as they were. -/
theorem takes_first_fit {list : FitList} {m : Ambient} {es : List Extent} {size : Word}
    (h : list.Carries m.memory es) :
    ∃ found list' m', take size list m = ⟨.ok found, list', m'⟩ ∧
      (found = none ↔ ∀ e ∈ es, e.size < size.toNat) ∧
      (found = none → list' = list ∧ m'.memory = m.memory) ∧
      ∀ fit, found = some fit → ∃ before e after, es = before ++ e :: after ∧
        Gives m.memory size.toNat before e after fit list' m'.memory := by
  cases hfind : es.find? fun e => decide (size.toNat ≤ e.size) with
  | none =>
      have hsmall : ∀ e ∈ es, e.size < size.toNat := by
        intro e he
        simpa using List.find?_eq_none.1 hfind e he
      have hblocks := h.small_blocks (List.Subset.refl es) hsmall
      refine ⟨none, list, _, take_of_all_lt h.linked hblocks, by simpa using hsmall, ?_, nofun⟩
      exact fun _ => ⟨rfl, Ambient.memory_countReads _ _⟩
  | some e =>
      obtain ⟨before, after, rfl, -, hfit, hbefore⟩ := exists_append_of_find?_eq_some hfind
      have hlarge := of_decide_eq_true hfit
      have hsmall : ∀ f ∈ before, f.size < size.toNat := by
        intro f hf
        simpa using hbefore f hf
      obtain ⟨fit, list', m', htake, hgives⟩ : ∃ fit list' m',
          take size list m = ⟨.ok (some fit), list', m'⟩ ∧
            Gives m.memory size.toNat before e after fit list' m'.memory := by
        by_cases hslack : e.size - size.toNat < 12
        · obtain ⟨list', m', hwhole⟩ := h.gives_whole hsmall hlarge hslack
          exact ⟨_, list', m', hwhole⟩
        · exact h.gives_cut hsmall hlarge (Nat.not_lt.1 hslack)
      refine ⟨some fit, list', m', htake, ?_, nofun, ?_⟩
      · constructor
        · intro hnone
          cases hnone
        · intro hall
          have hlt := hall e (List.mem_append_right _ List.mem_cons_self)
          omega
      · rintro _ ⟨⟩
        exact ⟨before, e, after, rfl, hgives⟩

/-- Three blocks at odd addresses, of sizes that are no multiples of four; the second one is cut. -/
theorem takes_first_fit_of_odd_blocks :
    let m : Memory := ((((((Memory.zeros 96).store 50 7).store 54 3).store 3 33).store 7 61).store
      61 20).store 65 Link.endMark
    let es : List Extent := [⟨50, 7⟩, ⟨3, 33⟩, ⟨61, 20⟩]
    let o := take 9 ⟨some ⟨50⟩⟩ { memory := m }
    (FitList.mk (some ⟨50⟩)).Carries m es ∧ o.result = .ok (some (.split ⟨3⟩ ⟨16⟩)) ∧
      ∃ before e after, es = before ++ e :: after ∧
        Gives m 9 before e after (.split ⟨3⟩ ⟨16⟩) o.own o.ambient.memory := by
  intro m es o
  have hcarries : (FitList.mk (some ⟨50⟩)).Carries m es :=
    { linked := ⟨rfl, some ⟨3⟩, by decide +kernel, rfl, some ⟨61⟩, by decide +kernel, rfl, none,
        by decide +kernel, rfl⟩
      headers := by decide +kernel
      room := by decide
      inside := by decide +kernel
      space := by decide
      apart := by decide }
  have hresult : o.result = .ok (some (.split ⟨3⟩ ⟨16⟩)) := by decide +kernel
  refine ⟨hcarries, hresult, ?_⟩
  obtain ⟨found, list', m', htake, -, -, hgives⟩ :=
    @takes_first_fit ⟨some ⟨50⟩⟩ { memory := m } es 9 hcarries
  have ho : o = ⟨.ok found, list', m'⟩ := htake
  rw [ho] at hresult ⊢
  exact hgives _ (Except.ok.inj hresult)

end FitList

end LinearHeap
