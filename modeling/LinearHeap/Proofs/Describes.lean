/-
  LinearHeap/Proofs/Describes.lean
  ================================
  **When an inventory describes a heap in memory.**  The bounds agree, the header
  of every extent holds its size, and each of the nine chains leads in memory
  along exactly the extents of the inventory's chain.  Memory has to agree on
  little: the headers, and the links of what is free (`Guards`).  Payloads of
  live extents are not looked at, so whatever a guest writes there changes
  nothing (`Describes.congr`).

  Each of the four moves of an inventory is a store or two in memory; the lemmas
  of the last section say which, and that the description still holds.
-/
import LinearHeap.Proofs.Acts
import LinearHeap.Proofs.Soundness

namespace LinearHeap

namespace Inventory

structure Describes (inv : Inventory) (h : Heap) (m : Memory) : Prop where
  sound : inv.Sound
  start : h.start.toNat = inv.start
  frontier : h.frontier.toNat = inv.frontier
  inside : ∀ e ∈ inv.extents, e.stop ≤ m.size
  headers : ∀ e ∈ inv.extents, m.Holds e.header (UInt32.ofNat e.size)
  chains : ∀ k, FreeChain.Linked m (h.chainHead k) ((inv.chain k).map Extent.block)

/-- The byte belongs to a header, or to the link of a free extent. -/
def Guards (inv : Inventory) (i : Nat) : Prop :=
  (∃ e ∈ inv.extents, e.header ≤ i ∧ i < e.header + 4) ∨
    ∃ k, ∃ e ∈ inv.chain k, e.header + 4 ≤ i ∧ i < e.header + 8

/-- The payload of what is handed out is never looked at. -/
theorem Sound.not_guards_of_payload {inv : Inventory} (h : inv.Sound) {e : Extent}
    (he : e ∈ inv.live) {i : Nat} (hl : e.payload ≤ i) (hu : i < e.stop) : ¬ inv.Guards i := by
  have hmem := mem_extents_of_live he
  simp only [Extent.payload] at hl
  rintro (⟨f, hf, hfl, hfu⟩ | ⟨k, f, hf, hfl, hfu⟩)
  · by_cases hfe : f = e
    · subst hfe
      omega
    · have height := h.header_add_eight_le hf
      exact Extent.not_covers_of_apart (h.apart hf hmem hfe) ⟨hfl, by omega⟩ ⟨by omega, hu⟩
  · have hfm := mem_extents_of_chain hf
    have hfe : f ≠ e := by
      rintro rfl
      exact h.not_mem_chain_of_live he k hf
    have height := h.header_add_eight_le hfm
    exact Extent.not_covers_of_apart (h.apart hfm hmem hfe) ⟨by omega, by omega⟩ ⟨by omega, hu⟩

namespace Describes

variable {inv : Inventory} {h : Heap} {m m' : Memory}

theorem size?_block (hd : inv.Describes h m) {e : Extent} (he : e ∈ inv.extents) :
    e.block.size? m = some (UInt32.ofNat e.size) := by
  rw [Block.size?, Memory.load?_eq_some_iff_holds, hd.sound.toNat_header he]
  exact hd.headers e he

theorem block_lt (hd : inv.Describes h m) {e : Extent} (he : e ∈ inv.extents) :
    e.block.header.toNat + 4 < Word.bound := by
  have hlt := hd.sound.header_lt he
  rw [hd.sound.toNat_header he]
  omega

theorem block_le (hd : inv.Describes h m) {e : Extent} (he : e ∈ inv.extents) :
    e.block.header.toNat + 8 ≤ m.size := by
  have hstop := hd.inside e he
  have height := hd.sound.header_add_eight_le he
  rw [hd.sound.toNat_header he]
  omega

theorem toNat_slot (hd : inv.Describes h m) {e : Extent} (he : e ∈ inv.extents) :
    e.block.slot.toNat = e.header + 4 := by
  rw [Block.toNat_slot (hd.block_lt he), hd.sound.toNat_header he]

theorem hasWord_slot (hd : inv.Describes h m) {e : Extent} (he : e ∈ inv.extents) :
    m.HasWord e.block.slot := Block.hasWord_slot (hd.block_lt he) (hd.block_le he)

theorem toNat_size (hd : inv.Describes h m) {e : Extent} (he : e ∈ inv.extents) :
    (UInt32.ofNat e.size).toNat = e.size := toNat_ofNat_of_lt (hd.sound.size_lt he)

/-- No link leads to a block at the end mark. -/
theorem ne_endMark_of_linked (hd : inv.Describes h m) {l : Link} {es : List Extent}
    (hl : FreeChain.Linked m l (es.map Extent.block)) (hes : ∀ e ∈ es, e ∈ inv.extents) :
    l ≠ some ⟨Link.endMark⟩ := by
  intro hend
  subst hend
  cases es with
  | nil => cases hl
  | cons e es =>
      have hblock : (⟨Link.endMark⟩ : Block) = e.block := Option.some.inj hl.1
      have hlt := hd.block_lt (hes e List.mem_cons_self)
      rw [← hblock] at hlt
      exact absurd hlt (by decide)

theorem chainHead_ne_endMark (hd : inv.Describes h m) (k : Option SizeClass) :
    h.chainHead k ≠ some ⟨Link.endMark⟩ :=
  hd.ne_endMark_of_linked (hd.chains k) fun _ he => mem_extents_of_chain he

theorem link?_congr (hd : inv.Describes h m) {k : Option SizeClass} {e : Extent}
    (he : e ∈ inv.chain k)
    (hsame : ∀ i, e.header + 4 ≤ i → i < e.header + 8 → m'.byte? i = m.byte? i) :
    e.block.link? m' = e.block.link? m := by
  have hl : ∃ next, e.block.link? m = some next := by
    obtain ⟨before, after, hk⟩ := List.append_of_mem (List.mem_map_of_mem (f := Extent.block) he)
    have hlinked := hd.chains k
    rw [hk] at hlinked
    obtain ⟨l, hl⟩ := FreeChain.linked_of_append hlinked
    exact ⟨_, hl.2.choose_spec.1⟩
  obtain ⟨next, hnext⟩ := hl
  rw [hnext]
  apply Block.link?_congr hnext
  rw [hd.sound.toNat_header (mem_extents_of_chain he)]
  exact hsame

/-- A description outlives every change of memory that spares headers and links. -/
theorem congr (hd : inv.Describes h m) (hsize : m.size ≤ m'.size)
    (hsame : ∀ i, inv.Guards i → m'.byte? i = m.byte? i) : inv.Describes h m' where
  sound := hd.sound
  start := hd.start
  frontier := hd.frontier
  inside := fun e he => Nat.le_trans (hd.inside e he) hsize
  headers := fun e he =>
    (hd.headers e he).congr fun j hl hu => hsame j (Or.inl ⟨e, he, hl, hu⟩)
  chains := by
    intro k
    apply FreeChain.linked_congr (hd.chains k)
    intro b hb
    obtain ⟨e, he, rfl⟩ := List.mem_map.1 hb
    exact hd.link?_congr he fun i hl hu => hsame i (Or.inr ⟨k, e, he, hl, hu⟩)

theorem withLive (hd : inv.Describes h m) {live : List Extent} (hperm : live.Perm inv.live) :
    (inv.withLive live).Describes h m := by
  have hmem : ∀ e, e ∈ (inv.withLive live).extents → e ∈ inv.extents := by
    intro e he
    rw [extents, shelved_withLive] at he
    rw [extents]
    exact (hperm.append_right inv.shelved).mem_iff.1 he
  exact
    { sound := hd.sound.withLive hperm
      start := hd.start
      frontier := hd.frontier
      inside := fun e he => hd.inside e (hmem e he)
      headers := fun e he => hd.headers e (hmem e he)
      chains := fun k => by
        rw [chain_withLive]
        exact hd.chains k }

/-- Counters and other marks of a heap are not part of the description. -/
theorem of_heap {h' : Heap} (hd : inv.Describes h m) (hregion : h'.region = h.region)
    (hheads : ∀ k, h'.chainHead k = h.chainHead k) : inv.Describes h' m where
  sound := hd.sound
  start := by rw [Heap.start, hregion]; exact hd.start
  frontier := by rw [Heap.frontier, hregion]; exact hd.frontier
  inside := hd.inside
  headers := hd.headers
  chains := by
    intro k
    rw [hheads]
    exact hd.chains k

theorem counting (hd : inv.Describes h m) (f : Counters → Counters) :
    inv.Describes (h.counting f) m :=
  hd.of_heap (Heap.region_counting h f) (Heap.chainHead_counting h f)

end Describes

theorem describes_empty {start : Addr} {m : Memory} (haligned : start.toNat % 4 = 0) :
    (fresh start.toNat).Describes (Heap.empty start) m where
  sound := sound_fresh haligned start.toNat_lt
  start := rfl
  frontier := rfl
  inside := by
    intro e he
    obtain he | ⟨_ | c, he⟩ := mem_extents_iff.1 he <;> cases he
  headers := by
    intro e he
    obtain he | ⟨_ | c, he⟩ := mem_extents_iff.1 he <;> cases he
  chains := by
    rintro (_ | c)
    · rfl
    · show (Heap.empty start).binHead c = none
      simp [Heap.empty, Heap.binHead, Bins.head]

end Inventory

end LinearHeap
