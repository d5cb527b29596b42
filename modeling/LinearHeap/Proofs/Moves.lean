/-
  LinearHeap/Proofs/Moves.lean
  ============================
  **The four moves in memory.**  Taking an extent out of a chain, putting one on
  its chain, cutting one and carving one are each a store or two; if the inventory
  described the heap before, the inventory after the move describes it after the
  stores.

  All stores go to two kinds of places: the link of an extent, which no header and
  no other extent's link overlaps, and the inside of an extent that is out of all
  chains.
-/
import LinearHeap.Proofs.Describes

namespace LinearHeap

namespace FreeChain

theorem exists_link?_of_append {m : Memory} {l : Link} {before after : List Block} {b : Block}
    (h : Linked m l (before ++ b :: after)) :
    ∃ next, b.link? m = some next ∧ Linked m next after := by
  obtain ⟨l', hl'⟩ := linked_of_append h
  exact hl'.2

/-- A chain whose block `p` was linked anew, to where `after` begins. -/
theorem linked_redirect {m m' : Memory} {l next : Link} {before rest after : List Block}
    {p : Block} (h : Linked m l (before ++ p :: rest))
    (hbefore : ∀ q ∈ before, q.link? m' = q.link? m) (hp : p.link? m' = some next)
    (hafter : Linked m' next after) : Linked m' l (before ++ p :: after) := by
  induction before generalizing l with
  | nil => exact ⟨h.1, next, hp, hafter⟩
  | cons q before ih =>
      obtain ⟨rfl, next', hnext', htail⟩ := h
      refine ⟨rfl, next', ?_, ih htail fun c hc => hbefore c (List.mem_cons_of_mem q hc)⟩
      rw [hbefore q List.mem_cons_self, hnext']

end FreeChain

namespace Inventory

namespace Describes

variable {inv : Inventory} {h h' : Heap} {m m' : Memory} {e p : Extent} {w : Word}

/-! ### Stores into links -/

theorem byte?_store_slot (hd : inv.Describes h m) (hp : p ∈ inv.extents) {i : Nat}
    (hi : i < p.header + 4 ∨ p.header + 8 ≤ i) :
    (m.store p.block.slot w).byte? i = m.byte? i := by
  apply Memory.byte?_store_of_off (hd.hasWord_slot hp)
  rw [hd.toNat_slot hp]
  omega

theorem changesOnly_store_slot (hd : inv.Describes h m) (hp : p ∈ inv.extents) :
    Memory.ChangesOnly (fun i => p.header + 4 ≤ i ∧ i < p.header + 8) m
      (m.store p.block.slot w) := by
  apply Memory.ChangesOnly.store (hd.hasWord_slot hp)
  intro i hl hu
  rw [hd.toNat_slot hp] at hl hu
  exact ⟨hl, hu⟩

theorem header_store_slot (hd : inv.Describes h m) (hp : p ∈ inv.extents)
    (he : e ∈ inv.extents) : (m.store p.block.slot w).Holds e.header (UInt32.ofNat e.size) := by
  apply (hd.headers e he).congr
  intro j hl hu
  apply hd.byte?_store_slot hp
  by_cases hep : e = p
  · subst hep
    omega
  · have hapart := hd.sound.apart he hp hep
    have hroom := hd.sound.header_add_eight_le he
    have hroom' := hd.sound.header_add_eight_le hp
    simp only [Extent.Apart] at hapart
    omega

theorem link?_store_slot_of_ne (hd : inv.Describes h m) (hp : p ∈ inv.extents)
    (he : e ∈ inv.extents) (hep : e ≠ p) :
    e.block.link? (m.store p.block.slot w) = e.block.link? m := by
  apply FreeChain.link?_store_of_disjoint (hd.hasWord_slot hp)
  have hapart := hd.sound.apart he hp hep
  have hroom := hd.sound.header_add_eight_le he
  have hroom' := hd.sound.header_add_eight_le hp
  simp only [Extent.Apart] at hapart
  rw [hd.toNat_slot hp, hd.sound.toNat_header he]
  omega

theorem link?_store_slot_same (hd : inv.Describes h m) (hp : p ∈ inv.extents) {l : Link}
    (hl : l ≠ some ⟨Link.endMark⟩) :
    p.block.link? (m.store p.block.slot (Link.toWord l)) = some l := by
  rw [Block.link?_eq_some_iff (hd.block_lt hp)]
  refine ⟨Link.toWord l, ?_, Link.ofWord_toWord hl⟩
  rw [hd.sound.toNat_header hp, ← hd.toNat_slot hp]
  exact Memory.holds_store (hd.hasWord_slot hp)

/-! ### Out of a chain -/

section Take

variable {k : Option SizeClass} {before after : List Extent}

/-- What is left to show when an extent leaves a chain: the headers, the links of the other
    chains, and the chain it left. -/
theorem take_of_linked (hd : inv.Describes h m) (hk : inv.chain k = before ++ e :: after)
    (hregion : h'.region = h.region) (hheads : ∀ j, j ≠ k → h'.chainHead j = h.chainHead j)
    (hsize : m'.size = m.size)
    (hheaders : ∀ f ∈ inv.extents, m'.Holds f.header (UInt32.ofNat f.size))
    (hlinks : ∀ j, j ≠ k → ∀ f ∈ inv.chain j, f.block.link? m' = f.block.link? m)
    (hchain : FreeChain.Linked m' (h'.chainHead k) ((before ++ after).map Extent.block)) :
    (inv.take k before after e).Describes h' m' where
  sound := hd.sound.take hk
  start := by
    rw [start_take, Heap.start, hregion]
    exact hd.start
  frontier := by
    rw [frontier_take, Heap.frontier, hregion]
    exact hd.frontier
  inside := by
    intro f hf
    rw [hsize]
    exact hd.inside f ((hd.sound.extents_take hk).mem_iff.1 hf)
  headers := fun f hf => hheaders f ((hd.sound.extents_take hk).mem_iff.1 hf)
  chains := by
    intro j
    by_cases hj : j = k
    · subst hj
      rw [hd.sound.chain_take_same hk]
      exact hchain
    · rw [chain_take_of_ne hj, hheads j hj]
      apply FreeChain.linked_congr (hd.chains j)
      intro b hb
      obtain ⟨f, hf, rfl⟩ := List.mem_map.1 hb
      exact hlinks j hj f hf

theorem chain_linked (hd : inv.Describes h m) (hk : inv.chain k = before ++ e :: after) :
    FreeChain.Linked m (h.chainHead k)
      (before.map Extent.block ++ e.block :: after.map Extent.block) := by
  have hl := hd.chains k
  rwa [hk, List.map_append, List.map_cons] at hl

/-- The first extent of a chain leaves it; memory is not written. -/
theorem take_first (hd : inv.Describes h m) (hk : inv.chain k = e :: after) :
    h.chainHead k = some e.block ∧ ∃ next, e.block.link? m = some next ∧
      (inv.take k [] after e).Describes (h.setHead k next) m := by
  have hl := hd.chains k
  rw [hk] at hl
  obtain ⟨hhead, next, hnext, htail⟩ := hl
  refine ⟨hhead, next, hnext, ?_⟩
  apply hd.take_of_linked hk (Heap.region_setHead h k next)
    (fun j hj => Heap.chainHead_setHead_of_ne h next hj) rfl hd.headers (fun _ _ _ _ => rfl)
  rw [Heap.chainHead_setHead_same]
  exact htail

/-- An extent leaves the middle of the first-fit list: the one before it is linked past it. -/
theorem take_behind (hd : inv.Describes h m) {next : Link}
    (hk : inv.chain none = (before ++ [p]) ++ e :: after) (hnext : e.block.link? m = some next) :
    (inv.take none (before ++ [p]) after e).Describes h
      (m.store p.block.slot (Link.toWord next)) := by
  have hlinked := hd.chain_linked hk
  obtain ⟨next', hnext', htail⟩ := FreeChain.exists_link?_of_append hlinked
  rw [hnext] at hnext'
  cases hnext'
  have hmem : ∀ f, f ∈ before ∨ f = p ∨ f ∈ after → f ∈ inv.extents := by
    intro f hf
    apply mem_extents_of_chain (k := none)
    rw [hk]
    simp only [List.mem_append, List.mem_cons, List.not_mem_nil]
    tauto
  -- `p` alone gets a new link, and it occurs in no other chain and once in this one
  have hp : p ∈ inv.extents := hmem p (Or.inr (Or.inl rfl))
  have hnodup := hd.sound.nodup_chain none
  rw [hk] at hnodup
  have hsplit := List.nodup_append.1 hnodup
  have hbefore : ∀ f ∈ before, f ≠ p := fun f hf =>
    (List.nodup_append.1 hsplit.1).2.2 f hf p (List.mem_singleton.2 rfl)
  have hafter : ∀ f ∈ after, f ≠ p := fun f hf hfp =>
    hsplit.2.2 p (by simp) f (List.mem_cons_of_mem e hf) hfp.symm
  have hend : next ≠ some ⟨Link.endMark⟩ :=
    hd.ne_endMark_of_linked htail fun f hf => hmem f (Or.inr (Or.inr hf))
  apply hd.take_of_linked hk rfl (fun _ _ => rfl) (Memory.size_store _ _ _)
    (fun f hf => hd.header_store_slot hp hf)
  · intro j hj f hf
    have hfp : f ≠ p := by
      rintro rfl
      have hpk : f ∈ inv.chain none := by
        rw [hk]
        simp
      exact hj ((hd.sound.class_of_mem_chain hf).symm.trans (hd.sound.class_of_mem_chain hpk))
    exact hd.link?_store_slot_of_ne hp (mem_extents_of_chain hf) hfp
  · simp only [List.map_append, List.map_cons, List.map_nil, List.append_assoc,
      List.cons_append, List.nil_append] at hlinked ⊢
    apply FreeChain.linked_redirect hlinked ?_ (hd.link?_store_slot_same hp hend) ?_
    · intro b hb
      obtain ⟨f, hf, rfl⟩ := List.mem_map.1 hb
      exact hd.link?_store_slot_of_ne hp (hmem f (Or.inl hf)) (hbefore f hf)
    · apply FreeChain.linked_congr htail
      intro b hb
      obtain ⟨f, hf, rfl⟩ := List.mem_map.1 hb
      exact hd.link?_store_slot_of_ne hp (hmem f (Or.inr (Or.inr hf))) (hafter f hf)

end Take

/-! ### Onto a chain -/

section Shelve

variable {live : List Extent}

theorem shelve (hd : (inv.withLive (e :: live)).Describes h m) :
    ((inv.withLive live).shelve e).Describes
      (h.setHead (SizeClass.ofNat? e.size) (some e.block))
      (m.store e.block.slot (Link.toWord (h.chainHead (SizeClass.ofNat? e.size)))) := by
  have he : e ∈ (inv.withLive (e :: live)).extents := mem_extents_of_live List.mem_cons_self
  have hperm := hd.sound.extents_shelve
  have hchain : ∀ j, ∀ f ∈ inv.chain j,
      f.block.link? (m.store e.block.slot
        (Link.toWord (h.chainHead (SizeClass.ofNat? e.size)))) = f.block.link? m := by
    intro j f hf
    have hf' : f ∈ (inv.withLive (e :: live)).chain j := by rwa [chain_withLive]
    have hfe : f ≠ e := by
      rintro rfl
      exact hd.sound.not_mem_chain_of_live List.mem_cons_self j hf'
    exact hd.link?_store_slot_of_ne he (mem_extents_of_chain hf') hfe
  have hlinked : ∀ j, FreeChain.Linked (m.store e.block.slot
      (Link.toWord (h.chainHead (SizeClass.ofNat? e.size)))) (h.chainHead j)
      ((inv.chain j).map Extent.block) := by
    intro j
    have hl := hd.chains j
    rw [chain_withLive] at hl
    apply FreeChain.linked_congr hl
    intro b hb
    obtain ⟨f, hf, rfl⟩ := List.mem_map.1 hb
    exact hchain j f hf
  refine ⟨hd.sound.shelve, ?_, ?_, ?_, ?_, ?_⟩
  · rw [shelve_eq_withChain, start_withChain, Heap.start, Heap.region_setHead]
    exact hd.start
  · rw [shelve_eq_withChain, frontier_withChain, Heap.frontier, Heap.region_setHead]
    exact hd.frontier
  · intro f hf
    rw [Memory.size_store]
    exact hd.inside f (hperm.mem_iff.1 hf)
  · intro f hf
    exact hd.header_store_slot he (hperm.mem_iff.1 hf)
  · intro j
    by_cases hj : j = SizeClass.ofNat? e.size
    · subst hj
      rw [Heap.chainHead_setHead_same, hd.sound.chain_shelve_same]
      exact ⟨rfl, _, hd.link?_store_slot_same he (hd.chainHead_ne_endMark _), hlinked _⟩
    · rw [Heap.chainHead_setHead_of_ne h _ hj, chain_shelve_of_ne hj]
      exact hlinked j

end Shelve

/-! ### Cutting and carving -/

section Cut

variable {live : List Extent} {low high : Extent} {lowAt highAt : Addr} {v : Word}

theorem hasWord_cut (hd : inv.Describes h m) (he : e ∈ inv.extents) (hp : e.Parts low high)
    (hlow : lowAt.toNat = low.header) (hhigh : highAt.toNat = high.header) :
    m.HasWord lowAt ∧ (m.store lowAt v).HasWord highAt := by
  have hinside := hd.inside e he
  have hmeet := hp.meet
  have hstop := hp.stop
  simp only [Extent.stop] at hinside hmeet hstop
  constructor
  · rw [Memory.hasWord_iff, hlow]
    omega
  · rw [Memory.hasWord_iff, Memory.size_store, hhigh]
    omega

theorem changesOnly_cut (hd : inv.Describes h m) (he : e ∈ inv.extents) (hp : e.Parts low high)
    (hlow : lowAt.toNat = low.header) (hhigh : highAt.toNat = high.header) :
    Memory.ChangesOnly e.Covers m ((m.store lowAt v).store highAt w) := by
  obtain ⟨hlw, hhw⟩ := hd.hasWord_cut (v := v) he hp hlow hhigh
  have hheader := hp.header
  have hmeet := hp.meet
  have hstop := hp.stop
  simp only [Extent.stop] at hmeet hstop
  refine (Memory.ChangesOnly.store hlw ?_).trans (Memory.ChangesOnly.store hhw ?_)
  · intro i hl hu
    exact ⟨by omega, by simp only [Extent.stop]; omega⟩
  · intro i hl hu
    exact ⟨by omega, by simp only [Extent.stop]; omega⟩

theorem holds_cut (hd : inv.Describes h m) (he : e ∈ inv.extents) (hp : e.Parts low high)
    (hlow : lowAt.toNat = low.header) (hhigh : highAt.toNat = high.header) :
    ((m.store lowAt v).store highAt w).Holds low.header v ∧
      ((m.store lowAt v).store highAt w).Holds high.header w := by
  obtain ⟨hlw, hhw⟩ := hd.hasWord_cut (v := v) he hp hlow hhigh
  have hmeet := hp.meet
  simp only [Extent.stop] at hmeet
  constructor
  · rw [← hlow]
    apply (Memory.holds_store hlw).congr
    intro j hl hu
    exact Memory.byte?_store_of_off hhw (by omega)
  · rw [← hhigh]
    exact Memory.holds_store hhw

/-- Two headers written inside a live extent cut it in two. -/
theorem cut (hd : (inv.withLive (e :: live)).Describes h m) (hp : e.Parts low high)
    (hlow : lowAt.toNat = low.header) (hhigh : highAt.toNat = high.header) :
    (inv.withLive (high :: low :: live)).Describes h
      ((m.store lowAt (UInt32.ofNat low.size)).store highAt (UInt32.ofNat high.size)) := by
  have he : e ∈ (inv.withLive (e :: live)).extents := mem_extents_of_live List.mem_cons_self
  have hchange := hd.changesOnly_cut (v := UInt32.ofNat low.size) (w := UInt32.ofNat high.size)
    he hp hlow hhigh
  obtain ⟨hlowHolds, hhighHolds⟩ := hd.holds_cut (v := UInt32.ofNat low.size)
    (w := UInt32.ofNat high.size) he hp hlow hhigh
  -- whatever is not the extent being cut lies apart from it, header and link alike
  have hother : ∀ f ∈ (inv.withLive (e :: live)).extents, f ≠ e → ∀ i, f.header ≤ i →
      i < f.header + 8 →
      ((m.store lowAt (UInt32.ofNat low.size)).store highAt (UInt32.ofNat high.size)).byte? i =
        m.byte? i := by
    intro f hf hfe i hl hu
    have height := hd.sound.header_add_eight_le hf
    apply hchange.byte
    exact Extent.not_covers_of_apart (hd.sound.apart hf he hfe) ⟨hl, by omega⟩
  refine ⟨hd.sound.cut hp, hd.start, hd.frontier, ?_, ?_, ?_⟩
  · intro f hf
    rw [hchange.size]
    have hinside := hd.inside e he
    rcases hd.sound.mem_of_cut hf with rfl | rfl | ⟨hf, -⟩
    · rw [hp.stop]
      exact hinside
    · have hmeet := hp.meet
      have hstop := hp.stop
      simp only [Extent.stop] at hmeet hstop hinside ⊢
      omega
    · exact hd.inside f hf
  · intro f hf
    rcases hd.sound.mem_of_cut hf with rfl | rfl | ⟨hf, hfe⟩
    · exact hhighHolds
    · exact hlowHolds
    · exact (hd.headers f hf).congr fun j hl hu => hother f hf hfe j hl (by omega)
  · intro j
    rw [chain_withLive, ← chain_withLive inv (e :: live)]
    apply FreeChain.linked_congr (hd.chains j)
    intro b hb
    obtain ⟨f, hf, rfl⟩ := List.mem_map.1 hb
    have hfe : f ≠ e := by
      rintro rfl
      exact hd.sound.not_mem_chain_of_live List.mem_cons_self j hf
    apply hd.link?_congr hf
    intro i hl hu
    exact hother f (mem_extents_of_chain hf) hfe i (by omega) hu

end Cut

/-- A header written at the frontier carves an extent. -/
theorem bump {inv' : Inventory} {size : Nat} (hd : inv.Describes h m) (hwords : size % 4 = 0)
    (hleast : 4 ≤ size) (hb : inv.bump m.size size = some (e, inv')) :
    inv'.Describes (h.carvedTo (inv.frontier + 4 + size))
      (m.store h.frontier (UInt32.ofNat size)) := by
  have hsound := hd.sound.bump hwords hleast hb
  obtain ⟨hspace, hroom, rfl, rfl⟩ := bump_eq_some_iff.1 hb
  have hfrontier := hd.frontier
  have hword : m.HasWord h.frontier := by
    rw [Memory.hasWord_iff]
    omega
  have hold : ∀ f ∈ inv.extents, f.stop ≤ inv.frontier := fun f hf => hd.sound.stop_le hf
  have hguards : ∀ i, inv.Guards i → (m.store h.frontier (UInt32.ofNat size)).byte? i =
      m.byte? i := by
    intro i hi
    apply Memory.byte?_store_of_off hword
    rcases hi with ⟨f, hf, hl, hu⟩ | ⟨k, f, hf, hl, hu⟩
    · have hstop := hold f hf
      have height := hd.sound.header_add_eight_le hf
      omega
    · have hstop := hold f (mem_extents_of_chain hf)
      have height := hd.sound.header_add_eight_le (mem_extents_of_chain hf)
      omega
  have hkept := hd.congr (Nat.le_of_eq (Memory.size_store _ _ _).symm) hguards
  refine ⟨hsound, hd.start, ?_, ?_, ?_, ?_⟩
  · exact toNat_ofNat_of_lt hspace
  · intro f hf
    rw [Memory.size_store]
    rcases List.mem_cons.1 hf with rfl | hf
    · exact hroom
    · exact hd.inside f hf
  · intro f hf
    rcases List.mem_cons.1 hf with rfl | hf
    · show (m.store h.frontier (UInt32.ofNat size)).Holds inv.frontier (UInt32.ofNat size)
      rw [← hfrontier]
      exact Memory.holds_store hword
    · exact hkept.headers f hf
  · intro k
    rw [Heap.chainHead_carvedTo, chain_lend]
    exact hkept.chains k

end Describes

end Inventory

end LinearHeap
