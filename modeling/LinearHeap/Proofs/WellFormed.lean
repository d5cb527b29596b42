/-
  LinearHeap/Proofs/WellFormed.lean
  =================================
  **The heap in memory is well-formed after every lawful run.**  The carved region
  falls exactly into blocks, and each block is either out, and then in no chain,
  or in the one chain that its size names, once.

  `WellFormed` speaks about the heap, its memory and the addresses that are out,
  and about nothing else; the inventory is how it is proved.
-/
import LinearHeap.Proofs.Mirrors

namespace LinearHeap

/-- The chain of a size: its bin if the size is a class, otherwise the first-fit list. -/
def Extent.BelongsTo (e : Extent) : Option SizeClass → Prop
  | some c => e.size = (SizeClass.bytes c).toNat
  | none => ∀ c : SizeClass, e.size ≠ (SizeClass.bytes c).toNat

theorem Extent.belongsTo_iff {e : Extent} {k : Option SizeClass} :
    e.BelongsTo k ↔ SizeClass.ofNat? e.size = k := by
  rcases k with _ | c
  · simp only [BelongsTo, SizeClass.toNat_bytes]
    rw [Option.eq_none_iff_forall_ne_some]
    exact forall_congr' fun c => not_congr SizeClass.ofNat?_eq_some_iff.symm
  · simp only [BelongsTo, SizeClass.toNat_bytes]
    exact SizeClass.ofNat?_eq_some_iff.symm

namespace Heap

structure WellFormed (h : Heap) (m : Memory) (live : List Addr) (tiles : List Extent)
    (chains : Option SizeClass → List Extent) : Prop where
  /-- The blocks lie end to end, word-aligned, each with a payload of whole words, one at least. -/
  tiled : Tiles h.start.toNat h.frontier.toNat tiles
  inside : ∀ e ∈ tiles, e.stop ≤ m.size
  headers : ∀ e ∈ tiles, (e.block.size? m).map UInt32.toNat = some e.size
  /-- The links in memory lead along the chains, and every chain ends. -/
  linked : ∀ k, FreeChain.Linked m (h.chainHead k) ((chains k).map Extent.block)
  carved : ∀ k, ∀ e ∈ chains k, e ∈ tiles
  known : ∀ a ∈ live, ∃ e ∈ tiles, a.toNat = e.payload
  nodup : live.Nodup
  placed : ∀ e ∈ tiles,
    (e.payload ∈ live.map UInt32.toNat ∧ ∀ k, e ∉ chains k) ∨
    (e.payload ∉ live.map UInt32.toNat ∧
      ∃ k, (∀ j, e.BelongsTo j ↔ j = k) ∧ (chains k).count e = 1 ∧ ∀ j, j ≠ k → e ∉ chains j)

/-- What is out is what was carved and is in no chain. -/
theorem WellFormed.mem_live_iff {h : Heap} {m : Memory} {live : List Addr}
    {tiles : List Extent} {chains : Option SizeClass → List Extent}
    (hw : h.WellFormed m live tiles chains) {a : Addr} :
    a ∈ live ↔ ∃ e ∈ tiles, a.toNat = e.payload ∧ ∀ k, e ∉ chains k := by
  constructor
  · intro ha
    obtain ⟨e, he, hae⟩ := hw.known a ha
    rcases hw.placed e he with ⟨-, hout⟩ | ⟨hnot, -⟩
    · exact ⟨e, he, hae, hout⟩
    · exact absurd (hae ▸ List.mem_map_of_mem ha) hnot
  · rintro ⟨e, he, hae, hout⟩
    rcases hw.placed e he with ⟨hmem, -⟩ | ⟨-, k, -, hone, -⟩
    · obtain ⟨b, hb, hbe⟩ := List.mem_map.1 hmem
      exact UInt32.toNat_inj.1 (hbe.trans hae.symm) ▸ hb
    · exact absurd (List.count_pos_iff.1 (by omega)) (hout k)

end Heap

namespace Inventory

variable {inv : Inventory}

/-- A free extent is in the chain of its size, once, and in no other. -/
theorem Sound.placed_of_mem_chain (h : inv.Sound) {k : Option SizeClass} {e : Extent}
    (he : e ∈ inv.chain k) :
    (∀ j, e.BelongsTo j ↔ j = k) ∧ (inv.chain k).count e = 1 ∧
      ∀ j, j ≠ k → e ∉ inv.chain j := by
  have hk := h.class_of_mem_chain he
  refine ⟨fun j => ?_, List.count_eq_one_of_mem (h.nodup_chain k) he, fun j hj hmem => ?_⟩
  · rw [Extent.belongsTo_iff, hk]
    exact eq_comm
  · exact hj ((h.class_of_mem_chain hmem).symm.trans hk)

/-- A described heap is well-formed, with the payloads handed out as its live addresses, and with
    its extents, in their order, as its blocks. -/
theorem Describes.wellFormed {h : Heap} {m : Memory} {live : List Addr} {tiles : List Extent}
    (hd : inv.Describes h m) (htiles : Tiles inv.start inv.frontier tiles)
    (hperm : tiles.Perm inv.extents)
    (hlive : (live.map UInt32.toNat).Perm (inv.live.map Extent.payload)) :
    h.WellFormed m live tiles inv.chain := by
  have hmem : ∀ e ∈ tiles, e ∈ inv.extents := fun e he => hperm.mem_iff.1 he
  constructor
  · rw [hd.start, hd.frontier]
    exact htiles
  · exact fun e he => hd.inside e (hmem e he)
  · intro e he
    rw [hd.size?_block (hmem e he), Option.map_some, hd.toNat_size (hmem e he)]
  · exact hd.chains
  · exact fun k e he => hperm.mem_iff.2 (mem_extents_of_chain he)
  · intro a ha
    obtain ⟨e, he, hae⟩ := exists_of_live_perm hlive ha
    exact ⟨e, hperm.mem_iff.2 (mem_extents_of_live he), hae⟩
  · exact hd.sound.nodup_of_live_perm hlive
  · intro e he
    rcases mem_extents_iff.1 (hmem e he) with hout | ⟨k, hk⟩
    · exact Or.inl ⟨hlive.mem_iff.2 (List.mem_map_of_mem hout),
        hd.sound.not_mem_chain_of_live hout⟩
    · refine Or.inr ⟨fun hout => ?_, k, hd.sound.placed_of_mem_chain hk⟩
      obtain ⟨f, hf, hfe⟩ := List.mem_map.1 (hlive.mem_iff.1 hout)
      have hef : f = e := by
        apply hd.sound.eq_of_header (mem_extents_of_live hf) (hmem e he)
        simp only [Extent.payload] at hfe
        omega
      exact hd.sound.not_mem_chain_of_live (hef ▸ hf) k hk

theorem Describes.exists_wellFormed {h : Heap} {m : Memory} {live : List Addr}
    (hd : inv.Describes h m)
    (hlive : (live.map UInt32.toNat).Perm (inv.live.map Extent.payload)) :
    ∃ tiles, h.WellFormed m live tiles inv.chain ∧ tiles.Perm inv.extents := by
  obtain ⟨tiles, htiles, hperm⟩ := hd.sound.tiled
  exact ⟨tiles, hd.wellFormed htiles hperm hlive, hperm⟩

end Inventory

theorem Mirrors.exists_wellFormed {s : Tenancy} {p : Blueprint} (hm : Mirrors s p) :
    ∃ tiles chains, s.heap.WellFormed s.memory s.live tiles chains := by
  obtain ⟨tiles, hwell, -⟩ := hm.describes.exists_wellFormed hm.live
  exact ⟨tiles, p.inventory.chain, hwell⟩

/-- After every lawful run on a new heap, the carved region is tiled by blocks, and each of them
    is either out or in the one chain of its size, once. -/
theorem wellFormed_of_lawful {requested : Addr} {m m' : Ambient} {h : Heap} {as : List Action}
    (hc : Heap.create requested () m = ⟨.ok (.ok h), (), m'⟩)
    (hl : (Tenancy.opened h m').Lawful as) :
    let s := (Tenancy.opened h m').run as
    ∃ tiles chains, s.heap.WellFormed s.memory s.live tiles chains := by
  obtain ⟨hempty, haligned, -⟩ := Heap.create_eq_ok hc
  exact ((Mirrors.opened hempty haligned).run hl).exists_wellFormed

/-- A run with a block, a slice, a write into the block, a refused slice and two releases. -/
theorem wellFormed_of_mixed_run :
    let m : Ambient := { memory := .zeros 64, journal := #[.heapCreated 0 0] }
    let s := (Tenancy.opened (.empty 0) m).run
      [.allocate 8, .write (((Memory.zeros 64).store 0 8).store 4 7), .allocateSlice 2 4,
        .free 4, .allocateSlice 65536 65536, .freeSlice 16]
    ∃ tiles chains, s.heap.WellFormed s.memory s.live tiles chains :=
  wellFormed_of_lawful (show Heap.create 0 () { memory := .zeros 64 } = _ from rfl)
    (by decide +kernel)

end LinearHeap
