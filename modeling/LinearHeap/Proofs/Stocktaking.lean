/-
  LinearHeap/Proofs/Stocktaking.lean
  ==================================
  **Every well-formed heap has an inventory.**  `WellFormed` speaks about memory,
  and may hold of a heap however it came about.  What it says determines an
  inventory (`stock`): bounds and chains are those of the heap, and what is out is
  every block whose payload is listed.  That inventory describes the heap
  (`WellFormed.exists_inventory`), so what is known of described heaps is known of
  well-formed ones.

  The first use is a release.  What comes back goes to the front of the chain of
  its size (`pushOn`); no other chain changes, and no block moves
  (`Comprises.free`, `WellFormed.free`, `WellFormed.freeSlice`).
-/
import LinearHeap.Proofs.Permanence

namespace LinearHeap

/-- The chains with the extent in front of the one that its size names. -/
def Extent.pushOn (e : Extent) (chains : Option SizeClass → List Extent) :
    Option SizeClass → List Extent :=
  Function.update chains (SizeClass.ofNat? e.size) (e :: chains (SizeClass.ofNat? e.size))

theorem Tiles.start_aligned {lo hi : Nat} {es : List Extent} (h : Tiles lo hi es) (hne : es ≠ []) :
    lo % 4 = 0 := by
  rcases es with _ | ⟨e, es⟩
  · exact absurd rfl hne
  · obtain ⟨rfl, hfair, -⟩ := h
    exact hfair.aligned

/-! ### An inventory, spelled out -/

namespace Inventory

variable {inv : Inventory} {live : List Addr} {tiles : List Extent}
  {chains : Option SizeClass → List Extent} {e : Extent} {a : Addr}

/-- These are the blocks of the inventory, in their order, its chains, and the payload addresses
    that are out. -/
structure Comprises (inv : Inventory) (live : List Addr) (tiles : List Extent)
    (chains : Option SizeClass → List Extent) : Prop where
  sound : inv.Sound
  tiled : Tiles inv.start inv.frontier tiles
  extents : tiles.Perm inv.extents
  chain : inv.chain = chains
  live : (live.map UInt32.toNat).Perm (inv.live.map Extent.payload)

theorem Sound.chain_free (h : inv.Sound) (he : e ∈ inv.live) :
    (inv.free e.payload).chain = e.pushOn inv.chain := by
  obtain ⟨rest, hperm, hfree⟩ := h.free_of_live he
  have hout : (inv.withLive (e :: rest)).Sound := h.withLive hperm.symm
  rw [hfree]
  funext k
  by_cases hk : k = SizeClass.ofNat? e.size
  · subst hk
    rw [hout.chain_shelve_same, Extent.pushOn, Function.update_self]
  · rw [chain_shelve_of_ne hk, Extent.pushOn, Function.update_of_ne hk]

namespace Comprises

theorem exists_extent (hc : inv.Comprises live tiles chains) (ha : a ∈ live) :
    ∃ e ∈ tiles, e ∈ inv.live ∧ a.toNat = e.payload := by
  obtain ⟨e, he, hae⟩ := exists_of_live_perm hc.live ha
  exact ⟨e, hc.extents.mem_iff.2 (mem_extents_of_live he), he, hae⟩

theorem free (hc : inv.Comprises live tiles chains) (he : e ∈ inv.live) (ha : a.toNat = e.payload) :
    (inv.free a.toNat).Comprises (live.filter (· ∉ [a])) tiles (e.pushOn chains) where
  sound := by
    rw [ha]
    exact hc.sound.free he
  tiled := by
    rw [(bounds_free a.toNat).1, (bounds_free a.toNat).2]
    exact hc.tiled
  extents := hc.extents.trans (extents_free a.toNat).symm
  chain := by
    rw [ha, hc.sound.chain_free he, hc.chain]
  live := by
    have hnothing : ([] : List Addr).map UInt32.toNat = ([] : List Extent).map Extent.payload := rfl
    refine live_perm_of_step hc.live hnothing ?_
    rw [List.map_singleton, ha]
    exact hc.sound.live_free he

theorem wellFormed {h : Heap} {m : Memory} (hc : inv.Comprises live tiles chains)
    (hd : inv.Describes h m) : h.WellFormed m live tiles chains := by
  rw [← hc.chain]
  exact hd.wellFormed hc.tiled hc.extents hc.live

end Comprises

end Inventory

/-! ### The inventory of a well-formed heap -/

namespace Heap

/-- Counts an inventory out of the blocks and chains of a heap. -/
def stock (h : Heap) (live : List Addr) (tiles : List Extent)
    (chains : Option SizeClass → List Extent) : Inventory where
  start := h.start.toNat
  frontier := h.frontier.toNat
  bins c := (chains (some c)).map Extent.header
  fits := chains none
  live := tiles.filter fun e => e.payload ∈ live.map UInt32.toNat

namespace WellFormed

variable {h : Heap} {m : Memory} {live : List Addr} {tiles : List Extent}
  {chains : Option SizeClass → List Extent} {e : Extent} {k : Option SizeClass}

/-- A block that is in a chain is not out, and is in the one chain of its size, once. -/
theorem placed_of_mem (hw : h.WellFormed m live tiles chains) (he : e ∈ chains k) :
    e.payload ∉ live.map UInt32.toNat ∧ SizeClass.ofNat? e.size = k ∧ (chains k).count e = 1 ∧
      ∀ j, j ≠ k → e ∉ chains j := by
  rcases hw.placed e (hw.carved k e he) with ⟨-, hout⟩ | ⟨hnot, j, hbelongs, hone, hother⟩
  · exact absurd he (hout k)
  · have hkj : k = j := Decidable.byContradiction fun hne => hother k hne he
    subst hkj
    exact ⟨hnot, Extent.belongsTo_iff.1 ((hbelongs k).2 rfl), hone, hother⟩

theorem chain_stock (hw : h.WellFormed m live tiles chains) :
    (h.stock live tiles chains).chain = chains := by
  funext k
  rcases k with _ | c
  · rfl
  · show ((chains (some c)).map Extent.header).map _ = chains (some c)
    conv => rhs; rw [← List.map_id (chains (some c))]
    rw [List.map_map]
    apply List.map_congr_left
    intro e he
    have hsize := SizeClass.ofNat?_eq_some_iff.1 (hw.placed_of_mem he).2.1
    rw [Function.comp_apply, ← hsize]
    rfl

theorem mem_live_stock :
    e ∈ (h.stock live tiles chains).live ↔ e ∈ tiles ∧ e.payload ∈ live.map UInt32.toNat := by
  rw [stock, List.mem_filter, decide_eq_true_eq]

theorem nodup_stock (hw : h.WellFormed m live tiles chains) :
    (h.stock live tiles chains).extents.Nodup := by
  rw [Inventory.extents, List.nodup_append, Inventory.shelved, hw.chain_stock,
    List.nodup_flatMap]
  refine ⟨hw.tiled.nodup.filter _, ⟨?_, ?_⟩, ?_⟩
  · intro k _
    refine List.nodup_iff_count_le_one.2 fun e => ?_
    by_cases he : e ∈ chains k
    · exact Nat.le_of_eq (hw.placed_of_mem he).2.2.1
    · rw [List.count_eq_zero_of_not_mem he]
      exact Nat.zero_le 1
  · refine nodup_shelves.imp ?_
    intro j k hjk e hj hk
    exact (hw.placed_of_mem hj).2.2.2 k hjk.symm hk
  · rintro e hout _ hfree rfl
    obtain ⟨k, -, hk⟩ := List.mem_flatMap.1 hfree
    exact (hw.placed_of_mem hk).1 (mem_live_stock.1 hout).2

theorem extents_stock (hw : h.WellFormed m live tiles chains) :
    tiles.Perm (h.stock live tiles chains).extents := by
  refine (List.perm_ext_iff_of_nodup hw.tiled.nodup hw.nodup_stock).2 fun e => ?_
  rw [Inventory.mem_extents_iff, mem_live_stock, hw.chain_stock]
  constructor
  · intro he
    rcases hw.placed e he with ⟨hout, -⟩ | ⟨-, k, -, hone, -⟩
    · exact Or.inl ⟨he, hout⟩
    · exact Or.inr ⟨k, List.count_pos_iff.1 (by omega)⟩
  · rintro (⟨he, -⟩ | ⟨k, hk⟩)
    · exact he
    · exact hw.carved k e hk

theorem sound_stock (hw : h.WellFormed m live tiles chains) (hne : tiles ≠ []) :
    (h.stock live tiles chains).Sound where
  tiled := ⟨tiles, hw.tiled, hw.extents_stock⟩
  aligned := hw.tiled.start_aligned hne
  bounded := h.frontier.toNat_lt
  sorted := fun _ he => (hw.placed_of_mem he).2.1

theorem comprises (hw : h.WellFormed m live tiles chains) (hne : tiles ≠ []) :
    (h.stock live tiles chains).Comprises live tiles chains where
  sound := hw.sound_stock hne
  tiled := hw.tiled
  extents := hw.extents_stock
  chain := hw.chain_stock
  live := by
    have hnodup : (live.map UInt32.toNat).Nodup := hw.nodup.map fun _ _ => UInt32.toNat_inj.1
    refine (List.perm_ext_iff_of_nodup hnodup (hw.sound_stock hne).nodup_payloads).2 fun n => ?_
    constructor
    · intro hn
      obtain ⟨a, ha, rfl⟩ := List.mem_map.1 hn
      obtain ⟨e, he, hae⟩ := hw.known a ha
      rw [hae] at hn ⊢
      exact List.mem_map_of_mem (mem_live_stock.2 ⟨he, hn⟩)
    · intro hn
      obtain ⟨e, he, rfl⟩ := List.mem_map.1 hn
      exact (mem_live_stock.1 he).2

theorem describes (hw : h.WellFormed m live tiles chains) (hne : tiles ≠ []) :
    (h.stock live tiles chains).Describes h m where
  sound := hw.sound_stock hne
  start := rfl
  frontier := rfl
  inside := fun e he => hw.inside e (hw.extents_stock.mem_iff.2 he)
  headers := by
    intro e he
    have htile := hw.extents_stock.mem_iff.2 he
    obtain ⟨size, hload, hsize⟩ := Option.map_eq_some_iff.1 (hw.headers e htile)
    rw [← (hw.sound_stock hne).toNat_header he, ← hsize, UInt32.ofNat_toNat]
    exact Memory.load?_eq_some_iff_holds.1 hload
  chains := by
    intro k
    rw [hw.chain_stock]
    exact hw.linked k

/-- A well-formed heap with a block in it is described by an inventory of the same blocks, the
    same chains, and the same addresses. -/
theorem exists_inventory (hw : h.WellFormed m live tiles chains) (he : e ∈ tiles) :
    ∃ inv : Inventory, inv.Comprises live tiles chains ∧ inv.Describes h m :=
  ⟨_, hw.comprises (List.ne_nil_of_mem he), hw.describes (List.ne_nil_of_mem he)⟩

theorem sizeAt?_of_mem (hw : h.WellFormed m live tiles chains) (he : e ∈ tiles) {a : Addr}
    (ha : a.toNat = e.payload) : m.sizeAt? a = some (UInt32.ofNat e.size) := by
  obtain ⟨inv, hc, hd⟩ := hw.exists_inventory he
  exact hd.sizeAt?_of_mem (hc.extents.mem_iff.1 he) ha

/-- It matters which addresses are out, and not in which order they are listed. -/
theorem of_mem_iff {live' : List Addr} (hw : h.WellFormed m live tiles chains)
    (hnodup : live'.Nodup) (hmem : ∀ a, a ∈ live' ↔ a ∈ live) :
    h.WellFormed m live' tiles chains where
  tiled := hw.tiled
  inside := hw.inside
  headers := hw.headers
  linked := hw.linked
  carved := hw.carved
  known := fun a ha => hw.known a ((hmem a).1 ha)
  nodup := hnodup
  placed := by
    intro e he
    have hsame : e.payload ∈ live'.map UInt32.toNat ↔ e.payload ∈ live.map UInt32.toNat := by
      simp only [List.mem_map, hmem]
    rw [hsame]
    exact hw.placed e he

/-- What is written into payloads that are out does not matter. -/
theorem written {m' : Memory} (hw : h.WellFormed m live tiles chains)
    (hwritten : m.Written (fun i => ∃ a ∈ live, m.InPayload a i) m') :
    h.WellFormed m' live tiles chains := by
  rcases tiles with _ | ⟨e, rest⟩
  · -- nothing is carved: no header and no link is read
    have hempty : ∀ k, chains k = [] := fun k =>
      List.eq_nil_iff_forall_not_mem.2 fun e he => List.not_mem_nil (hw.carved k e he)
    refine ⟨hw.tiled, nofun, nofun, ?_, hw.carved, hw.known, hw.nodup, hw.placed⟩
    intro k
    have hlinked := hw.linked k
    rw [hempty, List.map_nil, FreeChain.linked_nil_iff] at hlinked ⊢
    exact hlinked
  · obtain ⟨inv, hc, hd⟩ := hw.exists_inventory (e := e) List.mem_cons_self
    refine hc.wellFormed (hd.written hwritten ?_)
    rintro i ⟨a, ha, hin⟩
    obtain ⟨f, -, hf, haf⟩ := hc.exists_extent ha
    exact hd.not_guards_of_inPayload hf haf hin

/-! ### Releases -/

/-- Whatever is out can be freed. -/
theorem free {m : Ambient} (hw : h.WellFormed m.memory live tiles chains) {a : Addr}
    (ha : a ∈ live) :
    ∃ e ∈ tiles, a.toNat = e.payload ∧ ∃ h' m', Heap.free a h m = ⟨.ok (), h', m'⟩ ∧
      h'.WellFormed m'.memory (live.filter (· ∉ [a])) tiles (e.pushOn chains) ∧
      m.memory.ChangesOnly (fun i => a.toNat ≤ i ∧ i < a.toNat + 4) m'.memory := by
  obtain ⟨_, hblock, -⟩ := hw.known a ha
  obtain ⟨inv, hc, hd⟩ := hw.exists_inventory hblock
  obtain ⟨e, he, hout, hae⟩ := hc.exists_extent ha
  obtain ⟨h', m', hact, hnew, hchange, -⟩ := hd.free_of_live hout hae
  exact ⟨e, he, hae, h', m', hact, (hc.free hout hae).wellFormed hnew, hchange⟩

section Slice

variable {m : Ambient} {handle data lengthAt : Addr} {length : Word}

/-- A slice whose record can be read, and names something else that is out, can be freed: its
    content comes back first, and then its record. -/
theorem freeSlice (hw : h.WellFormed m.memory live tiles chains) (hhandle : handle ∈ live)
    (hdata : data ∈ live) (hne : data ≠ handle) (hat : lengthAt.toNat = handle.toNat + 4)
    (hload : m.memory.load? handle = some data)
    (hlength : m.memory.load? lengthAt = some length) :
    ∃ content ∈ tiles, ∃ record ∈ tiles,
      data.toNat = content.payload ∧ handle.toNat = record.payload ∧
      ∃ h' m', Heap.freeSlice handle h m = ⟨.ok (), h', m'⟩ ∧
        h'.WellFormed m'.memory (live.filter (· ∉ [data, handle])) tiles
          (record.pushOn (content.pushOn chains)) ∧
        m.memory.ChangesOnly (fun i => (data.toNat ≤ i ∧ i < data.toNat + 4) ∨
          (handle.toNat ≤ i ∧ i < handle.toNat + 4)) m'.memory := by
  obtain ⟨_, hblock, -⟩ := hw.known handle hhandle
  obtain ⟨inv, hc, hd⟩ := hw.exists_inventory hblock
  obtain ⟨record, hr, hrout, hhr⟩ := hc.exists_extent hhandle
  obtain ⟨content, hct, hcout, hdc⟩ := hc.exists_extent hdata
  have hblocks : record ≠ content := by
    rintro rfl
    exact hne (UInt32.toNat_inj.1 (hdc.trans hhr.symm))
  obtain ⟨h', m', hact, hnew, hchange, -⟩ :=
    hd.freeSlice_of_load? hrout hcout hblocks hhr hdc hat hload hlength
  have hr' : record ∈ (inv.free data.toNat).live := by
    rw [hdc, hc.sound.mem_live_free hcout]
    exact ⟨hrout, hblocks⟩
  have hlive : (live.filter (· ∉ [data])).filter (· ∉ [handle]) =
      live.filter (· ∉ [data, handle]) := by
    rw [List.filter_filter]
    apply List.filter_congr
    intro a _
    simp only [List.mem_cons, List.not_mem_nil, or_false, not_or, Bool.decide_and,
      Bool.and_comm]
  have hfreed := (hc.free hcout hdc).free hr' hhr
  rw [hlive] at hfreed
  exact ⟨content, hct, record, hr, hdc, hhr, h', m', hact, hfreed.wellFormed hnew, hchange⟩

end Slice

end WellFormed

end Heap

end LinearHeap
