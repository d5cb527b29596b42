/-
  LinearHeap/Proofs/Refinement.lean
  =================================
  **The heap in memory is the list allocator.**  Through every lawful run both
  give the same answers and fault at the same calls; afterwards the frontier is
  the same, and a walk of each of the nine chains through memory reads the stacks
  and the list of the allocator, in their order.
-/
import LinearHeap.Proofs.Mirrors

namespace LinearHeap

/-- The heap and the list allocator show the same: frontier, stacks and list. -/
structure Heap.Shows (h : Heap) (m : Ambient) (inv : Inventory) : Prop where
  frontier : h.frontier.toNat = inv.frontier
  bins : ∀ c, (FreeChain.walkAll (h.binHead c) h m).result.map
    (List.map fun b => b.header.toNat) = .ok (inv.bins c)
  fits : (FreeChain.walkAll h.fitHead h m).result.map
    (List.map fun b => (b.header.toNat, (b.size? m.memory).map UInt32.toNat)) =
      .ok (inv.fits.map fun e => (e.header, some e.size))

namespace Inventory

variable {inv : Inventory} {h : Heap} {m : Ambient}

theorem Describes.walk_chain (hd : inv.Describes h m.memory) (k : Option SizeClass) :
    (FreeChain.walkAll (h.chainHead k) h m).result = .ok ((inv.chain k).map Extent.block) := by
  rw [FreeChain.walkAll_of_linked (hd.chains k)]

theorem Describes.shows (hd : inv.Describes h m.memory) : h.Shows m inv where
  frontier := hd.frontier
  bins := by
    intro c
    have hwalk := hd.walk_chain (some c)
    simp only [Heap.chainHead] at hwalk
    rw [hwalk]
    simp only [Except.map, List.map_map, Except.ok.injEq]
    have hheader : ∀ e ∈ inv.chain (some c),
        ((fun b : Block => b.header.toNat) ∘ Extent.block) e = e.header := fun e he =>
      hd.sound.toNat_header (mem_extents_of_chain he)
    rw [List.map_congr_left hheader, chain, List.map_map]
    exact List.map_id _
  fits := by
    have hwalk := hd.walk_chain none
    simp only [Heap.chainHead] at hwalk
    rw [hwalk]
    simp only [Except.map, List.map_map, Except.ok.injEq]
    apply List.map_congr_left
    intro e he
    have hmem := mem_extents_of_chain (k := none) he
    simp only [Function.comp_apply, hd.sound.toNat_header hmem, hd.size?_block hmem,
      Option.map_some, hd.toNat_size hmem]

end Inventory

/-- Every lawful run on a new heap answers as the list allocator does, and ends with the same
    frontier and the same nine chains. -/
theorem refines_listAllocator {requested : Addr} {m m' : Ambient} {h : Heap} {as : List Action}
    (hc : Heap.create requested () m = ⟨.ok (.ok h), (), m'⟩)
    (hl : (Tenancy.opened h m').Lawful as) :
    let s := (Tenancy.opened h m').run as
    let p := (Blueprint.fresh h.start.toNat m.memory.size).run as
    ((Tenancy.opened h m').answers as).map
        (fun r => r.toOption.map (Option.map UInt32.toNat)) =
      (Blueprint.fresh h.start.toNat m.memory.size).answers as ∧
    s.heap.Shows s.ambient p.inventory := by
  obtain ⟨hempty, haligned, hmem⟩ := Heap.create_eq_ok hc
  have hm := Mirrors.opened (m := m') hempty haligned
  rw [hmem] at hm
  exact ⟨hm.answers hl, (hm.run hl).describes.shows⟩

/-- Two blocks and a slice, all given back and in part handed out again. -/
theorem refines_listAllocator_of_mixed_run :
    let m : Ambient := { memory := .zeros 128, journal := #[.heapCreated 0 0] }
    let as : List Action := [.allocate 40, .allocateSlice 2 4, .allocate 8, .free 4,
      .freeSlice 48, .allocate 4, .allocateSlice 65536 65536, .allocate 36]
    let s := (Tenancy.opened (.empty 0) m).run as
    let p := (Blueprint.fresh 0 128).run as
    ((Tenancy.opened (.empty 0) m).answers as).map
        (fun r => r.toOption.map (Option.map UInt32.toNat)) =
      (Blueprint.fresh 0 128).answers as ∧
    s.heap.Shows s.ambient p.inventory :=
  refines_listAllocator (show Heap.create 0 () { memory := .zeros 128 } = _ from rfl)
    (by decide +kernel)

end LinearHeap
