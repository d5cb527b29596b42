/-
  LinearHeap/Proofs/Censuses.lean
  ===============================
  **A census tells what lies in the chains.**  On a described heap the walk through
  memory ends, and it counts every chain of the inventory (`Census.Counts`).  Its
  totals fit into 64 bits: all that is added up lies side by side in a region
  smaller than the address space (`Sound.bytes_add_headers`).
-/
import LinearHeap.Heap.Census
import LinearHeap.Proofs.Describes
import Mathlib.Algebra.GroupWithZero.Nat

namespace LinearHeap

/-! ### What the chains of an inventory add up to -/

/-- Payloads and headers of a tiling fill its range. -/
theorem Tiles.lo_add_sizes {lo hi : Nat} {es : List Extent} (h : Tiles lo hi es) :
    lo + (es.map Extent.size).sum + 4 * es.length = hi := by
  induction es generalizing lo with
  | nil => exact h
  | cons e es ih =>
      obtain ⟨rfl, -, htail⟩ := h
      have hrest := ih htail
      simp only [Extent.stop] at hrest
      simp only [List.map_cons, List.sum_cons, List.length_cons]
      omega

theorem sum_map_flatMap {κ α : Type} (f : κ → List α) (g : α → Nat) (ks : List κ) :
    ((ks.flatMap f).map g).sum = (ks.map fun k => ((f k).map g).sum).sum := by
  induction ks with
  | nil => rfl
  | cons k ks ih =>
      rw [List.flatMap_cons, List.map_append, List.sum_append_nat, ih, List.map_cons, List.sum_cons]

namespace Inventory

variable {inv : Inventory}

/-- Every carved byte belongs to a header, to a payload that is out, or to one in a chain. -/
theorem Sound.bytes_add_headers (h : inv.Sound) :
    inv.start + (inv.live.map Extent.size).sum + 4 * inv.live.length +
      (inv.shelved.map Extent.size).sum + 4 * inv.shelved.length = inv.frontier := by
  obtain ⟨tiles, htiles, hperm⟩ := h.tiled
  have htotal := htiles.lo_add_sizes
  rw [(hperm.map Extent.size).sum_nat, hperm.length_eq, extents, List.map_append,
    List.sum_append_nat, List.length_append] at htotal
  omega

theorem size_of_mem_bin {c : SizeClass} {e : Extent} (he : e ∈ inv.chain (some c)) :
    e.size = (SizeClass.bytes c).toNat := by
  obtain ⟨header, -, rfl⟩ := List.mem_map.1 he
  exact c.toNat_bytes.symm

/-- All blocks of a bin have the bin's size. -/
theorem sum_size_bin (inv : Inventory) (c : SizeClass) :
    ((inv.chain (some c)).map Extent.size).sum =
      (inv.chain (some c)).length * (SizeClass.bytes c).toNat := by
  rw [List.map_congr_left fun e he => size_of_mem_bin he, List.map_const', List.sum_replicate_nat]

theorem sum_size_shelved (inv : Inventory) :
    (inv.shelved.map Extent.size).sum =
      (SizeClass.all.map fun c =>
        (inv.chain (some c)).length * (SizeClass.bytes c).toNat).sum +
      (inv.fits.map Extent.size).sum := by
  rw [shelved, sum_map_flatMap, shelves, List.map_cons, List.sum_cons, List.map_map, Nat.add_comm]
  congr 2
  exact List.map_congr_left fun c _ => inv.sum_size_bin c

theorem length_shelved (inv : Inventory) :
    inv.shelved.length =
      (SizeClass.all.map fun c => (inv.chain (some c)).length).sum + inv.fits.length := by
  rw [shelved, List.length_flatMap, shelves, List.map_cons, List.sum_cons, List.map_map,
    Nat.add_comm]
  rfl

end Inventory

/-! ### Totals -/

/-- Counts are added up without overflow if their total fits. -/
theorem foldlM_countSum {κ : Type} {x : κ → Except Fault Nat} {f : κ → Nat} {ks : List κ}
    {total : Nat} (hx : ∀ k, f k < Word.countBound → x k = .ok (f k))
    (hfits : total + (ks.map f).sum < Word.countBound) :
    ks.foldlM (fun total k => x k >>= countSum total) total = .ok (total + (ks.map f).sum) := by
  induction ks generalizing total with
  | nil => rfl
  | cons k ks ih =>
      rw [List.map_cons, List.sum_cons, ← Nat.add_assoc] at hfits ⊢
      have hsum : (x k >>= countSum total) = .ok (total + f k) := by
        rw [hx k (by omega)]
        exact if_pos (by omega)
      rw [List.foldlM_cons, hsum]
      exact ih hfits

namespace Census

/-- The census of a heap with these chains and this frontier. -/
structure Counts (c : Census) (inv : Inventory) : Prop where
  bins : ∀ k, c.binBlocks.get k = (inv.chain (some k)).length
  fitBlocks : c.fitBlocks = inv.fits.length
  fitBytes : c.fitBytes = (inv.fits.map Extent.size).sum
  carvedBytes : inv.start + c.carvedBytes.toNat = inv.frontier

namespace Counts

variable {c : Census} {inv : Inventory}

/-- An inventory has one census. -/
theorem unique {c' : Census} (h : c.Counts inv) (h' : c'.Counts inv) : c = c' := by
  have hbins : c.binBlocks = c'.binBlocks :=
    Vector.ext fun k hk => (h.bins ⟨k, hk⟩).trans (h'.bins ⟨k, hk⟩).symm
  have hcarved : c.carvedBytes = c'.carvedBytes :=
    UInt32.toNat_inj.1 (Nat.add_left_cancel (h.carvedBytes.trans h'.carvedBytes.symm))
  cases c
  cases c'
  simp only [Census.mk.injEq]
  exact ⟨hbins, h.fitBlocks.trans h'.fitBlocks.symm, h.fitBytes.trans h'.fitBytes.symm, hcarved⟩

/-- Nothing that a census adds up exceeds the address space. -/
theorem shelved_lt (hs : inv.Sound) :
    (inv.shelved.map Extent.size).sum < Word.countBound ∧
      inv.shelved.length < Word.countBound := by
  have htotal := hs.bytes_add_headers
  have hbound := hs.bounded
  simp only [Word.bound] at hbound
  simp only [Word.countBound]
  omega

theorem binBytes_eq (h : c.Counts inv) (hs : inv.Sound) :
    c.binBytes = .ok (SizeClass.all.map fun k =>
      (inv.chain (some k)).length * (SizeClass.bytes k).toNat).sum := by
  have hfits := (shelved_lt hs).1
  rw [inv.sum_size_shelved] at hfits
  have hproduct : ∀ k,
      (inv.chain (some k)).length * (SizeClass.bytes k).toNat < Word.countBound →
        countProduct (c.binBlocks.get k) (SizeClass.bytes k).toNat =
          .ok ((inv.chain (some k)).length * (SizeClass.bytes k).toNat) := by
    intro k hlt
    rw [h.bins]
    exact if_pos hlt
  have hbins : c.binBytes = .ok (0 + (SizeClass.all.map fun k =>
      (inv.chain (some k)).length * (SizeClass.bytes k).toNat).sum) :=
    foldlM_countSum hproduct (by omega)
  rwa [Nat.zero_add] at hbins

theorem freeBytes_eq (h : c.Counts inv) (hs : inv.Sound) :
    c.freeBytes = .ok (inv.shelved.map Extent.size).sum := by
  have hfits := (shelved_lt hs).1
  rw [inv.sum_size_shelved] at hfits ⊢
  rw [freeBytes, h.binBytes_eq hs, h.fitBytes]
  exact if_pos hfits

theorem freeBlocks_eq (h : c.Counts inv) (hs : inv.Sound) :
    c.freeBlocks = .ok inv.shelved.length := by
  have hfits := (shelved_lt hs).2
  rw [inv.length_shelved] at hfits ⊢
  have hbins : SizeClass.all.foldlM (fun total k => countSum total (c.binBlocks.get k)) 0 =
      .ok (0 + (SizeClass.all.map fun k => (inv.chain (some k)).length).sum) :=
    foldlM_countSum (x := fun k => .ok (c.binBlocks.get k))
      (fun k _ => congrArg Except.ok (h.bins k)) (by omega)
  rw [Nat.zero_add] at hbins
  rw [freeBlocks, hbins, h.fitBlocks]
  exact if_pos hfits

end Counts

end Census

/-! ### The walk -/

namespace Heap

/-- The walk along a first-fit list in memory counts it and adds up its headers. -/
theorem measureFits_of_linked {l : Link} {es : List Extent} {steps : Nat} (blocks bytes : Nat)
    {h : Heap} {m : Ambient} (hl : FreeChain.Linked m.memory l (es.map Extent.block))
    (hsize : ∀ e ∈ es, ∃ size, e.block.size? m.memory = some size ∧ size.toNat = e.size)
    (hsteps : es.length ≤ steps) :
    ∃ m', measureFits steps l blocks bytes h m =
        ⟨.ok (blocks + es.length, bytes + (es.map Extent.size).sum), h, m'⟩ ∧
      m'.memory = m.memory := by
  induction es generalizing l steps blocks bytes m with
  | nil =>
      rw [List.map_nil, FreeChain.linked_nil_iff] at hl
      subst hl
      cases steps <;> exact ⟨m, rfl, rfl⟩
  | cons e es ih =>
      obtain ⟨rfl, next, hnext, htail⟩ := hl
      obtain ⟨size, hread, heq⟩ := hsize e List.mem_cons_self
      cases steps with
      | zero => cases hsteps
      | succ steps =>
          obtain ⟨m', hrest, hmem⟩ := ih (blocks + 1) (bytes + size.toNat)
            (m := m.countRead.countRead) htail
            (fun f hf => hsize f (List.mem_cons_of_mem e hf)) (Nat.le_of_succ_le_succ hsteps)
          refine ⟨m', ?_, hmem⟩
          rw [List.length_cons, List.map_cons, List.sum_cons, Nat.add_comm es.length 1,
            ← Nat.add_assoc, ← Nat.add_assoc, ← heq, ← hrest]
          refine (Act.bind_of_ok (Block.readLink_of_link? hnext)).trans ?_
          exact Act.bind_of_ok (Block.readSize_of_size? (m := m.countRead) hread)

end Heap

namespace Inventory.Describes

variable {inv : Inventory} {h : Heap} {m : Ambient}

/-- The walk through some of the bins enters their lengths and leaves the other counts. -/
theorem exists_countBins (hd : inv.Describes h m.memory) (cs : List SizeClass)
    (counts : Vector Nat 8) :
    ∃ counts' m', (cs.foldlM (fun counts c => do
        let blocks ← FreeChain.walkAll (h.binHead c)
        return counts.setIfInBounds c blocks.length) counts : Act Heap (Vector Nat 8)) h m =
          ⟨.ok counts', h, m'⟩ ∧
      m'.memory = m.memory ∧
      ∀ k, (k ∈ cs → counts'.get k = (inv.chain (some k)).length) ∧
        (k ∉ cs → counts'.get k = counts.get k) := by
  induction cs generalizing counts m with
  | nil =>
      refine ⟨counts, m, rfl, rfl, fun k => ?_⟩
      exact ⟨fun hk => absurd hk List.not_mem_nil, fun _ => rfl⟩
  | cons c cs ih =>
      have hwalk := FreeChain.walkAll_of_linked (s := h) (hd.chains (some c))
      rw [List.length_map] at hwalk
      have hd' : inv.Describes h (m.countReads (inv.chain (some c)).length).memory := by
        rwa [Ambient.memory_countReads]
      obtain ⟨counts', m', hrest, hmem, hget⟩ :=
        ih hd' (counts.setIfInBounds c (inv.chain (some c)).length)
      refine ⟨counts', m', ?_, hmem.trans (Ambient.memory_countReads _ _), fun k => ?_⟩
      · rw [List.foldlM_cons]
        refine (Act.bind_of_ok ((Act.bind_of_ok hwalk).trans ?_)).trans hrest
        rw [List.length_map]
        rfl
      · have hself : (counts.setIfInBounds c (inv.chain (some c)).length).get c =
            (inv.chain (some c)).length := Vector.getElem_setIfInBounds_self c.isLt
        obtain ⟨hin, hout⟩ := hget k
        by_cases hkcs : k ∈ cs
        · exact ⟨fun _ => hin hkcs, fun hk => absurd (List.mem_cons_of_mem c hkcs) hk⟩
        · by_cases hkc : k = c
          · subst hkc
            exact ⟨fun _ => (hout hkcs).trans hself, fun hk => absurd List.mem_cons_self hk⟩
          · have hne : c.val ≠ k.val := fun heq => hkc (Fin.ext heq.symm)
            have hother : (counts.setIfInBounds c (inv.chain (some c)).length).get k =
                counts.get k := Vector.getElem_setIfInBounds_ne k.isLt hne
            exact ⟨fun hk => absurd hk (List.not_mem_cons_of_ne_of_not_mem hkc hkcs),
              fun _ => (hout hkcs).trans hother⟩

/-- The census of a described heap is answered and changes nothing but the meter. -/
theorem exists_census (hd : inv.Describes h m.memory) :
    ∃ c m', Heap.census h m = ⟨.ok c, h, m'⟩ ∧ m'.memory = m.memory ∧ c.Counts inv := by
  obtain ⟨counts, m₁, hbins, hmem₁, hget⟩ :=
    hd.exists_countBins SizeClass.all (Vector.replicate 8 0)
  have hfits := hd.chains none
  have hlength := FreeChain.length_le_size hfits
  rw [List.length_map] at hlength
  have hsize : ∀ e ∈ inv.fits,
      ∃ size, e.block.size? m₁.memory = some size ∧ size.toNat = e.size := by
    intro e he
    have hmem := mem_extents_of_chain (k := none) he
    rw [hmem₁]
    exact ⟨_, hd.size?_block hmem, hd.toNat_size hmem⟩
  rw [← hmem₁] at hfits hlength
  obtain ⟨m₂, hmeasure, hmem₂⟩ :=
    Heap.measureFits_of_linked 0 0 (h := h) hfits hsize (Nat.le_succ_of_le hlength)
  rw [Nat.zero_add, Nat.zero_add] at hmeasure
  refine ⟨⟨counts, inv.fits.length, (inv.fits.map Extent.size).sum, h.region.carvedBytes⟩, m₂, ?_,
    hmem₂.trans hmem₁, ?_⟩
  · refine (Act.bind_of_ok (x := Act.own) rfl).trans ?_
    refine (Act.bind_of_ok hbins).trans ?_
    refine (Act.bind_of_ok (x := Act.memorySize) rfl).trans ?_
    exact Act.bind_of_ok hmeasure
  · refine ⟨fun k => ?_, rfl, rfl, ?_⟩
    · exact (hget k).1 (List.mem_finRange k)
    · have hle := hd.sound.start_le_frontier
      have hbytes : h.region.carvedBytes.toNat = h.frontier.toNat - h.start.toNat := by
        apply UInt32.toNat_sub_of_le
        rw [UInt32.le_iff_toNat_le]
        show h.start.toNat ≤ h.frontier.toNat
        rwa [hd.start, hd.frontier]
      rw [hbytes, hd.start, hd.frontier]
      omega

end Inventory.Describes

end LinearHeap
