/-
  LinearHeap/Proofs/Soundness.lean
  ================================
  **An inventory accounts for every byte.**  `Sound` says that the extents handed
  out and the extents in the nine chains are, together and each once, the extents
  of a tiling of `[start, frontier)`.  Disjointness of the live blocks, of the
  chains, and of the two from each other all follow from this one permutation.

  The operations of the list allocator are made of four moves, and each keeps the
  invariant: an extent goes from a chain to the guest (`Sound.take`), from the
  guest to its chain (`Sound.shelve`), is cut in two while it is out
  (`Sound.cut`), or is carved at the frontier (`Sound.bump`).
-/
import LinearHeap.Proofs.Inventory
import Mathlib.Data.List.Nodup

namespace LinearHeap

namespace Inventory

structure Sound (inv : Inventory) : Prop where
  tiled : ∃ tiles, Tiles inv.start inv.frontier tiles ∧ tiles.Perm inv.extents
  aligned : inv.start % 4 = 0
  bounded : inv.frontier < Word.bound
  sorted : ∀ e ∈ inv.fits, SizeClass.ofNat? e.size = none

/-- An extent of the chain goes out to the guest. -/
def take (inv : Inventory) (k : Option SizeClass) (before after : List Extent) (e : Extent) :
    Inventory := (inv.withChain k (before ++ after)).lend e

def withLive (inv : Inventory) (live : List Extent) : Inventory := { inv with live := live }

@[simp] theorem chain_withLive (inv : Inventory) (live : List Extent) (k : Option SizeClass) :
    (inv.withLive live).chain k = inv.chain k := by cases k <;> rfl

@[simp] theorem start_take (inv : Inventory) (k : Option SizeClass)
    (before after : List Extent) (e : Extent) :
    (inv.take k before after e).start = inv.start := start_withChain inv k _

@[simp] theorem frontier_take (inv : Inventory) (k : Option SizeClass)
    (before after : List Extent) (e : Extent) :
    (inv.take k before after e).frontier = inv.frontier := frontier_withChain inv k _

@[simp] theorem live_take (inv : Inventory) (k : Option SizeClass)
    (before after : List Extent) (e : Extent) :
    (inv.take k before after e).live = e :: inv.live :=
  congrArg (e :: ·) (live_withChain inv k _)

@[simp] theorem chain_lend (inv : Inventory) (e : Extent) (k : Option SizeClass) :
    (inv.lend e).chain k = inv.chain k := by cases k <;> rfl

@[simp] theorem start_withLive (inv : Inventory) (live : List Extent) :
    (inv.withLive live).start = inv.start := rfl

@[simp] theorem frontier_withLive (inv : Inventory) (live : List Extent) :
    (inv.withLive live).frontier = inv.frontier := rfl

@[simp] theorem live_withLive (inv : Inventory) (live : List Extent) :
    (inv.withLive live).live = live := rfl

@[simp] theorem shelved_withLive (inv : Inventory) (live : List Extent) :
    (inv.withLive live).shelved = inv.shelved := by
  have hchain : (inv.withLive live).chain = inv.chain := funext (chain_withLive inv live)
  rw [shelved, shelved, hchain]

/-! ### What the invariant says about single extents -/

namespace Sound

variable {inv : Inventory}

theorem fair (h : inv.Sound) {e : Extent} (he : e ∈ inv.extents) : e.Fair := by
  obtain ⟨tiles, htiles, hperm⟩ := h.tiled
  exact htiles.fair e (hperm.mem_iff.2 he)

theorem start_le (h : inv.Sound) {e : Extent} (he : e ∈ inv.extents) : inv.start ≤ e.header := by
  obtain ⟨tiles, htiles, hperm⟩ := h.tiled
  exact (htiles.bounds e (hperm.mem_iff.2 he)).1

theorem stop_le (h : inv.Sound) {e : Extent} (he : e ∈ inv.extents) : e.stop ≤ inv.frontier := by
  obtain ⟨tiles, htiles, hperm⟩ := h.tiled
  exact (htiles.bounds e (hperm.mem_iff.2 he)).2

theorem start_le_frontier (h : inv.Sound) : inv.start ≤ inv.frontier := by
  obtain ⟨tiles, htiles, -⟩ := h.tiled
  exact htiles.le

theorem stop_lt (h : inv.Sound) {e : Extent} (he : e ∈ inv.extents) : e.stop < Word.bound :=
  Nat.lt_of_le_of_lt (h.stop_le he) h.bounded

theorem header_add_eight_le (h : inv.Sound) {e : Extent} (he : e ∈ inv.extents) :
    e.header + 8 ≤ e.stop := by
  have hroom := (h.fair he).room
  simp only [Extent.stop]
  omega

theorem header_lt (h : inv.Sound) {e : Extent} (he : e ∈ inv.extents) :
    e.header + 8 < Word.bound :=
  Nat.lt_of_le_of_lt (h.header_add_eight_le he) (h.stop_lt he)

theorem size_lt (h : inv.Sound) {e : Extent} (he : e ∈ inv.extents) : e.size < Word.bound := by
  have hstop := h.stop_lt he
  simp only [Extent.stop] at hstop
  omega

theorem toNat_header (h : inv.Sound) {e : Extent} (he : e ∈ inv.extents) :
    e.block.header.toNat = e.header := by
  have hlt := h.header_lt he
  exact Extent.toNat_header_block (by omega)

theorem nodup (h : inv.Sound) : inv.extents.Nodup := by
  obtain ⟨tiles, htiles, hperm⟩ := h.tiled
  exact hperm.nodup_iff.1 htiles.nodup

theorem apart (h : inv.Sound) {e f : Extent} (he : e ∈ inv.extents) (hf : f ∈ inv.extents)
    (hne : e ≠ f) : e.Apart f := by
  obtain ⟨tiles, htiles, hperm⟩ := h.tiled
  exact htiles.apart_of_mem (hperm.mem_iff.2 he) (hperm.mem_iff.2 hf) hne

/-- Extents are told apart by their headers alone. -/
theorem eq_of_header (h : inv.Sound) {e f : Extent} (he : e ∈ inv.extents)
    (hf : f ∈ inv.extents) (hef : e.header = f.header) : e = f := by
  by_cases hne : e = f
  · exact hne
  · have hapart := h.apart he hf hne
    simp only [Extent.Apart, Extent.stop] at hapart
    omega

theorem not_mem_chain_of_live (h : inv.Sound) {e : Extent} (he : e ∈ inv.live)
    (k : Option SizeClass) : e ∉ inv.chain k := by
  intro hk
  exact (List.nodup_append.1 h.nodup).2.2 e he e (mem_shelved_iff.2 ⟨k, hk⟩) rfl

theorem class_of_mem_chain (h : inv.Sound) {k : Option SizeClass} {e : Extent}
    (he : e ∈ inv.chain k) : SizeClass.ofNat? e.size = k := by
  rcases k with _ | c
  · exact h.sorted e he
  · obtain ⟨header, -, rfl⟩ := List.mem_map.1 he
    exact SizeClass.ofNat?_width c

theorem nodup_chain (h : inv.Sound) (k : Option SizeClass) : (inv.chain k).Nodup := by
  have hshelved := (List.nodup_append.1 h.nodup).2.1
  exact (List.nodup_flatMap.1 hshelved).1 k (mem_shelves k)

theorem nodup_payloads (h : inv.Sound) : (inv.live.map Extent.payload).Nodup := by
  refine List.Nodup.map_on ?_ (List.nodup_append.1 h.nodup).1
  intro e he f hf hef
  apply h.eq_of_header (mem_extents_of_live he) (mem_extents_of_live hf)
  simp only [Extent.payload] at hef
  omega

end Sound

/-! ### The four moves -/

theorem sound_fresh {start : Nat} (haligned : start % 4 = 0) (hbound : start < Word.bound) :
    (fresh start).Sound where
  tiled := by
    refine ⟨[], rfl, ?_⟩
    have hshelved : (fresh start).shelved = [] := by
      apply List.flatMap_eq_nil_iff.2
      rintro (_ | c) -
      · rfl
      · rfl
    rw [extents, hshelved]
    exact List.Perm.refl []
  aligned := haligned
  bounded := hbound
  sorted := by intro e he; cases he

theorem Sound.withLive {inv : Inventory} (h : inv.Sound) {live : List Extent}
    (hperm : live.Perm inv.live) : (inv.withLive live).Sound where
  tiled := by
    obtain ⟨tiles, htiles, htp⟩ := h.tiled
    refine ⟨tiles, htiles, htp.trans ?_⟩
    rw [extents, extents, shelved_withLive]
    exact hperm.symm.append_right _
  aligned := h.aligned
  bounded := h.bounded
  sorted := h.sorted

theorem fits_withChain {inv : Inventory} (h : ∀ e ∈ inv.fits, SizeClass.ofNat? e.size = none)
    {k : Option SizeClass} {es : List Extent} (hes : ∀ e ∈ es, SizeClass.ofNat? e.size = k) :
    ∀ e ∈ (inv.withChain k es).fits, SizeClass.ofNat? e.size = none := by
  rcases k with _ | c
  · exact hes
  · exact h

section Take

variable {inv : Inventory} {k : Option SizeClass} {before after : List Extent} {e : Extent}

theorem Sound.class_of_mem_rest (h : inv.Sound) (hk : inv.chain k = before ++ e :: after) :
    ∀ f ∈ before ++ after, SizeClass.ofNat? f.size = k := by
  intro f hf
  apply h.class_of_mem_chain
  rw [hk]
  rcases List.mem_append.1 hf with hf | hf
  · exact List.mem_append_left _ hf
  · exact List.mem_append_right _ (List.mem_cons_of_mem e hf)

theorem Sound.chain_take_same (h : inv.Sound) (hk : inv.chain k = before ++ e :: after) :
    (inv.take k before after e).chain k = before ++ after := by
  rw [Inventory.take, chain_lend, chain_withChain_same (h.class_of_mem_rest hk)]

theorem chain_take_of_ne {j : Option SizeClass} (hj : j ≠ k) :
    (inv.take k before after e).chain j = inv.chain j := by
  rw [Inventory.take, chain_lend, chain_withChain_of_ne hj]

theorem Sound.extents_take (h : inv.Sound) (hk : inv.chain k = before ++ e :: after) :
    (inv.take k before after e).extents.Perm inv.extents := by
  have hshelved : inv.shelved.Perm (e :: (inv.take k before after e).shelved) :=
    shelved_perm_cons hk (h.chain_take_same hk) fun j hj => (chain_take_of_ne hj).symm
  rw [extents, live_take, extents]
  exact List.perm_middle.symm.trans (hshelved.symm.append_left inv.live)

theorem Sound.take (h : inv.Sound) (hk : inv.chain k = before ++ e :: after) :
    (inv.take k before after e).Sound := by
  refine ⟨?_, ?_, ?_, fits_withChain h.sorted (h.class_of_mem_rest hk)⟩
  · obtain ⟨tiles, htiles, hperm⟩ := h.tiled
    exact ⟨tiles, by simpa using htiles, hperm.trans (h.extents_take hk).symm⟩
  · simpa using h.aligned
  · simpa using h.bounded

end Take

section Shelve

variable {inv : Inventory} {e : Extent} {live : List Extent}

theorem Sound.class_of_mem_shelve (h : (inv.withLive (e :: live)).Sound) :
    ∀ f ∈ e :: inv.chain (SizeClass.ofNat? e.size),
      SizeClass.ofNat? f.size = SizeClass.ofNat? e.size := by
  intro f hf
  rcases List.mem_cons.1 hf with rfl | hf
  · rfl
  · exact h.class_of_mem_chain (by simpa using hf)

theorem Sound.chain_shelve_same (h : (inv.withLive (e :: live)).Sound) :
    ((inv.withLive live).shelve e).chain (SizeClass.ofNat? e.size) =
      e :: inv.chain (SizeClass.ofNat? e.size) := by
  rw [shelve_eq_withChain, chain_withLive, chain_withChain_same h.class_of_mem_shelve]

theorem chain_shelve_of_ne {j : Option SizeClass} (hj : j ≠ SizeClass.ofNat? e.size) :
    ((inv.withLive live).shelve e).chain j = inv.chain j := by
  rw [shelve_eq_withChain, chain_withChain_of_ne hj, chain_withLive]

theorem Sound.extents_shelve (h : (inv.withLive (e :: live)).Sound) :
    ((inv.withLive live).shelve e).extents.Perm (inv.withLive (e :: live)).extents := by
  have hsame : ((inv.withLive live).shelve e).chain (SizeClass.ofNat? e.size) =
      [] ++ e :: inv.chain (SizeClass.ofNat? e.size) := h.chain_shelve_same
  have hshelved : ((inv.withLive live).shelve e).shelved.Perm (e :: inv.shelved) :=
    shelved_perm_cons hsame rfl fun j hj => chain_shelve_of_ne hj
  have hlive : ((inv.withLive live).shelve e).live = live := by
    rw [shelve_eq_withChain, live_withChain, live_withLive]
  rw [extents, hlive, extents, shelved_withLive]
  exact (hshelved.append_left live).trans List.perm_middle

theorem Sound.shelve (h : (inv.withLive (e :: live)).Sound) :
    ((inv.withLive live).shelve e).Sound := by
  have hperm := h.extents_shelve
  have hfits : ∀ f ∈ (inv.withLive live).fits, SizeClass.ofNat? f.size = none := h.sorted
  have hclass := h.class_of_mem_shelve
  rw [shelve_eq_withChain, chain_withLive] at hperm ⊢
  refine ⟨?_, ?_, ?_, fits_withChain hfits hclass⟩
  · obtain ⟨tiles, htiles, htp⟩ := h.tiled
    exact ⟨tiles, by simpa using htiles, htp.trans hperm.symm⟩
  · simpa using h.aligned
  · simpa using h.bounded

end Shelve

/-- A live extent may be replaced by two that lie end to end in its place. -/
theorem Sound.cut {inv : Inventory} {e low high : Extent} {live : List Extent}
    (h : (inv.withLive (e :: live)).Sound) (hp : e.Parts low high) :
    (inv.withLive (high :: low :: live)).Sound where
  tiled := by
    obtain ⟨tiles, htiles, hperm⟩ := h.tiled
    have hmem : e ∈ tiles := hperm.mem_iff.2 (mem_extents_of_live List.mem_cons_self)
    obtain ⟨before, after, rfl⟩ := List.append_of_mem hmem
    refine ⟨_, htiles.split hp, ?_⟩
    rw [extents, shelved_withLive] at hperm ⊢
    -- `e` gone from both sides, the rest is the same, and the two parts are put back
    have hrest : (before ++ after).Perm (live ++ inv.shelved) :=
      List.Perm.cons_inv (List.perm_middle.symm.trans hperm)
    have hswap : (before ++ low :: high :: after).Perm (high :: low :: (before ++ after)) :=
      List.perm_middle.trans ((List.perm_middle.cons low).trans (List.Perm.swap high low _))
    exact hswap.trans ((hrest.cons low).cons high)
  aligned := h.aligned
  bounded := h.bounded
  sorted := h.sorted

theorem Sound.mem_of_cut {inv : Inventory} {e f low high : Extent} {live : List Extent}
    (h : (inv.withLive (e :: live)).Sound)
    (hf : f ∈ (inv.withLive (high :: low :: live)).extents) :
    f = high ∨ f = low ∨ (f ∈ (inv.withLive (e :: live)).extents ∧ f ≠ e) := by
  have hnodup := h.nodup
  rw [extents, shelved_withLive] at hf hnodup
  rcases List.mem_cons.1 hf with rfl | hf
  · exact Or.inl rfl
  · rcases List.mem_cons.1 hf with rfl | hf
    · exact Or.inr (Or.inl rfl)
    · refine Or.inr (Or.inr ⟨?_, fun hfe => (List.nodup_cons.1 hnodup).1 (hfe ▸ hf)⟩)
      rw [extents, shelved_withLive]
      exact List.mem_cons_of_mem e hf

theorem bump_eq_some_iff {inv inv' : Inventory} {room size : Nat} {e : Extent} :
    inv.bump room size = some (e, inv') ↔
      inv.frontier + 4 + size < Word.bound ∧ inv.frontier + 4 + size ≤ room ∧
        e = ⟨inv.frontier, size⟩ ∧
          inv' = lend e { inv with frontier := inv.frontier + 4 + size } := by
  simp only [Inventory.bump]
  constructor
  · intro h
    split at h
    · rename_i hfits
      simp only [Option.some.injEq, Prod.mk.injEq] at h
      obtain ⟨rfl, rfl⟩ := h
      exact ⟨hfits.1, hfits.2, rfl, rfl⟩
    · cases h
  · rintro ⟨hspace, hroom, rfl, rfl⟩
    rw [if_pos ⟨hspace, hroom⟩]

theorem Sound.fair_bump {inv : Inventory} {size : Nat} (h : inv.Sound) (hwords : size % 4 = 0)
    (hleast : 4 ≤ size) : Extent.Fair ⟨inv.frontier, size⟩ := by
  obtain ⟨tiles, htiles, -⟩ := h.tiled
  exact ⟨htiles.aligned h.aligned, hwords, hleast⟩

theorem Sound.bump {inv inv' : Inventory} {room size : Nat} {e : Extent} (h : inv.Sound)
    (hwords : size % 4 = 0) (hleast : 4 ≤ size) (hb : inv.bump room size = some (e, inv')) :
    inv'.Sound := by
  obtain ⟨hspace, -, rfl, rfl⟩ := bump_eq_some_iff.1 hb
  obtain ⟨tiles, htiles, hperm⟩ := h.tiled
  refine ⟨⟨tiles ++ [⟨inv.frontier, size⟩], ?_, ?_⟩, h.aligned, hspace, h.sorted⟩
  · exact htiles.snoc rfl (h.fair_bump hwords hleast)
  · exact (List.perm_append_singleton _ tiles).trans (hperm.cons _)

/-! ### What serving hands out -/

@[simp] theorem start_shelve (e : Extent) (inv : Inventory) :
    (inv.shelve e).start = inv.start := by rw [shelve_eq_withChain, start_withChain]

@[simp] theorem frontier_shelve (e : Extent) (inv : Inventory) :
    (inv.shelve e).frontier = inv.frontier := by rw [shelve_eq_withChain, frontier_withChain]

@[simp] theorem live_shelve (e : Extent) (inv : Inventory) :
    (inv.shelve e).live = inv.live := by rw [shelve_eq_withChain, live_withChain]

/-- What one hand-out changes besides the chains. -/
structure Lends (inv inv' : Inventory) (e : Extent) : Prop where
  start : inv'.start = inv.start
  frontier : inv.frontier ≤ inv'.frontier
  live : inv'.live = e :: inv.live

theorem lends_of_bump {inv inv' : Inventory} {room size : Nat} {e : Extent}
    (hb : inv.bump room size = some (e, inv')) : inv.Lends inv' e ∧ e.size = size := by
  obtain ⟨-, -, rfl, rfl⟩ := bump_eq_some_iff.1 hb
  refine ⟨⟨rfl, ?_, rfl⟩, rfl⟩
  show inv.frontier ≤ inv.frontier + 4 + size
  omega

theorem lends_of_serve {inv inv' : Inventory} {room size : Nat} {e : Extent}
    (hs : inv.serve room size = some (e, inv')) : inv.Lends inv' e ∧ size ≤ e.size := by
  unfold serve at hs
  split at hs
  · split at hs
    · obtain ⟨hlends, hsize⟩ := lends_of_bump hs
      exact ⟨hlends, Nat.le_of_eq hsize.symm⟩
    · cases hs
      exact ⟨⟨rfl, Nat.le_refl _, rfl⟩, Nat.le_refl _⟩
  · split at hs
    · obtain ⟨hlends, hsize⟩ := lends_of_bump hs
      exact ⟨hlends, Nat.le_of_eq hsize.symm⟩
    · rename_i f hfind
      have hfit : size ≤ f.size := by simpa using List.find?_some hfind
      split at hs
      · cases hs
        exact ⟨⟨rfl, Nat.le_refl _, rfl⟩, hfit⟩
      · simp only [Option.some.injEq, Prod.mk.injEq] at hs
        obtain ⟨rfl, rfl⟩ := hs
        refine ⟨⟨?_, ?_, ?_⟩, Nat.le_refl _⟩
        · rw [start_shelve]
          rfl
        · rw [frontier_shelve]
          exact Nat.le_refl _
        · rw [live_shelve]
          rfl

/-- A size that leaves the address space is never served. -/
theorem serve_of_bound_le {inv : Inventory} {room size : Nat} (h : inv.Sound)
    (hsize : Word.bound ≤ size) : inv.serve room size = none := by
  have hclass : SizeClass.ofNat? size = none := by
    simp only [Word.bound] at hsize
    unfold SizeClass.ofNat?
    rw [dif_neg (by omega)]
  have hfind : (inv.fits.find? fun e => decide (size ≤ e.size)) = none := by
    apply List.find?_eq_none.2
    intro e he hle
    have hlt := h.size_lt (mem_extents_of_chain (k := none) he)
    have := of_decide_eq_true hle
    omega
  have hbump : inv.bump room size = none := by
    unfold bump
    rw [if_neg (by omega)]
  simp only [serve, hclass, hfind, hbump]

end Inventory

end LinearHeap
