/-
  LinearHeap/Proofs/Permanence.lean
  =================================
  **Block boundaries are permanent.**  The headers in memory lead from each block
  to the next, and so list the blocks of a heap (`Tenancy.blocks`).  Between two
  states of a lawful run the frontier only moves up, and where a block started, a
  block starts for ever after, no larger than it was: blocks fall into two, and
  nothing ever joins or moves them.  An address that was handed out once is
  therefore the payload address of one block at every later time, whether that
  block is out or free.

  On inventories this is an order (`Finer`), and no move of an inventory goes
  against it, sound or not.
-/
import LinearHeap.Proofs.Balance

namespace LinearHeap

/-! ### The blocks that the headers show -/

/-- The blocks from one address up to another, each header leading to the next. -/
def Memory.blocksBetween (m : Memory) (lo hi : Nat) : List Extent :=
  if lo < hi then
    match m.load? (UInt32.ofNat lo) with
    | some size => ⟨lo, size.toNat⟩ :: m.blocksBetween (lo + 4 + size.toNat) hi
    | none => []
  else []
termination_by hi - lo

/-- The blocks of the carved region. -/
def Tenancy.blocks (s : Tenancy) : List Extent :=
  s.memory.blocksBetween s.heap.start.toNat s.heap.frontier.toNat

theorem Tiles.blocksBetween_eq {m : Memory} {lo hi : Nat} {tiles : List Extent}
    (ht : Tiles lo hi tiles)
    (hh : ∀ e ∈ tiles, (e.block.size? m).map UInt32.toNat = some e.size) :
    m.blocksBetween lo hi = tiles := by
  induction tiles generalizing lo with
  | nil =>
      obtain rfl : lo = hi := ht
      rw [Memory.blocksBetween, if_neg (Nat.lt_irrefl lo)]
  | cons e tiles ih =>
      obtain ⟨rfl, -, htail⟩ := ht
      obtain ⟨size, hload, hsize⟩ := Option.map_eq_some_iff.1 (hh e List.mem_cons_self)
      have hload : m.load? (UInt32.ofNat e.header) = some size := hload
      have hrest := ih htail fun f hf => hh f (List.mem_cons_of_mem e hf)
      have hlt : e.header < hi := by
        have hle := htail.le
        simp only [Extent.stop] at hle
        omega
      rw [Memory.blocksBetween, if_pos hlt, hload]
      simp only [hsize]
      exact congrArg (e :: ·) hrest

/-! ### The order of refinement -/

namespace Inventory

variable {a b c inv inv' : Inventory} {e : Extent} {k : Option SizeClass}
  {before after : List Extent} {room size request length element : Nat}

/-- Where an extent of the first starts, an extent of the second starts, no larger. -/
structure Finer (old new : Inventory) : Prop where
  start : new.start = old.start
  frontier : old.frontier ≤ new.frontier
  extents : ∀ e ∈ old.extents, ∃ f ∈ new.extents, f.header = e.header ∧ f.size ≤ e.size

theorem Finer.refl (inv : Inventory) : Finer inv inv :=
  ⟨rfl, Nat.le_refl _, fun e he => ⟨e, he, rfl, Nat.le_refl _⟩⟩

theorem Finer.trans (h : Finer a b) (h' : Finer b c) : Finer a c where
  start := h'.start.trans h.start
  frontier := Nat.le_trans h.frontier h'.frontier
  extents := by
    intro e he
    obtain ⟨f, hf, hheader, hsize⟩ := h.extents e he
    obtain ⟨g, hg, hheader', hsize'⟩ := h'.extents f hf
    exact ⟨g, hg, hheader'.trans hheader, Nat.le_trans hsize' hsize⟩

/-- Where there was a payload, there is one. -/
theorem Finer.payload (h : Finer a b) (he : e ∈ a.extents) :
    ∃ f ∈ b.extents, f.payload = e.payload := by
  obtain ⟨f, hf, hheader, -⟩ := h.extents e he
  refine ⟨f, hf, ?_⟩
  rw [Extent.payload, Extent.payload, hheader]

/-- What keeps every extent is finer. -/
theorem finer_of_subset (hstart : b.start = a.start) (hfrontier : a.frontier ≤ b.frontier)
    (hsubset : ∀ e ∈ a.extents, e ∈ b.extents) : Finer a b :=
  ⟨hstart, hfrontier, fun e he => ⟨e, hsubset e he, rfl, Nat.le_refl _⟩⟩

theorem finer_bump (hs : inv.bump room size = some (e, inv')) : Finer inv inv' := by
  obtain ⟨-, -, rfl, rfl⟩ := bump_eq_some_iff.1 hs
  refine finer_of_subset rfl ?_ fun f hf => ?_
  · show inv.frontier ≤ inv.frontier + 4 + size
    omega
  · exact List.mem_cons_of_mem _ hf

theorem finer_take (hk : inv.chain k = before ++ e :: after) :
    Finer inv (inv.take k before after e) := by
  have hperm : inv.extents.Perm (inv.take k before after e).extents := by
    rw [extents, extents, live_take]
    exact ((shelved_take hk e).append_left inv.live).trans List.perm_middle
  exact finer_of_subset (start_take ..) (Nat.le_of_eq (frontier_take ..).symm)
    fun f hf => hperm.mem_iff.1 hf

/-- Cutting a fit leaves its lower part where it was, and every other extent as it was. -/
theorem finer_cut (hk : inv.fits = before ++ e :: after) {low high : Extent}
    (hheader : low.header = e.header) (hsize : low.size ≤ e.size) :
    Finer inv ((inv.take none before after low).shelve high) := by
  have hperm : ((inv.take none before after low).shelve high).extents.Perm
      (low :: high :: (inv.live ++ (inv.take none before after low).shelved)) := by
    rw [extents, live_shelve, live_take]
    exact ((shelved_shelve high _).append_left (low :: inv.live)).trans
      (List.perm_middle.cons low)
  have hshelved : inv.shelved.Perm (e :: (inv.take none before after low).shelved) :=
    shelved_take (k := none) hk low
  refine ⟨?_, ?_, fun f hf => ?_⟩
  · rw [start_shelve, start_take]
  · exact Nat.le_of_eq ((frontier_shelve ..).trans (frontier_take ..)).symm
  · have hold : f ∈ e :: (inv.live ++ (inv.take none before after low).shelved) :=
      ((hshelved.append_left inv.live).trans List.perm_middle).mem_iff.1 hf
    rcases List.mem_cons.1 hold with rfl | hrest
    · exact ⟨low, hperm.mem_iff.2 List.mem_cons_self, hheader, hsize⟩
    · exact ⟨f, hperm.mem_iff.2 (List.mem_cons_of_mem _ (List.mem_cons_of_mem _ hrest)), rfl,
        Nat.le_refl _⟩

theorem finer_serve (hs : inv.serve room size = some (e, inv')) : Finer inv inv' := by
  cases serves_of_serve hs with
  | carved hb => exact finer_bump hb
  | whole hk => exact finer_take hk
  | cut hk _ hfit => exact finer_cut hk rfl hfit

theorem finer_allocateSlice : Finer inv (inv.allocateSlice room length element).2 := by
  rcases hs : inv.allocateSlice room length element with ⟨lent, left⟩
  obtain ⟨-, rfl, -⟩ | ⟨record, -, -, hr, -⟩ | ⟨content, record, mid, -, -, hr, hc⟩ :=
    allocateSlice_cases hs
  · exact .refl _
  · exact finer_serve hr
  · exact (finer_serve hr).trans (finer_serve hc)

/-- Freeing moves one extent at most, and from what is out to what is not. -/
theorem extents_free (payload : Nat) : (inv.free payload).extents.Perm inv.extents := by
  cases hfind : inv.live.find? fun e => e.payload == payload with
  | none =>
      simp only [Inventory.free, hfind]
      exact .refl _
  | some e =>
      obtain ⟨before, after, hlive, hfree⟩ := free_of_find? hfind
      have hshelved := shelved_shelve e (inv.withLive (before ++ after))
      rw [shelved_withLive] at hshelved
      rw [hfree, extents, extents, live_shelve, live_withLive, hlive]
      refine (hshelved.append_left (before ++ after)).trans ?_
      exact List.perm_middle.trans (List.perm_middle.append_right inv.shelved).symm

theorem finer_free (payload : Nat) : Finer inv (inv.free payload) := by
  refine finer_of_subset (bounds_free payload).1 (Nat.le_of_eq (bounds_free payload).2.symm) ?_
  intro f hf
  exact (extents_free payload).mem_iff.2 hf

end Inventory

namespace Blueprint

/-- No action goes against the order, lawful or not. -/
theorem finer_step (p : Blueprint) (a : Action) : p.inventory.Finer (p.step a).inventory := by
  show p.inventory.Finer (p.effect a).2
  cases a with
  | allocate request =>
      simp only [effect]
      split
      · rename_i hs
        exact Inventory.finer_serve hs
      · exact .refl _
  | allocateSlice length element => exact Inventory.finer_allocateSlice
  | free a => exact Inventory.finer_free a.toNat
  | freeSlice handle =>
      simp only [effect]
      split
      · exact (Inventory.finer_free _).trans (Inventory.finer_free _)
      · exact .refl _
  | write after => exact .refl _
  | grow after => exact .refl _

theorem finer_run (p : Blueprint) (as : List Action) :
    p.inventory.Finer (p.run as).inventory := by
  induction as generalizing p with
  | nil => exact .refl _
  | cons a as ih => exact (p.finer_step a).trans (ih (p.step a))

end Blueprint

/-! ### Two states of a run -/

namespace Tenancy

/-- Every payload address that the run takes out, those of records and contents included. -/
def handed (s : Tenancy) : List Action → List Addr
  | [] => []
  | a :: as => s.taken a ++ (s.step a).handed as

/-- What the blocks of a state still are in a later one. -/
structure Endures (s t : Tenancy) : Prop where
  frontier : s.heap.frontier.toNat ≤ t.heap.frontier.toNat
  blocks : ∀ e ∈ s.blocks, ∃ f ∈ t.blocks, f.header = e.header ∧ f.size ≤ e.size

/-- The address is the payload of one block, which is out or in one of the chains. -/
def Places (s : Tenancy) (chains : Option SizeClass → List Extent) (a : Addr) : Prop :=
  ∃ e ∈ s.blocks, (∀ f ∈ s.blocks, f.payload = a.toNat ↔ f = e) ∧
    ((a ∈ s.live ∧ ∀ k, e ∉ chains k) ∨ (a ∉ s.live ∧ ∃ k, e ∈ chains k))

end Tenancy

namespace Mirrors

open Tenancy

variable {s : Tenancy} {p : Blueprint} {as : List Action} {a : Addr}

/-- The headers in memory show the extents of the blueprint. -/
theorem exists_wellFormed_blocks (hm : Mirrors s p) :
    s.heap.WellFormed s.memory s.live s.blocks p.inventory.chain ∧
      s.blocks.Perm p.inventory.extents := by
  obtain ⟨tiles, hwell, hperm⟩ := hm.describes.exists_wellFormed hm.live
  obtain rfl : s.blocks = tiles := hwell.tiled.blocksBetween_eq hwell.headers
  exact ⟨hwell, hperm⟩

theorem endures_run (hm : Mirrors s p) (hl : s.Lawful as) : s.Endures (s.run as) := by
  have hlater := hm.run hl
  have hfiner := p.finer_run as
  have hold := hm.exists_wellFormed_blocks.2
  have hnew := hlater.exists_wellFormed_blocks.2
  constructor
  · rw [hm.describes.frontier, hlater.describes.frontier]
    exact hfiner.frontier
  · intro e he
    obtain ⟨f, hf, hheader, hsize⟩ := hfiner.extents e (hold.mem_iff.1 he)
    exact ⟨f, hnew.mem_iff.2 hf, hheader, hsize⟩

/-- What was handed out during a run is the payload of an extent at its end. -/
theorem exists_of_handed (hm : Mirrors s p) (hl : s.Lawful as) (ha : a ∈ s.handed as) :
    ∃ e ∈ (p.run as).inventory.extents, e.payload = a.toNat := by
  induction as generalizing s p with
  | nil => cases ha
  | cons x as ih =>
      have hf := hm.follows hl.1
      rcases List.mem_append.1 ha with ha | ha
      · rw [hf.taken] at ha
        obtain ⟨e, he, rfl⟩ := List.mem_map.1 ha
        have hmem : e ∈ (p.effect x).2.extents :=
          Inventory.mem_extents_of_live (hf.live.mem_iff.2 (List.mem_append_left _ he))
        obtain ⟨f, hfm, hpayload⟩ := ((p.step x).finer_run as).payload hmem
        exact ⟨f, hfm, hpayload.trans (hf.describes.toNat_slot_eq_payload hmem).symm⟩
      · exact ih (hm.step hl.1) hl.2 ha

theorem places_of_payload (hm : Mirrors s p)
    (ha : ∃ e ∈ p.inventory.extents, e.payload = a.toNat) :
    s.Places p.inventory.chain a := by
  obtain ⟨hwell, hperm⟩ := hm.exists_wellFormed_blocks
  obtain ⟨e, he, hpayload⟩ := ha
  have hinj : Function.Injective UInt32.toNat := fun _ _ h => UInt32.toNat_inj.1 h
  have hplaced := hwell.placed e (hperm.mem_iff.2 he)
  rw [hpayload, List.mem_map_of_injective hinj] at hplaced
  refine ⟨e, hperm.mem_iff.2 he, fun f hf => ⟨fun hfp => ?_, fun hfe => hfe ▸ hpayload⟩, ?_⟩
  · apply hm.describes.sound.eq_of_header (hperm.mem_iff.1 hf) he
    simp only [Extent.payload] at hfp hpayload
    omega
  · rcases hplaced with hout | ⟨hfree, k, -, hone, -⟩
    · exact Or.inl hout
    · exact Or.inr ⟨hfree, k, List.count_pos_iff.1 (by omega)⟩

end Mirrors

/-- For every two states of a lawful run on a new heap: both are tiled by the blocks that their
    headers show, the frontier has not moved down, every block of the earlier state starts a block
    of the later one that is no larger, and every address handed out so far is the payload address
    of one block of the later state, which is out or free. -/
theorem boundaries_permanent {requested : Addr} {m m' : Ambient} {h : Heap} {as bs : List Action}
    (hc : Heap.create requested () m = ⟨.ok (.ok h), (), m'⟩)
    (hl : (Tenancy.opened h m').Lawful (as ++ bs)) :
    let s := (Tenancy.opened h m').run as
    let t := (Tenancy.opened h m').run (as ++ bs)
    (∃ chains, s.heap.WellFormed s.memory s.live s.blocks chains) ∧ s.Endures t ∧
      ∃ chains, t.heap.WellFormed t.memory t.live t.blocks chains ∧
        ∀ a ∈ (Tenancy.opened h m').handed as, t.Places chains a := by
  intro s t
  obtain ⟨hempty, haligned, -⟩ := Heap.create_eq_ok hc
  obtain ⟨hl, hl'⟩ := hl.of_append
  have hopened := Mirrors.opened (m := m') hempty haligned
  have hm := hopened.run hl
  have hm' := hm.run hl'
  have ht : t = s.run bs := Tenancy.run_append _ as bs
  rw [ht]
  refine ⟨⟨_, hm.exists_wellFormed_blocks.1⟩, hm.endures_run hl', _,
    hm'.exists_wellFormed_blocks.1, fun a ha => hm'.places_of_payload ?_⟩
  obtain ⟨e, he, hpayload⟩ := hopened.exists_of_handed hl ha
  obtain ⟨f, hf, hsame⟩ := (Blueprint.finer_run _ bs).payload he
  exact ⟨f, hf, hsame.trans hpayload⟩

/-- A block that was handed out is freed and cut, a slice comes and goes, and a refused slice
    leaves its record. -/
theorem boundaries_permanent_of_split_run :
    let m : Ambient := { memory := .zeros 128, journal := #[.heapCreated 0 0] }
    let s := (Tenancy.opened (.empty 0) m).run [.allocate 60, .allocateSlice 2 4]
    let t := (Tenancy.opened (.empty 0) m).run ([.allocate 60, .allocateSlice 2 4] ++
      [.free 4, .allocate 36, .freeSlice 68, .allocateSlice 65536 65536, .allocate 10])
    (∃ chains, s.heap.WellFormed s.memory s.live s.blocks chains) ∧ s.Endures t ∧
      ∃ chains, t.heap.WellFormed t.memory t.live t.blocks chains ∧
        ∀ a ∈ (Tenancy.opened (.empty 0) m).handed [.allocate 60, .allocateSlice 2 4],
          t.Places chains a :=
  boundaries_permanent (show Heap.create 0 () { memory := .zeros 128 } = _ from rfl)
    (by decide +kernel)

end LinearHeap
