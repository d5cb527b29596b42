/-
  LinearHeap/Proofs/Regain.lean
  =============================
  **What is freed last is found first.**  An extent that served a size suits it:
  it has the class of the size and no slack worth a cut.  That is all a later
  request needs.  Freed, the extent stands at the front of its chain; the next
  request for the size takes it from there, whole, and the inventory is the one
  before the release, in every chain and whatever room there is (`serve_free`).

  A slice is two such extents.  It is freed content first, so that the record is
  found first when it is asked for again (`allocateSlice_free_free`).
-/
import LinearHeap.Proofs.Balance

namespace LinearHeap

/-- The two counts agree in what was carved and what was split. -/
structure Counters.Settled (n n' : Counters) : Prop where
  carved : n'.carved = n.carved
  splits : n'.splits = n.splits

namespace Counters

variable {n n' n'' : Counters}

theorem Settled.refl (n : Counters) : n.Settled n := ⟨rfl, rfl⟩

theorem Settled.trans (h : n.Settled n') (h' : n'.Settled n'') : n.Settled n'' :=
  ⟨h'.carved.trans h.carved, h'.splits.trans h.splits⟩

theorem settled_joined (k : Option SizeClass) (n : Counters) : n.Settled (n.joined k) := by
  cases k <;> exact ⟨rfl, rfl⟩

theorem settled_reused (k : Option SizeClass) (n : Counters) : n.Settled (n.reused k) := by
  cases k <;> exact ⟨rfl, rfl⟩

end Counters

namespace Inventory

variable {inv inv' : Inventory} {e content record : Extent} {rest : List Extent}
  {room size request length element : Nat}

/-- The extent is of the chain that serves the size, and is given whole. -/
structure Suits (size : Nat) (e : Extent) : Prop where
  sameClass : SizeClass.ofNat? e.size = SizeClass.ofNat? size
  fit : size ≤ e.size
  slack : e.size - size < 12

theorem suits_self (header size : Nat) : Suits size ⟨header, size⟩ where
  sameClass := rfl
  fit := Nat.le_refl _
  slack := by
    show size - size < 12
    omega

/-- Whatever serves a size suits it. -/
theorem Sound.suits_of_serve (h : inv.Sound) (hs : inv.serve room size = some (e, inv')) :
    Suits size e := by
  cases serves_of_serve hs with
  | carved hb =>
      obtain ⟨-, -, rfl, -⟩ := bump_eq_some_iff.1 hb
      exact suits_self _ _
  | whole hk _ hclass hfit hslack =>
      refine ⟨?_, hfit, hslack⟩
      rw [hclass]
      apply h.class_of_mem_chain
      rw [hk]
      exact List.mem_append_right _ List.mem_cons_self
  | cut => exact suits_self _ _

end Inventory

/-- A description is sound after every request that is served. -/
theorem Mirrors.sound_of_allocate {s : Tenancy} {p : Blueprint} (hm : Mirrors s p) {e : Extent}
    {left : Inventory} {request : Word}
    (hs : p.inventory.allocate p.room request.toNat = some (e, left)) : left.Sound := by
  rw [hm.room] at hs
  obtain ⟨h', m', -, hd, -⟩ := hm.describes.allocate_of_some (m := s.ambient) hs
  exact hd.sound

namespace Inventory

variable {inv inv' : Inventory} {e content record : Extent} {rest : List Extent}
  {room size request length element : Nat}

/-! ### Putting back and taking again -/

/-- What stands at the front of its chain and suits the size is what serves it. -/
theorem serve_shelve (hs : Suits size e) :
    (inv.shelve e).serve room size = some (e, inv.lend e) := by
  obtain ⟨hclass, hfit, hslack⟩ := hs
  cases hc : SizeClass.ofNat? size with
  | some c =>
      rw [hc] at hclass
      have hsize : e.size = size :=
        (SizeClass.ofNat?_eq_some_iff.1 hclass).trans (SizeClass.ofNat?_eq_some_iff.1 hc).symm
      subst hsize
      simp only [serve, shelve, hc, Function.update_self, Function.update_idem,
        Function.update_eq_self]
  | none =>
      rw [hc] at hclass
      simp only [serve, shelve, hc, hclass, List.find?_cons, List.eraseP_cons,
        decide_eq_true hfit, if_pos hslack, cond_true]

theorem countServe_shelve (hs : Suits size e) :
    (inv.shelve e).countServe size = Counters.reused (SizeClass.ofNat? size) := by
  obtain ⟨hclass, hfit, hslack⟩ := hs
  cases hc : SizeClass.ofNat? size with
  | some c =>
      rw [hc] at hclass
      apply countServe_of_cons hc
      simp only [shelve, hclass, Function.update_self]
      rfl
  | none =>
      rw [hc] at hclass
      refine countServe_of_lt_twelve hc ?_ hslack
      simp only [shelve, hclass, List.find?_cons, decide_eq_true hfit]

/-- The latest that was handed out is the first to be found by its payload. -/
theorem free_of_live_cons (hlive : inv.live = e :: rest) :
    inv.free e.payload = (inv.withLive rest).shelve e := by
  simp only [free, hlive, List.find?_cons, List.eraseP_cons, beq_self_eq_true, cond_true]
  rfl

theorem live_free_of_cons (hlive : inv.live = e :: rest) : (inv.free e.payload).live = rest := by
  rw [free_of_live_cons hlive, live_shelve, live_withLive]

theorem frontier_free_of_cons (hlive : inv.live = e :: rest) :
    (inv.free e.payload).frontier = inv.frontier := by
  rw [free_of_live_cons hlive, frontier_shelve]
  rfl

theorem serve_free (hlive : inv.live = e :: rest) (hs : Suits size e) :
    (inv.free e.payload).serve room size = some (e, inv) := by
  rw [free_of_live_cons hlive, serve_shelve hs]
  simp only [lend, withLive, ← hlive]

theorem allocate_free (hlive : inv.live = e :: rest) (hs : Suits (padded request) e) :
    (inv.free e.payload).allocate room request = some (e, inv) := serve_free hlive hs

theorem settled_countFree (payload : Nat) (n : Counters) :
    n.Settled (inv.countFree payload n) := by
  unfold countFree
  split
  · exact Counters.settled_joined _ n
  · exact .refl n

theorem settled_countAllocate (hlive : inv.live = e :: rest) (hs : Suits (padded request) e)
    (n : Counters) : n.Settled ((inv.free e.payload).countAllocate room request n) := by
  rw [countAllocate_of_some (allocate_free hlive hs), free_of_live_cons hlive,
    countServe_shelve hs]
  exact Counters.settled_reused _ n

/-! ### Slices -/

section Slice

variable (hlive : inv.live = content :: record :: rest) (hbound : length * element < Word.bound)
  (hr : Suits (padded 8) record) (hc : Suits (padded (length * element)) content)

include hlive hbound hr hc

theorem allocateSlice_free_free :
    ((inv.free content.payload).free record.payload).allocateSlice room length element =
      ([content, record], inv) := by
  have hrecord : ((inv.free content.payload).free record.payload).allocate room 8 =
      some (record, inv.free content.payload) := allocate_free (live_free_of_cons hlive) hr
  have hcontent : (inv.free content.payload).allocate room (length * element) =
      some (content, inv) := allocate_free hlive hc
  simp only [allocateSlice, if_pos hbound, hrecord, hcontent]

theorem settled_countSlice (n : Counters) :
    n.Settled (((inv.free content.payload).free record.payload).countSlice room length element
      n) := by
  have hrecord : ((inv.free content.payload).free record.payload).allocate room 8 =
      some (record, inv.free content.payload) := allocate_free (live_free_of_cons hlive) hr
  simp only [countSlice, if_pos hbound, hrecord]
  exact (settled_countAllocate (live_free_of_cons hlive) hr n).trans
    (settled_countAllocate hlive hc _)

end Slice

end Inventory

end LinearHeap
