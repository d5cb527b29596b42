/-
  LinearHeap/Proofs/Mirrors.lean
  ==============================
  **Heap and blueprint stay in step.**  `Mirrors` relates the two: the inventory
  describes the heap, the same addresses are out, and every slice has its record
  in memory.  One lemma for each action says how the heap follows the blueprint
  (`Follows`); that the relation survives is then the same argument for all of
  them, and a lawful run is an induction over its actions.
-/
import LinearHeap.Proofs.Blueprint

namespace LinearHeap

structure Mirrors (s : Tenancy) (p : Blueprint) : Prop where
  describes : p.inventory.Describes s.heap s.memory
  room : p.room = s.memory.size
  live : (s.live.map UInt32.toNat).Perm (p.inventory.live.map Extent.payload)
  slices : p.slices = s.slices.map fun x => (x.1.toNat, x.2.toNat)
  records : ∀ x ∈ p.slices, p.Keeps s.memory x

/-- The heap does in this action what the blueprint does. -/
structure Follows (s : Tenancy) (p : Blueprint) (a : Action) : Prop where
  describes : (p.effect a).2.Describes (s.call a).own (s.call a).ambient.memory
  answer : (s.call a).result.toOption.map (Option.map UInt32.toNat) = p.answer a
  room : (p.step a).room = (s.call a).ambient.memory.size
  taken : s.taken a = (p.effect a).1.map fun e => e.block.slot
  released : p.released a = (s.released a).map UInt32.toNat
  live : (p.effect a).2.live.Perm ((p.effect a).1 ++ p.kept a)
  record : ∀ content record, (p.effect a).1 = [content, record] →
    8 ≤ record.size ∧ (s.call a).ambient.memory.Holds record.payload content.block.slot
  changes : ∀ i, ¬ p.Touches a i →
    (s.call a).ambient.memory.byte? i = s.memory.byte? i

namespace Mirrors

open Blueprint

variable {s : Tenancy} {p : Blueprint} {a : Action}

theorem exists_extent (hm : Mirrors s p) {a : Addr} (ha : a ∈ s.live) :
    ∃ e ∈ p.inventory.live, a.toNat = e.payload :=
  exists_of_live_perm hm.live ha

theorem lookup_map_toNat (xs : List (Addr × Addr)) (handle : Addr) :
    (xs.map fun x => (x.1.toNat, x.2.toNat)).lookup handle.toNat =
      (xs.lookup handle).map UInt32.toNat := by
  induction xs with
  | nil => rfl
  | cons x xs ih =>
      obtain ⟨k, v⟩ := x
      simp only [List.map_cons, List.lookup_cons]
      by_cases hk : handle = k
      · subst hk
        simp only [beq_self_eq_true, Option.map_some]
      · have hne : handle.toNat ≠ k.toNat := fun heq => hk (UInt32.toNat_inj.1 heq)
        simp only [beq_eq_false_iff_ne.2 hk, beq_eq_false_iff_ne.2 hne]
        exact ih

theorem mem_of_lookup {xs : List (Nat × Nat)} {k v : Nat} (h : xs.lookup k = some v) :
    (k, v) ∈ xs := by
  obtain ⟨before, after, rfl, -⟩ := List.lookup_eq_some_iff.1 h
  exact List.mem_append_right _ List.mem_cons_self

theorem lookup_slices (hm : Mirrors s p) {handle data : Addr}
    (h : s.slices.lookup handle = some data) :
    p.slices.lookup handle.toNat = some data.toNat := by
  rw [hm.slices, lookup_map_toNat, h]
  rfl

theorem lookup_record (hm : Mirrors s p) {handle data : Addr}
    (h : s.slices.lookup handle = some data) :
    ∃ record ∈ p.inventory.live, ∃ content ∈ p.inventory.live, record ≠ content ∧
      handle.toNat = record.payload ∧ data.toNat = content.payload ∧ 8 ≤ record.size ∧
      s.memory.Holds handle.toNat data := by
  have hmem := mem_of_lookup (hm.lookup_slices h)
  obtain ⟨record, hr, content, hc, hne, hhandle, hdata, hsize, hholds⟩ := hm.records _ hmem
  rw [UInt32.ofNat_toNat] at hholds
  exact ⟨record, hr, content, hc, hne, hhandle.symm, hdata.symm, hsize, hholds⟩

/-! ### The heap follows, action by action -/

/-- A call follows the blueprint if what it comes to fits what the blueprint expects. -/
theorem follows_of_call (hm : Mirrors s p) {lent : List Extent} {left : Inventory}
    {result : Except Fault (Option Addr)} {h' : Heap} {m' : Ambient}
    (heffect : p.effect a = (lent, left)) (hroom : (p.step a).room = p.room)
    (hcall : s.call a = ⟨result, h', m'⟩) (hnew : left.Describes h' m'.memory)
    (hchange : s.memory.ChangesOnly (p.Touches a) m'.memory)
    (hanswer : result.toOption.map (Option.map UInt32.toNat) = p.answer a)
    (htaken : s.taken a = lent.map fun e => e.block.slot)
    (hreleased : p.released a = (s.released a).map UInt32.toNat)
    (hlive : left.live.Perm (lent ++ p.kept a))
    (hrecord : ∀ content record, lent = [content, record] →
      8 ≤ record.size ∧ m'.memory.Holds record.payload content.block.slot) :
    Follows s p a := by
  constructor
  · rw [hcall, heffect]
    exact hnew
  · rw [hcall]
    exact hanswer
  · rw [hcall, hroom, hm.room]
    exact hchange.size.symm
  · rw [heffect]
    exact htaken
  · exact hreleased
  · rw [heffect]
    exact hlive
  · rw [hcall, heffect]
    exact hrecord
  · rw [hcall]
    exact hchange.byte

theorem perm_kept_of_released_eq_nil {lent : List Extent} {left : Inventory}
    (hlive : left.live = lent ++ p.inventory.live) (hreleased : p.released a = []) :
    left.live.Perm (lent ++ p.kept a) := by
  rw [kept_of_released_eq_nil hreleased, hlive]

theorem follows_allocate (hm : Mirrors s p) (request : Word) :
    Follows s p (.allocate request) := by
  have hd := hm.describes
  cases hs : p.inventory.allocate p.room request.toNat with
  | some result =>
      obtain ⟨e, left⟩ := result
      have heffect : p.effect (.allocate request) = ([e], left) := by simp only [effect, hs]
      rw [hm.room] at hs
      obtain ⟨h', m', hact, hnew, hchange, -⟩ := hd.allocate_of_some (m := s.ambient) hs
      have hlive : left.live = e :: p.inventory.live := (Inventory.lends_of_allocate hs).1.live
      have he : e ∈ left.extents := by
        apply Inventory.mem_extents_of_live
        rw [hlive]
        exact List.mem_cons_self
      apply hm.follows_of_call heffect rfl (Act.map_of_ok hact) hnew
      · apply hchange.mono
        intro i hi
        simpa only [Touches, heffect] using hi
      · simp only [answer, heffect, Except.toOption, Option.map_some]
        rw [hnew.toNat_slot_eq_payload he]
      · simp only [Tenancy.taken, hact, List.map_cons, List.map_nil]
      · rfl
      · exact perm_kept_of_released_eq_nil hlive rfl
      · intro content record hpair
        cases hpair
  | none =>
      have heffect : p.effect (.allocate request) = ([], p.inventory) := by
        simp only [effect, hs]
      rw [hm.room] at hs
      obtain ⟨n, hact⟩ := hd.allocate_of_none (m := s.ambient) hs
      have hnew := Inventory.Describes.countReads (m := s.ambient) hd n
      apply hm.follows_of_call heffect rfl (Act.bind_of_error hact) hnew
      · rw [Ambient.memory_countReads]
        exact Memory.ChangesOnly.refl _ _
      · simp only [answer, heffect, Except.toOption, Option.map_none]
      · simp only [Tenancy.taken, hact, List.map_nil]
      · rfl
      · exact perm_kept_of_released_eq_nil rfl rfl
      · intro content record hpair
        cases hpair

theorem follows_allocateSlice (hm : Mirrors s p) (length element : Word) :
    Follows s p (.allocateSlice length element) := by
  have hd := hm.describes
  rcases hs : p.inventory.allocateSlice p.room length.toNat element.toNat with ⟨lent, left⟩
  have heffect : p.effect (.allocateSlice length element) = (lent, left) := hs
  rw [hm.room] at hs
  have hlive : left.live = lent ++ p.inventory.live := (Inventory.lends_of_allocateSlice hs).2.2
  have htouches : ∀ i, p.inventory.Vacant left.frontier i →
      p.Touches (.allocateSlice length element) i := by
    intro i hi
    simpa only [Touches, heffect] using hi
  by_cases hlent : lent.length = 2
  · obtain ⟨content, record, rfl⟩ := List.length_eq_two.1 hlent
    obtain ⟨hsize, h', m', hact, hblocks, hnew, hchange, hdata, -⟩ :=
      hd.allocateSlice_of_pair (m := s.ambient) hs
    have hr : record ∈ left.extents := by
      apply Inventory.mem_extents_of_live
      rw [hlive]
      exact List.mem_cons_of_mem content List.mem_cons_self
    apply hm.follows_of_call heffect rfl (Act.map_of_ok hact) hnew (hchange.mono htouches)
    · simp only [answer, heffect, Except.toOption, Option.map_some]
      rw [hnew.toNat_slot_eq_payload hr]
    · simp only [Tenancy.taken, hblocks, List.map_cons, List.map_nil]
    · rfl
    · exact perm_kept_of_released_eq_nil hlive rfl
    · intro content' record' hpair
      cases hpair
      exact ⟨hsize, hdata⟩
  · obtain ⟨fault, h', m', hact, hblocks, hnew, hchange, -⟩ :=
      hd.allocateSlice_of_not_pair (m := s.ambient) hs hlent
    apply hm.follows_of_call heffect rfl (Act.bind_of_error hact) hnew (hchange.mono htouches)
    · rw [answer_allocateSlice_of_ne (by rwa [heffect])]
      rfl
    · exact hblocks
    · rfl
    · exact perm_kept_of_released_eq_nil hlive rfl
    · rintro content record rfl
      exact absurd rfl hlent

theorem follows_free (hm : Mirrors s p) {a : Addr} (ha : a ∈ s.live) : Follows s p (.free a) := by
  obtain ⟨e, he, hae⟩ := hm.exists_extent ha
  obtain ⟨h', m', hact, hnew, hchange, -⟩ := hm.describes.free_of_live (m := s.ambient) he hae
  have heffect : p.effect (.free a) = ([], p.inventory.free a.toNat) := rfl
  apply hm.follows_of_call heffect rfl (Act.map_of_ok hact) hnew
  · apply hchange.mono
    intro i hi
    exact ⟨a.toNat, List.mem_singleton.2 rfl, hi⟩
  · rfl
  · rfl
  · rfl
  · show (p.inventory.free a.toNat).live.Perm (p.kept (.free a))
    have hfree := hm.describes.sound.live_free he
    rw [← hae] at hfree
    exact hfree
  · intro content record hpair
    cases hpair

theorem follows_freeSlice (hm : Mirrors s p) {handle data : Addr}
    (hlookup : s.slices.lookup handle = some data) : Follows s p (.freeSlice handle) := by
  have hlookup' := hm.lookup_slices hlookup
  obtain ⟨record, hr, content, hc, hne, hhandle, hdata, hsize, hholds⟩ :=
    hm.lookup_record hlookup
  obtain ⟨h', m', hact, hnew, hchange, -⟩ :=
    hm.describes.freeSlice_of_live (m := s.ambient) hr hc hne hsize hhandle hdata hholds
  have heffect : p.effect (.freeSlice handle) =
      ([], (p.inventory.free data.toNat).free handle.toNat) := by simp only [effect, hlookup']
  have hreleased : p.released (.freeSlice handle) = [data.toNat, handle.toNat] := by
    simp only [released, hlookup']
  apply hm.follows_of_call heffect rfl (Act.map_of_ok hact) hnew
  · apply hchange.mono
    rintro i (hin | hin)
    · refine ⟨data.toNat, ?_, hin⟩
      rw [hreleased]
      exact List.mem_cons_self
    · refine ⟨handle.toNat, ?_, hin⟩
      rw [hreleased]
      exact List.mem_cons_of_mem _ (List.mem_singleton.2 rfl)
  · rfl
  · rfl
  · simp only [hreleased, Tenancy.released, hlookup, List.map_cons, List.map_nil]
  · rw [kept, hreleased, hdata, hhandle]
    exact hm.describes.sound.live_free_free hc hr hne
  · intro content record hpair
    cases hpair

/-- A guest that writes where it may changes no byte that the blueprint does not expect. -/
theorem byte?_of_write (hm : Mirrors s p) {after : Memory} (ha : s.Allows (.write after)) {i : Nat}
    (hi : ¬ p.Touches (.write after) i) : after.byte? i = s.memory.byte? i := by
  apply ha.byte?_eq
  rintro ⟨a, hlive, hrecord, hin⟩
  obtain ⟨e, he, hae⟩ := hm.exists_extent hlive
  have hrange := (hm.describes.inPayload_iff (Inventory.mem_extents_of_live he) hae).1 hin
  refine hi ⟨e, he, ?_, hrange.1, hrange.2⟩
  intro hslice
  rw [hm.slices, List.map_map] at hslice
  obtain ⟨x, hx, hxe⟩ := List.mem_map.1 hslice
  have hxa : x.1 = a := UInt32.toNat_inj.1 (hxe.trans hae.symm)
  exact hrecord (hxa ▸ List.mem_map_of_mem hx)

theorem not_guards_of_writable (hm : Mirrors s p) {i : Nat} (hi : s.Writable i) :
    ¬ p.inventory.Guards i := by
  obtain ⟨a, hlive, -, hin⟩ := hi
  obtain ⟨e, he, hae⟩ := hm.exists_extent hlive
  exact hm.describes.not_guards_of_inPayload he hae hin

theorem follows_write (hm : Mirrors s p) {after : Memory} (ha : s.Allows (.write after)) :
    Follows s p (.write after) := by
  refine ⟨?_, rfl, rfl, rfl, rfl, ?_, ?_, ?_⟩
  · exact hm.describes.written ha fun i hi => hm.not_guards_of_writable hi
  · exact perm_kept_of_released_eq_nil rfl rfl
  · intro content record hpair
    cases hpair
  · intro i hi
    exact hm.byte?_of_write ha hi

theorem follows_grow (hm : Mirrors s p) {after : Memory} (ha : s.Allows (.grow after)) :
    Follows s p (.grow after) := by
  refine ⟨?_, rfl, rfl, rfl, rfl, ?_, ?_, ?_⟩
  · exact hm.describes.grown ha
  · exact perm_kept_of_released_eq_nil rfl rfl
  · intro content record hpair
    cases hpair
  · intro i hi
    apply ha.byte
    rw [← hm.room]
    exact Nat.not_le.1 hi

theorem follows (hm : Mirrors s p) (ha : s.Allows a) : Follows s p a := by
  cases a with
  | allocate request => exact hm.follows_allocate request
  | allocateSlice length element => exact hm.follows_allocateSlice length element
  | free a => exact hm.follows_free ha
  | freeSlice handle =>
      obtain ⟨data, hlookup⟩ := Option.isSome_iff_exists.1 ha
      exact hm.follows_freeSlice hlookup
  | write after => exact hm.follows_write ha
  | grow after => exact hm.follows_grow ha

/-! ### One step -/

/-- What the action gives back was out. -/
theorem exists_of_released (hm : Mirrors s p) (ha : s.Allows a) {q : Nat}
    (hq : q ∈ p.released a) : ∃ e ∈ p.inventory.live, e.payload = q := by
  cases a with
  | free a =>
      obtain ⟨e, he, hae⟩ := hm.exists_extent ha
      rw [List.mem_singleton.1 hq]
      exact ⟨e, he, hae.symm⟩
  | freeSlice handle =>
      obtain ⟨data, hlookup⟩ := Option.isSome_iff_exists.1 ha
      obtain ⟨record, hr, content, hc, -, hhandle, hdata, -⟩ := hm.lookup_record hlookup
      simp only [released, hm.lookup_slices hlookup, List.mem_cons, List.not_mem_nil,
        or_false] at hq
      rcases hq with rfl | rfl
      · exact ⟨content, hc, hdata.symm⟩
      · exact ⟨record, hr, hhandle.symm⟩
  | allocate request => cases hq
  | allocateSlice length element => cases hq
  | write after => cases hq
  | grow after => cases hq

/-- No action reaches into what stays out, except a guest into payloads that are not records. -/
theorem not_touches_of_kept (hm : Mirrors s p) (ha : s.Allows a) {e : Extent} {i : Nat}
    (he : e ∈ p.kept a) (hi : e.Covers i)
    (hrecord : ∀ after, a = .write after → e.payload ∈ p.slices.map Prod.fst) :
    ¬ p.Touches a i := by
  obtain ⟨hlive, hkept⟩ := mem_kept_iff.1 he
  have hmem := Inventory.mem_extents_of_live hlive
  have hrelease : ∀ q ∈ p.released a, ¬ (q ≤ i ∧ i < q + 4) := by
    intro q hq hin
    obtain ⟨f, hf, rfl⟩ := hm.exists_of_released ha hq
    have hfm := Inventory.mem_extents_of_live hf
    have hne : e ≠ f := fun hef => hkept (hef ▸ hq)
    have height := hm.describes.sound.header_add_eight_le hfm
    simp only [Extent.payload] at hin
    exact Extent.not_covers_of_apart (hm.describes.sound.apart hmem hfm hne) hi
      ⟨by omega, by omega⟩
  -- an allocation writes vacant bytes, a release the links of others, a guest no record
  cases a with
  | allocate request => exact fun hv => hv.not_covers e hlive hi
  | allocateSlice length element => exact fun hv => hv.not_covers e hlive hi
  | free a =>
      rintro ⟨q, hq, hin⟩
      exact hrelease q hq hin
  | freeSlice handle =>
      rintro ⟨q, hq, hin⟩
      exact hrelease q hq hin
  | write after =>
      rintro ⟨f, hf, hslice, hl, hu⟩
      have hne : e ≠ f := fun hef => hslice (hef ▸ hrecord after rfl)
      have hapart := hm.describes.sound.apart hmem (Inventory.mem_extents_of_live hf) hne
      simp only [Extent.payload] at hl
      exact Extent.not_covers_of_apart hapart hi ⟨by omega, hu⟩
  | grow after =>
      intro hroom
      have hinside := hm.describes.inside e hmem
      have hlt := hi.2
      rw [← hm.room] at hinside
      have hle : p.room ≤ i := hroom
      omega

theorem byte?_of_kept (hm : Mirrors s p) (ha : s.Allows a) {e : Extent} {i : Nat}
    (he : e ∈ p.kept a) (hi : e.Covers i)
    (hrecord : ∀ after, a = .write after → e.payload ∈ p.slices.map Prod.fst) :
    (s.step a).memory.byte? i = s.memory.byte? i :=
  (hm.follows ha).changes i (hm.not_touches_of_kept ha he hi hrecord)

theorem live_step (hm : Mirrors s p) (ha : s.Allows a) :
    ((s.step a).live.map UInt32.toNat).Perm ((p.step a).inventory.live.map Extent.payload) := by
  have hf := hm.follows ha
  have htaken : (s.taken a).map UInt32.toNat = (p.effect a).1.map Extent.payload := by
    rw [hf.taken, List.map_map]
    apply List.map_congr_left
    intro e he
    have hlent : e ∈ (p.effect a).2.live := hf.live.mem_iff.2 (List.mem_append_left _ he)
    exact hf.describes.toNat_slot_eq_payload (Inventory.mem_extents_of_live hlent)
  apply live_perm_of_step hm.live htaken
  rw [← hf.released]
  exact hf.live

theorem formed_eq (hm : Mirrors s p) (ha : s.Allows a) :
    p.formed a = (s.formed a).map fun x => (x.1.toNat, x.2.toNat) := by
  have hf := hm.follows ha
  have hslot : ∀ e ∈ (p.effect a).1, e.block.slot.toNat = e.payload := by
    intro e he
    have hlent : e ∈ (p.effect a).2.live := hf.live.mem_iff.2 (List.mem_append_left _ he)
    exact hf.describes.toNat_slot_eq_payload (Inventory.mem_extents_of_live hlent)
  unfold formed Tenancy.formed
  rw [hf.taken]
  match hlent : (p.effect a).1 with
  | [] => rfl
  | [_] => rfl
  | [content, record] =>
      rw [hlent] at hslot
      have hc := hslot content List.mem_cons_self
      have hr := hslot record (List.mem_cons_of_mem _ List.mem_cons_self)
      simp only [List.map_cons, List.map_nil, hc, hr]
  | _ :: _ :: _ :: _ => rfl

theorem slices_step (hm : Mirrors s p) (ha : s.Allows a) :
    (p.step a).slices = (s.step a).slices.map fun x => (x.1.toNat, x.2.toNat) := by
  have hf := hm.follows ha
  show p.formed a ++ p.slices.filter _ = (s.formed a ++ s.slices.filter _).map _
  rw [hm.formed_eq ha, List.map_append, hm.slices, List.filter_map, hf.released]
  congr 2
  apply List.filter_congr
  intro x _
  have hinj : Function.Injective UInt32.toNat := fun _ _ h => UInt32.toNat_inj.1 h
  simp only [Function.comp_apply, List.mem_map_of_injective hinj]

/-- A slice that the action made has its record. -/
theorem keeps_of_mem_formed (hm : Mirrors s p) (ha : s.Allows a) {x : Nat × Nat}
    (hx : x ∈ p.formed a) : (p.step a).Keeps (s.step a).memory x := by
  have hf := hm.follows ha
  match hlent : (p.effect a).1 with
  | [] => simp only [formed, hlent, List.not_mem_nil] at hx
  | [_] => simp only [formed, hlent, List.not_mem_nil] at hx
  | _ :: _ :: _ :: _ => simp only [formed, hlent, List.not_mem_nil] at hx
  | [content, record] =>
      simp only [formed, hlent, List.mem_singleton] at hx
      subst hx
      obtain ⟨hsize, hholds⟩ := hf.record content record hlent
      have hlive := hf.live
      rw [hlent] at hlive
      have hr : record ∈ (p.effect a).2.live := hlive.mem_iff.2 (by simp)
      have hc : content ∈ (p.effect a).2.live := hlive.mem_iff.2 (by simp)
      have hnodup := hlive.nodup_iff.1 (List.nodup_append.1 hf.describes.sound.nodup).1
      have hne : record ≠ content := by
        rintro rfl
        simp at hnodup
      refine ⟨record, hr, content, hc, hne, rfl, rfl, hsize, ?_⟩
      have hslot := hf.describes.toNat_slot_eq_payload (Inventory.mem_extents_of_live hc)
      rw [← hslot, UInt32.ofNat_toNat]
      exact hholds

/-- A slice of which nothing was given back still has its record: no call writes into what stays
    out, and no guest into a record. -/
theorem keeps_of_kept (hm : Mirrors s p) (ha : s.Allows a) {x : Nat × Nat} (hx : x ∈ p.slices)
    (hhandle : x.1 ∉ p.released a) (hdata : x.2 ∉ p.released a) :
    (p.step a).Keeps (s.step a).memory x := by
  have hf := hm.follows ha
  obtain ⟨record, hr, content, hc, hne, hrp, hcp, hsize, hholds⟩ := hm.records x hx
  have hrk : record ∈ p.kept a := mem_kept_iff.2 ⟨hr, hrp ▸ hhandle⟩
  have hck : content ∈ p.kept a := mem_kept_iff.2 ⟨hc, hcp ▸ hdata⟩
  refine ⟨record, hf.live.mem_iff.2 (List.mem_append_right _ hrk), content,
    hf.live.mem_iff.2 (List.mem_append_right _ hck), hne, hrp, hcp, hsize, ?_⟩
  apply hholds.congr
  intro j hl hu
  apply hm.byte?_of_kept ha hrk
  · simp only [← hrp, Extent.payload] at hl hu
    exact ⟨by omega, by simp only [Extent.stop]; omega⟩
  · intro after _
    rw [hrp]
    exact List.mem_map_of_mem hx

theorem records_step (hm : Mirrors s p) (ha : s.Allows a) :
    ∀ x ∈ (p.step a).slices, (p.step a).Keeps (s.step a).memory x := by
  intro x hx
  rcases List.mem_append.1 hx with hx | hx
  · exact hm.keeps_of_mem_formed ha hx
  · obtain ⟨hmem, hkept⟩ := List.mem_filter.1 hx
    obtain ⟨hhandle, hdata⟩ := of_decide_eq_true hkept
    exact hm.keeps_of_kept ha hmem hhandle hdata

theorem step (hm : Mirrors s p) (ha : s.Allows a) : Mirrors (s.step a) (p.step a) where
  describes := (hm.follows ha).describes
  room := (hm.follows ha).room
  live := hm.live_step ha
  slices := hm.slices_step ha
  records := hm.records_step ha

/-! ### Runs -/

theorem run {as : List Action} (hm : Mirrors s p) (hl : s.Lawful as) :
    Mirrors (s.run as) (p.run as) := by
  induction as generalizing s p with
  | nil => exact hm
  | cons a as ih => exact ih (hm.step hl.1) hl.2

theorem answers {as : List Action} (hm : Mirrors s p) (hl : s.Lawful as) :
    (s.answers as).map (fun r => r.toOption.map (Option.map UInt32.toNat)) = p.answers as := by
  induction as generalizing s p with
  | nil => rfl
  | cons a as ih =>
      simp only [Tenancy.answers, Blueprint.answers, List.map_cons]
      rw [(hm.follows hl.1).answer, ih (hm.step hl.1) hl.2]

theorem opened {h : Heap} {m : Ambient} (hempty : h = Heap.empty h.start)
    (haligned : h.start.toNat % 4 = 0) :
    Mirrors (.opened h m) (.fresh h.start.toNat m.memory.size) where
  describes := by
    have hd := Inventory.describes_empty (m := m.memory) haligned
    rw [← hempty] at hd
    exact hd
  room := rfl
  live := List.Perm.refl _
  slices := rfl
  records := by intro x hx; cases hx

end Mirrors

end LinearHeap
