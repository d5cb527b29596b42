/-
  LinearHeap/Proofs/SlotTables.lean
  =================================
  **A slot table as a map from handles.**  Seen through `get?`, each operation
  changes what one handle finds and nothing else: an insertion gives a value to
  the handle it returns, a removal takes the value of its handle away, and a
  replacement exchanges it.  All three put one slot in place of another (`Puts`),
  and of the handles of one slot at most one finds a value.

  `Kept` is the invariant behind the promise that no handle is returned twice.  It
  follows the handles returned so far: each names a slot that exists, and a slot
  that may be used again is at a generation above all of them.  A slot whose
  generation has come round to zero satisfies no such bound; it is empty and not
  listed as reusable, and stays so (`Retired`).
-/
import LinearHeap.Registry.SlotTable
import LinearHeap.Proofs.Bytes

namespace LinearHeap

theorem Handle.eq_iff {h k : Handle} :
    h = k ↔ h.slot = k.slot ∧ h.generation = k.generation := by
  rcases h with ⟨s, g⟩
  rcases k with ⟨s', g'⟩
  exact Handle.mk.injEq s g s' g' ▸ Iff.rfl

/-- A generation that the slot has had; of an empty slot that is not retired, a past one. -/
def Slot.HasHad {α : Type} (s : Slot α) (g : Word) : Prop :=
  match s.value with
  | some _ => g ≤ s.generation
  | none => s.generation ≠ 0 → g < s.generation

namespace SlotTable

variable {α : Type} {t t' : SlotTable α} {h k : Handle} {a b : α} {s : Slot α} {i j : Word}
  {issued : List Handle}

/-! ### What a handle finds -/

theorem get?_of_slots (hs : t.slots[h.slot.toNat]? = some s) :
    t.get? h = if s.generation = h.generation then s.value else none := by
  simp only [get?, slot?, hs]
  by_cases hg : s.generation = h.generation
  · simp only [if_pos hg]
  · simp only [if_neg hg]

theorem get?_of_slots_none (hs : t.slots[h.slot.toNat]? = none) : t.get? h = none := by
  simp only [get?, slot?, hs]

theorem get?_eq_some_iff :
    t.get? h = some a ↔ t.slots[h.slot.toNat]? = some ⟨h.generation, some a⟩ := by
  rcases hs : t.slots[h.slot.toNat]? with _ | ⟨g, v⟩
  · simp [get?_of_slots_none hs]
  · rw [get?_of_slots hs]
    by_cases hg : g = h.generation
    · simp [hg]
    · simp [hg]

/-- Of the handles of one slot at most one finds a value. -/
theorem get?_eq_none_of_ne (ha : t.get? h = some a) (hslot : k.slot = h.slot) (hne : k ≠ h) :
    t.get? k = none := by
  have hs := get?_eq_some_iff.1 ha
  rw [← hslot] at hs
  rw [get?_of_slots hs, if_neg]
  exact fun hg => hne (Handle.eq_iff.2 ⟨hslot, hg.symm⟩)

theorem lt_size_of_get? (ha : t.get? h = some a) : h.slot.toNat < t.slots.size :=
  (Array.getElem?_eq_some_iff.1 (get?_eq_some_iff.1 ha)).1

/-- The slot is empty, and its generation has come round to zero. -/
def Retired (t : SlotTable α) (i : Word) : Prop := t.slots[i.toNat]? = some ⟨0, none⟩

theorem get?_of_retired (hr : t.Retired h.slot) : t.get? h = none := by
  rw [get?_of_slots hr, ite_self]

/-! ### Putting a slot in place of another -/

/-- The second table is the first one with this slot at `i`. -/
def Puts (t t' : SlotTable α) (i : Word) (s : Slot α) : Prop :=
  ∀ n, t'.slots[n]? = if n = i.toNat then some s else t.slots[n]?

namespace Puts

theorem of_setIfInBounds (hlt : i.toNat < t.slots.size)
    (ht : t'.slots = t.slots.setIfInBounds i.toNat s) : t.Puts t' i s := by
  intro n
  rw [ht, Array.getElem?_setIfInBounds]
  by_cases hn : n = i.toNat
  · rw [if_pos hn, if_pos hn.symm, if_pos hlt]
  · rw [if_neg hn, if_neg (Ne.symm hn)]

variable (hp : t.Puts t' i s)
include hp

theorem slots_same : t'.slots[i.toNat]? = some s := by
  rw [hp, if_pos rfl]

theorem slots_of_ne (hne : j ≠ i) : t'.slots[j.toNat]? = t.slots[j.toNat]? := by
  rw [hp, if_neg fun he => hne (UInt32.toNat_inj.1 he)]

theorem get?_same (hslot : h.slot = i) :
    t'.get? h = if s.generation = h.generation then s.value else none := by
  subst hslot
  exact get?_of_slots hp.slots_same

theorem get?_of_ne (hslot : h.slot ≠ i) : t'.get? h = t.get? h := by
  simp only [get?, slot?, hp.slots_of_ne hslot]

theorem retired_of_ne (hne : j ≠ i) (hr : t.Retired j) : t'.Retired j :=
  (hp.slots_of_ne hne).trans hr

end Puts

theorem countP_setIfInBounds {old : Slot α} {n : Nat} (new : Slot α)
    (hs : t.slots[n]? = some old) :
    ((t.slots.setIfInBounds n new).countP fun s => s.value.isSome) +
        (if old.value.isSome then 1 else 0) =
      (t.slots.countP fun s => s.value.isSome) + (if new.value.isSome then 1 else 0) := by
  obtain ⟨hn, rfl⟩ := Array.getElem?_eq_some_iff.1 hs
  have hpos : (t.slots[n]).value.isSome = true →
      0 < t.slots.countP fun s => s.value.isSome := fun hv =>
    Array.countP_pos_iff.2 ⟨_, Array.getElem_mem hn, hv⟩
  rw [Array.setIfInBounds_def, dif_pos hn, Array.countP_set]
  split
  · rename_i hv
    have := hpos hv
    omega
  · omega

/-! ### The invariant -/

structure Kept (t : SlotTable α) (issued : List Handle) : Prop where
  /-- A slot that may be used again is empty, and not at its first generation. -/
  vacant : ∀ i ∈ t.reusable, ∃ g, g ≠ 0 ∧ t.slots[i.toNat]? = some ⟨g, none⟩
  nodup : t.reusable.Nodup
  past : ∀ h ∈ issued, ∃ s, t.slots[h.slot.toNat]? = some s ∧ s.HasHad h.generation
  /-- What finds a value was returned by an insertion. -/
  known : ∀ h a, t.get? h = some a → h ∈ issued
  occupied : t.occupied = t.slots.countP fun s => s.value.isSome

theorem kept_empty : Kept ({} : SlotTable α) [] where
  vacant := by intro i hi; cases hi
  nodup := List.nodup_nil
  past := by intro h hh; cases hh
  known := by
    intro h a ha
    have hs := get?_eq_some_iff.1 ha
    simp at hs
  occupied := by simp

/-! ### Insertion -/

/-- A table never loses a slot. -/
theorem size_le_insert (t : SlotTable α) (a : α) : t.slots.size ≤ (t.insert a).2.slots.size := by
  simp only [insert]
  split <;> simp

/-- The value went into the slot of the handle, which was new, or empty at the handle's
    generation. -/
structure Fills (t t' : SlotTable α) (h : Handle) (a : α) : Prop where
  puts : t.Puts t' h.slot ⟨h.generation, some a⟩
  free : t.slots[h.slot.toNat]? = none ∨
    (h.generation ≠ 0 ∧ t.slots[h.slot.toNat]? = some ⟨h.generation, none⟩)
  reusable : ∀ i ∈ t'.reusable, i ∈ t.reusable ∧ i ≠ h.slot
  nodup : t'.reusable.Nodup
  occupied : t'.occupied = t.occupied + 1
  count : (t'.slots.countP fun s => s.value.isSome) =
    (t.slots.countP fun s => s.value.isSome) + 1

theorem Kept.fills (hk : t.Kept issued) (hsize : t.slots.size < Word.bound) (a : α) :
    t.Fills (t.insert a).2 (t.insert a).1 a := by
  rcases hr : t.reusable with _ | ⟨i, rest⟩
  · have hslot : (UInt32.ofNat t.slots.size).toNat = t.slots.size := toNat_ofNat_of_lt hsize
    simp only [insert, hr]
    constructor
    · intro n
      simp only [hslot, Array.getElem?_push]
    · left
      simp only [hslot, Array.getElem?_eq_none (Nat.le_refl _)]
    · simp [hr]
    · exact hr ▸ List.nodup_nil
    · rfl
    · simp
  · obtain ⟨g, hg, hs⟩ := hk.vacant i (hr ▸ List.mem_cons_self)
    obtain ⟨hi, hrest⟩ := List.nodup_cons.1 (hr ▸ hk.nodup)
    have hlt : i.toNat < t.slots.size := (Array.getElem?_eq_some_iff.1 hs).1
    have hcount := countP_setIfInBounds ⟨g, some a⟩ hs
    simp only [insert, hr, hs]
    constructor
    · exact Puts.of_setIfInBounds hlt rfl
    · exact Or.inr ⟨hg, hs⟩
    · intro j hj
      refine ⟨hr ▸ List.mem_cons_of_mem i hj, ?_⟩
      rintro rfl
      exact hi hj
    · exact hrest
    · rfl
    · simpa using hcount

namespace Fills

variable (hf : t.Fills t' h a)
include hf

theorem get?_slot (hslot : k.slot = h.slot) : t.get? k = none := by
  rcases hf.free with hnone | ⟨-, hempty⟩
  · rw [← hslot] at hnone
    exact get?_of_slots_none hnone
  · rw [← hslot] at hempty
    rw [get?_of_slots hempty, ite_self]

theorem get? : t'.get? k = if k = h then some a else t.get? k := by
  by_cases hslot : k.slot = h.slot
  · rw [hf.puts.get?_same hslot, hf.get?_slot hslot]
    simp only [Handle.eq_iff, hslot, true_and, eq_comm]
  · rw [hf.puts.get?_of_ne hslot, if_neg (mt (congrArg Handle.slot) hslot)]

/-- A slot that a handle was returned for was not new, and has gone past the handle. -/
theorem lt_of_mem (hk : t.Kept issued) (hmem : k ∈ issued) (hslot : k.slot = h.slot) :
    k.generation < h.generation := by
  obtain ⟨s, hs, hpast⟩ := hk.past k hmem
  rw [hslot] at hs
  rcases hf.free with hnone | ⟨hg, hempty⟩
  · rw [hnone] at hs
    cases hs
  · obtain rfl := Option.some.inj (hempty.symm.trans hs)
    exact hpast hg

/-- The handle is a new one. -/
theorem not_mem (hk : t.Kept issued) : h ∉ issued := fun hmem =>
  UInt32.lt_irrefl _ (hf.lt_of_mem hk hmem rfl)

theorem kept (hk : t.Kept issued) : t'.Kept (h :: issued) where
  vacant := by
    intro i hi
    obtain ⟨hmem, hne⟩ := hf.reusable i hi
    obtain ⟨g, hg, hs⟩ := hk.vacant i hmem
    exact ⟨g, hg, (hf.puts.slots_of_ne hne).trans hs⟩
  nodup := hf.nodup
  past := by
    intro k hmem
    by_cases hslot : k.slot = h.slot
    · refine ⟨_, hslot ▸ hf.puts.slots_same, ?_⟩
      rcases List.mem_cons.1 hmem with rfl | hold
      · exact UInt32.le_refl _
      · exact UInt32.le_of_lt (hf.lt_of_mem hk hold hslot)
    · have hold : k ∈ issued :=
        (List.mem_cons.1 hmem).resolve_left fun he => hslot (he ▸ rfl)
      obtain ⟨s, hs, hpast⟩ := hk.past k hold
      exact ⟨s, (hf.puts.slots_of_ne hslot).trans hs, hpast⟩
  known := by
    intro k b hb
    rw [hf.get?] at hb
    split at hb
    · rename_i hkh
      exact hkh ▸ List.mem_cons_self
    · exact List.mem_cons_of_mem h (hk.known k b hb)
  occupied := by rw [hf.occupied, hf.count, hk.occupied]

theorem slot_ne_of_retired (hr : t.Retired i) : i ≠ h.slot := by
  rintro rfl
  rcases hf.free with hnone | ⟨hg, hempty⟩
  · rw [hr] at hnone
    cases hnone
  · rw [hr] at hempty
    simp only [Option.some.injEq, Slot.mk.injEq] at hempty
    exact hg hempty.1.symm

theorem retired (hr : t.Retired i) : t'.Retired i :=
  hf.puts.retired_of_ne (hf.slot_ne_of_retired hr) hr

end Fills

/-! ### Removal -/

section Remove

variable (ha : t.get? h = some a)
include ha

theorem remove_of_get? : t.remove h = (some a,
    { slots := t.slots.setIfInBounds h.slot.toNat ⟨h.generation + 1, none⟩
      reusable := if h.generation + 1 = 0 then t.reusable else h.slot :: t.reusable
      occupied := t.occupied - 1 }) := by
  simp only [remove, ha]

theorem puts_remove : t.Puts (t.remove h).2 h.slot ⟨h.generation + 1, none⟩ := by
  apply Puts.of_setIfInBounds (lt_size_of_get? ha)
  rw [remove_of_get? ha]

theorem get?_remove : (t.remove h).2.get? k = if k = h then none else t.get? k := by
  by_cases hslot : k.slot = h.slot
  · rw [(puts_remove ha).get?_same hslot, ite_self]
    split
    · rfl
    · rename_i hne
      exact (get?_eq_none_of_ne ha hslot hne).symm
  · rw [(puts_remove ha).get?_of_ne hslot, if_neg (mt (congrArg Handle.slot) hslot)]

theorem not_retired_of_get? : ¬ t.Retired h.slot := by
  intro hr
  rw [get?_of_retired hr] at ha
  cases ha

theorem retired_remove (hr : t.Retired i) : (t.remove h).2.Retired i :=
  (puts_remove ha).retired_of_ne (fun he => not_retired_of_get? ha (he ▸ hr)) hr

/-- The last generation of a slot is followed by none. -/
theorem retired_of_remove (hlast : h.generation.toNat + 1 = Word.bound) :
    (t.remove h).2.Retired h.slot := by
  have hzero : h.generation + 1 = 0 := by
    apply UInt32.toNat_inj.1
    simp only [UInt32.toNat_add, UInt32.toNat_one, UInt32.toNat_zero]
    simp only [Word.bound] at hlast
    omega
  have hsame := (puts_remove ha).slots_same
  rwa [hzero] at hsame

namespace Kept

variable (hk : t.Kept issued)
include hk

theorem occupied_remove : (t.remove h).2.occupied + 1 = t.occupied ∧
    (t.remove h).2.occupied = (t.remove h).2.slots.countP fun s => s.value.isSome := by
  have hcount := countP_setIfInBounds ⟨h.generation + 1, none⟩ (get?_eq_some_iff.1 ha)
  simp only [Option.isSome_some, Option.isSome_none, if_true, Bool.false_eq_true, if_false,
    Nat.add_zero] at hcount
  have hoccupied := hk.occupied
  simp only [remove_of_get? ha]
  omega

theorem not_mem_reusable : h.slot ∉ t.reusable := by
  intro hmem
  obtain ⟨g, -, hs⟩ := hk.vacant _ hmem
  rw [get?_of_slots hs, ite_self] at ha
  cases ha

theorem remove : (t.remove h).2.Kept issued where
  vacant := by
    have hold : ∀ i ∈ t.reusable, ∃ g, g ≠ 0 ∧
        (t.remove h).2.slots[i.toNat]? = some ⟨g, none⟩ := by
      intro i hi
      obtain ⟨g, hg, hs⟩ := hk.vacant i hi
      have hne : i ≠ h.slot := fun he => hk.not_mem_reusable ha (he ▸ hi)
      exact ⟨g, hg, ((puts_remove ha).slots_of_ne hne).trans hs⟩
    intro i hi
    have hreusable : i ∈ if h.generation + 1 = 0 then t.reusable else h.slot :: t.reusable := by
      rwa [remove_of_get? ha] at hi
    split at hreusable
    · exact hold i hreusable
    · rename_i hg
      rcases List.mem_cons.1 hreusable with rfl | hi
      · exact ⟨_, hg, (puts_remove ha).slots_same⟩
      · exact hold i hi
  nodup := by
    simp only [remove_of_get? ha]
    split
    · exact hk.nodup
    · exact List.nodup_cons.2 ⟨hk.not_mem_reusable ha, hk.nodup⟩
  past := by
    intro k hmem
    obtain ⟨s, hs, hpast⟩ := hk.past k hmem
    by_cases hslot : k.slot = h.slot
    · refine ⟨⟨h.generation + 1, none⟩, hslot ▸ (puts_remove ha).slots_same, fun hg => ?_⟩
      rw [hslot, get?_eq_some_iff.1 ha] at hs
      obtain rfl := Option.some.inj hs
      -- the next generation has not come round to zero, so it is above all before it
      have hle : k.generation ≤ h.generation := hpast
      have hlt := h.generation.toNat_lt
      have hnext : (h.generation + 1).toNat ≠ 0 := fun he => hg (UInt32.toNat_inj.1 he)
      simp only [UInt32.le_iff_toNat_le, UInt32.lt_iff_toNat_lt, UInt32.toNat_add,
        UInt32.toNat_one] at hle hnext ⊢
      omega
    · exact ⟨s, ((puts_remove ha).slots_of_ne hslot).trans hs, hpast⟩
  known := by
    intro k b hb
    rw [get?_remove ha] at hb
    split at hb
    · cases hb
    · exact hk.known k b hb
  occupied := (hk.occupied_remove ha).2

end Kept

end Remove

/-! ### Replacement -/

section Replace

variable (ha : t.get? h = some a)
include ha

theorem puts_replace : t.Puts (t.replace h b) h.slot ⟨h.generation, some b⟩ := by
  apply Puts.of_setIfInBounds (lt_size_of_get? ha)
  simp only [replace, ha]

theorem get?_replace : (t.replace h b).get? k = if k = h then some b else t.get? k := by
  by_cases hslot : k.slot = h.slot
  · rw [(puts_replace ha).get?_same hslot]
    split
    · rename_i hg
      rw [if_pos (Handle.eq_iff.2 ⟨hslot, hg.symm⟩)]
    · rename_i hg
      have hne : k ≠ h := fun he => hg (he ▸ rfl)
      rw [if_neg hne, get?_eq_none_of_ne ha hslot hne]
  · rw [(puts_replace ha).get?_of_ne hslot, if_neg (mt (congrArg Handle.slot) hslot)]

theorem Kept.replace (hk : t.Kept issued) : (t.replace h b).Kept issued where
  vacant := by
    intro i hi
    have hmem : i ∈ t.reusable := by simpa only [SlotTable.replace, ha] using hi
    obtain ⟨g, hg, hs⟩ := hk.vacant i hmem
    have hne : i ≠ h.slot := fun he => hk.not_mem_reusable ha (he ▸ hmem)
    exact ⟨g, hg, ((puts_replace ha).slots_of_ne hne).trans hs⟩
  nodup := by
    simp only [SlotTable.replace, ha]
    exact hk.nodup
  past := by
    intro k hmem
    obtain ⟨s, hs, hpast⟩ := hk.past k hmem
    by_cases hslot : k.slot = h.slot
    · refine ⟨_, hslot ▸ (puts_replace ha).slots_same, ?_⟩
      rw [hslot, get?_eq_some_iff.1 ha] at hs
      obtain rfl := Option.some.inj hs
      exact hpast
    · exact ⟨s, ((puts_replace ha).slots_of_ne hslot).trans hs, hpast⟩
  known := by
    intro k c hc
    rw [get?_replace ha] at hc
    split at hc
    · rename_i hkh
      exact hkh ▸ hk.known h a ha
    · exact hk.known k c hc
  occupied := by
    have hcount := countP_setIfInBounds ⟨h.generation, some b⟩ (get?_eq_some_iff.1 ha)
    simp only [Option.isSome_some, if_true, Nat.add_right_cancel_iff] at hcount
    simp only [SlotTable.replace, ha, hcount, hk.occupied]

end Replace

end SlotTable

end LinearHeap
