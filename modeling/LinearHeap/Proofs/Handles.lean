/-
  LinearHeap/Proofs/Handles.lean
  ==============================
  **Handles in the hands of callers.**  Callers hold handles as 64-bit numbers and
  may present any number at all: one made up, or one whose value was taken out
  long ago.  A custody is a slot table with a record of all that was asked of it
  and answered.

  The record alone says what every answer has to be (`Receipt.Right`): an insertion
  returns a number that was never returned before, and a number finds the value it
  was returned for until that value is taken out.  `Custody.Faithful` says that the
  table answers so after every run, that it counts right, and that a slot which
  has gone through all its generations is out of use for good.
-/
import LinearHeap.Proofs.SlotTables

namespace LinearHeap

theorem Handle.ofNumber_eq_iff {n : UInt64} {h : Handle} : ofNumber n = h ↔ n = h.number :=
  ⟨fun he => by rw [← he, number_ofNumber], fun he => by rw [he, ofNumber_number]⟩

theorem Handle.ofNumber_inj {n k : UInt64} : ofNumber n = ofNumber k ↔ n = k := by
  rw [ofNumber_eq_iff, number_ofNumber]

/-- What a caller asks of a table. -/
inductive Errand (α : Type) where
  | insert (a : α)
  | get (n : UInt64)
  | remove (n : UInt64)

/-- What was asked, with the answer. -/
inductive Receipt (α : Type) where
  | inserted (a : α) (n : UInt64)
  | got (n : UInt64) (found : Option α)
  | removed (n : UInt64) (found : Option α)

namespace Receipt

variable {α : Type}

/-- The number that was returned, if it was an insertion. -/
def issue? : Receipt α → Option UInt64
  | inserted _ n => some n
  | _ => none

/-- The number whose value was taken out, if one was. -/
def end? : Receipt α → Option UInt64
  | removed n (some _) => some n
  | _ => none

/-- All numbers returned. -/
def issued (log : List (Receipt α)) : List UInt64 := log.filterMap issue?

/-- All numbers whose values were taken out. -/
def ended (log : List (Receipt α)) : List UInt64 := log.filterMap end?

/-- The number was returned for the value, and the value has not been taken out since.  The
    latest receipt comes first. -/
def Holds (log : List (Receipt α)) (n : UInt64) (a : α) : Prop :=
  ∃ since before, log = since ++ inserted a n :: before ∧ n ∉ ended since

/-- The answer is the right one after what came before. -/
def Right (before : List (Receipt α)) : Receipt α → Prop
  | inserted _ n => n ∉ issued before
  | got n found | removed n found => ∀ a, found = some a ↔ Holds before n a

variable {log : List (Receipt α)} {r : Receipt α} {n k : UInt64} {a b : α}

theorem not_holds_nil : ¬ Holds [] n a := by
  rintro ⟨since, before, hlog, -⟩
  exact List.append_ne_nil_of_right_ne_nil since (List.cons_ne_nil _ before) hlog.symm

/-- A receipt that is no insertion can only end what held before it. -/
theorem holds_cons_iff (hr : r.issue? = none) :
    Holds (r :: log) n a ↔ r.end? ≠ some n ∧ Holds log n a := by
  constructor
  · rintro ⟨_ | ⟨r', since⟩, before, hlog, hended⟩
    · cases hlog
      cases hr
    · obtain ⟨rfl, rfl⟩ := List.cons.inj hlog
      refine ⟨fun he => hended ?_, since, before, rfl, fun hmem => hended ?_⟩
      · exact List.mem_filterMap.2 ⟨r, List.mem_cons_self, he⟩
      · obtain ⟨q, hq, hqn⟩ := List.mem_filterMap.1 hmem
        exact List.mem_filterMap.2 ⟨q, List.mem_cons_of_mem r hq, hqn⟩
  · rintro ⟨hne, since, before, rfl, hended⟩
    refine ⟨r :: since, before, rfl, fun hmem => ?_⟩
    obtain ⟨q, hq, hqn⟩ := List.mem_filterMap.1 hmem
    rcases List.mem_cons.1 hq with rfl | hq
    · exact hne hqn
    · exact hended (List.mem_filterMap.2 ⟨q, hq, hqn⟩)

theorem holds_inserted_iff :
    Holds (inserted b k :: log) n a ↔ (n = k ∧ a = b) ∨ Holds log n a := by
  constructor
  · rintro ⟨_ | ⟨r', since⟩, before, hlog, hended⟩
    · cases hlog
      exact Or.inl ⟨rfl, rfl⟩
    · obtain ⟨rfl, rfl⟩ := List.cons.inj hlog
      exact Or.inr ⟨since, before, rfl, hended⟩
  · rintro (⟨rfl, rfl⟩ | ⟨since, before, rfl, hended⟩)
    · exact ⟨[], log, rfl, List.not_mem_nil⟩
    · exact ⟨inserted b k :: since, before, rfl, hended⟩

end Receipt

/-- A table and all that was asked of it, the latest first. -/
structure Custody (α : Type) where
  table : SlotTable α := {}
  log : List (Receipt α) := []

namespace Custody

open Receipt

variable {α : Type}

def step (c : Custody α) : Errand α → Custody α
  | .insert a => ⟨(c.table.insert a).2, inserted a (c.table.insert a).1.number :: c.log⟩
  | .get n => ⟨c.table, got n (c.table.get? (.ofNumber n)) :: c.log⟩
  | .remove n =>
      ⟨(c.table.remove (.ofNumber n)).2, removed n (c.table.remove (.ofNumber n)).1 :: c.log⟩

def run (c : Custody α) (es : List (Errand α)) : Custody α := es.foldl step c

structure Faithful (c : Custody α) : Prop where
  /-- Every answer was right when it was given. -/
  right : ∀ since r before, c.log = since ++ r :: before → r.Right before
  /-- No number was returned twice. -/
  nodup : (issued c.log).Nodup
  finds : ∀ n a, c.table.get? (.ofNumber n) = some a ↔ Holds c.log n a
  /-- Taking out what is not there returns nothing and changes nothing. -/
  refuses : ∀ n, (∀ a, ¬ Holds c.log n a) → c.table.remove (.ofNumber n) = (none, c.table)
  count : c.table.count + (ended c.log).length = (issued c.log).length
  /-- After the last generation of a slot, no number of the slot finds a value, and none is
      returned. -/
  spent : ∀ n ∈ ended c.log, (Handle.ofNumber n).generation.toNat + 1 = Word.bound →
    (∀ k, (Handle.ofNumber k).slot = (Handle.ofNumber n).slot →
      c.table.get? (.ofNumber k) = none) ∧
    ∀ a, (c.table.insert a).1.slot ≠ (Handle.ofNumber n).slot

/-! ### The invariant of a run -/

structure Ordered (c : Custody α) : Prop where
  kept : c.table.Kept ((issued c.log).map Handle.ofNumber)
  right : ∀ since r before, c.log = since ++ r :: before → r.Right before
  nodup : (issued c.log).Nodup
  finds : ∀ n a, c.table.get? (.ofNumber n) = some a ↔ Holds c.log n a
  count : c.table.occupied + (ended c.log).length = (issued c.log).length
  retired : ∀ n ∈ ended c.log, (Handle.ofNumber n).generation.toNat + 1 = Word.bound →
    c.table.Retired (Handle.ofNumber n).slot

theorem ordered_empty : Ordered ({} : Custody α) where
  kept := SlotTable.kept_empty
  right := by
    intro since r before hlog
    exact absurd hlog.symm (List.append_ne_nil_of_right_ne_nil since (List.cons_ne_nil r before))
  nodup := List.nodup_nil
  finds := by
    intro n a
    refine ⟨fun ha => ?_, fun hh => absurd hh not_holds_nil⟩
    exact absurd (SlotTable.kept_empty.known _ a ha) List.not_mem_nil
  count := rfl
  retired := by intro n hn; cases hn

namespace Ordered

variable {c : Custody α} {n : UInt64} {a : α}

theorem right_cons {r : Receipt α} (ho : c.Ordered) (hr : r.Right c.log) :
    ∀ since q before, r :: c.log = since ++ q :: before → q.Right before := by
  rintro (_ | ⟨r', since⟩) q before hlog
  · cases hlog
    exact hr
  · exact ho.right since q before (List.cons.inj hlog).2

theorem insert (ho : c.Ordered) (hsize : c.table.slots.size < Word.bound) (a : α) :
    (c.step (.insert a)).Ordered := by
  have hf := ho.kept.fills hsize a
  have hnew : (c.table.insert a).1.number ∉ issued c.log := fun hmem =>
    hf.not_mem ho.kept (List.mem_map.2 ⟨_, hmem, Handle.ofNumber_number _⟩)
  refine ⟨?_, ho.right_cons hnew, List.nodup_cons.2 ⟨hnew, ho.nodup⟩, ?_, ?_, ?_⟩
  · have hk := hf.kept ho.kept
    rw [← Handle.ofNumber_number (c.table.insert a).1] at hk
    exact hk
  · intro n b
    rw [Custody.step, holds_inserted_iff, hf.get?, ← ho.finds]
    split
    · rename_i hn
      rw [hn, hf.get?_slot rfl]
      have hk : n = (c.table.insert a).1.number := Handle.ofNumber_eq_iff.1 hn
      simp [hk, eq_comm]
    · rename_i hn
      have hk : n ≠ (c.table.insert a).1.number := fun he => hn (Handle.ofNumber_eq_iff.2 he)
      simp [hk]
  · have hcount := ho.count
    show (c.table.insert a).2.occupied + (ended c.log).length = (issued c.log).length + 1
    rw [hf.occupied]
    omega
  · intro n hn hlast
    exact hf.retired (ho.retired n hn hlast)

theorem get (ho : c.Ordered) (n : UInt64) : (c.step (.get n)).Ordered where
  kept := ho.kept
  right := ho.right_cons fun a => ho.finds n a
  nodup := ho.nodup
  finds := by
    intro k a
    rw [Custody.step, ho.finds, holds_cons_iff rfl]
    simp [end?]
  count := ho.count
  retired := ho.retired

theorem remove_of_none (ho : c.Ordered) (hn : c.table.get? (.ofNumber n) = none) :
    (c.step (.remove n)).Ordered := by
  have hremove := SlotTable.remove_of_get?_eq_none hn
  have hstep : c.step (.remove n) = ⟨c.table, removed n none :: c.log⟩ := by
    simp only [Custody.step, hremove]
  rw [hstep]
  refine ⟨ho.kept, ho.right_cons ?_, ho.nodup, ?_, ho.count, ho.retired⟩
  · intro a
    rw [← ho.finds, hn]
  · intro k a
    rw [ho.finds, holds_cons_iff rfl]
    simp [end?]

theorem remove_of_some (ho : c.Ordered) (ha : c.table.get? (.ofNumber n) = some a) :
    (c.step (.remove n)).Ordered := by
  have hstep : c.step (.remove n) =
      ⟨(c.table.remove (.ofNumber n)).2, removed n (some a) :: c.log⟩ := by
    simp only [Custody.step, SlotTable.remove_of_get? ha]
  rw [hstep]
  refine ⟨ho.kept.remove ha, ho.right_cons ?_, ho.nodup, ?_, ?_, ?_⟩
  · intro b
    rw [← ho.finds, ha]
  · intro k b
    show (c.table.remove (.ofNumber n)).2.get? (.ofNumber k) = some b ↔ _
    rw [SlotTable.get?_remove ha, holds_cons_iff rfl, ← ho.finds]
    by_cases hk : k = n
    · simp [hk, end?]
    · have hne : n ≠ k := fun he => hk he.symm
      simp [Handle.ofNumber_inj, hk, hne, end?]
  · have hcount := ho.count
    have hoccupied := (ho.kept.occupied_remove ha).1
    show (c.table.remove (.ofNumber n)).2.occupied + ((ended c.log).length + 1) = _
    have hissued : issued (removed n (some a) :: c.log) = issued c.log := rfl
    rw [hissued]
    omega
  · intro k hk hlast
    rcases List.mem_cons.1 (show k ∈ n :: ended c.log from hk) with rfl | hk
    · exact SlotTable.retired_of_remove ha hlast
    · exact SlotTable.retired_remove ha (ho.retired k hk hlast)

theorem step (ho : c.Ordered) (hsize : c.table.slots.size < Word.bound) (e : Errand α) :
    (c.step e).Ordered := by
  cases e with
  | insert a => exact ho.insert hsize a
  | get n => exact ho.get n
  | remove n =>
      cases ha : c.table.get? (.ofNumber n) with
      | none => exact ho.remove_of_none ha
      | some a => exact ho.remove_of_some ha

end Ordered

theorem size_le_step (c : Custody α) (e : Errand α) :
    c.table.slots.size ≤ (c.step e).table.slots.size := by
  cases e with
  | insert a => exact c.table.size_le_insert a
  | get n => exact Nat.le_refl _
  | remove n =>
      simp only [step, SlotTable.remove]
      split <;> simp

theorem size_le_run (c : Custody α) (es : List (Errand α)) :
    c.table.slots.size ≤ (c.run es).table.slots.size := by
  induction es generalizing c with
  | nil => exact Nat.le_refl _
  | cons e es ih => exact Nat.le_trans (c.size_le_step e) (ih (c.step e))

theorem Ordered.run {c : Custody α} {es : List (Errand α)} (ho : c.Ordered)
    (hsize : (c.run es).table.slots.size < Word.bound) : (c.run es).Ordered := by
  induction es generalizing c with
  | nil => exact ho
  | cons e es ih =>
      have hlt := Nat.lt_of_le_of_lt (c.size_le_run (e :: es)) hsize
      exact ih (ho.step hlt e) hsize

theorem Ordered.faithful {c : Custody α} (ho : c.Ordered)
    (hsize : c.table.slots.size < Word.bound) : c.Faithful where
  right := ho.right
  nodup := ho.nodup
  finds := ho.finds
  refuses := by
    intro n hn
    apply SlotTable.remove_of_get?_eq_none
    exact Option.eq_none_iff_forall_ne_some.2 fun a ha => hn a ((ho.finds n a).1 ha)
  count := ho.count
  spent := by
    intro n hn hlast
    have hretired := ho.retired n hn hlast
    refine ⟨fun k hk => SlotTable.get?_of_retired (hk ▸ hretired), fun a ha => ?_⟩
    exact (ho.kept.fills hsize a).slot_ne_of_retired hretired ha.symm

end Custody

/-! ### All generations of one slot -/

namespace Custody

open Receipt

/-- A value comes and goes `n` times, each time through the first slot. -/
def lives : Nat → List (Errand Unit)
  | 0 => []
  | n + 1 => lives n ++ [.insert (), .remove (Handle.number ⟨0, UInt32.ofNat n⟩)]

theorem run_lives_succ (n : Nat) : run {} (lives (n + 1)) =
    ((run {} (lives n)).step (.insert ())).step
      (.remove (Handle.number ⟨0, UInt32.ofNat n⟩)) := by
  rw [lives, run, List.foldl_append]
  rfl

/-- A value that comes and goes moves the slot to its next generation, and leaves it reusable
    unless that is zero again. -/
theorem step_step_of_empty {c : Custody Unit} {g : Word}
    (hc : c.table = ⟨#[⟨g, none⟩], [0], 0⟩) :
    (c.step (.insert ())).step (.remove (Handle.number ⟨0, g⟩)) =
      ⟨⟨#[⟨g + 1, none⟩], if g + 1 = 0 then [] else [0], 0⟩,
        removed (Handle.number ⟨0, g⟩) (some ()) ::
          inserted () (Handle.number ⟨0, g⟩) :: c.log⟩ := by
  have hinsert : c.table.insert () = (⟨0, g⟩, ⟨#[⟨g, some ()⟩], [], 1⟩) := by
    rw [hc]
    rfl
  have hfinds : SlotTable.get? ⟨#[⟨g, some ()⟩], [], 1⟩ ⟨0, g⟩ = some () :=
    SlotTable.get?_eq_some_iff.2 rfl
  simp only [step, hinsert, Handle.ofNumber_number, SlotTable.remove_of_get? hfinds]
  rfl

theorem table_run_lives {n : Nat} (hn : n < Word.bound) :
    (run {} (lives (n + 1))).table =
      ⟨#[⟨UInt32.ofNat (n + 1), none⟩], if n + 1 = Word.bound then [] else [0], 0⟩ := by
  induction n with
  | zero => rfl
  | succ n ih =>
      have hlt : ¬ n + 1 = Word.bound := Nat.ne_of_lt hn
      have hc := ih (Nat.lt_of_succ_lt hn)
      rw [if_neg hlt] at hc
      rw [run_lives_succ, step_step_of_empty hc]
      have hnext : UInt32.ofNat (n + 1) + 1 = UInt32.ofNat (n + 1 + 1) := by
        apply UInt32.toNat_inj.1
        simp only [UInt32.toNat_add, UInt32.toNat_ofNat', UInt32.toNat_one]
        omega
      have hzero : UInt32.ofNat (n + 1 + 1) = 0 ↔ n + 1 + 1 = Word.bound := by
        simp only [Word.bound] at hn ⊢
        simp only [← UInt32.toNat_inj, UInt32.toNat_ofNat', UInt32.toNat_zero]
        omega
      simp only [hnext, hzero]

/-- With one life for each generation the slot has had its last one. -/
theorem run_lives_of_last {n : Nat} (hn : n + 1 = Word.bound) :
    (run {} (lives Word.bound)).table.slots.size = 1 ∧
      Handle.number ⟨0, UInt32.ofNat n⟩ ∈ ended (run {} (lives Word.bound)).log := by
  rw [← hn]
  constructor
  · rw [table_run_lives (by omega)]
    rfl
  · cases n with
    | zero => exact absurd hn (by decide)
    | succ n =>
        have hc := table_run_lives (n := n) (by omega)
        rw [if_neg (by omega)] at hc
        rw [run_lives_succ, step_step_of_empty hc]
        exact List.mem_cons_self

end Custody

/-- A table that has made fewer than 2^32 slots answers every sequence of insertions, look-ups and
    removals as a map whose keys are never used again. -/
theorem faithful_of_size_lt {α : Type} (es : List (Errand α))
    (hsize : (Custody.run {} es).table.slots.size < Word.bound) :
    (Custody.run {} es).Faithful :=
  (Custody.ordered_empty.run hsize).faithful hsize

/-- The first slot goes through all its generations: the table has made one slot, no number of
    that slot finds a value, and the next insertion uses another slot. -/
theorem faithful_of_all_lives :
    let c := Custody.run {} (Custody.lives Word.bound)
    c.table.slots.size = 1 ∧ c.Faithful ∧
      (∀ k, (Handle.ofNumber k).slot = 0 → c.table.get? (.ofNumber k) = none) ∧
      ∀ a, (c.table.insert a).1.slot ≠ 0 := by
  obtain ⟨hsize, hlast⟩ := Custody.run_lives_of_last (n := 4294967295) rfl
  have hfaithful := faithful_of_size_lt (Custody.lives Word.bound) (by rw [hsize]; decide)
  have hspent := hfaithful.spent _ hlast (by rw [Handle.ofNumber_number]; rfl)
  rw [Handle.ofNumber_number] at hspent
  exact ⟨hsize, hfaithful, hspent⟩

end LinearHeap
