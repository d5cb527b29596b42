/-
  LinearHeap/Proofs/Ledgers.lean
  ==============================
  **A ledger as a set of entries.**  As long as no address has two entries, the
  order in which entries lie does not matter: entering adds one, striking removes
  every entry of the address, and nothing else changes.
-/
import LinearHeap.FreeList.Linked
import LinearHeap.Session.Ledger
import Mathlib.Algebra.GroupWithZero.Nat
import Mathlib.Algebra.Order.BigOperators.Group.List
import Mathlib.Algebra.Order.Group.Nat
import Mathlib.Data.List.Nodup
import Mathlib.Data.List.Perm.Basic

namespace LinearHeap

namespace Ledger

variable {l : Ledger} {a : Addr} {size : Word} {x : Addr × Word}

def keys (l : Ledger) : List Addr := l.live.toList.map Prod.fst

theorem mem_keys_of_mem (hx : x ∈ l.live.toList) : x.1 ∈ l.keys := List.mem_map_of_mem hx

theorem position?_eq_none_iff : l.position? a = none ↔ a ∉ l.keys := by
  simp only [position?, Array.findIdx?_eq_none_iff, beq_eq_false_iff_ne, keys, List.mem_map,
    Array.mem_toList_iff, not_exists, not_and]

theorem exists_of_position? {i : Nat} (h : l.position? a = some i) :
    ∃ hi : i < l.live.size, (l.live[i]).1 = a := by
  obtain ⟨hi, hp, -⟩ := Array.findIdx?_eq_some_iff_getElem.1 h
  exact ⟨hi, by simpa using hp⟩

/-- What a ledger held is what it holds after a strike, and the entry that was struck. -/
theorem strike_perm {i : Nat} (h : l.position? a = some i) :
    ∃ n, ((a, n) :: (l.strike a).live.toList).Perm l.live.toList := by
  obtain ⟨hi, ha⟩ := exists_of_position? h
  refine ⟨(l.live[i]).2, ?_⟩
  have hentry : (a, (l.live[i]).2) = l.live[i] := by
    rw [← ha]
  rw [hentry]
  simp only [strike, h]
  exact cons_swapRemove_perm hi

theorem mem_keys_of_mem_keys_strike {b : Addr} (hb : b ∈ (l.strike a).keys) : b ∈ l.keys := by
  cases h : l.position? a with
  | none => rwa [strike_of_position?_eq_none h] at hb
  | some i =>
      obtain ⟨n, hperm⟩ := strike_perm h
      exact (hperm.map Prod.fst).mem_iff.1 (List.mem_cons_of_mem a hb)

/-- Striking an address loses no other. -/
theorem mem_keys_strike_of_ne {b : Addr} (hb : b ∈ l.keys) (hne : b ≠ a) :
    b ∈ (l.strike a).keys := by
  cases h : l.position? a with
  | none => rwa [strike_of_position?_eq_none h]
  | some i =>
      obtain ⟨n, hperm⟩ := strike_perm h
      have hmem := (hperm.map Prod.fst).mem_iff.2 hb
      exact (List.mem_cons.1 hmem).resolve_left hne

theorem nodup_keys_strike (hn : l.keys.Nodup) : (l.strike a).keys.Nodup := by
  cases h : l.position? a with
  | none => rwa [strike_of_position?_eq_none h]
  | some i =>
      obtain ⟨n, hperm⟩ := strike_perm h
      have hkeys := (hperm.map Prod.fst).nodup_iff.2 hn
      exact (List.nodup_cons.1 hkeys).2

theorem mem_strike_iff (hn : l.keys.Nodup) :
    x ∈ (l.strike a).live.toList ↔ x ∈ l.live.toList ∧ x.1 ≠ a := by
  cases h : l.position? a with
  | none =>
      rw [strike_of_position?_eq_none h]
      have hnot := position?_eq_none_iff.1 h
      constructor
      · intro hx
        exact ⟨hx, fun hxa => hnot (hxa ▸ mem_keys_of_mem hx)⟩
      · exact fun hx => hx.1
  | some i =>
      obtain ⟨n, hperm⟩ := strike_perm h
      have hkeys := (hperm.map Prod.fst).nodup_iff.2 hn
      have hnot := (List.nodup_cons.1 hkeys).1
      rw [← hperm.mem_iff, List.mem_cons]
      constructor
      · intro hx
        refine ⟨Or.inr hx, fun hxa => hnot ?_⟩
        have hkey := mem_keys_of_mem hx
        rwa [hxa] at hkey
      · rintro ⟨rfl | hx, hxa⟩
        · exact absurd rfl hxa
        · exact hx

theorem mem_keys_strike_iff {b : Addr} (hn : l.keys.Nodup) :
    b ∈ (l.strike a).keys ↔ b ∈ l.keys ∧ b ≠ a := by
  constructor
  · intro hb
    obtain ⟨x, hx, rfl⟩ := List.mem_map.1 hb
    obtain ⟨hmem, hne⟩ := (mem_strike_iff hn).1 hx
    exact ⟨List.mem_map_of_mem hmem, hne⟩
  · rintro ⟨hb, hne⟩
    exact mem_keys_strike_of_ne hb hne

/-- What a ledger holds after an entry is the entry, and what it would hold after a strike of the
    address. -/
theorem enter_perm : (l.enter a size).live.toList.Perm ((a, size) :: (l.strike a).live.toList) := by
  cases h : l.position? a with
  | none =>
      rw [strike_of_position?_eq_none h]
      simp only [enter, h, Array.toList_push]
      exact List.perm_append_singleton _ _
  | some i =>
      obtain ⟨hi, -⟩ := exists_of_position? h
      have hlen : i < l.live.toList.length := by rwa [Array.length_toList]
      simp only [enter, strike, h, Array.toList_setIfInBounds]
      refine (List.set_perm_cons_eraseIdx hlen (a, size)).trans (.cons _ ?_)
      exact (List.perm_cons _).1
        ((List.getElem_cons_eraseIdx_perm hlen).trans (cons_swapRemove_perm hi).symm)

theorem mem_keys_enter_iff {b : Addr} : b ∈ (l.enter a size).keys ↔ b = a ∨ b ∈ l.keys := by
  have hkeys : b ∈ (l.enter a size).keys ↔ b = a ∨ b ∈ (l.strike a).keys := by
    rw [keys, (enter_perm.map Prod.fst).mem_iff, List.map_cons, List.mem_cons, keys]
  rw [hkeys]
  constructor
  · exact Or.imp_right mem_keys_of_mem_keys_strike
  · intro hb
    by_cases hba : b = a
    · exact Or.inl hba
    · exact Or.inr (mem_keys_strike_of_ne (hb.resolve_left hba) hba)

theorem mem_enter_iff (hn : l.keys.Nodup) :
    x ∈ (l.enter a size).live.toList ↔ x = (a, size) ∨ x ∈ l.live.toList ∧ x.1 ≠ a := by
  rw [enter_perm.mem_iff, List.mem_cons, mem_strike_iff hn]

theorem nodup_keys_enter (hn : l.keys.Nodup) : (l.enter a size).keys.Nodup := by
  have hnot : a ∉ (l.strike a).keys := by
    rintro hmem
    obtain ⟨x, hx, hxa⟩ := List.mem_map.1 hmem
    exact ((mem_strike_iff hn).1 hx).2 hxa
  exact ((enter_perm.map Prod.fst).nodup_iff).2 (List.nodup_cons.2 ⟨hnot, nodup_keys_strike hn⟩)

/-- An address that is live is not among the freed ones, whatever it was before. -/
theorem mem_freed_enter_iff {b : Addr} : b ∈ (l.enter a size).freed ↔ b ∈ l.freed ∧ b ≠ a := by
  simp only [enter, List.mem_filter, bne_iff_ne]

/-- Only what is live is freed by a strike. -/
theorem mem_freed_strike_iff {b : Addr} :
    b ∈ (l.strike a).freed ↔ (b = a ∧ a ∈ l.keys) ∨ b ∈ l.freed := by
  cases h : l.position? a with
  | none =>
      rw [strike_of_position?_eq_none h]
      exact (or_iff_right fun hba => position?_eq_none_iff.1 h hba.2).symm
  | some i =>
      have ha : a ∈ l.keys := by
        by_contra hnot
        rw [position?_eq_none_iff.2 hnot] at h
        cases h
      simp only [strike, h, List.mem_cons, List.mem_filter, bne_iff_ne, ha, and_true]
      by_cases hba : b = a <;> simp [hba]

/-- An entry is found by its address, as long as no address has two. -/
theorem size?_of_mem (hn : l.keys.Nodup) (hx : x ∈ l.live.toList) : l.size? x.1 = some x.2 := by
  cases hs : l.live.find? fun e => e.1 == x.1 with
  | none =>
      have hnot := Array.find?_eq_none.1 hs x (Array.mem_toList_iff.1 hx)
      exact absurd (beq_self_eq_true x.1) hnot
  | some y =>
      have hkey : y.1 = x.1 := by simpa using Array.find?_some hs
      have hy : y ∈ l.live.toList := Array.mem_toList_iff.2 (Array.mem_of_find?_eq_some hs)
      have hyx : y = x := List.inj_on_of_nodup_map hn hy hx hkey
      rw [size?, hs, hyx, Option.map_some]

/-- There are no more entries than addresses. -/
theorem count_le_bound (hn : l.keys.Nodup) : l.count ≤ Word.bound := by
  have hnodup : (l.keys.map UInt32.toNat).Nodup := hn.map fun _ _ => UInt32.toNat_inj.1
  have hlen : (l.keys.map UInt32.toNat).length = l.count := by
    rw [List.length_map, keys, List.length_map, Array.length_toList, count]
  rw [← hlen]
  apply FreeChain.length_le_of_nodup hnodup
  intro n hmem
  obtain ⟨a, -, rfl⟩ := List.mem_map.1 hmem
  exact a.toNat_lt

theorem bytes_eq_sum (l : Ledger) : l.bytes = (l.live.toList.map fun x => x.2.toNat).sum := by
  rw [bytes, ← Array.foldl_toList, List.sum_eq_foldl, List.foldl_map]

/-- The bytes of all entries are a number of 64 bits. -/
theorem bytes_lt_countBound (hn : l.keys.Nodup) : l.bytes < Word.countBound := by
  have hsum : l.bytes ≤ l.count * (Word.bound - 1) := by
    have hlen : (l.live.toList.map fun x => x.2.toNat).length = l.count := by
      rw [List.length_map, Array.length_toList, count]
    rw [bytes_eq_sum, ← hlen]
    apply List.sum_le_card_nsmul
    intro n hmem
    obtain ⟨x, -, rfl⟩ := List.mem_map.1 hmem
    exact Nat.le_sub_one_of_lt x.2.toNat_lt
  calc l.bytes ≤ l.count * (Word.bound - 1) := hsum
    _ ≤ Word.bound * (Word.bound - 1) := Nat.mul_le_mul_right _ (count_le_bound hn)
    _ < Word.countBound := by decide

end Ledger

end LinearHeap
