/-
  LinearHeap/SwapRemove.lean
  ==========================
  **Removal that moves the last entry into the hole.**  It takes the same time
  wherever the entry lies, keeps all other entries, and changes the place of at
  most one of them.
-/

namespace LinearHeap

variable {α : Type}

/-- The array without the entry at `i`, whose place the last entry takes. -/
def swapRemove (xs : Array α) (i : Nat) : Array α :=
  if i < xs.size then (xs.swapIfInBounds i (xs.size - 1)).pop else xs

@[simp] theorem size_swapRemove (xs : Array α) (i : Nat) :
    (swapRemove xs i).size = if i < xs.size then xs.size - 1 else xs.size := by
  by_cases h : i < xs.size <;> simp [swapRemove, h]

/-- The entry that was removed and the entries that are left are the entries there were. -/
theorem cons_swapRemove_perm {xs : Array α} {i : Nat} (h : i < xs.size) :
    (xs[i] :: (swapRemove xs i).toList).Perm xs.toList := by
  have hl : xs.size - 1 < xs.size := by omega
  have hperm : (xs.swap i (xs.size - 1)).toList.Perm xs.toList := (Array.swap_perm h hl).toList
  have hne : (xs.swap i (xs.size - 1)).toList ≠ [] := by
    intro he
    have hz := congrArg List.length he
    rw [Array.length_toList, Array.size_swap, List.length_nil] at hz
    omega
  have hlast : (xs.swap i (xs.size - 1)).toList.getLast hne = xs[i] := by
    simp [List.getLast_eq_getElem]
  simp only [swapRemove, h, if_true, Array.swapIfInBounds_def, hl, dif_pos, Array.toList_pop]
  rw [← hlast]
  refine List.Perm.trans ?_ hperm
  conv => rhs; rw [← List.dropLast_concat_getLast hne]
  exact (List.perm_append_singleton _ _).symm

end LinearHeap
