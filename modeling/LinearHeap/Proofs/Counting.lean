/-
  LinearHeap/Proofs/Counting.lean
  ===============================
  **What a call counts.**  Which counters move is decided by the inventory alone,
  by the same choices that serve a size or put an extent back: `countServe`,
  `countFree` and `countSlice` say what is counted, without a look at memory.

  `Serves` lists the three ways to serve a size, with what each hands out, leaves
  and counts: an extent is carved at the frontier, taken whole out of a chain, or
  cut from the front of a larger one.
-/
import LinearHeap.Proofs.Acts
import LinearHeap.Proofs.Soundness

namespace LinearHeap

namespace Counters

def carvedOnce (n : Counters) : Counters := { n with carved := n.carved + 1 }

/-- A block of the chain was handed out again. -/
def reused (k : Option SizeClass) (n : Counters) : Counters :=
  match k with
  | some _ => { n with binReuses := n.binReuses + 1 }
  | none => { n with fitReuses := n.fitReuses + 1 }

/-- A fit was cut, and its upper part joined the chain. -/
def cutInto (k : Option SizeClass) (n : Counters) : Counters :=
  Counters.joined k { n with fitReuses := n.fitReuses + 1, splits := n.splits + 1 }

theorem allocations_carvedOnce (n : Counters) : n.carvedOnce.allocations = n.allocations + 1 := by
  simp only [allocations, carvedOnce]
  omega

theorem allocations_reused (k : Option SizeClass) (n : Counters) :
    (n.reused k).allocations = n.allocations + 1 := by
  cases k <;> simp only [allocations, reused] <;> omega

theorem allocations_cutInto (k : Option SizeClass) (n : Counters) :
    (n.cutInto k).allocations = n.allocations + 1 := by
  cases k <;> simp only [allocations, cutInto, joined] <;> omega

end Counters

@[simp] theorem Heap.counters_setHead (h : Heap) (k : Option SizeClass) (l : Link) :
    (h.setHead k l).counters = h.counters := by cases k <;> rfl

namespace Inventory

/-! ### Counting a call -/

/-- What serving a size counts. -/
def countServe (size : Nat) (inv : Inventory) : Counters → Counters :=
  match SizeClass.ofNat? size with
  | some c =>
      match inv.bins c with
      | [] => Counters.carvedOnce
      | _ :: _ => Counters.reused (some c)
  | none =>
      match inv.fits.find? fun e => size ≤ e.size with
      | none => Counters.carvedOnce
      | some e =>
          if e.size - size < 12 then Counters.reused none
          else Counters.cutInto (SizeClass.ofNat? (e.size - size - 4))

/-- What a request counts; one that is not served counts nothing. -/
def countAllocate (room request : Nat) (inv : Inventory) (n : Counters) : Counters :=
  match inv.allocate room request with
  | some _ => inv.countServe (padded request) n
  | none => n

/-- What the two requests of a slice count. -/
def countSlice (room length element : Nat) (inv : Inventory) (n : Counters) : Counters :=
  if length * element < Word.bound then
    match inv.allocate room 8 with
    | some (_, left) => left.countAllocate room (length * element) (inv.countAllocate room 8 n)
    | none => n
  else n

/-- What taking back a payload address counts. -/
def countFree (payload : Nat) (inv : Inventory) (n : Counters) : Counters :=
  match inv.live.find? fun e => e.payload == payload with
  | some e => n.joined (SizeClass.ofNat? e.size)
  | none => n

section

variable {inv : Inventory} {size : Nat} {c : SizeClass} {e : Extent}

theorem countServe_of_nil (hc : SizeClass.ofNat? size = some c) (hbin : inv.bins c = []) :
    inv.countServe size = Counters.carvedOnce := by
  simp only [countServe, hc, hbin]

theorem countServe_of_cons (hc : SizeClass.ofNat? size = some c) {header : Nat} {rest : List Nat}
    (hbin : inv.bins c = header :: rest) : inv.countServe size = Counters.reused (some c) := by
  simp only [countServe, hc, hbin]

theorem countServe_of_find?_eq_none (hc : SizeClass.ofNat? size = none)
    (hfind : (inv.fits.find? fun e => decide (size ≤ e.size)) = none) :
    inv.countServe size = Counters.carvedOnce := by
  simp only [countServe, hc, hfind]

theorem countServe_of_lt_twelve (hc : SizeClass.ofNat? size = none)
    (hfind : (inv.fits.find? fun e => decide (size ≤ e.size)) = some e)
    (hslack : e.size - size < 12) : inv.countServe size = Counters.reused none := by
  simp only [countServe, hc, hfind, if_pos hslack]

theorem countServe_of_twelve_le (hc : SizeClass.ofNat? size = none)
    (hfind : (inv.fits.find? fun e => decide (size ≤ e.size)) = some e)
    (hslack : ¬ e.size - size < 12) :
    inv.countServe size = Counters.cutInto (SizeClass.ofNat? (e.size - size - 4)) := by
  simp only [countServe, hc, hfind, if_neg hslack]

end

/-! ### Three ways to serve a size -/

/-- A size is served with this extent, and this inventory is left. -/
inductive Serves (inv : Inventory) (room size : Nat) : Extent → Inventory → Prop
  | carved {e : Extent} {inv' : Inventory} (hb : inv.bump room size = some (e, inv'))
      (hn : inv.countServe size = Counters.carvedOnce) : Serves inv room size e inv'
  | whole {k : Option SizeClass} {before after : List Extent} {e : Extent}
      (hk : inv.chain k = before ++ e :: after)
      (hn : inv.countServe size = Counters.reused k) (hclass : SizeClass.ofNat? size = k)
      (hfit : size ≤ e.size) (hslack : e.size - size < 12) :
      Serves inv room size e (inv.take k before after e)
  | cut {before after : List Extent} {f : Extent} (hk : inv.fits = before ++ f :: after)
      (hn : inv.countServe size = Counters.cutInto (SizeClass.ofNat? (f.size - size - 4)))
      (hfit : size ≤ f.size) (hslack : 12 ≤ f.size - size) :
      Serves inv room size ⟨f.header, size⟩
        ((inv.take none before after ⟨f.header, size⟩).shelve
          ⟨f.header + 4 + size, f.size - size - 4⟩)

section

variable {inv inv' : Inventory} {room size request : Nat} {e : Extent}

theorem serves_of_serve (hs : inv.serve room size = some (e, inv')) :
    inv.Serves room size e inv' := by
  unfold serve at hs
  cases hc : SizeClass.ofNat? size with
  | some c =>
      simp only [hc] at hs
      cases hbin : inv.bins c with
      | nil =>
          simp only [hbin] at hs
          exact .carved hs (countServe_of_nil hc hbin)
      | cons header rest =>
          simp only [hbin, Option.some.injEq, Prod.mk.injEq] at hs
          obtain ⟨rfl, rfl⟩ := hs
          obtain rfl := SizeClass.ofNat?_eq_some_iff.1 hc
          have hk : inv.chain (some c) =
              [] ++ ⟨header, c.width⟩ :: rest.map fun header => ⟨header, c.width⟩ := by
            simp only [chain, hbin, List.map_cons, List.nil_append]
          have hrest : (rest.map fun header => (⟨header, c.width⟩ : Extent)).map Extent.header =
              rest := by
            rw [List.map_map]
            exact List.map_id rest
          have hslack : c.width - c.width < 12 := by omega
          have hw : inv.Serves room c.width _ _ :=
            .whole hk (countServe_of_cons hc hbin) hc (Nat.le_refl _) hslack
          simpa only [Inventory.take, withChain, List.nil_append, hrest] using hw
  | none =>
      simp only [hc] at hs
      cases hfind : inv.fits.find? fun e => decide (size ≤ e.size) with
      | none =>
          simp only [hfind] at hs
          exact .carved hs (countServe_of_find?_eq_none hc hfind)
      | some f =>
          obtain ⟨before, after, hk, herase, hfit, -⟩ := exists_append_of_find?_eq_some hfind
          have hfit := of_decide_eq_true hfit
          simp only [hfind, herase] at hs
          split at hs
          · rename_i hslack
            simp only [Option.some.injEq, Prod.mk.injEq] at hs
            obtain ⟨rfl, rfl⟩ := hs
            exact .whole (k := none) hk (countServe_of_lt_twelve hc hfind hslack) hc hfit hslack
          · rename_i hslack
            simp only [Option.some.injEq, Prod.mk.injEq] at hs
            obtain ⟨rfl, rfl⟩ := hs
            exact .cut hk (countServe_of_twelve_le hc hfind hslack) hfit (Nat.not_lt.1 hslack)

/-- Every request that is served counts as one allocation. -/
theorem allocations_countServe (hs : inv.serve room size = some (e, inv')) (n : Counters) :
    (inv.countServe size n).allocations = n.allocations + 1 := by
  cases serves_of_serve hs with
  | carved hb hn => rw [hn, Counters.allocations_carvedOnce]
  | whole hk hn => rw [hn, Counters.allocations_reused]
  | cut hk hn => rw [hn, Counters.allocations_cutInto]

theorem countAllocate_of_some (hs : inv.allocate room request = some (e, inv')) (n : Counters) :
    inv.countAllocate room request n = inv.countServe (padded request) n := by
  simp only [countAllocate, hs]

theorem countAllocate_of_none (hs : inv.allocate room request = none) (n : Counters) :
    inv.countAllocate room request n = n := by
  simp only [countAllocate, hs]

end

end Inventory

end LinearHeap
