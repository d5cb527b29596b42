/-
  LinearHeap/Proofs/Inventory.lean
  ================================
  **The list allocator.**  An inventory is a heap without bytes: the frontier,
  eight stacks of header addresses, one list of extents, and the extents that are
  handed out.  Its operations are a few lines each and never fail halfway, and
  they are what the heap in memory is measured against.

      allocate n   pad n; the top of its stack if it has one, else the first
                   extent of the list that is large enough, cut if the slack
                   is worth it, and the frontier when there is none
      free a       the stack or list that the extent's size names

  Stacks and list together are the nine chains (`chain`, indexed by
  `Option SizeClass`), and every fact about free extents is stated for all nine
  at once.  `Sound` is the invariant: what is handed out and what is free are
  together exactly the extents of a tiling of `[start, frontier)`.
-/
import LinearHeap.SizeClass
import LinearHeap.Proofs.Extent
import Mathlib.Data.List.Perm.Basic
import Mathlib.Logic.Function.Basic

namespace LinearHeap

/-! ### Classes of plain sizes -/

namespace SizeClass

def width (c : SizeClass) : Nat := 4 * (c.val + 1)

theorem toNat_bytes (c : SizeClass) : (bytes c).toNat = c.width := by
  have hc := c.isLt
  simp only [bytes, width, UInt32.toNat_ofNat']
  omega

def ofNat? (size : Nat) : Option SizeClass :=
  if h : size ≠ 0 ∧ size % 4 = 0 ∧ size ≤ 32 then some ⟨size / 4 - 1, by omega⟩ else none

theorem ofSize?_eq_ofNat? (size : Word) : ofSize? size = ofNat? size.toNat := rfl

theorem ofNat?_eq_some_iff {size : Nat} {c : SizeClass} :
    ofNat? size = some c ↔ size = c.width := by
  rcases c with ⟨c, hc⟩
  simp only [ofNat?, width]
  constructor
  · intro h
    split at h
    · simp only [Option.some.injEq, Fin.mk.injEq] at h
      omega
    · cases h
  · intro h
    rw [dif_pos (by omega)]
    simp only [Option.some.injEq, Fin.mk.injEq]
    omega

theorem ofNat?_width (c : SizeClass) : ofNat? c.width = some c := ofNat?_eq_some_iff.2 rfl

end SizeClass

/-- The nine chains: the list of all other sizes, then the stacks. -/
def shelves : List (Option SizeClass) := none :: SizeClass.all.map some

theorem mem_shelves (k : Option SizeClass) : k ∈ shelves := by
  rcases k with _ | c
  · exact List.mem_cons_self
  · exact List.mem_cons_of_mem _ (List.mem_map_of_mem (List.mem_finRange c))

theorem nodup_shelves : shelves.Nodup := by decide

theorem perm_flatMap_of_insert {κ α : Type} {f g : κ → List α} {k : κ} {before after : List α}
    {a : α} (hf : f k = before ++ a :: after) (hg : g k = before ++ after)
    (hother : ∀ j, j ≠ k → f j = g j) {ks : List κ} (hk : k ∈ ks) (hn : ks.Nodup) :
    (ks.flatMap f).Perm (a :: ks.flatMap g) := by
  induction ks with
  | nil => cases hk
  | cons j ks ih =>
      obtain ⟨hj, hn⟩ := List.nodup_cons.1 hn
      simp only [List.flatMap_cons]
      by_cases hjk : j = k
      · subst hjk
        have htail : ks.flatMap f = ks.flatMap g := by
          apply List.flatMap_congr
          intro i hi
          exact hother i fun he => hj (he ▸ hi)
        rw [hf, hg, htail, List.append_assoc, List.append_assoc]
        exact List.perm_middle
      · have hk' : k ∈ ks := (List.mem_cons.1 hk).resolve_left fun he => hjk he.symm
        rw [hother j hjk]
        exact ((ih hk' hn).append_left (g j)).trans List.perm_middle

/-- The first match of a list stands behind a part without a match, and is what `eraseP` drops. -/
theorem exists_append_of_find?_eq_some {α : Type} {p : α → Bool} {xs : List α} {a : α}
    (h : xs.find? p = some a) :
    ∃ before after, xs = before ++ a :: after ∧ xs.eraseP p = before ++ after ∧
      p a = true ∧ ∀ b ∈ before, p b = false := by
  obtain ⟨ha, before, after, rfl, hbefore⟩ := List.find?_eq_some_iff_append.1 h
  have hnone : ∀ b ∈ before, p b = false := by
    intro b hb
    simpa using hbefore b hb
  refine ⟨before, after, rfl, ?_, ha, hnone⟩
  rw [List.eraseP_append_right _ fun b hb => by simp [hnone b hb], List.eraseP_cons_of_pos ha]

/-! ### The allocator -/

structure Inventory where
  start : Nat
  /-- The bump pointer. -/
  frontier : Nat
  /-- Header addresses, the latest first. -/
  bins : SizeClass → List Nat
  fits : List Extent
  /-- What is handed out, with the size in its header. -/
  live : List Extent

namespace Inventory

def fresh (start : Nat) : Inventory := ⟨start, start, fun _ => [], [], []⟩

def lend (e : Extent) (inv : Inventory) : Inventory := { inv with live := e :: inv.live }

/-- Puts an extent on the front of the stack or list that its size names. -/
def shelve (e : Extent) (inv : Inventory) : Inventory :=
  match SizeClass.ofNat? e.size with
  | some c => { inv with bins := Function.update inv.bins c (e.header :: inv.bins c) }
  | none => { inv with fits := e :: inv.fits }

/-- Carves an extent at the frontier, if it ends inside the address space and a memory of
    `room` bytes. -/
def bump (room size : Nat) (inv : Inventory) : Option (Extent × Inventory) :=
  let stop := inv.frontier + 4 + size
  if stop < Word.bound ∧ stop ≤ room then
    some (⟨inv.frontier, size⟩, lend ⟨inv.frontier, size⟩ { inv with frontier := stop })
  else none

def serve (room size : Nat) (inv : Inventory) : Option (Extent × Inventory) :=
  match SizeClass.ofNat? size with
  | some c =>
      match inv.bins c with
      | [] => inv.bump room size
      | header :: rest =>
          some (⟨header, size⟩,
            lend ⟨header, size⟩ { inv with bins := Function.update inv.bins c rest })
  | none =>
      match inv.fits.find? fun e => size ≤ e.size with
      | none => inv.bump room size
      | some e =>
          let left := { inv with fits := inv.fits.eraseP fun e => size ≤ e.size }
          if e.size - size < 12 then some (e, left.lend e)
          else
            some (⟨e.header, size⟩,
              (left.lend ⟨e.header, size⟩).shelve ⟨e.header + 4 + size, e.size - size - 4⟩)

def padded (request : Nat) : Nat := max ((request + 3) / 4 * 4) 4

/-- Hands out an extent for a request; `none` where the frontier cannot move far enough. -/
def allocate (room request : Nat) (inv : Inventory) : Option (Extent × Inventory) :=
  inv.serve room (padded request)

/-- Takes back the extent with this payload address. -/
def free (payload : Nat) (inv : Inventory) : Inventory :=
  match inv.live.find? fun e => e.payload == payload with
  | some e => shelve e { inv with live := inv.live.eraseP fun e => e.payload == payload }
  | none => inv

/-! ### The nine chains -/

def chain (inv : Inventory) : Option SizeClass → List Extent
  | some c => (inv.bins c).map fun header => ⟨header, c.width⟩
  | none => inv.fits

def withChain (inv : Inventory) (k : Option SizeClass) (es : List Extent) : Inventory :=
  match k with
  | some c => { inv with bins := Function.update inv.bins c (es.map Extent.header) }
  | none => { inv with fits := es }

/-- Everything in the nine chains. -/
def shelved (inv : Inventory) : List Extent := shelves.flatMap inv.chain

/-- Everything carved. -/
def extents (inv : Inventory) : List Extent := inv.live ++ inv.shelved

theorem mem_shelved_iff {inv : Inventory} {e : Extent} :
    e ∈ inv.shelved ↔ ∃ k, e ∈ inv.chain k := by
  simp only [shelved, List.mem_flatMap]
  constructor
  · rintro ⟨k, -, he⟩
    exact ⟨k, he⟩
  · rintro ⟨k, he⟩
    exact ⟨k, mem_shelves k, he⟩

theorem mem_extents_iff {inv : Inventory} {e : Extent} :
    e ∈ inv.extents ↔ e ∈ inv.live ∨ ∃ k, e ∈ inv.chain k := by
  rw [extents, List.mem_append, mem_shelved_iff]

theorem mem_extents_of_live {inv : Inventory} {e : Extent} (h : e ∈ inv.live) :
    e ∈ inv.extents := mem_extents_iff.2 (Or.inl h)

theorem mem_extents_of_chain {inv : Inventory} {k : Option SizeClass} {e : Extent}
    (h : e ∈ inv.chain k) : e ∈ inv.extents := mem_extents_iff.2 (Or.inr ⟨k, h⟩)

@[simp] theorem start_withChain (inv : Inventory) (k : Option SizeClass) (es : List Extent) :
    (inv.withChain k es).start = inv.start := by cases k <;> rfl

@[simp] theorem frontier_withChain (inv : Inventory) (k : Option SizeClass) (es : List Extent) :
    (inv.withChain k es).frontier = inv.frontier := by cases k <;> rfl

@[simp] theorem live_withChain (inv : Inventory) (k : Option SizeClass) (es : List Extent) :
    (inv.withChain k es).live = inv.live := by cases k <;> rfl

theorem chain_withChain_same {inv : Inventory} {k : Option SizeClass} {es : List Extent}
    (h : ∀ e ∈ es, SizeClass.ofNat? e.size = k) : (inv.withChain k es).chain k = es := by
  rcases k with _ | c
  · rfl
  · simp only [withChain, chain, Function.update_self, List.map_map]
    conv => rhs; rw [← List.map_id es]
    apply List.map_congr_left
    intro e he
    have hsize := SizeClass.ofNat?_eq_some_iff.1 (h e he)
    rcases e with ⟨header, size⟩
    simp only at hsize
    subst hsize
    rfl

theorem chain_withChain_of_ne {inv : Inventory} {j k : Option SizeClass} {es : List Extent}
    (h : j ≠ k) : (inv.withChain k es).chain j = inv.chain j := by
  rcases j with _ | d <;> rcases k with _ | c
  · exact absurd rfl h
  · rfl
  · rfl
  · have hdc : d ≠ c := fun he => h (by rw [he])
    simp only [withChain, chain, Function.update_of_ne hdc]

theorem shelve_eq_withChain (e : Extent) (inv : Inventory) :
    inv.shelve e = inv.withChain (SizeClass.ofNat? e.size)
      (e :: inv.chain (SizeClass.ofNat? e.size)) := by
  cases h : SizeClass.ofNat? e.size with
  | none => simp only [shelve, h, withChain, chain]
  | some c =>
      simp only [shelve, h, withChain, chain, List.map_cons, List.map_map]
      congr 3
      exact (List.map_id _).symm

theorem shelved_perm_cons {inv inv' : Inventory} {k : Option SizeClass}
    {before after : List Extent} {e : Extent} (h : inv.chain k = before ++ e :: after)
    (h' : inv'.chain k = before ++ after) (hother : ∀ j, j ≠ k → inv.chain j = inv'.chain j) :
    inv.shelved.Perm (e :: inv'.shelved) :=
  perm_flatMap_of_insert h h' hother (mem_shelves k) nodup_shelves

end Inventory

end LinearHeap
