/-
  LinearHeap/Proofs/Shifting.lean
  ===============================
  **The list allocator does not know where it is.**  An inventory moved up by a
  distance serves, takes back and counts as it did before, at addresses that
  distance higher (`serve_of_shift`, `free_shift`).  Where it serves, an inventory
  at the bottom of the address space with no end of memory serves too, since room
  is the only thing a higher place can lack.
-/
import LinearHeap.Proofs.Balance

namespace LinearHeap

namespace Extent

def shift (d : Nat) (e : Extent) : Extent := ⟨e.header + d, e.size⟩

@[simp] theorem size_shift (d : Nat) (e : Extent) : (e.shift d).size = e.size := rfl

@[simp] theorem payload_shift (d : Nat) (e : Extent) : (e.shift d).payload = e.payload + d :=
  Nat.add_right_comm e.header d 4

end Extent

namespace Inventory

def shift (d : Nat) (inv : Inventory) : Inventory where
  start := inv.start + d
  frontier := inv.frontier + d
  bins := fun c => (inv.bins c).map (· + d)
  fits := inv.fits.map (Extent.shift d)
  live := inv.live.map (Extent.shift d)

variable {inv inv' left' : Inventory} {d room size request payload : Nat} {e e' : Extent}

theorem chain_shift (d : Nat) (inv : Inventory) (k : Option SizeClass) :
    (inv.shift d).chain k = (inv.chain k).map (Extent.shift d) := by
  rcases k with _ | c
  · rfl
  · simp only [chain, shift, List.map_map]
    rfl

theorem shift_setBin (d : Nat) (inv : Inventory) (c : SizeClass) (headers : List Nat) :
    ({ inv with bins := Function.update inv.bins c headers }).shift d =
      { inv.shift d with
        bins := Function.update (inv.shift d).bins c (headers.map (· + d)) } := by
  have hbins := Function.comp_update (List.map (· + d)) inv.bins c headers
  simp only [shift, mk.injEq, and_true, true_and]
  exact hbins

theorem shift_shelve (d : Nat) (e : Extent) (inv : Inventory) :
    (inv.shelve e).shift d = (inv.shift d).shelve (e.shift d) := by
  cases hc : SizeClass.ofNat? e.size with
  | none =>
      simp only [shelve, Extent.size_shift, hc]
      rfl
  | some c =>
      simp only [shelve, Extent.size_shift, hc, shift_setBin]
      rfl

/-! ### Serving -/

theorem bump_of_shift (hs : (inv.shift d).bump room size = some (e', left')) :
    ∃ e left, inv.bump Word.bound size = some (e, left) ∧ e' = e.shift d ∧
      left' = left.shift d := by
  obtain ⟨hspace, -, rfl, rfl⟩ := bump_eq_some_iff.1 hs
  simp only [shift] at hspace
  refine ⟨_, _, bump_eq_some_iff.2 ⟨by omega, by omega, rfl, rfl⟩, rfl, ?_⟩
  simp only [shift, lend, List.map_cons, mk.injEq, true_and]
  refine ⟨by omega, rfl⟩

theorem find?_fits_shift (d size : Nat) (inv : Inventory) :
    ((inv.shift d).fits.find? fun e => decide (size ≤ e.size)) =
      (inv.fits.find? fun e => decide (size ≤ e.size)).map (Extent.shift d) := by
  simp only [shift, List.find?_map]
  rfl

theorem eraseP_fits_shift (d size : Nat) (inv : Inventory) :
    ((inv.shift d).fits.eraseP fun e => decide (size ≤ e.size)) =
      (inv.fits.eraseP fun e => decide (size ≤ e.size)).map (Extent.shift d) := by
  simp only [shift, List.eraseP_map]
  rfl

theorem serve_of_shift (hs : (inv.shift d).serve room size = some (e', left')) :
    ∃ e left, inv.serve Word.bound size = some (e, left) ∧ e' = e.shift d ∧
      left' = left.shift d := by
  cases hc : SizeClass.ofNat? size with
  | some c =>
      cases hbin : inv.bins c with
      | nil =>
          have hbin' : (inv.shift d).bins c = [] := by simp only [shift, hbin, List.map_nil]
          simp only [serve, hc, hbin'] at hs
          simp only [serve, hc, hbin]
          exact bump_of_shift hs
      | cons header rest =>
          have hbin' : (inv.shift d).bins c = (header + d) :: rest.map (· + d) := by
            simp only [shift, hbin, List.map_cons]
          simp only [serve, hc, hbin', Option.some.injEq, Prod.mk.injEq] at hs
          obtain ⟨rfl, rfl⟩ := hs
          simp only [serve, hc, hbin]
          refine ⟨_, _, rfl, rfl, ?_⟩
          exact congrArg (lend _) (shift_setBin d inv c rest).symm
  | none =>
      have hfind' := find?_fits_shift d size inv
      cases hfind : inv.fits.find? fun e => decide (size ≤ e.size) with
      | none =>
          rw [hfind, Option.map_none] at hfind'
          simp only [serve, hc, hfind'] at hs
          simp only [serve, hc, hfind]
          exact bump_of_shift hs
      | some f =>
          rw [hfind, Option.map_some] at hfind'
          simp only [serve, hc, hfind', eraseP_fits_shift, Extent.size_shift] at hs
          simp only [serve, hc, hfind]
          split at hs
          · rename_i hslack
            simp only [Option.some.injEq, Prod.mk.injEq] at hs
            obtain ⟨rfl, rfl⟩ := hs
            rw [if_pos hslack]
            exact ⟨_, _, rfl, rfl, rfl⟩
          · rename_i hslack
            simp only [Option.some.injEq, Prod.mk.injEq] at hs
            obtain ⟨rfl, rfl⟩ := hs
            rw [if_neg hslack]
            refine ⟨_, _, rfl, rfl, ?_⟩
            have hrest : (⟨f.header + d + 4 + size, f.size - size - 4⟩ : Extent) =
                Extent.shift d ⟨f.header + 4 + size, f.size - size - 4⟩ := by
              simp only [Extent.shift, Extent.mk.injEq, and_true]
              omega
            rw [shift_shelve, ← hrest]
            rfl

/-- What serving counts is decided by sizes. -/
theorem countServe_shift (d size : Nat) (inv : Inventory) :
    (inv.shift d).countServe size = inv.countServe size := by
  cases hc : SizeClass.ofNat? size with
  | some c =>
      cases hbin : inv.bins c with
      | nil =>
          have hbin' : (inv.shift d).bins c = [] := by simp only [shift, hbin, List.map_nil]
          rw [countServe_of_nil hc hbin, countServe_of_nil hc hbin']
      | cons header rest =>
          have hbin' : (inv.shift d).bins c = (header + d) :: rest.map (· + d) := by
            simp only [shift, hbin, List.map_cons]
          rw [countServe_of_cons hc hbin, countServe_of_cons hc hbin']
  | none =>
      have hfind' := find?_fits_shift d size inv
      simp only [countServe, hc, hfind']
      cases inv.fits.find? fun e => decide (size ≤ e.size) with
      | none => rfl
      | some f => rfl

theorem allocate_of_shift (hs : (inv.shift d).allocate room request = some (e', left')) :
    ∃ e left, inv.allocate Word.bound request = some (e, left) ∧ e' = e.shift d ∧
      left' = left.shift d := serve_of_shift hs

/-- What is served at a higher place is counted as it is at the bottom. -/
theorem countAllocate_shift (hs : (inv.shift d).allocate room request = some (e', left'))
    (n : Counters) :
    (inv.shift d).countAllocate room request n = inv.countAllocate Word.bound request n := by
  obtain ⟨e, left, hbottom, -, -⟩ := allocate_of_shift hs
  rw [countAllocate_of_some hs, countAllocate_of_some hbottom, countServe_shift]

/-! ### Slices -/

section

variable {length element : Nat} {content' record' : Extent}

theorem allocateSlice_of_shift
    (hs : (inv.shift d).allocateSlice room length element = ([content', record'], left')) :
    (∃ content record left, inv.allocateSlice Word.bound length element =
        ([content, record], left) ∧ content' = content.shift d ∧ record' = record.shift d ∧
        left' = left.shift d) ∧
      ∀ n, (inv.shift d).countSlice room length element n =
        inv.countSlice Word.bound length element n := by
  obtain ⟨hnil, -⟩ | ⟨r, hone, -⟩ | ⟨c, r, left, hpair, hlt, hr, hc⟩ := allocateSlice_cases hs
  · cases hnil
  · cases hone
  · cases hpair
    obtain ⟨record, left₁, hrecord, rfl, rfl⟩ := allocate_of_shift hr
    obtain ⟨content, left₂, hcontent, rfl, rfl⟩ := allocate_of_shift hc
    refine ⟨⟨content, record, left₂, ?_, rfl, rfl, rfl⟩, fun n => ?_⟩
    · simp only [allocateSlice, if_pos hlt, hrecord, hcontent]
    · simp only [countSlice, if_pos hlt, hr, hrecord, countAllocate_shift hr,
        countAllocate_shift hc]

end

/-! ### Taking back -/

theorem beq_payload_shift (d payload : Nat) :
    (fun e : Extent => e.payload == payload + d) ∘ Extent.shift d =
      fun e => e.payload == payload := by
  funext e
  simp only [Function.comp_apply, Extent.payload_shift, Nat.add_right_cancel_iff,
    Bool.beq_eq_decide_eq]

theorem find?_live_shift (d payload : Nat) (inv : Inventory) :
    ((inv.shift d).live.find? fun e => e.payload == payload + d) =
      (inv.live.find? fun e => e.payload == payload).map (Extent.shift d) := by
  simp only [shift, List.find?_map, beq_payload_shift]

theorem free_shift (d payload : Nat) (inv : Inventory) :
    (inv.shift d).free (payload + d) = (inv.free payload).shift d := by
  unfold free
  rw [find?_live_shift]
  cases inv.live.find? fun e => e.payload == payload with
  | none => rfl
  | some e =>
      simp only [Option.map_some]
      rw [shift_shelve]
      congr 1
      simp only [shift, List.eraseP_map, beq_payload_shift]

theorem countFree_shift (d payload : Nat) (inv : Inventory) (n : Counters) :
    (inv.shift d).countFree (payload + d) n = inv.countFree payload n := by
  unfold countFree
  rw [find?_live_shift]
  cases inv.live.find? fun e => e.payload == payload with
  | none => rfl
  | some e => rfl

end Inventory

/-- A census does not tell where the heap is. -/
theorem Census.Counts.of_shift {c : Census} {d : Nat} {inv : Inventory}
    (h : c.Counts (inv.shift d)) : c.Counts inv where
  bins := fun k => by rw [h.bins, Inventory.chain_shift, List.length_map]
  fitBlocks := by rw [h.fitBlocks, Inventory.shift, List.length_map]
  fitBytes := by
    rw [h.fitBytes, Inventory.shift, List.map_map]
    rfl
  carvedBytes := by
    have hcarved := h.carvedBytes
    simp only [Inventory.shift] at hcarved
    omega

/-! ### Blueprints side by side -/

/-- The second action is the first one, its address moved up. -/
inductive Action.Shifts (d : Nat) : Action → Action → Prop
  | allocate (request : Word) : Shifts d (.allocate request) (.allocate request)
  | allocateSlice (length element : Word) :
      Shifts d (.allocateSlice length element) (.allocateSlice length element)
  | free {a a' : Addr} (h : a'.toNat = a.toNat + d) : Shifts d (.free a) (.free a')
  | freeSlice {a a' : Addr} (h : a'.toNat = a.toNat + d) : Shifts d (.freeSlice a) (.freeSlice a')

namespace Blueprint

/-- The second blueprint is the first one, moved up; the first one has all the room there is. -/
structure Shifts (d : Nat) (q p : Blueprint) : Prop where
  inventory : p.inventory = q.inventory.shift d
  slices : p.slices = q.slices.map fun x => (x.1 + d, x.2 + d)
  room : q.room = Word.bound

theorem lookup_map_add (d k : Nat) (xs : List (Nat × Nat)) :
    (xs.map fun x => (x.1 + d, x.2 + d)).lookup (k + d) = (xs.lookup k).map (· + d) := by
  induction xs with
  | nil => rfl
  | cons x xs ih =>
      obtain ⟨key, value⟩ := x
      have hkey : (k + d == key + d) = (k == key) := by
        simp only [Bool.beq_eq_decide_eq, Nat.add_right_cancel_iff]
      simp only [List.map_cons, List.lookup_cons, hkey, ih]
      cases k == key <;> rfl

namespace Shifts

variable {d : Nat} {q p : Blueprint} {a a' : Action}

/-- What an action hands out, leaves, answers and counts, at both places. -/
structure Agrees (d : Nat) (q p : Blueprint) (a a' : Action) : Prop where
  lent : (p.effect a').1 = (q.effect a).1.map (Extent.shift d)
  left : (p.effect a').2 = (q.effect a).2.shift d
  answer : p.answer a' = (q.answer a).map (Option.map (· + d))
  counted : ∀ n, p.counted a' n = q.counted a n
  released : p.released a' = (q.released a).map (· + d)
  room : (q.step a).room = q.room

theorem agrees_allocate (hp : Shifts d q p) (request : Word)
    (hok : p.answer (.allocate request) ≠ none) :
    Agrees d q p (.allocate request) (.allocate request) := by
  cases hs : p.inventory.allocate p.room request.toNat with
  | none => exact absurd (by simp only [answer, effect, hs]) hok
  | some served =>
      obtain ⟨e', left'⟩ := served
      have hs' := hs
      rw [hp.inventory] at hs'
      obtain ⟨e, left, hbottom, rfl, rfl⟩ := Inventory.allocate_of_shift hs'
      have hcount := Inventory.countAllocate_shift hs'
      rw [← hp.inventory] at hcount
      rw [← hp.room] at hbottom hcount
      refine ⟨?_, ?_, ?_, hcount, rfl, rfl⟩
      · simp only [effect, hs, hbottom, List.map_cons, List.map_nil]
      · simp only [effect, hs, hbottom]
      · simp only [answer, effect, hs, hbottom, Option.map_some, Extent.payload_shift]

theorem agrees_allocateSlice (hp : Shifts d q p) (length element : Word)
    (hok : p.answer (.allocateSlice length element) ≠ none) :
    Agrees d q p (.allocateSlice length element) (.allocateSlice length element) := by
  have hpair : (p.effect (.allocateSlice length element)).1.length = 2 :=
    Decidable.byContradiction fun hlent => hok (answer_allocateSlice_of_ne hlent)
  rcases hs : p.inventory.allocateSlice p.room length.toNat element.toNat with ⟨lent', left'⟩
  have heffect : p.effect (.allocateSlice length element) = (lent', left') := hs
  rw [heffect] at hpair
  obtain ⟨content', record', rfl⟩ := List.length_eq_two.1 hpair
  rw [hp.inventory] at hs
  obtain ⟨⟨content, record, left, hbottom, rfl, rfl, rfl⟩, hcount⟩ :=
    Inventory.allocateSlice_of_shift hs
  rw [← hp.inventory] at hcount
  rw [← hp.room] at hbottom hcount
  have hbottom' : q.effect (.allocateSlice length element) = ([content, record], left) := hbottom
  refine ⟨?_, ?_, ?_, hcount, rfl, rfl⟩
  · simp only [heffect, hbottom', List.map_cons, List.map_nil]
  · rw [heffect, hbottom']
  · simp only [answer, heffect, hbottom', Option.map_some, Extent.payload_shift]

theorem agrees_free (hp : Shifts d q p) {x x' : Addr} (hx : x'.toNat = x.toNat + d) :
    Agrees d q p (.free x) (.free x') := by
  refine ⟨rfl, ?_, rfl, fun n => ?_, ?_, rfl⟩
  · simp only [effect, hx, hp.inventory, Inventory.free_shift]
  · simp only [counted, hx, hp.inventory, Inventory.countFree_shift]
  · simp only [released, hx, List.map_cons, List.map_nil]

theorem agrees_freeSlice (hp : Shifts d q p) {x x' : Addr} (hx : x'.toNat = x.toNat + d) :
    Agrees d q p (.freeSlice x) (.freeSlice x') := by
  have hlookup' := lookup_map_add d x.toNat q.slices
  rw [← hp.slices] at hlookup'
  cases hlookup : q.slices.lookup x.toNat with
  | none =>
      rw [hlookup, Option.map_none] at hlookup'
      refine ⟨?_, ?_, rfl, fun n => ?_, ?_, rfl⟩
      · simp only [effect, hx, hlookup, hlookup', List.map_nil]
      · simp only [effect, hx, hlookup, hlookup', hp.inventory]
      · simp only [counted, hx, hlookup, hlookup']
      · simp only [released, hx, hlookup, hlookup', List.map_nil]
  | some data =>
      rw [hlookup, Option.map_some] at hlookup'
      refine ⟨?_, ?_, rfl, fun n => ?_, ?_, rfl⟩
      · simp only [effect, hx, hlookup, hlookup', List.map_nil]
      · simp only [effect, hx, hlookup, hlookup', hp.inventory, Inventory.free_shift]
      · simp only [counted, hx, hlookup, hlookup', hp.inventory, Inventory.free_shift,
          Inventory.countFree_shift]
      · simp only [released, hx, hlookup, hlookup', List.map_cons, List.map_nil]

/-- An action that is answered at the higher place does the same at the bottom. -/
theorem agrees (hp : Shifts d q p) (ha : Action.Shifts d a a') (hok : p.answer a' ≠ none) :
    Agrees d q p a a' := by
  cases ha with
  | allocate request => exact hp.agrees_allocate request hok
  | allocateSlice length element => exact hp.agrees_allocateSlice length element hok
  | free hx => exact hp.agrees_free hx
  | freeSlice hx => exact hp.agrees_freeSlice hx

theorem formed_of_agrees (hg : Agrees d q p a a') :
    p.formed a' = (q.formed a).map fun x => (x.1 + d, x.2 + d) := by
  unfold formed
  rw [hg.lent]
  match (q.effect a).1 with
  | [] => rfl
  | [_] => rfl
  | [content, record] =>
      simp only [List.map_cons, List.map_nil, Extent.payload_shift]
  | _ :: _ :: _ :: _ => rfl

theorem step (hp : Shifts d q p) (hg : Agrees d q p a a') : Shifts d (q.step a) (p.step a') where
  inventory := hg.left
  slices := by
    show p.formed a' ++ p.slices.filter _ = (q.formed a ++ q.slices.filter _).map _
    rw [formed_of_agrees hg, List.map_append, hp.slices, List.filter_map, hg.released]
    congr 2
    apply List.filter_congr
    intro x _
    have hinj : Function.Injective (· + d) := fun _ _ h => Nat.add_right_cancel h
    have hmem : ∀ k, k + d ∈ (q.released a).map (· + d) ↔ k ∈ q.released a :=
      fun _ => List.mem_map_of_injective hinj
    simp only [Function.comp_apply, hmem]
  room := hg.room.trans hp.room

/-- What hands nothing out, takes nothing back and moves no extent leaves the blueprint where it
    is, whatever it does to the room. -/
theorem of_idle (hp : Shifts d q p) (hlent : (p.effect a').1 = [])
    (hleft : (p.effect a').2 = p.inventory) (hreleased : p.released a' = []) :
    Shifts d q (p.step a') where
  inventory := hleft.trans hp.inventory
  slices := by
    show p.formed a' ++ p.slices.filter _ = _
    simp only [formed, hlent, hreleased, List.nil_append, List.not_mem_nil, not_false_eq_true,
      and_self, decide_true, List.filter_true]
    exact hp.slices
  room := hp.room

end Shifts

end Blueprint

end LinearHeap
