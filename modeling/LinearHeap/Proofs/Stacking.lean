/-
  LinearHeap/Proofs/Stacking.lean
  ===============================
  **A stack of grants, taken down and built up again.**  A list of demands that
  the list allocator meets one after the other leaves a stack on top of what was
  out before (`Stacked`): each of its extents suits the demand that it was granted
  for.  A round gives the grants back, the latest first, and makes the demands
  again; it comes back to the very inventory that it started from, whatever room
  there is, and on its way nothing is carved and nothing split
  (`Stacked.retraces`).

  `Retraces` is a run of the list allocator with all that is known about each of
  its calls; runs are put end to end (`Retraces.trans`), and what leads back to
  where it started may be done again and again (`Retraces.rounds`).
-/
import LinearHeap.Proofs.Regain
import LinearHeap.Proofs.Untouched

namespace LinearHeap

/-! ### Demands and grants -/

/-- What a guest asks for. -/
inductive Demand where
  | object (request : Word)
  | slice (length element : Word)

/-- What it is given: an object, or the record and the content of a slice. -/
inductive Grant where
  | object (a : Addr)
  | slice (handle data : Addr)
  deriving DecidableEq, Repr

def Demand.action : Demand → Action
  | .object request => .allocate request
  | .slice length element => .allocateSlice length element

def Grant.release : Grant → Action
  | .object a => .free a
  | .slice handle _ => .freeSlice handle

/-- The grant is of the kind that was asked for. -/
def Demand.Takes : Demand → Grant → Prop
  | .object _, .object _ | .slice .., .slice .. => True
  | .object _, .slice .. | .slice .., .object _ => False

/-! ### Grants of the blueprint -/

namespace Blueprint

def granted (p : Blueprint) (a : Action) : List Grant :=
  match a, (p.effect a).1 with
  | .allocate _, [e] => [.object e.block.slot]
  | .allocateSlice .., [content, record] => [.slice record.block.slot content.block.slot]
  | _, _ => []

theorem exists_of_answer_allocate {p : Blueprint} {request : Word}
    (h : (p.answer (.allocate request)).isSome = true) :
    ∃ e left, p.inventory.allocate p.room request.toNat = some (e, left) ∧
      p.effect (.allocate request) = ([e], left) := by
  cases hs : p.inventory.allocate p.room request.toNat with
  | none =>
      simp only [answer, effect, hs, Option.isSome_none, Bool.false_eq_true] at h
  | some served => exact ⟨served.1, served.2, rfl, by simp only [effect, hs]⟩

theorem exists_of_answer_allocateSlice {p : Blueprint} {length element : Word}
    (h : (p.answer (.allocateSlice length element)).isSome = true) :
    ∃ content record mid left, length.toNat * element.toNat < Word.bound ∧
      p.inventory.allocate p.room 8 = some (record, mid) ∧
      mid.allocate p.room (length.toNat * element.toNat) = some (content, left) ∧
      p.effect (.allocateSlice length element) = ([content, record], left) := by
  have hpair : (p.effect (.allocateSlice length element)).1.length = 2 := by
    refine Decidable.byContradiction fun hne => ?_
    rw [answer_allocateSlice_of_ne hne] at h
    cases h
  rcases hs : p.inventory.allocateSlice p.room length.toNat element.toNat with ⟨lent, left⟩
  have heffect : p.effect (.allocateSlice length element) = (lent, left) := hs
  rw [heffect] at hpair
  obtain ⟨rfl, -⟩ | ⟨record, rfl, -⟩ | ⟨content, record, mid, rfl, hbound, hr, hc⟩ :=
    Inventory.allocateSlice_cases hs
  · cases hpair
  · cases hpair
  · exact ⟨content, record, mid, left, hbound, hr, hc, heffect⟩

/-- What the blueprint lets a call take back is out. -/
def Permits (p : Blueprint) : Action → Prop
  | .allocate _ | .allocateSlice .. => True
  | .free a => ∃ e ∈ p.inventory.live, a.toNat = e.payload
  | .freeSlice handle => (p.slices.lookup handle.toNat).isSome
  | .write _ | .grow _ => False

/-- The same, in a memory of another length. -/
def within (p : Blueprint) (room : Nat) : Blueprint := { p with room := room }

/-- The call is permitted, goes through, and brings these grants; nothing is carved or split. -/
structure Repeats (p : Blueprint) (a : Action) (gs : List Grant) (q : Blueprint) : Prop where
  call : a.IsCall
  permits : p.Permits a
  answers : (p.answer a).isSome = true
  granted : p.granted a = gs
  step : p.step a = q
  frontier : q.inventory.frontier = p.inventory.frontier
  counted : ∀ n : Counters, n.Settled (p.counted a n)

end Blueprint

/-! ### The stack of a pass -/

/-- On top of older extents and slices lie those of a pass, the latest first: each suits the
    demand it was granted for, and no slice below names it. -/
inductive Stacked : List Extent → List (Nat × Nat) → List Demand → List Grant → Prop
  | base (live : List Extent) (slices : List (Nat × Nat)) : Stacked live slices [] []
  | object {live : List Extent} {slices : List (Nat × Nat)} {ds : List Demand} {gs : List Grant}
      {request : Word} {e : Extent} (below : Stacked live slices ds gs)
      (suits : Inventory.Suits (Inventory.padded request.toNat) e)
      (address : e.block.slot.toNat = e.payload)
      (apart : ∀ x ∈ slices, x.1 ≠ e.payload ∧ x.2 ≠ e.payload) :
      Stacked (e :: live) slices (.object request :: ds) (.object e.block.slot :: gs)
  | slice {live : List Extent} {slices : List (Nat × Nat)} {ds : List Demand} {gs : List Grant}
      {length element : Word} {content record : Extent} (below : Stacked live slices ds gs)
      (bound : length.toNat * element.toNat < Word.bound)
      (suitsRecord : Inventory.Suits (Inventory.padded 8) record)
      (suitsContent : Inventory.Suits (Inventory.padded (length.toNat * element.toNat)) content)
      (address : record.block.slot.toNat = record.payload)
      (apart : ∀ x ∈ slices, x.1 ∉ [content.payload, record.payload] ∧
        x.2 ∉ [content.payload, record.payload]) :
      Stacked (content :: record :: live) ((record.payload, content.payload) :: slices)
        (.slice length element :: ds) (.slice record.block.slot content.block.slot :: gs)

theorem Stacked.takes {live : List Extent} {slices : List (Nat × Nat)} {ds : List Demand}
    {gs : List Grant} (hs : Stacked live slices ds gs) : List.Forall₂ Demand.Takes ds gs := by
  induction hs with
  | base => exact .nil
  | object _ _ _ _ ih => exact .cons trivial ih
  | slice _ _ _ _ _ _ ih => exact .cons trivial ih

/-! ### A round, down the stack and up again -/

/-- Calls that lead from one blueprint to the other and bring these grants, wherever memory
    ends. -/
inductive Retraces : Blueprint → List Action → List Grant → Blueprint → Prop
  | done (p : Blueprint) : Retraces p [] [] p
  | call {p q r : Blueprint} {a : Action} {as : List Action} {gs hs : List Grant}
      (first : ∀ room, (p.within room).Repeats a gs (q.within room))
      (rest : Retraces q as hs r) : Retraces p (a :: as) (gs ++ hs) r

namespace Retraces

variable {p q r : Blueprint} {as bs : List Action} {gs hs : List Grant}

theorem single {a : Action} (h : ∀ room, (p.within room).Repeats a gs (q.within room)) :
    Retraces p [a] gs q := by
  have hcall := Retraces.call h (.done q)
  rwa [List.append_nil] at hcall

theorem trans (h : Retraces p as gs q) (h' : Retraces q bs hs r) :
    Retraces p (as ++ bs) (gs ++ hs) r := by
  induction h with
  | done => exact h'
  | call first _ ih =>
      rw [List.append_assoc]
      exact .call first (ih h')

/-- What leads back to where it started may be done any number of times. -/
theorem rounds (h : Retraces p as gs p) (n : Nat) :
    Retraces p (List.replicate n as).flatten (List.replicate n gs).flatten p := by
  induction n with
  | zero => exact .done p
  | succ n ih => exact h.trans ih

end Retraces

namespace Blueprint

variable {inv : Inventory} {slices : List (Nat × Nat)} {rest : List Extent}

/-- What an action does not give back keeps its slices. -/
theorem slices_step_of_apart {p : Blueprint} {a : Action}
    (hapart : ∀ x ∈ p.slices, x.1 ∉ p.released a ∧ x.2 ∉ p.released a) :
    (p.step a).slices = p.formed a ++ p.slices := by
  have hkept : (p.slices.filter fun x => x.1 ∉ p.released a ∧ x.2 ∉ p.released a) = p.slices :=
    List.filter_eq_self.2 fun x hx => decide_eq_true (hapart x hx)
  exact congrArg (p.formed a ++ ·) hkept

theorem slices_step_of_released_eq_nil {p : Blueprint} {a : Action} (h : p.released a = []) :
    (p.step a).slices = p.formed a ++ p.slices := by
  apply slices_step_of_apart
  rw [h]
  exact fun _ _ => ⟨List.not_mem_nil, List.not_mem_nil⟩

/-- The latest slice is given back, and no other. -/
theorem slices_step_of_cons {p : Blueprint} {a : Action} {x : Nat × Nat}
    (hslices : p.slices = x :: slices) (hx : x.1 ∈ p.released a)
    (hapart : ∀ y ∈ slices, y.1 ∉ p.released a ∧ y.2 ∉ p.released a) :
    (p.step a).slices = p.formed a ++ slices := by
  have hkept : (p.slices.filter fun x => x.1 ∉ p.released a ∧ x.2 ∉ p.released a) = slices := by
    rw [hslices, List.filter_cons_of_neg (by simp [hx])]
    exact List.filter_eq_self.2 fun y hy => decide_eq_true (hapart y hy)
  exact congrArg (p.formed a ++ ·) hkept

theorem step_eq {p q : Blueprint} {a : Action} (hinventory : (p.effect a).2 = q.inventory)
    (hroom : (p.step a).room = q.room) (hslices : (p.step a).slices = q.slices) :
    p.step a = q := by
  obtain ⟨inv, room, slices⟩ := q
  obtain rfl : (p.step a).inventory = inv := hinventory
  obtain rfl : (p.step a).room = room := hroom
  obtain rfl : (p.step a).slices = slices := hslices
  rfl

section Object

variable {e : Extent} {request : Word} (hlive : inv.live = e :: rest)

include hlive

theorem repeats_free (room : Nat) (haddress : e.block.slot.toNat = e.payload)
    (hapart : ∀ x ∈ slices, x.1 ≠ e.payload ∧ x.2 ≠ e.payload) :
    (⟨inv, room, slices⟩ : Blueprint).Repeats (.free e.block.slot) []
      ⟨inv.free e.payload, room, slices⟩ where
  call := trivial
  permits := ⟨e, hlive ▸ List.mem_cons_self, haddress⟩
  answers := rfl
  granted := rfl
  step := by
    refine step_eq (congrArg inv.free haddress) rfl (slices_step_of_apart ?_)
    simpa only [released, haddress, List.mem_singleton] using hapart
  frontier := Inventory.frontier_free_of_cons hlive
  counted := fun n => Inventory.settled_countFree _ n

theorem repeats_allocate (room : Nat)
    (hs : Inventory.Suits (Inventory.padded request.toNat) e) :
    (⟨inv.free e.payload, room, slices⟩ : Blueprint).Repeats (.allocate request)
      [.object e.block.slot] ⟨inv, room, slices⟩ := by
  have heffect : (⟨inv.free e.payload, room, slices⟩ : Blueprint).effect (.allocate request) =
      ([e], inv) := by
    simp only [effect, Inventory.allocate_free hlive hs]
  refine
    { call := trivial
      permits := trivial
      answers := ?_
      granted := ?_
      step := step_eq (congrArg Prod.snd heffect) rfl ?_
      frontier := (Inventory.frontier_free_of_cons hlive).symm
      counted := fun n => Inventory.settled_countAllocate hlive hs n }
  · simp only [answer, heffect, Option.isSome_some]
  · simp only [granted, heffect]
  · rw [slices_step_of_released_eq_nil rfl]
    simp only [formed, heffect, List.nil_append]

end Object

section Slice

variable {content record : Extent} {length element : Word}
  (hlive : inv.live = content :: record :: rest)

include hlive

theorem frontier_free_free :
    ((inv.free content.payload).free record.payload).frontier = inv.frontier :=
  (Inventory.frontier_free_of_cons (Inventory.live_free_of_cons hlive)).trans
    (Inventory.frontier_free_of_cons hlive)

/-- The slice on top is given back, and no other slice goes with it. -/
theorem repeats_freeSlice (room : Nat) (haddress : record.block.slot.toNat = record.payload)
    (hapart : ∀ x ∈ slices, x.1 ∉ [content.payload, record.payload] ∧
      x.2 ∉ [content.payload, record.payload]) :
    (⟨inv, room, (record.payload, content.payload) :: slices⟩ : Blueprint).Repeats
      (.freeSlice record.block.slot) []
      ⟨(inv.free content.payload).free record.payload, room, slices⟩ := by
  have hlookup : ((record.payload, content.payload) :: slices).lookup record.block.slot.toNat =
      some content.payload := by
    rw [haddress, List.lookup_cons_self]
  have hreleased : (⟨inv, room, (record.payload, content.payload) :: slices⟩ :
      Blueprint).released (.freeSlice record.block.slot) =
      [content.payload, record.payload] := by
    simp only [released, hlookup]
    rw [haddress]
  have heffect : (⟨inv, room, (record.payload, content.payload) :: slices⟩ :
      Blueprint).effect (.freeSlice record.block.slot) =
      ([], (inv.free content.payload).free record.payload) := by
    simp only [effect, hlookup]
    rw [haddress]
  refine
    { call := trivial
      permits := ?_
      answers := rfl
      granted := rfl
      step := step_eq (congrArg Prod.snd heffect) rfl ?_
      frontier := frontier_free_free hlive
      counted := ?_ }
  · show (((record.payload, content.payload) :: slices).lookup
      record.block.slot.toNat).isSome = true
    rw [hlookup]
    rfl
  · rw [slices_step_of_cons rfl]
    · simp only [formed, heffect, List.nil_append]
    · rw [hreleased]
      exact List.mem_cons_of_mem _ List.mem_cons_self
    · rwa [hreleased]
  · intro n
    simp only [counted, hlookup]
    exact (Inventory.settled_countFree _ n).trans (Inventory.settled_countFree _ _)

theorem repeats_allocateSlice (room : Nat) (hbound : length.toNat * element.toNat < Word.bound)
    (hr : Inventory.Suits (Inventory.padded 8) record)
    (hc : Inventory.Suits (Inventory.padded (length.toNat * element.toNat)) content) :
    (⟨(inv.free content.payload).free record.payload, room, slices⟩ : Blueprint).Repeats
      (.allocateSlice length element) [.slice record.block.slot content.block.slot]
      ⟨inv, room, (record.payload, content.payload) :: slices⟩ := by
  have heffect : (⟨(inv.free content.payload).free record.payload, room, slices⟩ :
      Blueprint).effect (.allocateSlice length element) = ([content, record], inv) :=
    Inventory.allocateSlice_free_free hlive hbound hr hc
  refine
    { call := trivial
      permits := trivial
      answers := ?_
      granted := ?_
      step := step_eq (congrArg Prod.snd heffect) rfl ?_
      frontier := (frontier_free_free hlive).symm
      counted := fun n => Inventory.settled_countSlice hlive hbound hr hc n }
  · simp only [answer, heffect, Option.isSome_some]
  · simp only [granted, heffect]
  · rw [slices_step_of_released_eq_nil rfl]
    simp only [formed, heffect, List.cons_append, List.nil_append]

end Slice

/-- A guest's write and a growth of memory change nothing of a blueprint but its room. -/
theorem step_of_not_call (p : Blueprint) (ha : ¬ a.IsCall) :
    ∃ room, p.step a = p.within room := by
  cases a with
  | write after => exact ⟨after.size, step_eq rfl rfl (slices_step_of_released_eq_nil rfl)⟩
  | grow after => exact ⟨after.size, step_eq rfl rfl (slices_step_of_released_eq_nil rfl)⟩
  | _ => exact absurd trivial ha

end Blueprint

/-- Taking the stack down and building it up again leads back to the inventory it stands in. -/
theorem Stacked.retraces {live : List Extent} {slices : List (Nat × Nat)} {ds : List Demand}
    {gs : List Grant} (hs : Stacked live slices ds gs) {inv : Inventory} (hlive : inv.live = live)
    (room : Nat) :
    Retraces ⟨inv, room, slices⟩ (gs.map Grant.release ++ ds.reverse.map Demand.action)
      gs.reverse ⟨inv, room, slices⟩ := by
  induction hs generalizing inv with
  | base => exact .done _
  | @object live slices ds gs request e below suits address apart ih =>
      have hdown : Retraces ⟨inv, room, slices⟩ [(Grant.object e.block.slot).release] []
          ⟨inv.free e.payload, room, slices⟩ :=
        .single fun room => Blueprint.repeats_free hlive room address apart
      have hup : Retraces ⟨inv.free e.payload, room, slices⟩ [(Demand.object request).action]
          [.object e.block.slot] ⟨inv, room, slices⟩ :=
        .single fun room => Blueprint.repeats_allocate hlive room suits
      have hround := (hdown.trans (ih (Inventory.live_free_of_cons hlive))).trans hup
      simpa only [List.map_cons, List.reverse_cons, List.map_append, List.map_nil,
        List.cons_append, List.nil_append, List.append_assoc] using hround
  | @slice live slices ds gs length element content record below bound suitsRecord suitsContent
      address apart ih =>
      have hrest := Inventory.live_free_of_cons (Inventory.live_free_of_cons hlive)
      have hdown : Retraces ⟨inv, room, (record.payload, content.payload) :: slices⟩
          [(Grant.slice record.block.slot content.block.slot).release] []
          ⟨(inv.free content.payload).free record.payload, room, slices⟩ :=
        .single fun room => Blueprint.repeats_freeSlice hlive room address apart
      have hup : Retraces ⟨(inv.free content.payload).free record.payload, room, slices⟩
          [(Demand.slice length element).action] [.slice record.block.slot content.block.slot]
          ⟨inv, room, (record.payload, content.payload) :: slices⟩ :=
        .single fun room =>
          Blueprint.repeats_allocateSlice hlive room bound suitsRecord suitsContent
      have hround := (hdown.trans (ih hrest)).trans hup
      simpa only [List.map_cons, List.reverse_cons, List.map_append, List.map_nil,
        List.cons_append, List.nil_append, List.append_assoc] using hround

end LinearHeap
