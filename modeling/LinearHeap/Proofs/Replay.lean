/-
  LinearHeap/Proofs/Replay.lean
  =============================
  **Stack-ordered sessions replay exactly.**  From any state of a lawful run a
  guest makes a list of demands, and none faults.  If it gives everything back in
  reverse order, makes the same demands again, and goes on so for any number of
  rounds, every demand is granted the addresses of the first pass, the frontier
  stays, nothing more is carved or split, and after every round the nine chains
  are those after the first pass.  In between the guest writes into what it holds,
  and memory grows.

  The first pass leaves a stack in the blueprint (`Mirrors.stacked_run`), and the
  heap follows the blueprint wherever its calls retrace a plan
  (`Mirrors.retrace`).
-/
import LinearHeap.Proofs.Refinement
import LinearHeap.Proofs.Stacking

namespace LinearHeap

/-! ### Sessions -/

instance : DecidablePred Action.IsCall
  | .write _ | .grow _ => inferInstanceAs (Decidable False)
  | .allocate _ | .allocateSlice .. | .free _ | .freeSlice _ => inferInstanceAs (Decidable True)

/-- The calls among the actions. -/
def calls (as : List Action) : List Action := as.filter fun a => a.IsCall

theorem calls_cons_of_call {a : Action} (ha : a.IsCall) (as : List Action) :
    calls (a :: as) = a :: calls as := List.filter_cons_of_pos (decide_eq_true ha)

theorem calls_cons_of_not_call {a : Action} (ha : ¬ a.IsCall) (as : List Action) :
    calls (a :: as) = calls as := List.filter_cons_of_neg (by simpa using ha)

namespace Tenancy

/-- What the action grants; the content of a slice is read from its record. -/
def granted (s : Tenancy) (a : Action) : List Grant :=
  match a, (s.call a).result with
  | .allocate _, .ok (some x) => [.object x]
  | .allocateSlice .., .ok (some handle) =>
      match (s.call a).ambient.memory.load? handle with
      | some data => [.slice handle data]
      | none => []
  | _, _ => []

def grants (s : Tenancy) : List Action → List Grant
  | [] => []
  | a :: as => s.granted a ++ (s.step a).grants as

/-- The guest writes only where it may, and memory only grows; of the calls nothing is said. -/
def Courteous (s : Tenancy) : List Action → Prop
  | [] => True
  | a :: as => (¬ a.IsCall → s.Allows a) ∧ (s.step a).Courteous as

def decidableCourteous (s : Tenancy) : (as : List Action) → Decidable (s.Courteous as)
  | [] => inferInstanceAs (Decidable True)
  | a :: as =>
      have := (s.step a).decidableCourteous as
      inferInstanceAs (Decidable ((¬ a.IsCall → s.Allows a) ∧ (s.step a).Courteous as))

instance (s : Tenancy) : DecidablePred s.Courteous := s.decidableCourteous

/-- The blocks of a chain, with the sizes in their headers, as a walk through memory meets them. -/
def listing (s : Tenancy) (k : Option SizeClass) : Except Fault (List (Addr × Option Word)) :=
  (FreeChain.walkAll (s.heap.chainHead k) s.heap s.ambient).result.map
    (List.map fun b => (b.header, b.size? s.memory))

/-- The wilderness is as it was, and no block was split. -/
structure Settled (s t : Tenancy) : Prop where
  frontier : t.heap.frontier = s.heap.frontier
  counters : s.heap.counters.Settled t.heap.counters

theorem Settled.refl (s : Tenancy) : s.Settled s := ⟨rfl, .refl _⟩

theorem Settled.trans {s t u : Tenancy} (h : s.Settled t) (h' : t.Settled u) : s.Settled u :=
  ⟨h'.frontier.trans h.frontier, h.counters.trans h'.counters⟩

/-- The run is lawful, none of its calls faults, it brings these grants, and the wilderness is at
    every time as it was at first. -/
structure Replays (s : Tenancy) (as : List Action) (gs : List Grant) : Prop where
  lawful : s.Lawful as
  answers : ∀ r ∈ s.answers as, r.isOk = true
  grants : s.grants as = gs
  settled : ∀ bs, bs <+: as → s.Settled (s.run bs)

theorem replays_nil (s : Tenancy) : s.Replays [] [] where
  lawful := trivial
  answers := by intro r hr; cases hr
  grants := rfl
  settled := by
    intro bs hbs
    rw [List.prefix_nil.1 hbs]
    exact .refl s

theorem Replays.cons {s : Tenancy} {a : Action} {as : List Action} {gs hs : List Grant}
    (hallows : s.Allows a) (hok : (s.call a).result.isOk = true) (hgranted : s.granted a = gs)
    (hsettled : s.Settled (s.step a)) (h : (s.step a).Replays as hs) :
    s.Replays (a :: as) (gs ++ hs) where
  lawful := ⟨hallows, h.lawful⟩
  answers := by
    intro r hr
    rcases List.mem_cons.1 hr with rfl | hr
    · exact hok
    · exact h.answers r hr
  grants := by
    show s.granted a ++ (s.step a).grants as = gs ++ hs
    rw [hgranted, h.grants]
  settled := by
    intro bs hbs
    rcases List.prefix_cons_iff.1 hbs with rfl | ⟨cs, rfl, hcs⟩
    · exact .refl s
    · exact hsettled.trans (h.settled cs hcs)

end Tenancy

/-! ### The heap on the way -/

namespace Mirrors

open Blueprint

variable {s : Tenancy} {p q : Blueprint} {a : Action} {as : List Action}

theorem isOk_iff (hm : Mirrors s p) (ha : s.Allows a) :
    (s.call a).result.isOk = true ↔ (p.answer a).isSome = true := by
  rw [← (hm.follows ha).answer]
  cases (s.call a).result <;> simp [Except.isOk, Except.toBool, Except.toOption]

theorem allows_of_permits (hm : Mirrors s p) (hp : p.Permits a) : s.Allows a := by
  cases a with
  | allocate request => trivial
  | allocateSlice length element => trivial
  | free a =>
      obtain ⟨e, he, hae⟩ := hp
      exact mem_of_live_perm hm.live he hae
  | freeSlice handle =>
      have hlookup : (p.slices.lookup handle.toNat).isSome = true := hp
      rw [hm.slices, lookup_map_toNat, Option.isSome_map] at hlookup
      exact hlookup
  | write after => cases hp
  | grow after => cases hp

/-- A call that answers with an address answers with the one of the blueprint. -/
theorem result_of_answer (hm : Mirrors s p) (ha : s.Allows a) {e : Extent}
    (he : e ∈ (p.effect a).1) (hanswer : p.answer a = some (some e.payload)) :
    (s.call a).result = .ok (some e.block.slot) := by
  have hf := hm.follows ha
  have hlive : e ∈ (p.effect a).2.live := hf.live.mem_iff.2 (List.mem_append_left _ he)
  have hslot := hf.describes.toNat_slot_eq_payload (Inventory.mem_extents_of_live hlive)
  have hsame := hf.answer
  rw [hanswer] at hsame
  rcases hresult : (s.call a).result with fault | _ | x
  · rw [hresult] at hsame
    cases hsame
  · rw [hresult] at hsame
    cases hsame
  · rw [hresult] at hsame
    simp only [Except.toOption, Option.map_some, Option.some.injEq] at hsame
    rw [UInt32.toNat_inj.1 (hsame.trans hslot.symm)]

/-- Heap and blueprint grant the same. -/
theorem granted_eq (hm : Mirrors s p) (ha : s.Allows a)
    (hok : (s.call a).result.isOk = true) : s.granted a = p.granted a := by
  have hf := hm.follows ha
  rw [hm.isOk_iff ha] at hok
  cases a with
  | allocate request =>
      obtain ⟨e, left, -, heffect⟩ := exists_of_answer_allocate hok
      have hmem : e ∈ (p.effect (.allocate request)).1 := by
        rw [heffect]
        exact List.mem_cons_self
      have hresult := hm.result_of_answer ha hmem (by simp only [answer, heffect])
      simp only [Tenancy.granted, hresult, Blueprint.granted, heffect]
  | allocateSlice length element =>
      obtain ⟨content, record, mid, left, -, -, -, heffect⟩ := exists_of_answer_allocateSlice hok
      have hmem : record ∈ (p.effect (.allocateSlice length element)).1 := by
        rw [heffect]
        exact List.mem_cons_of_mem _ List.mem_cons_self
      have hresult := hm.result_of_answer ha hmem (by simp only [answer, heffect])
      have hlive : record ∈ (p.effect (.allocateSlice length element)).2.live :=
        hf.live.mem_iff.2 (List.mem_append_left _ hmem)
      have hholds := (hf.record content record (by rw [heffect])).2
      rw [← hf.describes.toNat_slot_eq_payload (Inventory.mem_extents_of_live hlive)] at hholds
      simp only [Tenancy.granted, hresult, Memory.load?_eq_some_iff_holds.2 hholds,
        Blueprint.granted, heffect]
  | free a => rfl
  | freeSlice handle => rfl
  | write after => rfl
  | grow after => rfl

theorem listing_eq (hm : Mirrors s p) (k : Option SizeClass) :
    s.listing k = .ok ((p.inventory.chain k).map fun e =>
      (e.block.header, some (UInt32.ofNat e.size))) := by
  rw [Tenancy.listing, hm.describes.walk_chain]
  simp only [Except.map, List.map_map, Except.ok.injEq]
  apply List.map_congr_left
  intro e he
  rw [Function.comp_apply, hm.describes.size?_block (Inventory.mem_extents_of_chain he)]

theorem settled_of_not_call (s : Tenancy) (ha : ¬ a.IsCall) : s.Settled (s.step a) := by
  cases a with
  | write after => exact ⟨rfl, rfl, rfl⟩
  | grow after => exact ⟨rfl, rfl, rfl⟩
  | _ => exact absurd trivial ha

theorem granted_of_not_call (s : Tenancy) (ha : ¬ a.IsCall) :
    s.granted a = [] ∧ (s.call a).result.isOk = true := by
  cases a with
  | write after => exact ⟨rfl, rfl⟩
  | grow after => exact ⟨rfl, rfl⟩
  | _ => exact absurd trivial ha

theorem settled_of_repeats {gs : List Grant} (hm : Mirrors s p) (hr : p.Repeats a gs q) :
    s.Settled (s.step a) := by
  have ha := hm.allows_of_permits hr.permits
  constructor
  · rw [← UInt32.toNat_inj, (hm.step ha).describes.frontier, hm.describes.frontier, hr.step,
      hr.frontier]
  · rw [hm.counters_step ha]
    exact hr.counted _

/-- A courteous run whose calls retrace a plan goes as planned. -/
theorem retrace {cs : List Action} {gs : List Grant} (hr : Retraces p cs gs q) {room : Nat}
    (hm : Mirrors s (p.within room)) (hcourteous : s.Courteous as) (hcalls : calls as = cs) :
    s.Replays as gs ∧ ∃ room, Mirrors (s.run as) (q.within room) := by
  induction as generalizing s p cs gs room with
  | nil =>
      cases hcalls
      cases hr
      exact ⟨Tenancy.replays_nil s, room, hm⟩
  | cons a as ih =>
      by_cases ha : a.IsCall
      · rw [calls_cons_of_call ha] at hcalls
        subst hcalls
        cases hr with
        | call first rest =>
            have hfirst := first room
            have hallows := hm.allows_of_permits hfirst.permits
            have hok := (hm.isOk_iff hallows).2 hfirst.answers
            have hnext := hm.step hallows
            rw [hfirst.step] at hnext
            obtain ⟨hreplays, hend⟩ := ih rest hnext hcourteous.2 rfl
            have hgranted := (hm.granted_eq hallows hok).trans hfirst.granted
            exact ⟨.cons hallows hok hgranted (hm.settled_of_repeats hfirst) hreplays, hend⟩
      · rw [calls_cons_of_not_call ha] at hcalls
        have hallows := hcourteous.1 ha
        have hnext := hm.step hallows
        obtain ⟨room', hroom⟩ := step_of_not_call (p.within room) ha
        rw [hroom] at hnext
        obtain ⟨hreplays, hend⟩ := ih hr hnext hcourteous.2 hcalls
        obtain ⟨hgranted, hok⟩ := granted_of_not_call s ha
        exact ⟨.cons hallows hok hgranted (settled_of_not_call s ha) hreplays, hend⟩

/-! ### The first pass -/

/-- What is handed out anew is in no slice so far. -/
theorem apart_of_nodup (hm : Mirrors s p) (es : List Extent)
    (hnodup : ((es ++ p.inventory.live).map Extent.payload).Nodup) :
    ∀ x ∈ p.slices, x.1 ∉ es.map Extent.payload ∧ x.2 ∉ es.map Extent.payload := by
  rw [List.map_append] at hnodup
  have hapart := (List.nodup_append.1 hnodup).2.2
  intro x hx
  obtain ⟨record, hr, content, hc, -, hrecord, hcontent, -⟩ := hm.records x hx
  refine ⟨fun hmem => ?_, fun hmem => ?_⟩
  · exact hapart x.1 hmem x.1 (hrecord ▸ List.mem_map_of_mem hr) rfl
  · exact hapart x.2 hmem x.2 (hcontent ▸ List.mem_map_of_mem hc) rfl

theorem stacked_object (hm : Mirrors s p) {request : Word} {ds : List Demand} {gs : List Grant}
    (hok : (p.answer (.allocate request)).isSome = true)
    (below : Stacked p.inventory.live p.slices ds gs) :
    ∃ g, p.granted (.allocate request) = [g] ∧
      Stacked (p.step (.allocate request)).inventory.live (p.step (.allocate request)).slices
        (.object request :: ds) (g :: gs) := by
  obtain ⟨e, left, hs, heffect⟩ := exists_of_answer_allocate hok
  have hd := (hm.step (a := .allocate request) trivial).describes
  have hinventory : (p.step (.allocate request)).inventory = left := congrArg Prod.snd heffect
  have hlive : left.live = e :: p.inventory.live := (Inventory.lends_of_allocate hs).1.live
  have hslices : (p.step (.allocate request)).slices = p.slices := by
    rw [slices_step_of_released_eq_nil rfl]
    simp only [formed, heffect, List.nil_append]
  rw [hinventory] at hd
  refine ⟨.object e.block.slot, by simp only [granted, heffect], ?_⟩
  rw [hinventory, hlive, hslices]
  have he : e ∈ left.live := hlive ▸ List.mem_cons_self
  have hnodup := hd.sound.nodup_payloads
  rw [hlive] at hnodup
  refine .object below (hm.describes.sound.suits_of_serve hs)
    (hd.toNat_slot_eq_payload (Inventory.mem_extents_of_live he)) ?_
  simpa only [List.map_cons, List.map_nil, List.mem_singleton] using
    hm.apart_of_nodup [e] hnodup

theorem stacked_slice (hm : Mirrors s p) {length element : Word} {ds : List Demand}
    {gs : List Grant} (hok : (p.answer (.allocateSlice length element)).isSome = true)
    (below : Stacked p.inventory.live p.slices ds gs) :
    ∃ g, p.granted (.allocateSlice length element) = [g] ∧
      Stacked (p.step (.allocateSlice length element)).inventory.live
        (p.step (.allocateSlice length element)).slices (.slice length element :: ds)
        (g :: gs) := by
  obtain ⟨content, record, mid, left, hbound, hr, hc, heffect⟩ :=
    exists_of_answer_allocateSlice hok
  have hd := (hm.step (a := .allocateSlice length element) trivial).describes
  have hinventory : (p.step (.allocateSlice length element)).inventory = left :=
    congrArg Prod.snd heffect
  have hlive : left.live = content :: record :: p.inventory.live := by
    rw [(Inventory.lends_of_allocate hc).1.live, (Inventory.lends_of_allocate hr).1.live]
  have hslices : (p.step (.allocateSlice length element)).slices =
      (record.payload, content.payload) :: p.slices := by
    rw [slices_step_of_released_eq_nil rfl]
    simp only [formed, heffect, List.cons_append, List.nil_append]
  have hrecord : p.inventory.allocate p.room SliceRecord.bytes.toNat = some (record, mid) := hr
  have hmid := hm.sound_of_allocate hrecord
  rw [hinventory] at hd
  refine ⟨.slice record.block.slot content.block.slot, by simp only [granted, heffect], ?_⟩
  rw [hinventory, hlive, hslices]
  have hmem : record ∈ left.live := hlive ▸ List.mem_cons_of_mem _ List.mem_cons_self
  have hnodup := hd.sound.nodup_payloads
  rw [hlive] at hnodup
  exact .slice below hbound (hm.describes.sound.suits_of_serve hr) (hmid.suits_of_serve hc)
    (hd.toNat_slot_eq_payload (Inventory.mem_extents_of_live hmem))
    (hm.apart_of_nodup [content, record] hnodup)

/-- A demand that is met puts its grant on the stack. -/
theorem stacked_demand (hm : Mirrors s p) {d : Demand} {ds : List Demand} {gs : List Grant}
    (hok : (p.answer d.action).isSome = true)
    (below : Stacked p.inventory.live p.slices ds gs) :
    ∃ g, p.granted d.action = [g] ∧
      Stacked (p.step d.action).inventory.live (p.step d.action).slices (d :: ds) (g :: gs) := by
  cases d with
  | object request => exact hm.stacked_object hok below
  | slice length element => exact hm.stacked_slice hok below

/-- What a first pass is granted lies on the stack at its end. -/
theorem stacked_run (hm : Mirrors s p) {ds es : List Demand} {gs : List Grant}
    (hl : s.Lawful as) (hok : ∀ r ∈ s.answers as, r.isOk = true)
    (hcalls : calls as = ds.map Demand.action)
    (below : Stacked p.inventory.live p.slices es gs) :
    Stacked (p.run as).inventory.live (p.run as).slices (ds.reverse ++ es)
      ((s.grants as).reverse ++ gs) := by
  induction as generalizing s p ds es gs with
  | nil =>
      obtain rfl : ds = [] := List.map_eq_nil_iff.1 hcalls.symm
      exact below
  | cons a as ih =>
      have hfirst := hok _ List.mem_cons_self
      have hrest : ∀ r ∈ (s.step a).answers as, r.isOk = true :=
        fun r hr => hok r (List.mem_cons_of_mem _ hr)
      by_cases ha : a.IsCall
      · rw [calls_cons_of_call ha] at hcalls
        obtain ⟨d, ds, rfl, rfl, hlater⟩ := List.map_eq_cons_iff.1 hcalls.symm
        obtain ⟨g, hg, hstacked⟩ := hm.stacked_demand ((hm.isOk_iff hl.1).1 hfirst) below
        have hgranted : s.granted d.action = [g] := (hm.granted_eq hl.1 hfirst).trans hg
        have hgrants : s.grants (d.action :: as) = g :: (s.step d.action).grants as :=
          congrArg (· ++ (s.step d.action).grants as) hgranted
        rw [hgrants, List.reverse_cons, List.reverse_cons, List.append_assoc, List.append_assoc]
        exact ih (hm.step hl.1) hl.2 hrest hlater.symm hstacked
      · rw [calls_cons_of_not_call ha] at hcalls
        obtain ⟨room, hroom⟩ := step_of_not_call p ha
        have hgrants : s.grants (a :: as) = (s.step a).grants as :=
          congrArg (· ++ (s.step a).grants as) (granted_of_not_call s ha).1
        have below' : Stacked (p.step a).inventory.live (p.step a).slices es gs := by
          rw [hroom]
          exact below
        rw [hgrants]
        exact ih (hm.step hl.1) hl.2 hrest hcalls below'

end Mirrors

theorem Tenancy.Courteous.of_append {s : Tenancy} {as bs : List Action}
    (hc : s.Courteous (as ++ bs)) : s.Courteous as := by
  induction as generalizing s with
  | nil => trivial
  | cons a as ih => exact ⟨hc.1, ih hc.2⟩

/-- The calls of a round: what was granted is given back in reverse order, and the same is asked
    for again. -/
def roundCalls (ds : List Demand) (gs : List Grant) : List Action :=
  gs.reverse.map Grant.release ++ ds.map Demand.action

/-- From every state that a lawful run on a new heap leads to: a first pass of demands, none of
    which faults, is followed by any number of rounds that give everything back in reverse order
    and make the same demands again, with a guest that writes and grows memory as it may.  The
    rounds are lawful and never fault, every demand is granted what it was granted at first, the
    wilderness stays as it is, nothing is split, and after every round each of the nine chains
    lists the blocks and sizes that it listed after the first pass. -/
theorem replays_of_stack_order {requested : Addr} {m m' : Ambient} {h : Heap}
    {as first later : List Action} {ds : List Demand} {n : Nat}
    (hc : Heap.create requested () m = ⟨.ok (.ok h), (), m'⟩)
    (hl : (Tenancy.opened h m').Lawful (as ++ first))
    (hfirst : calls first = ds.map Demand.action)
    (hok : ∀ r ∈ ((Tenancy.opened h m').run as).answers first, r.isOk = true)
    (hcourteous : ((Tenancy.opened h m').run (as ++ first)).Courteous later)
    (hlater : calls later = (List.replicate n
      (roundCalls ds (((Tenancy.opened h m').run as).grants first))).flatten) :
    let gs := ((Tenancy.opened h m').run as).grants first
    let t := (Tenancy.opened h m').run (as ++ first)
    List.Forall₂ Demand.Takes ds gs ∧ t.Replays later (List.replicate n gs).flatten ∧
      ∀ i bs, bs <+: later → calls bs = (List.replicate i (roundCalls ds gs)).flatten →
        ∀ k, ∃ blocks, t.listing k = .ok blocks ∧ (t.run bs).listing k = .ok blocks := by
  intro gs t
  obtain ⟨hempty, haligned, -⟩ := Heap.create_eq_ok hc
  obtain ⟨hl, hl'⟩ := hl.of_append
  have hs := (Mirrors.opened (m := m') hempty haligned).run hl
  have ht := hs.run hl'
  have hstacked := hs.stacked_run hl' hok hfirst (.base _ _)
  rw [List.append_nil, List.append_nil] at hstacked
  have htakes := hstacked.takes
  have hround := hstacked.retraces rfl t.memory.size
  rw [List.forall₂_reverse_iff] at htakes
  rw [List.reverse_reverse, List.reverse_reverse] at hround
  rw [← Tenancy.run_append] at ht
  refine ⟨htakes, (ht.retrace (hround.rounds n) hcourteous hlater).1, ?_⟩
  rintro i bs ⟨rest, rfl⟩ hbs k
  obtain ⟨-, room, hlast⟩ := ht.retrace (hround.rounds i) hcourteous.of_append hbs
  exact ⟨_, ht.listing_eq k, hlast.listing_eq k⟩

/-- Two freed fits, of which one is cut and one goes out whole, a slice from the wilderness, and
    the remainder of the cut out of its bin; the guest writes, and two rounds follow. -/
theorem replays_of_two_rounds :
    let m : Ambient := { memory := .zeros 144, journal := #[.heapCreated 0 0] }
    let as : List Action := [.allocate 60, .allocate 44, .free 68, .free 4]
    let ds : List Demand := [.object 36, .object 40, .slice 2 8, .object 20]
    let gs := ((Tenancy.opened (.empty 0) m).run as).grants (ds.map Demand.action)
    let t := (Tenancy.opened (.empty 0) m).run (as ++ ds.map Demand.action)
    let later := .write (t.memory.store 4 7) :: (List.replicate 2
      ([.free 44, .freeSlice 116, .free 68, .free 4] ++ ds.map Demand.action)).flatten
    List.Forall₂ Demand.Takes ds gs ∧ t.Replays later (List.replicate 2 gs).flatten ∧
      ∀ i bs, bs <+: later → calls bs = (List.replicate i (roundCalls ds gs)).flatten →
        ∀ k, ∃ blocks, t.listing k = .ok blocks ∧ (t.run bs).listing k = .ok blocks := by
  intro m as ds gs t later
  have hgrants : gs = [.object 4, .object 68, .slice 116 128, .object 44] := by decide +kernel
  refine replays_of_stack_order (show Heap.create 0 () { memory := .zeros 144 } = _ from rfl)
    (by decide +kernel) rfl (by decide +kernel) (by decide +kernel) ?_
  show calls later = (List.replicate 2 (roundCalls ds gs)).flatten
  rw [hgrants]
  rfl

end LinearHeap
