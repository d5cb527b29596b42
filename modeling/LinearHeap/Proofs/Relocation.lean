/-
  LinearHeap/Proofs/Relocation.lean
  =================================
  **Where a heap places blocks depends on the calls alone.**  Two heaps are made at
  any two starts, over any two memories, and go through the same script of calls;
  a script frees by the position of the result it frees, so that it can be the
  same at two places.  Between the calls each guest writes into its own payloads
  as it likes, and each memory grows as it likes.  As long as no call faults, the
  addresses returned lie equally far from the two starts, and counters, censuses
  and chains are the same.

  Both runs are held against a third one: a plan (`Plan`), which is a blueprint at
  address zero that has all the room there is, and never sees what guests write.
-/
import LinearHeap.Proofs.Refinement
import LinearHeap.Proofs.Shifting

namespace LinearHeap

/-! ### Scripts -/

/-- What may happen to a heap and its memory while a script is performed.  Calls that free name
    the address that was returned as the `k`-th. -/
inductive Deed where
  | allocate (request : Word)
  | allocateSlice (length element : Word)
  | free (k : Nat)
  | freeSlice (k : Nat)
  /-- The guest writes, and memory is `after` from then on. -/
  | write (after : Memory)
  /-- Memory grows to `after`. -/
  | grow (after : Memory)

namespace Deed

def isCall : Deed → Bool
  | .allocate _ | .allocateSlice .. | .free _ | .freeSlice _ => true
  | .write _ | .grow _ => false

/-- The action that the deed is, after these addresses were returned. -/
def action? (returned : List Addr) : Deed → Option Action
  | .allocate request => some (.allocate request)
  | .allocateSlice length element => some (.allocateSlice length element)
  | .free k => returned[k]?.map .free
  | .freeSlice k => returned[k]?.map .freeSlice
  | .write after => some (.write after)
  | .grow after => some (.grow after)

end Deed

/-- The calls among the deeds. -/
def script (ds : List Deed) : List Deed := ds.filter Deed.isCall

/-- A tenancy, with the addresses that were returned so far, the oldest first. -/
structure Stage where
  tenancy : Tenancy
  returned : List Addr := []

namespace Stage

def opened (h : Heap) (m : Ambient) : Stage := { tenancy := .opened h m }

/-- The address that an answer hands to the guest. -/
def handed : Except Fault (Option Addr) → List Addr
  | .ok (some a) => [a]
  | _ => []

def step (s : Stage) (d : Deed) : Stage :=
  match d.action? s.returned with
  | some a => ⟨s.tenancy.step a, s.returned ++ handed (s.tenancy.call a).result⟩
  | none => s

theorem step_of_action {s : Stage} {d : Deed} {a : Action} (h : d.action? s.returned = some a) :
    s.step d = ⟨s.tenancy.step a, s.returned ++ handed (s.tenancy.call a).result⟩ := by
  simp only [step, h]

/-- The deed is allowed, and does not fault. -/
def Goes (s : Stage) (d : Deed) : Prop :=
  ∃ a ∈ d.action? s.returned, s.tenancy.Allows a ∧ (s.tenancy.call a).result.isOk = true

instance (s : Stage) (d : Deed) : Decidable (s.Goes d) :=
  inferInstanceAs (Decidable
    (∃ a ∈ d.action? s.returned, s.tenancy.Allows a ∧ (s.tenancy.call a).result.isOk = true))

/-- Every deed is allowed when it is done, and none faults. -/
def Smooth (s : Stage) : List Deed → Prop
  | [] => True
  | d :: ds => s.Goes d ∧ (s.step d).Smooth ds

def decidableSmooth (s : Stage) : (ds : List Deed) → Decidable (s.Smooth ds)
  | [] => inferInstanceAs (Decidable True)
  | d :: ds =>
      have := (s.step d).decidableSmooth ds
      inferInstanceAs (Decidable (s.Goes d ∧ (s.step d).Smooth ds))

instance (s : Stage) : DecidablePred s.Smooth := s.decidableSmooth

def run (s : Stage) (ds : List Deed) : Stage := ds.foldl step s

/-- The stages after each call. -/
def stages (s : Stage) : List Deed → List Stage
  | [] => []
  | d :: ds => if d.isCall then s.step d :: (s.step d).stages ds else (s.step d).stages ds

def heap (s : Stage) : Heap := s.tenancy.heap

/-- What two stages have in common whose heaps differ in where they start. -/
structure Congruent (start start' : Addr) (s s' : Stage) : Prop where
  /-- The same distance from the start. -/
  returned : List.Forall₂ (fun a a' => a.toNat + start'.toNat = a'.toNat + start.toNat)
    s.returned s'.returned
  counters : s.heap.counters = s'.heap.counters
  census : ∃ c m m', Heap.census s.heap s.tenancy.ambient = ⟨.ok c, s.heap, m⟩ ∧
    Heap.census s'.heap s'.tenancy.ambient = ⟨.ok c, s'.heap, m'⟩
  /-- A walk of each chain meets the same offsets from the start. -/
  chains : ∀ k, ∃ offsets : List Nat,
    (FreeChain.walkAll (s.heap.chainHead k) s.heap s.tenancy.ambient).result.map
        (List.map fun b => b.header.toNat) = .ok (offsets.map (· + start.toNat)) ∧
    (FreeChain.walkAll (s'.heap.chainHead k) s'.heap s'.tenancy.ambient).result.map
        (List.map fun b => b.header.toNat) = .ok (offsets.map (· + start'.toNat))

end Stage

/-! ### The plan of a script -/

/-- A blueprint at address zero, its counters, and how far from the start the addresses lie that
    were returned so far. -/
structure Plan where
  blueprint : Blueprint
  counters : Counters := {}
  returned : List Addr := []

namespace Plan

def fresh : Plan := { blueprint := .fresh 0 Word.bound }

def handed : Option (Option Nat) → List Addr
  | some (some x) => [UInt32.ofNat x]
  | _ => []

def step (q : Plan) (d : Deed) : Plan :=
  match d.action? q.returned with
  | some a =>
      { blueprint := q.blueprint.step a
        counters := q.blueprint.counted a q.counters
        returned := q.returned ++ handed (q.blueprint.answer a) }
  | none => q

theorem step_of_action {q : Plan} {d : Deed} {a : Action} (h : d.action? q.returned = some a) :
    q.step d = ⟨q.blueprint.step a, q.blueprint.counted a q.counters,
      q.returned ++ handed (q.blueprint.answer a)⟩ := by
  simp only [step, h]

def run (q : Plan) (ds : List Deed) : Plan := ds.foldl step q

def stages (q : Plan) : List Deed → List Plan
  | [] => []
  | d :: ds => q.step d :: (q.step d).stages ds

end Plan

/-! ### Lists that go along with a third one -/

section

variable {α β γ κ : Type} {xs : List α} {ys : List β} {zs : List γ}

theorem forall₂_of_map_eq {f : α → κ} {g : γ → κ} (h : xs.map f = zs.map g) :
    List.Forall₂ (fun x z => f x = g z) xs zs := by
  rw [← List.forall₂_eq_eq_eq] at h
  exact List.forall₂_map_right_iff.1 (List.forall₂_map_left_iff.1 h)

/-- Two lists that go along with the same third one go along with each other. -/
theorem forall₂_of_common {R : α → γ → Prop} {R' : β → γ → Prop} {S : α → β → Prop}
    (hx : List.Forall₂ R xs zs) (hy : List.Forall₂ R' ys zs)
    (h : ∀ x y z, R x z → R' y z → S x y) : List.Forall₂ S xs ys := by
  induction hx generalizing ys with
  | nil =>
      cases hy
      exact .nil
  | cons hxz _ ih =>
      cases hy with
      | cons hyz hrest => exact .cons (h _ _ _ hxz hyz) (ih hrest)

end

/-! ### A stage against the plan -/

namespace Stage

/-- The stage is the plan, moved up to where the heap starts. -/
structure Realizes (start : Nat) (s : Stage) (q : Plan) : Prop where
  mirrors : ∃ p, Mirrors s.tenancy p ∧ Blueprint.Shifts start q.blueprint p
  counters : s.heap.counters = q.counters
  returned : s.returned.map UInt32.toNat = q.returned.map fun x => x.toNat + start

theorem realizes_opened {h : Heap} {m : Ambient} (hempty : h = Heap.empty h.start)
    (haligned : h.start.toNat % 4 = 0) :
    (Stage.opened h m).Realizes h.start.toNat Plan.fresh where
  mirrors := by
    refine ⟨_, Mirrors.opened hempty haligned, ?_, rfl, rfl⟩
    show Inventory.fresh h.start.toNat = (Inventory.fresh 0).shift h.start.toNat
    simp only [Inventory.fresh, Inventory.shift, Nat.zero_add, List.map_nil]
  counters := by
    show h.counters = {}
    rw [hempty]
    rfl
  returned := rfl

/-- What is handed to the guest is the plan's address, moved up. -/
theorem map_handed {start : Nat} {result : Except Fault (Option Addr)}
    {answer : Option (Option Nat)}
    (h : result.toOption.map (Option.map UInt32.toNat) = answer.map (Option.map (· + start))) :
    (handed result).map UInt32.toNat = (Plan.handed answer).map fun x => x.toNat + start := by
  match result, answer with
  | .error _, none => rfl
  | .ok none, some none => rfl
  | .ok (some a), some (some x) =>
      have hax : a.toNat = x + start := Option.some.inj (Option.some.inj h)
      have hlt := a.toNat_lt
      have hx : (UInt32.ofNat x).toNat = x := toNat_ofNat_of_lt (by simp only [Word.bound]; omega)
      simp only [handed, Plan.handed, List.map_cons, List.map_nil, hx, hax]
  | .error _, some _ => cases h
  | .ok _, none => cases h
  | .ok none, some (some _) => cases h
  | .ok (some _), some none => cases h

namespace Realizes

variable {start : Nat} {s : Stage} {q : Plan} {d : Deed} {ds : List Deed}

theorem getElem?_returned (hr : s.Realizes start q) {k : Nat} {x' : Addr}
    (hx' : s.returned[k]? = some x') :
    ∃ x, q.returned[k]? = some x ∧ x'.toNat = x.toNat + start := by
  have hmap := congrArg (·[k]?) hr.returned
  simp only [List.getElem?_map, hx', Option.map_some] at hmap
  obtain ⟨x, hx, hxx'⟩ := Option.map_eq_some_iff.1 hmap.symm
  exact ⟨x, hx, hxx'.symm⟩

/-- A call of the script is the same call of the plan, its address moved up. -/
theorem exists_action (hr : s.Realizes start q) (hd : d.isCall = true) {a' : Action}
    (ha : d.action? s.returned = some a') :
    ∃ a, d.action? q.returned = some a ∧ Action.Shifts start a a' := by
  cases d with
  | allocate request =>
      cases ha
      exact ⟨_, rfl, .allocate request⟩
  | allocateSlice length element =>
      cases ha
      exact ⟨_, rfl, .allocateSlice length element⟩
  | free k =>
      obtain ⟨x', hx', rfl⟩ := Option.map_eq_some_iff.1 ha
      obtain ⟨x, hx, hshift⟩ := hr.getElem?_returned hx'
      exact ⟨.free x, by simp only [Deed.action?, hx, Option.map_some], .free hshift⟩
  | freeSlice k =>
      obtain ⟨x', hx', rfl⟩ := Option.map_eq_some_iff.1 ha
      obtain ⟨x, hx, hshift⟩ := hr.getElem?_returned hx'
      exact ⟨.freeSlice x, by simp only [Deed.action?, hx, Option.map_some], .freeSlice hshift⟩
  | write after => cases hd
  | grow after => cases hd

/-- A call that does not fault does what the plan does. -/
theorem call (hr : s.Realizes start q) (hd : d.isCall = true) (hg : s.Goes d) :
    (s.step d).Realizes start (q.step d) := by
  obtain ⟨p, hm, hshift⟩ := hr.mirrors
  obtain ⟨a', ha', hallows, hok⟩ := hg
  obtain ⟨a, ha, hact⟩ := hr.exists_action hd ha'
  have hanswer := (hm.follows hallows).answer
  have hanswered : p.answer a' ≠ none := by
    rw [← hanswer]
    cases hresult : (s.tenancy.call a').result with
    | error e =>
        rw [hresult] at hok
        cases hok
    | ok r => exact Option.some_ne_none _
  have hagrees := hshift.agrees hact hanswered
  rw [step_of_action ha', Plan.step_of_action ha]
  constructor
  · exact ⟨_, hm.step hallows, hshift.step hagrees⟩
  · refine (hm.counters_step hallows).trans ?_
    rw [hagrees.counted]
    exact congrArg _ hr.counters
  · rw [hagrees.answer] at hanswer
    rw [List.map_append, List.map_append, hr.returned, map_handed hanswer]

/-- Between the calls nothing happens that the plan knows of. -/
theorem between (hr : s.Realizes start q) (hd : d.isCall = false) (hg : s.Goes d) :
    (s.step d).Realizes start q := by
  obtain ⟨p, hm, hshift⟩ := hr.mirrors
  obtain ⟨a', ha', hallows, -⟩ := hg
  have hp : Blueprint.Shifts start q.blueprint (p.step a') ∧
      (s.step d).heap.counters = s.heap.counters ∧ (s.step d).returned = s.returned := by
    cases d with
    | write after =>
        cases ha'
        exact ⟨hshift.of_idle rfl rfl rfl, rfl, List.append_nil _⟩
    | grow after =>
        cases ha'
        exact ⟨hshift.of_idle rfl rfl rfl, rfl, List.append_nil _⟩
    | _ => cases hd
  obtain ⟨hp, hcounters, hreturned⟩ := hp
  refine ⟨⟨_, ?_, hp⟩, hcounters.trans hr.counters, hreturned ▸ hr.returned⟩
  rw [step_of_action ha']
  exact hm.step hallows

/-- A smooth run stays at the plan of its script, call by call. -/
theorem run (hr : s.Realizes start q) (hs : s.Smooth ds) :
    List.Forall₂ (Realizes start) (s.stages ds) (q.stages (script ds)) ∧
      (s.run ds).Realizes start (q.run (script ds)) := by
  induction ds generalizing s q with
  | nil => exact ⟨.nil, hr⟩
  | cons d ds ih =>
      cases hd : d.isCall with
      | true =>
          have hscript : script (d :: ds) = d :: script ds := List.filter_cons_of_pos hd
          have hnext := hr.call hd hs.1
          obtain ⟨hstages, hrun⟩ := ih hnext hs.2
          simp only [hscript, stages, hd, if_true]
          exact ⟨.cons hnext hstages, hrun⟩
      | false =>
          have hscript : script (d :: ds) = script ds :=
            List.filter_cons_of_neg (by simp only [hd, Bool.false_eq_true, not_false_eq_true])
          simp only [hscript, stages, hd, Bool.false_eq_true, if_false]
          exact ih (hr.between hd hs.1) hs.2

/-! ### Two realizations of one plan -/

theorem exists_census (hr : s.Realizes start q) :
    ∃ c m', Heap.census s.heap s.tenancy.ambient = ⟨.ok c, s.heap, m'⟩ ∧
      c.Counts q.blueprint.inventory := by
  obtain ⟨p, hm, hshift⟩ := hr.mirrors
  obtain ⟨c, m', hcensus, -, hcounts⟩ := hm.describes.exists_census (m := s.tenancy.ambient)
  rw [hshift.inventory] at hcounts
  exact ⟨c, m', hcensus, hcounts.of_shift⟩

/-- A walk in memory meets the plan's chain, moved up. -/
theorem walk_chain (hr : s.Realizes start q) (k : Option SizeClass) :
    (FreeChain.walkAll (s.heap.chainHead k) s.heap s.tenancy.ambient).result.map
        (List.map fun b => b.header.toNat) =
      .ok (((q.blueprint.inventory.chain k).map Extent.header).map (· + start)) := by
  obtain ⟨p, hm, hshift⟩ := hr.mirrors
  have hheader : ∀ e ∈ p.inventory.chain k, e.block.header.toNat = e.header := fun e he =>
    hm.describes.sound.toNat_header (Inventory.mem_extents_of_chain he)
  have hwalk : (FreeChain.walkAll (s.heap.chainHead k) s.heap s.tenancy.ambient).result =
      .ok ((p.inventory.chain k).map Extent.block) := hm.describes.walk_chain k
  rw [hwalk, Except.map, List.map_map]
  refine congrArg Except.ok ((List.map_congr_left hheader).trans ?_)
  rw [hshift.inventory, Inventory.chain_shift, List.map_map, List.map_map]
  rfl

theorem congruent {start start' : Addr} {s' : Stage} (hr : s.Realizes start.toNat q)
    (hr' : s'.Realizes start'.toNat q) : Congruent start start' s s' := by
  constructor
  · refine forall₂_of_common (forall₂_of_map_eq hr.returned) (forall₂_of_map_eq hr'.returned) ?_
    intro a a' x ha ha'
    omega
  · rw [hr.counters, hr'.counters]
  · obtain ⟨c, m, hcensus, hcounts⟩ := hr.exists_census
    obtain ⟨c', m', hcensus', hcounts'⟩ := hr'.exists_census
    cases hcounts.unique hcounts'
    exact ⟨c, m, m', hcensus, hcensus'⟩
  · exact fun k => ⟨_, hr.walk_chain k, hr'.walk_chain k⟩

end Realizes

end Stage

/-- Two heaps that go through the same script of calls without a fault, at whatever starts, in
    whatever memories, and whatever is written and grown in between, return the same addresses
    relative to their starts, and have the same counters, the same census and the same chains
    after every call. -/
theorem congruent_of_script_eq {requested requested' : Addr} {m m₁ m' m₁' : Ambient} {h h' : Heap}
    {ds ds' : List Deed} (hc : Heap.create requested () m = ⟨.ok (.ok h), (), m₁⟩)
    (hc' : Heap.create requested' () m' = ⟨.ok (.ok h'), (), m₁'⟩)
    (hs : (Stage.opened h m₁).Smooth ds) (hs' : (Stage.opened h' m₁').Smooth ds')
    (hscript : script ds = script ds') :
    List.Forall₂ (Stage.Congruent h.start h'.start) ((Stage.opened h m₁).stages ds)
        ((Stage.opened h' m₁').stages ds') ∧
      Stage.Congruent h.start h'.start ((Stage.opened h m₁).run ds)
        ((Stage.opened h' m₁').run ds') := by
  obtain ⟨hempty, haligned, -⟩ := Heap.create_eq_ok hc
  obtain ⟨hempty', haligned', -⟩ := Heap.create_eq_ok hc'
  obtain ⟨hstages, hrun⟩ := (Stage.realizes_opened (m := m₁) hempty haligned).run hs
  obtain ⟨hstages', hrun'⟩ := (Stage.realizes_opened (m := m₁') hempty' haligned').run hs'
  rw [← hscript] at hstages' hrun'
  exact ⟨forall₂_of_common hstages hstages' fun _ _ _ hr hr' => hr.congruent hr',
    hrun.congruent hrun'⟩

/-- A heap at the bottom of a memory of zeros, and one that starts where its memory ends and only
    grows; in both a guest writes into the block that is freed and handed out again. -/
theorem congruent_of_two_memories :
    let grown := (Memory.zeros 92).store 60 77
    let ds : List Deed := [.allocate 40, .write (((Memory.zeros 84).store 0 40).store 4 7),
      .allocateSlice 2 4, .free 0, .allocate 12, .freeSlice 1, .allocate 33]
    let ds' : List Deed := [.grow grown, .allocate 40, .write ((grown.store 8 40).store 16 9),
      .allocateSlice 2 4, .free 0, .allocate 12, .freeSlice 1, .allocate 33]
    let s := Stage.opened (.empty 0)
      { memory := .zeros 84, journal := #[.heapCreated 0 0] }
    let s' := Stage.opened (.empty 8)
      { memory := .zeros 8, journal := #[.heapCreated 8 8] }
    List.Forall₂ (Stage.Congruent 0 8) (s.stages ds) (s'.stages ds') ∧
      Stage.Congruent 0 8 (s.run ds) (s'.run ds') :=
  congruent_of_script_eq (show Heap.create 0 () { memory := .zeros 84 } = _ from rfl)
    (show Heap.create 8 () { memory := .zeros 8 } = _ from rfl)
    (by decide +kernel) (by decide +kernel)
    (by simp only [script, List.filter, Deed.isCall])

end LinearHeap
