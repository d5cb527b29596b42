/-
  LinearHeap/Proofs/Untouched.lean
  ================================
  **What a guest stores stays stored.**  No call, whether it returns or faults,
  changes a byte outside the carved region, or a header or payload of a block that
  is out and stays out; a release changes the first word of what it takes back and
  nothing else.  So a byte of a block is at any time what the guest last wrote
  there, until the block is given back.
-/
import LinearHeap.Proofs.Mirrors

namespace LinearHeap

namespace Action

def IsCall : Action → Prop
  | .write _ | .grow _ => False
  | _ => True

def IsRelease : Action → Prop
  | .free _ | .freeSlice _ => True
  | _ => False

/-- The byte that the guest wrote last, in memories it left behind. -/
def lastWritten (i : Nat) (old : Option UInt8) : List Action → Option UInt8
  | [] => old
  | .write after :: as => lastWritten i (after.byte? i) as
  | _ :: as => lastWritten i old as

end Action

namespace Tenancy

/-- What a call leaves alone. -/
structure Spares (s : Tenancy) (a : Action) : Prop where
  size : (s.step a).memory.size = s.memory.size
  outside : ∀ i, i < s.heap.start.toNat ∨ (s.step a).heap.frontier.toNat ≤ i →
    (s.step a).memory.byte? i = s.memory.byte? i
  blocks : ∀ b ∈ s.live, b ∉ s.released a → ∀ i, s.memory.InBlock b i →
    (s.step a).memory.byte? i = s.memory.byte? i
  released : a.IsRelease → ∀ i, (∀ b ∈ s.released a, i < b.toNat ∨ b.toNat + 4 ≤ i) →
    (s.step a).memory.byte? i = s.memory.byte? i

/-- None of the actions gives the block back. -/
def Retains (b : Addr) (s : Tenancy) : List Action → Prop
  | [] => True
  | a :: as => b ∉ s.released a ∧ (s.step a).Retains b as

end Tenancy

namespace Mirrors

open Blueprint

variable {s : Tenancy} {p : Blueprint} {a : Action}

theorem mem_kept_of_not_released (hm : Mirrors s p) (ha : s.Allows a) {b : Addr} {e : Extent}
    (he : e ∈ p.inventory.live) (hbe : b.toNat = e.payload) (hb : b ∉ s.released a) :
    e ∈ p.kept a := by
  refine mem_kept_iff.2 ⟨he, fun hreleased => hb ?_⟩
  rw [(hm.follows ha).released, ← hbe] at hreleased
  obtain ⟨c, hc, hcb⟩ := List.mem_map.1 hreleased
  rwa [← UInt32.toNat_inj.1 hcb]

theorem frontier_le_effect (p : Blueprint) (a : Action) :
    p.inventory.frontier ≤ (p.effect a).2.frontier := by
  cases a with
  | allocate request =>
      simp only [effect]
      split
      · rename_i hs
        exact (Inventory.lends_of_allocate hs).1.frontier
      · exact Nat.le_refl _
  | allocateSlice length element => exact (Inventory.lends_of_allocateSlice rfl).2.1
  | free a => exact Nat.le_of_eq (Inventory.bounds_free a.toNat).2.symm
  | freeSlice handle =>
      simp only [effect]
      split
      · exact Nat.le_of_eq ((Inventory.bounds_free _).2.trans (Inventory.bounds_free _).2).symm
      · exact Nat.le_refl _
  | write after => exact Nat.le_refl _
  | grow after => exact Nat.le_refl _

theorem not_touches_outside (hm : Mirrors s p) (ha : s.Allows a) (hcall : a.IsCall) {i : Nat}
    (hi : i < s.heap.start.toNat ∨ (s.step a).heap.frontier.toNat ≤ i) : ¬ p.Touches a i := by
  rw [hm.describes.start, (hm.step ha).describes.frontier] at hi
  have hgrows := frontier_le_effect p a
  have hnew : (p.step a).inventory.frontier = (p.effect a).2.frontier := rfl
  have hrelease : ∀ q ∈ p.released a, ¬ (q ≤ i ∧ i < q + 4) := by
    intro q hq hin
    obtain ⟨e, he, rfl⟩ := hm.exists_of_released ha hq
    have hmem := Inventory.mem_extents_of_live he
    have hlow := hm.describes.sound.start_le hmem
    have hhigh := hm.describes.sound.stop_le hmem
    have height := hm.describes.sound.header_add_eight_le hmem
    simp only [Extent.payload] at hin
    omega
  have hvacant : ¬ p.inventory.Vacant (p.effect a).2.frontier i := by
    intro hv
    have hlow := hv.start_le
    have hhigh := hv.lt_limit
    omega
  cases a with
  | allocate request => exact hvacant
  | allocateSlice length element => exact hvacant
  | free a =>
      rintro ⟨q, hq, hin⟩
      exact hrelease q hq hin
  | freeSlice handle =>
      rintro ⟨q, hq, hin⟩
      exact hrelease q hq hin
  | write after => exact hcall.elim
  | grow after => exact hcall.elim

theorem size_step (hm : Mirrors s p) (ha : s.Allows a) (hcall : a.IsCall) :
    (s.step a).memory.size = s.memory.size := by
  rw [← (hm.step ha).room, ← hm.room]
  cases a with
  | write after => exact hcall.elim
  | grow after => exact hcall.elim
  | _ => rfl

theorem spares (hm : Mirrors s p) (ha : s.Allows a) (hcall : a.IsCall) : s.Spares a where
  size := hm.size_step ha hcall
  outside := fun i hi => (hm.follows ha).changes i (hm.not_touches_outside ha hcall hi)
  blocks := by
    intro b hb hreleased i hi
    obtain ⟨e, he, hbe⟩ := hm.exists_extent hb
    apply hm.byte?_of_kept ha (hm.mem_kept_of_not_released ha he hbe hreleased)
      ((hm.describes.inBlock_iff (Inventory.mem_extents_of_live he) hbe).1 hi)
    rintro after rfl
    exact hcall.elim
  released := by
    intro hrelease i hi
    apply (hm.follows ha).changes
    have hlinks : ¬ ∃ q ∈ p.released a, q ≤ i ∧ i < q + 4 := by
      rintro ⟨q, hq, hin⟩
      rw [(hm.follows ha).released] at hq
      obtain ⟨b, hb, rfl⟩ := List.mem_map.1 hq
      have hoff := hi b hb
      omega
    cases a with
    | free a => exact hlinks
    | freeSlice handle => exact hlinks
    | _ => exact hrelease.elim

/-- In one action a byte of a block that stays out becomes what the guest wrote there, if it
    wrote. -/
theorem byte?_step (hm : Mirrors s p) (ha : s.Allows a) {e : Extent} {i : Nat}
    (he : e ∈ p.kept a) (hi : e.Covers i) :
    (s.step a).memory.byte? i = Action.lastWritten i (s.memory.byte? i) [a] := by
  cases a with
  | write after => rfl
  | allocate request => exact hm.byte?_of_kept ha he hi (by rintro _ ⟨⟩)
  | allocateSlice length element => exact hm.byte?_of_kept ha he hi (by rintro _ ⟨⟩)
  | free a => exact hm.byte?_of_kept ha he hi (by rintro _ ⟨⟩)
  | freeSlice handle => exact hm.byte?_of_kept ha he hi (by rintro _ ⟨⟩)
  | grow after => exact hm.byte?_of_kept ha he hi (by rintro _ ⟨⟩)

theorem lastWritten_cons (i : Nat) (old : Option UInt8) (a : Action) (as : List Action) :
    Action.lastWritten i old (a :: as) =
      Action.lastWritten i (Action.lastWritten i old [a]) as := by
  cases a <;> rfl

theorem byte?_run {as : List Action} (hm : Mirrors s p) (hl : s.Lawful as) {b : Addr}
    {e : Extent} {i : Nat} (he : e ∈ p.inventory.live) (hbe : b.toNat = e.payload)
    (hb : s.Retains b as) (hi : e.Covers i) :
    (s.run as).memory.byte? i = Action.lastWritten i (s.memory.byte? i) as := by
  induction as generalizing s p with
  | nil => rfl
  | cons a as ih =>
      have hkept := hm.mem_kept_of_not_released hl.1 he hbe hb.1
      have he' : e ∈ (p.step a).inventory.live :=
        (hm.follows hl.1).live.mem_iff.2 (List.mem_append_right _ hkept)
      -- the extent is the same before and after, so the next action starts from it
      rw [lastWritten_cons, ← hm.byte?_step hl.1 hkept hi]
      exact ih (hm.step hl.1) hl.2 he' hb.2

end Mirrors

/-- In every state of a lawful run, a call spares all that is out and all that is not carved; and
    what a guest wrote into a block is there until the block is given back. -/
theorem guest_bytes_survive {requested : Addr} {m m' : Ambient} {h : Heap} {as : List Action}
    (hc : Heap.create requested () m = ⟨.ok (.ok h), (), m'⟩)
    (hl : (Tenancy.opened h m').Lawful as) :
    let s := (Tenancy.opened h m').run as
    (∀ a, a.IsCall → s.Allows a → s.Spares a) ∧
    ∀ bs, s.Lawful bs → ∀ b ∈ s.live, s.Retains b bs → ∀ i, s.memory.InPayload b i →
      (s.run bs).memory.byte? i = Action.lastWritten i (s.memory.byte? i) bs := by
  obtain ⟨hempty, haligned, -⟩ := Heap.create_eq_ok hc
  have hm := (Mirrors.opened (m := m') hempty haligned).run hl
  refine ⟨fun a hcall ha => hm.spares ha hcall, ?_⟩
  intro bs hbs b hb hretains i hi
  obtain ⟨e, he, hbe⟩ := hm.exists_extent hb
  have hrange := (hm.describes.inPayload_iff (Inventory.mem_extents_of_live he) hbe).1 hi
  simp only [Extent.payload] at hrange
  exact hm.byte?_run hbs he hbe hretains ⟨by omega, hrange.2⟩

/-- Seven written into a block is there after another block came and went. -/
theorem guest_bytes_survive_of_seven :
    let m : Ambient := { memory := .zeros 64, journal := #[.heapCreated 0 0] }
    let s := (Tenancy.opened (.empty 0) m).run
      [.allocate 8, .write (((Memory.zeros 64).store 0 8).store 4 7)]
    s.Spares (.free 4) ∧
    (s.run [.allocate 12, .allocateSlice 65536 65536, .free 16]).memory.byte? 4 = some 7 := by
  obtain ⟨hcalls, hbytes⟩ :=
    guest_bytes_survive (show Heap.create 0 () { memory := .zeros 64 } = _ from rfl)
      (show (Tenancy.opened (.empty 0)
        { memory := .zeros 64, journal := #[.heapCreated 0 0] }).Lawful
        [.allocate 8, .write (((Memory.zeros 64).store 0 8).store 4 7)] by decide +kernel)
  refine ⟨hcalls (.free 4) trivial (by decide +kernel), ?_⟩
  exact hbytes [.allocate 12, .allocateSlice 65536 65536, .free 16] (by decide +kernel) 4
    (by decide +kernel) ⟨by decide +kernel, by decide +kernel, by decide +kernel, trivial⟩ 4
    (by decide +kernel)

end LinearHeap
