/-
  LinearHeap/Proofs/Provision.lean
  ================================
  **What is handed out is large enough, and wastes two words at most.**  Along a
  run, each address that is out is kept together with the size it was asked for
  (`Tenancy.holdings`); a slice asks for a record and then for its content.  The
  size in the header is the size asked for, padded, if that has a bin, and otherwise
  at most eight bytes more (`Tenancy.Provides`).

  It rests on one invariant: what is out suits what it was asked for (`Suits`).
  A bin holds one size only, however a block came there, and the first-fit list
  gives a block whole only if the rest of it could not hold a block of eight bytes.
  Once out, an extent stays the same until it comes back, whatever is cut elsewhere.
-/
import LinearHeap.Proofs.Regain
import LinearHeap.Proofs.Untouched

namespace LinearHeap

/-! ### Who asked for what -/

/-- The sizes of the blocks that an action asks for, in this order. -/
def Action.requests : Action → List Nat
  | .allocate request => [request.toNat]
  | .allocateSlice length element => [SliceRecord.bytes.toNat, length.toNat * element.toNat]
  | _ => []

namespace Tenancy

variable {s : Tenancy} {held : List (Addr × Nat)} {as : List Action}

/-- What the action takes out, the latest first, each with the size it was asked for. -/
def asked (s : Tenancy) (a : Action) : List (Addr × Nat) :=
  ((s.taken a).reverse.zip a.requests).reverse

/-- What is out after a run, each with the size it was asked for; `held` is what was out before. -/
def holdings (s : Tenancy) (held : List (Addr × Nat)) : List Action → List (Addr × Nat)
  | [] => held
  | a :: as => (s.step a).holdings (s.asked a ++ held.filter (·.1 ∉ s.released a)) as

theorem length_taken_le (s : Tenancy) (a : Action) : (s.taken a).length ≤ a.requests.length := by
  cases a with
  | allocate request =>
      simp only [taken]
      split
      · exact Nat.le_refl 1
      · exact Nat.zero_le 1
  | allocateSlice length element =>
      simp only [taken, Heap.sliceBlocks]
      split
      · exact Nat.zero_le 2
      · split
        · exact Nat.zero_le 2
        · split
          · exact Nat.le_succ 1
          · exact Nat.le_refl 2
  | _ => exact Nat.zero_le 0

theorem map_fst_asked (s : Tenancy) (a : Action) : (s.asked a).map Prod.fst = s.taken a := by
  have hle : (s.taken a).reverse.length ≤ a.requests.length := by
    rw [List.length_reverse]
    exact s.length_taken_le a
  rw [asked, List.map_reverse, List.map_fst_zip hle, List.reverse_reverse]

/-- Exactly what is out is held. -/
theorem map_fst_holdings (hheld : held.map Prod.fst = s.live) :
    (s.holdings held as).map Prod.fst = (s.run as).live := by
  induction as generalizing s held with
  | nil => exact hheld
  | cons a as ih =>
      apply ih
      show _ = s.taken a ++ s.live.filter (· ∉ s.released a)
      rw [List.map_append, map_fst_asked, ← hheld, List.filter_map]
      rfl

/-- What the block at a payload address is, if it was handed out for this request. -/
structure Provides (s : Tenancy) (a : Addr) (request : Nat) : Prop where
  header : ∃ size, s.memory.sizeAt? a = some size ∧
    (Inventory.padded request ≤ 32 → size.toNat = Inventory.padded request) ∧
    (32 < Inventory.padded request → size.toNat = Inventory.padded request ∨
      size.toNat = Inventory.padded request + 4 ∨ size.toNat = Inventory.padded request + 8) ∧
    a.toNat + size.toNat ≤ s.heap.frontier.toNat
  aligned : a.toNat % 4 = 0
  nonzero : a ≠ 0
  inside : s.heap.holds a = true

end Tenancy

/-! ### What suits a size -/

namespace Inventory

variable {e : Extent} {size : Nat}

/-- What suits a size with a bin has that size. -/
theorem Suits.size_of_le (hs : Suits size e) (hwords : size % 4 = 0) (hleast : 4 ≤ size)
    (hbin : size ≤ 32) : e.size = size := by
  obtain ⟨c, hc⟩ : ∃ c, SizeClass.ofNat? size = some c :=
    ⟨_, dif_pos ⟨by omega, hwords, hbin⟩⟩
  have hclass := hs.sameClass
  rw [hc] at hclass
  exact (SizeClass.ofNat?_eq_some_iff.1 hclass).trans (SizeClass.ofNat?_eq_some_iff.1 hc).symm

/-- What suits a size is that size, or one or two words more. -/
theorem Suits.size_cases (hs : Suits size e) (hfair : e.Fair) (hwords : size % 4 = 0) :
    e.size = size ∨ e.size = size + 4 ∨ e.size = size + 8 := by
  have hfit := hs.fit
  have hslack := hs.slack
  have hwhole := hfair.words
  omega

end Inventory

namespace Mirrors

variable {s : Tenancy} {p : Blueprint} {held : List (Addr × Nat)} {a : Action}

/-- A block that suits a request and is out is what the request is entitled to. -/
theorem provides_of_suits (hm : Mirrors s p) {b : Addr} {request : Nat} {e : Extent}
    (he : e ∈ p.inventory.live) (hb : b.toNat = e.payload)
    (hs : Inventory.Suits (Inventory.padded request) e) : s.Provides b request := by
  have hd := hm.describes
  have hmem := Inventory.mem_extents_of_live he
  have hfair := hd.sound.fair hmem
  obtain ⟨hwords, hleast⟩ := Inventory.Describes.padded_words request
  have hpayload : e.payload = e.header + 4 := rfl
  refine ⟨⟨UInt32.ofNat e.size, hd.sizeAt?_of_mem hmem hb, ?_, ?_, ?_⟩, ?_, ?_, ?_⟩
  · rw [hd.toNat_size hmem]
    exact hs.size_of_le hwords hleast
  · rw [hd.toNat_size hmem]
    exact fun _ => hs.size_cases hfair hwords
  · rw [hd.toNat_size hmem, hb, hd.frontier]
    exact hd.sound.stop_le hmem
  · have haligned := hfair.aligned
    omega
  · rintro rfl
    have hzero : (0 : Addr).toNat = 0 := rfl
    omega
  · exact hd.holds_of_mem hmem hb

end Mirrors

/-! ### Steps and runs -/

/-- Whatever is held is out, and suits the size it was asked for. -/
def Blueprint.Suited (p : Blueprint) (held : List (Addr × Nat)) : Prop :=
  ∀ x ∈ held, ∃ e ∈ p.inventory.live, x.1.toNat = e.payload ∧
    Inventory.Suits (Inventory.padded x.2) e

namespace Mirrors

variable {s : Tenancy} {p : Blueprint} {held : List (Addr × Nat)} {a : Action} {as : List Action}

/-- Each extent that an action hands out suits the request it is handed out for. -/
theorem suits_of_effect (hm : Mirrors s p) (a : Action) :
    ∀ y ∈ (p.effect a).1.reverse.zip a.requests,
      Inventory.Suits (Inventory.padded y.2) y.1 := by
  have hsound := hm.describes.sound
  cases a with
  | allocate request =>
      cases hs : p.inventory.allocate p.room request.toNat with
      | none =>
          simp only [Blueprint.effect, hs]
          exact List.forall_mem_nil _
      | some result =>
          obtain ⟨e, left⟩ := result
          simp only [Blueprint.effect, hs, Action.requests, List.reverse_singleton,
            List.zip_cons_cons, List.zip_nil_right, List.forall_mem_singleton]
          exact hsound.suits_of_serve hs
  | allocateSlice length element =>
      rcases hs : p.inventory.allocateSlice p.room length.toNat element.toNat with ⟨lent, left⟩
      simp only [Blueprint.effect, hs, Action.requests]
      rcases Inventory.allocateSlice_cases hs with ⟨rfl, -⟩ | ⟨record, rfl, -, hr, -⟩ |
        ⟨content, record, mid, rfl, -, hr, hc⟩
      · exact List.forall_mem_nil _
      · simp only [List.reverse_singleton, List.zip_cons_cons, List.zip_nil_left,
          List.forall_mem_singleton]
        exact hsound.suits_of_serve hr
      · have hrecord : p.inventory.allocate p.room SliceRecord.bytes.toNat = some (record, mid) :=
          hr
        have hmid := hm.sound_of_allocate hrecord
        simp only [List.reverse_cons, List.reverse_nil, List.nil_append, List.singleton_append,
          List.zip_cons_cons, List.zip_nil_right, List.forall_mem_cons]
        exact ⟨hsound.suits_of_serve hr, hmid.suits_of_serve hc, List.forall_mem_nil _⟩
  | free a => exact List.forall_mem_nil _
  | freeSlice handle =>
      simp only [Action.requests, List.zip_nil_right]
      exact List.forall_mem_nil _
  | write after => exact List.forall_mem_nil _
  | grow after => exact List.forall_mem_nil _

theorem suited_step (hm : Mirrors s p) (ha : s.Allows a) (hs : p.Suited held) :
    (p.step a).Suited (s.asked a ++ held.filter (·.1 ∉ s.released a)) := by
  have hf := hm.follows ha
  intro x hx
  rcases List.mem_append.1 hx with hnew | hkept
  · rw [Tenancy.asked, List.mem_reverse, hf.taken, ← List.map_reverse, List.zip_map_left] at hnew
    obtain ⟨⟨e, n⟩, hzip, rfl⟩ := List.mem_map.1 hnew
    have hlent : e ∈ (p.effect a).1 := List.mem_reverse.1 (List.of_mem_zip hzip).1
    have he : e ∈ (p.effect a).2.live := hf.live.mem_iff.2 (List.mem_append_left _ hlent)
    exact ⟨e, he, hf.describes.toNat_slot_eq_payload (Inventory.mem_extents_of_live he),
      hm.suits_of_effect a _ hzip⟩
  · obtain ⟨hmem, hnot⟩ := List.mem_filter.1 hkept
    obtain ⟨e, he, hxe, hsuits⟩ := hs x hmem
    have hstays := hm.mem_kept_of_not_released ha he hxe (of_decide_eq_true hnot)
    exact ⟨e, hf.live.mem_iff.2 (List.mem_append_right _ hstays), hxe, hsuits⟩

theorem suited_run (hm : Mirrors s p) (hl : s.Lawful as) (hs : p.Suited held) :
    (p.run as).Suited (s.holdings held as) := by
  induction as generalizing s p held with
  | nil => exact hs
  | cons a as ih => exact ih (hm.step hl.1) hl.2 (hm.suited_step hl.1 hs)

/-- What no action gives back stays out, as the extent that it is. -/
theorem mem_live_run (hm : Mirrors s p) (hl : s.Lawful as) {b : Addr} {e : Extent}
    (he : e ∈ p.inventory.live) (hb : b.toNat = e.payload) (hkeeps : s.Retains b as) :
    e ∈ (p.run as).inventory.live := by
  induction as generalizing s p with
  | nil => exact he
  | cons a as ih =>
      have hstays := hm.mem_kept_of_not_released hl.1 he hb hkeeps.1
      have he' : e ∈ (p.step a).inventory.live :=
        (hm.follows hl.1).live.mem_iff.2 (List.mem_append_right _ hstays)
      exact ih (hm.step hl.1) hl.2 he' hkeeps.2

end Mirrors

/-- In every state of a lawful run, what is out is what was asked for and not given back; each block
    of it has the size it was asked for or at most two words more, lies at an aligned address inside
    the carved region, and has the same header until it is given back. -/
theorem handouts_fit {requested : Addr} {m m' : Ambient} {h : Heap} {as : List Action}
    (hc : Heap.create requested () m = ⟨.ok (.ok h), (), m'⟩)
    (hl : (Tenancy.opened h m').Lawful as) :
    let s := (Tenancy.opened h m').run as
    let held := (Tenancy.opened h m').holdings [] as
    held.map Prod.fst = s.live ∧ ∀ x ∈ held, s.Provides x.1 x.2 ∧
      ∀ bs, s.Lawful bs → s.Retains x.1 bs →
        (s.run bs).memory.sizeAt? x.1 = s.memory.sizeAt? x.1 := by
  obtain ⟨hempty, haligned, -⟩ := Heap.create_eq_ok hc
  have hopened := Mirrors.opened (m := m') hempty haligned
  have hm := hopened.run hl
  have hnothing : (Blueprint.fresh h.start.toNat m'.memory.size).Suited [] := by
    intro x hx
    cases hx
  refine ⟨Tenancy.map_fst_holdings rfl, fun x hx => ?_⟩
  obtain ⟨e, he, hxe, hsuits⟩ := hopened.suited_run hl hnothing x hx
  refine ⟨hm.provides_of_suits he hxe hsuits, fun bs hbs hkeeps => ?_⟩
  have hlater := hm.mem_live_run hbs he hxe hkeeps
  rw [(hm.run hbs).describes.sizeAt?_of_mem (Inventory.mem_extents_of_live hlater) hxe,
    hm.describes.sizeAt?_of_mem (Inventory.mem_extents_of_live he) hxe]

/-- A block of sixty bytes is freed and serves fifty, two words more than it has to; a slice goes,
    another block comes, and it is still sixty bytes long. -/
theorem handouts_fit_of_second_hand :
    let m : Ambient := { memory := .zeros 160, journal := #[.heapCreated 0 0] }
    let s := (Tenancy.opened (.empty 0) m).run
      [.allocate 60, .allocateSlice 2 4, .free 4, .allocate 50]
    s.live = [4, 80, 68] ∧ s.Provides 4 50 ∧ s.Provides 68 8 ∧
      s.memory.sizeAt? 4 = some 60 ∧
      (s.run [.freeSlice 68, .allocate 33]).memory.sizeAt? 4 = some 60 := by
  intro m s
  have hcreate : Heap.create 0 () { memory := .zeros 160 } = ⟨.ok (.ok (.empty 0)), (), m⟩ := rfl
  have hlawful : (Tenancy.opened (.empty 0) m).Lawful
      [.allocate 60, .allocateSlice 2 4, .free 4, .allocate 50] := by decide +kernel
  obtain ⟨hlive, hfit⟩ := handouts_fit hcreate hlawful
  have hheld : (Tenancy.opened (.empty 0) m).holdings []
      [.allocate 60, .allocateSlice 2 4, .free 4, .allocate 50] = [(4, 50), (80, 8), (68, 8)] := by
    decide +kernel
  rw [hheld] at hlive hfit
  have hsize : s.memory.sizeAt? 4 = some 60 := by decide +kernel
  obtain ⟨hfifty, hkept⟩ := hfit (4, 50) (by decide)
  refine ⟨hlive.symm, hfifty, (hfit (68, 8) (by decide)).1, hsize, ?_⟩
  exact (hkept [.freeSlice 68, .allocate 33] (by decide +kernel)
    ⟨by decide +kernel, by decide +kernel, trivial⟩).trans hsize

end LinearHeap
