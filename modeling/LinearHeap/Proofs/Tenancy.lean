/-
  LinearHeap/Proofs/Tenancy.lean
  ==============================
  **A guest and its heap, action by action.**  A tenancy is a heap and its memory
  together with what the guest knows: which payload addresses are out, and which
  of them are record and content of a slice.  Six kinds of action make up a run;
  four are calls, which may fault and then leave behind what they leave behind,
  and two change memory from outside.

  `Allows` is the guest's side of the contract: it frees what is out, frees a
  slice by its record, and writes into payloads that are out and are not records.
  A run is lawful when every action is allowed in the state it is taken in.
-/
import LinearHeap.Proofs.Calls

namespace LinearHeap

structure Tenancy where
  heap : Heap
  ambient : Ambient
  /-- Payload addresses that are out, the latest first. -/
  live : List Addr := []
  /-- Record and content of each slice. -/
  slices : List (Addr × Addr) := []

inductive Action where
  | allocate (request : Word)
  | allocateSlice (length element : Word)
  | free (a : Addr)
  | freeSlice (handle : Addr)
  /-- The guest writes, and memory is `after` from then on. -/
  | write (after : Memory)
  /-- Memory grows to `after`. -/
  | grow (after : Memory)

/-- What the header of the block at a payload address holds. -/
def Memory.sizeAt? (m : Memory) (a : Addr) : Option Word :=
  (Block.ofPayload a).toOption.bind fun b => b.size? m

/-- The byte belongs to the payload at an address, as its header has it. -/
def Memory.InPayload (m : Memory) (a : Addr) (i : Nat) : Prop :=
  ∃ size ∈ m.sizeAt? a, a.toNat ≤ i ∧ i < a.toNat + size.toNat

instance (m : Memory) (a : Addr) (i : Nat) : Decidable (m.InPayload a i) :=
  inferInstanceAs (Decidable (∃ size ∈ m.sizeAt? a, a.toNat ≤ i ∧ i < a.toNat + size.toNat))

/-- The byte belongs to the header or the payload of the block at a payload address. -/
def Memory.InBlock (m : Memory) (a : Addr) (i : Nat) : Prop :=
  ∃ size ∈ m.sizeAt? a, a.toNat ≤ i + 4 ∧ i < a.toNat + size.toNat

/-- A guest wrote in the given places only. -/
structure Memory.Written (before : Memory) (places : Nat → Prop) (after : Memory) : Prop where
  size : after.size = before.size
  byte : ∀ i < before.size, after.byte? i ≠ before.byte? i → places i

/-- Memory grew and kept what it had. -/
structure Memory.Grown (before after : Memory) : Prop where
  size : before.size ≤ after.size
  byte : ∀ i < before.size, after.byte? i = before.byte? i

instance (places : Nat → Prop) [DecidablePred places] (before after : Memory) :
    Decidable (Memory.Written before places after) :=
  decidable_of_iff (after.size = before.size ∧
      ∀ i < before.size, after.byte? i ≠ before.byte? i → places i)
    ⟨fun h => ⟨h.1, h.2⟩, fun h => ⟨h.size, h.byte⟩⟩

instance (before after : Memory) : Decidable (Memory.Grown before after) :=
  decidable_of_iff (before.size ≤ after.size ∧
      ∀ i < before.size, after.byte? i = before.byte? i)
    ⟨fun h => ⟨h.1, h.2⟩, fun h => ⟨h.size, h.byte⟩⟩

theorem Memory.Written.byte?_eq {places : Nat → Prop} {before after : Memory} {i : Nat}
    (h : before.Written places after) (hi : ¬ places i) : after.byte? i = before.byte? i := by
  by_cases hlt : i < before.size
  · exact Decidable.byContradiction fun hne => hi (h.byte i hlt hne)
  · have hnone : ∀ m : Memory, m.size = before.size → m.byte? i = none := by
      intro m hsize
      rw [← Option.not_isSome_iff_eq_none, byte?_isSome_iff]
      omega
    rw [hnone after h.size, hnone before rfl]

/-! ### What a description says about payload addresses -/

namespace Inventory.Describes

variable {inv : Inventory} {h : Heap} {m m' : Memory} {a : Addr} {e : Extent} {i : Nat}

theorem sizeAt?_of_mem (hd : inv.Describes h m) (he : e ∈ inv.extents)
    (ha : a.toNat = e.payload) : m.sizeAt? a = some (UInt32.ofNat e.size) := by
  have hblock : Block.ofPayload a = .ok e.block := by
    rw [Block.ofPayload_eq_ok_iff, hd.sound.toNat_header he]
    exact ha
  rw [Memory.sizeAt?, hblock]
  exact hd.size?_block he

/-- Payload addresses lie in the carved region. -/
theorem holds_of_mem (hd : inv.Describes h m) (he : e ∈ inv.extents) (ha : a.toNat = e.payload) :
    h.holds a = true := by
  have hlo := hd.sound.start_le he
  have hhi := hd.sound.stop_le he
  have height := hd.sound.header_add_eight_le he
  have h4 : Block.headerBytes.toNat = 4 := rfl
  have hpayload : e.payload = e.header + 4 := rfl
  rw [Heap.holds, Bool.and_eq_true, decide_eq_true_eq, decide_eq_true_eq, hd.start, hd.frontier,
    h4, ha]
  omega

theorem inPayload_iff (hd : inv.Describes h m) (he : e ∈ inv.extents)
    (ha : a.toNat = e.payload) : m.InPayload a i ↔ e.payload ≤ i ∧ i < e.stop := by
  have hstop : e.stop = e.payload + e.size := rfl
  simp only [Memory.InPayload, hd.sizeAt?_of_mem he ha, Option.mem_some, exists_eq_left',
    hd.toNat_size he, ha, hstop]

theorem inBlock_iff (hd : inv.Describes h m) (he : e ∈ inv.extents)
    (ha : a.toNat = e.payload) : m.InBlock a i ↔ e.Covers i := by
  have hstop : e.stop = e.payload + e.size := rfl
  have hpayload : e.payload = e.header + 4 := rfl
  simp only [Memory.InBlock, hd.sizeAt?_of_mem he ha, Option.mem_some, exists_eq_left',
    hd.toNat_size he, ha, Extent.Covers, hstop]
  omega

/-- No header and no link lies in a payload that is out. -/
theorem not_guards_of_inPayload (hd : inv.Describes h m) (he : e ∈ inv.live)
    (ha : a.toNat = e.payload) (hi : m.InPayload a i) : ¬ inv.Guards i := by
  obtain ⟨hl, hu⟩ := (hd.inPayload_iff (mem_extents_of_live he) ha).1 hi
  exact hd.sound.not_guards_of_payload he hl hu

theorem guards_lt (hd : inv.Describes h m) (hi : inv.Guards i) : i < m.size := by
  rcases hi with ⟨e, he, -, hu⟩ | ⟨k, e, he, -, hu⟩
  · have hinside := hd.inside e he
    have height := hd.sound.header_add_eight_le he
    omega
  · have hmem := mem_extents_of_chain he
    have hinside := hd.inside e hmem
    have height := hd.sound.header_add_eight_le hmem
    omega

theorem written {places : Nat → Prop} (hd : inv.Describes h m) (hw : m.Written places m')
    (hplaces : ∀ i, places i → ¬ inv.Guards i) : inv.Describes h m' := by
  apply hd.congr (Nat.le_of_eq hw.size.symm)
  intro i hi
  exact hw.byte?_eq fun hplace => hplaces i hplace hi

theorem grown (hd : inv.Describes h m) (hg : m.Grown m') : inv.Describes h m' := by
  apply hd.congr hg.size
  intro i hi
  exact hg.byte i (hd.guards_lt hi)

end Inventory.Describes

/-! ### Who is out, as addresses and as extents -/

section LivePerm

variable {live : List Addr} {es : List Extent} {a : Addr} {e : Extent}

theorem exists_of_live_perm (h : (live.map UInt32.toNat).Perm (es.map Extent.payload))
    (ha : a ∈ live) : ∃ e ∈ es, a.toNat = e.payload := by
  have hmem : a.toNat ∈ es.map Extent.payload := h.mem_iff.1 (List.mem_map_of_mem ha)
  obtain ⟨e, he, hea⟩ := List.mem_map.1 hmem
  exact ⟨e, he, hea.symm⟩

theorem mem_of_live_perm (h : (live.map UInt32.toNat).Perm (es.map Extent.payload))
    (he : e ∈ es) (ha : a.toNat = e.payload) : a ∈ live := by
  have hmem : a.toNat ∈ live.map UInt32.toNat := by
    apply h.mem_iff.2
    rw [ha]
    exact List.mem_map_of_mem he
  obtain ⟨b, hb, hba⟩ := List.mem_map.1 hmem
  rwa [← UInt32.toNat_inj.1 hba]

theorem Inventory.Sound.nodup_of_live_perm {inv : Inventory} (hs : inv.Sound)
    (h : (live.map UInt32.toNat).Perm (inv.live.map Extent.payload)) : live.Nodup :=
  List.Nodup.of_map _ (h.nodup_iff.2 hs.nodup_payloads)

theorem live_perm_of_step {live taken released : List Addr} {old new lent : List Extent}
    (hlive : (live.map UInt32.toNat).Perm (old.map Extent.payload))
    (htaken : taken.map UInt32.toNat = lent.map Extent.payload)
    (hnew : new.Perm
      (lent ++ old.filter fun e => e.payload ∉ released.map UInt32.toNat)) :
    ((taken ++ live.filter (· ∉ released)).map UInt32.toNat).Perm (new.map Extent.payload) := by
  have hfilter : (live.filter (· ∉ released)).map UInt32.toNat =
      (live.map UInt32.toNat).filter (· ∉ released.map UInt32.toNat) := by
    rw [List.filter_map]
    congr 1
    apply List.filter_congr
    intro b _
    have hinj : Function.Injective UInt32.toNat := fun _ _ h => UInt32.toNat_inj.1 h
    simp only [Function.comp_apply, List.mem_map_of_injective hinj]
  have hkept : (old.filter fun e => e.payload ∉ released.map UInt32.toNat).map Extent.payload =
      (old.map Extent.payload).filter (· ∉ released.map UInt32.toNat) := by
    rw [List.filter_map]
    rfl
  rw [List.map_append, htaken, hfilter]
  refine List.Perm.trans ?_ (hnew.map Extent.payload).symm
  rw [List.map_append, hkept]
  exact (hlive.filter _).append_left _

end LivePerm

namespace Tenancy

def memory (s : Tenancy) : Memory := s.ambient.memory

/-- A new heap, with nothing handed out. -/
def opened (h : Heap) (m : Ambient) : Tenancy := { heap := h, ambient := m }

/-! ### One action -/

/-- What the action comes to: an address if it is an allocation, or the fault that stopped it. -/
def call (s : Tenancy) : Action → Outcome Heap (Option Addr)
  | .allocate request => (some <$> Heap.allocate request) s.heap s.ambient
  | .allocateSlice length element => (some <$> Heap.allocateSlice length element) s.heap s.ambient
  | .free a => ((fun _ => none) <$> Heap.free a) s.heap s.ambient
  | .freeSlice handle => ((fun _ => none) <$> Heap.freeSlice handle) s.heap s.ambient
  | .write after | .grow after => ⟨.ok none, s.heap, { s.ambient with memory := after }⟩

/-- Payload addresses that the action takes out; a record whose content was refused is one. -/
def taken (s : Tenancy) : Action → List Addr
  | .allocate request =>
      match (Heap.allocate request s.heap s.ambient).result with
      | .ok a => [a]
      | .error _ => []
  | .allocateSlice length element => Heap.sliceBlocks length element s.heap s.ambient
  | _ => []

/-- Payload addresses that the action gives back. -/
def released (s : Tenancy) : Action → List Addr
  | .free a => [a]
  | .freeSlice handle =>
      match s.slices.lookup handle with
      | some data => [data, handle]
      | none => []
  | _ => []

def formed (s : Tenancy) (a : Action) : List (Addr × Addr) :=
  match s.taken a with
  | [data, handle] => [(handle, data)]
  | _ => []

/-- A slice is gone as soon as its record or its content is given back. -/
def step (s : Tenancy) (a : Action) : Tenancy where
  heap := (s.call a).own
  ambient := (s.call a).ambient
  live := s.taken a ++ s.live.filter (· ∉ s.released a)
  slices := s.formed a ++
    s.slices.filter fun x => x.1 ∉ s.released a ∧ x.2 ∉ s.released a

theorem step_of_call {s : Tenancy} {a : Action} {r : Except Fault (Option Addr)} {h' : Heap}
    {m' : Ambient} (hcall : s.call a = ⟨r, h', m'⟩) :
    (s.step a).heap = h' ∧ (s.step a).ambient = m' :=
  ⟨congrArg Outcome.own hcall, congrArg Outcome.ambient hcall⟩

/-- The byte is the guest's to write: it lies in a payload that is out and is no record. -/
def Writable (s : Tenancy) (i : Nat) : Prop :=
  ∃ a ∈ s.live, a ∉ s.slices.map Prod.fst ∧ s.memory.InPayload a i

instance (s : Tenancy) : DecidablePred s.Writable := fun i =>
  inferInstanceAs (Decidable (∃ a ∈ s.live, a ∉ s.slices.map Prod.fst ∧ s.memory.InPayload a i))

def Allows (s : Tenancy) : Action → Prop
  | .allocate _ | .allocateSlice .. => True
  | .free a => a ∈ s.live
  | .freeSlice handle => (s.slices.lookup handle).isSome
  | .write after => s.memory.Written s.Writable after
  | .grow after => s.memory.Grown after

instance (s : Tenancy) : DecidablePred s.Allows
  | .allocate _ | .allocateSlice .. => inferInstanceAs (Decidable True)
  | .free a => inferInstanceAs (Decidable (a ∈ s.live))
  | .freeSlice handle => inferInstanceAs (Decidable ((s.slices.lookup handle).isSome = true))
  | .write after => inferInstanceAs (Decidable (s.memory.Written s.Writable after))
  | .grow after => inferInstanceAs (Decidable (s.memory.Grown after))

/-! ### Runs -/

def run (s : Tenancy) (as : List Action) : Tenancy := as.foldl step s

def answers (s : Tenancy) : List Action → List (Except Fault (Option Addr))
  | [] => []
  | a :: as => (s.call a).result :: (s.step a).answers as

def Lawful (s : Tenancy) : List Action → Prop
  | [] => True
  | a :: as => s.Allows a ∧ (s.step a).Lawful as

def decidableLawful (s : Tenancy) : (as : List Action) → Decidable (s.Lawful as)
  | [] => inferInstanceAs (Decidable True)
  | a :: as =>
      have := (s.step a).decidableLawful as
      inferInstanceAs (Decidable (s.Allows a ∧ (s.step a).Lawful as))

instance (s : Tenancy) : DecidablePred s.Lawful := s.decidableLawful

theorem run_append (s : Tenancy) (as bs : List Action) :
    s.run (as ++ bs) = (s.run as).run bs := List.foldl_append

theorem Lawful.of_append {s : Tenancy} {as bs : List Action} (hl : s.Lawful (as ++ bs)) :
    s.Lawful as ∧ (s.run as).Lawful bs := by
  induction as generalizing s with
  | nil => exact ⟨trivial, hl⟩
  | cons a as ih =>
      obtain ⟨ha, hrest⟩ := hl
      exact ⟨⟨ha, (ih hrest).1⟩, (ih hrest).2⟩

end Tenancy

/-! ### Opening -/

/-- A heap that was created is empty, at an aligned start, and memory is untouched. -/
theorem Heap.create_eq_ok {σ : Type} {requested : Addr} {s s' : σ} {m m' : Ambient} {h : Heap}
    (hc : Heap.create requested s m = ⟨.ok (.ok h), s', m'⟩) :
    h = Heap.empty h.start ∧ h.start.toNat % 4 = 0 ∧ m'.memory = m.memory := by
  cases hstart : Placement.start requested with
  | error e =>
      simp only [Heap.create, hstart] at hc
      cases hc
  | ok start =>
      simp only [Heap.create, hstart] at hc
      cases hc
      have hround : Placement.roundUp? requested = some start := by
        cases hup : Placement.roundUp? requested with
        | none => simp [Placement.start, hup] at hstart
        | some a => simpa [Placement.start, hup] using hstart
      have haligned := (Placement.roundUp?_eq_some hround).1
      refine ⟨rfl, ?_, rfl⟩
      show start.toNat % 4 = 0
      omega

end LinearHeap
