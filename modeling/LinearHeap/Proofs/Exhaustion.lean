/-
  LinearHeap/Proofs/Exhaustion.lean
  =================================
  **When a request faults, and what a fault leaves behind.**  A request faults for
  three reasons only: it rounds past the address space, or no free block serves it
  and a new one would end past the address space, or past memory.  It then leaves
  heap and memory as they were, although the search for a fit may have walked the
  whole list.

  A slice is two requests.  If the first one faults nothing has changed; if the
  second one does, the heap is the one that the first one left.

  `FaultsExactly` says so about a heap and its memory alone; every heap that an
  inventory describes has it.
-/
import LinearHeap.Proofs.Mirrors

namespace LinearHeap

/-! ### What decides a request -/

namespace Heap

/-- A free block serves the size: a small size needs a block in its bin, any other one a block
    of the first-fit list that is large enough. -/
def Offers (h : Heap) (m : Memory) (size : Nat) : Prop :=
  (∃ c : SizeClass, size = (SizeClass.bytes c).toNat ∧ (h.binHead c).isSome) ∨
    (32 < size ∧ ∃ bs, FreeChain.Linked m h.fitHead bs ∧
      ∃ b ∈ bs, ∃ free ∈ b.size? m, size ≤ free.toNat)

/-- A new block of this size ends inside the address space and inside memory. -/
def HasRoom (h : Heap) (m : Memory) (size : Nat) : Prop :=
  h.frontier.toNat + 4 + size ≤ min (Word.bound - 1) m.size

end Heap

/-- The call is stopped by the fault, and leaves this heap and this memory. -/
structure Outcome.Stops (o : Outcome Heap Addr) (fault : Fault) (h : Heap) (m : Memory) :
    Prop where
  result : o.result = .error fault
  own : o.own = h
  memory : o.ambient.memory = m

namespace Heap

structure FaultsExactly (h : Heap) (m : Ambient) : Prop where
  request_iff : ∀ request : Word, (∃ fault, (allocate request h m).result = .error fault) ↔
    Word.bound - 4 < request.toNat ∨
      (¬ h.Offers m.memory (Inventory.padded request.toNat) ∧
        ¬ h.HasRoom m.memory (Inventory.padded request.toNat))
  /-- The fault is the shortfall, and heap and memory stay as they were. -/
  request_stops : ∀ request fault, (allocate request h m).result = .error fault →
    (allocate request h m).Stops (h.shortfall m.memory request) h m.memory
  /-- A slice call is stopped without a change just when its content is too large or its record
      is not served. -/
  slice_unchanged_iff : ∀ length element,
    (∃ fault, (allocateSlice length element h m).Stops fault h m.memory) ↔
      Word.bound ≤ length.toNat * element.toNat ∨
        ∃ fault, (allocate SliceRecord.bytes h m).result = .error fault
  /-- A slice call whose content alone is not served leaves what the request for the record
      leaves. -/
  slice_stops : ∀ length element record h₁ m₁, length.toNat * element.toNat < Word.bound →
    allocate SliceRecord.bytes h m = ⟨.ok record, h₁, m₁⟩ →
    ∀ fault, (allocate (length * element) h₁ m₁).result = .error fault →
      (allocateSlice length element h m).Stops (h₁.shortfall m₁.memory (length * element)) h₁
        m₁.memory
  /-- Nothing else stops a slice call. -/
  slice_fault : ∀ length element fault, (allocateSlice length element h m).result = .error fault →
    (Word.bound ≤ length.toNat * element.toNat ∧ fault = .sliceTooLarge length element) ∨
      (length.toNat * element.toNat < Word.bound ∧
        ((allocate SliceRecord.bytes h m).result = .error fault ∨
          ∃ record h₁ m₁, allocate SliceRecord.bytes h m = ⟨.ok record, h₁, m₁⟩ ∧
            (allocate (length * element) h₁ m₁).result = .error fault))

end Heap

/-! ### The list allocator has nothing -/

namespace Inventory

variable {inv : Inventory} {room size : Nat}

theorem bump_eq_none_iff :
    inv.bump room size = none ↔ ¬ inv.frontier + 4 + size ≤ min (Word.bound - 1) room := by
  have hpos : 0 < Word.bound := by decide
  simp only [bump]
  split <;> simp only [reduceCtorEq, true_iff, false_iff, Decidable.not_not] <;> omega

theorem serve_eq_none_iff_of_class {c : SizeClass} (hc : SizeClass.ofNat? size = some c) :
    inv.serve room size = none ↔ inv.bins c = [] ∧ inv.bump room size = none := by
  cases hbin : inv.bins c with
  | nil => simp only [serve, hc, hbin, true_and]
  | cons header rest => simp [serve, hc, hbin]

theorem serve_eq_none_iff_of_no_class (hc : SizeClass.ofNat? size = none) :
    inv.serve room size = none ↔
      (∀ e ∈ inv.fits, ¬ size ≤ e.size) ∧ inv.bump room size = none := by
  have hall : (∀ e ∈ inv.fits, ¬ size ≤ e.size) ↔
      (inv.fits.find? fun e => decide (size ≤ e.size)) = none := by
    simp only [List.find?_eq_none, decide_eq_true_eq]
  rw [hall]
  cases hfind : inv.fits.find? fun e => decide (size ≤ e.size) with
  | none => simp only [serve, hc, hfind, true_and]
  | some e =>
      simp only [serve, hc, hfind, reduceCtorEq, false_and, iff_false]
      split <;> simp

namespace Describes

variable {h : Heap} {m : Ambient}

theorem hasRoom_iff (hd : inv.Describes h m.memory) :
    h.HasRoom m.memory size ↔ ¬ inv.bump m.memory.size size = none := by
  rw [bump_eq_none_iff, Decidable.not_not, Heap.HasRoom, hd.frontier]

theorem offers_iff_of_class (hd : inv.Describes h m.memory) {c : SizeClass}
    (hc : SizeClass.ofNat? size = some c) : h.Offers m.memory size ↔ ¬ inv.bins c = [] := by
  have hsize := SizeClass.ofNat?_eq_some_iff.1 hc
  have hclass : ∀ d : SizeClass, size = (SizeClass.bytes d).toNat ↔ d = c := by
    intro d
    rw [SizeClass.toNat_bytes, ← SizeClass.ofNat?_eq_some_iff, hc, Option.some.injEq]
    exact eq_comm
  have hsmall : ¬ 32 < size := by
    have hlt := c.isLt
    simp only [SizeClass.width] at hsize
    omega
  simp only [Heap.Offers, hclass, exists_eq_left, hsmall, false_and, or_false]
  cases hbin : inv.bins c with
  | nil => simp [hd.binHead_of_nil hbin]
  | cons header rest =>
      obtain ⟨next, hhead, -⟩ := hd.binHead_of_cons hbin
      simp [hhead]

theorem offers_iff_of_no_class (hd : inv.Describes h m.memory)
    (hc : SizeClass.ofNat? size = none) (hlarge : 32 < size) :
    h.Offers m.memory size ↔ ¬ ∀ e ∈ inv.fits, ¬ size ≤ e.size := by
  have hfree : ∀ e ∈ inv.fits, e.block.size? m.memory = some (UInt32.ofNat e.size) ∧
      (UInt32.ofNat e.size).toNat = e.size := by
    intro e he
    have hmem := mem_extents_of_chain (k := none) he
    exact ⟨hd.size?_block hmem, hd.toNat_size hmem⟩
  constructor
  · rintro (⟨c, hsize, -⟩ | ⟨-, bs, hl, b, hb, free, hread, hle⟩) hall
    · rw [SizeClass.toNat_bytes, ← SizeClass.ofNat?_eq_some_iff, hc] at hsize
      cases hsize
    · have hbs := FreeChain.linked_unique hl (hd.chains none)
      rw [hbs] at hb
      obtain ⟨e, he, rfl⟩ := List.mem_map.1 hb
      obtain ⟨hsize, heq⟩ := hfree e he
      rw [hsize, Option.mem_some] at hread
      subst hread
      rw [heq] at hle
      exact hall e he hle
  · intro hall
    simp only [not_forall, Decidable.not_not] at hall
    obtain ⟨e, he, hle⟩ := hall
    obtain ⟨hsize, heq⟩ := hfree e he
    exact Or.inr ⟨hlarge, _, hd.chains none, e.block, List.mem_map_of_mem he, _, hsize,
      heq.symm ▸ hle⟩

/-- The list allocator has nothing for a padded size just when the heap offers nothing and has no
    room. -/
theorem serve_eq_none_iff (hd : inv.Describes h m.memory) (hwords : size % 4 = 0)
    (hleast : 4 ≤ size) :
    inv.serve m.memory.size size = none ↔ ¬ h.Offers m.memory size ∧ ¬ h.HasRoom m.memory size := by
  rw [hd.hasRoom_iff, Decidable.not_not]
  cases hc : SizeClass.ofNat? size with
  | some c =>
      rw [serve_eq_none_iff_of_class hc, hd.offers_iff_of_class hc, Decidable.not_not]
  | none =>
      have hlarge : 32 < size := by
        unfold SizeClass.ofNat? at hc
        split at hc
        · cases hc
        · omega
      rw [serve_eq_none_iff_of_no_class hc, hd.offers_iff_of_no_class hc hlarge]
      rw [Classical.not_not]

/-! ### Requests -/

variable {request length element : Word}

theorem allocate_result_iff (hd : inv.Describes h m.memory) :
    (∃ fault, (Heap.allocate request h m).result = .error fault) ↔
      inv.allocate m.memory.size request.toNat = none := by
  cases hs : inv.allocate m.memory.size request.toNat with
  | none =>
      obtain ⟨n, hact⟩ := hd.allocate_of_none hs
      simp [hact]
  | some result =>
      obtain ⟨h', m', hact, -⟩ := hd.allocate_of_some hs
      simp [hact]

theorem allocate_eq_none_iff (hd : inv.Describes h m.memory) :
    inv.allocate m.memory.size request.toNat = none ↔ Word.bound - 4 < request.toNat ∨
      (¬ h.Offers m.memory (padded request.toNat) ∧
        ¬ h.HasRoom m.memory (padded request.toNat)) := by
  obtain ⟨hwords, hleast⟩ := padded_words request.toNat
  rw [Inventory.allocate, ← hd.serve_eq_none_iff hwords hleast]
  refine ⟨Or.inr, fun hnone => hnone.elim (fun hlt => ?_) id⟩
  apply serve_of_bound_le hd.sound
  simp only [padded, Word.bound] at hlt ⊢
  omega

theorem allocate_stops (hd : inv.Describes h m.memory) {fault : Fault}
    (hf : (Heap.allocate request h m).result = .error fault) :
    (Heap.allocate request h m).Stops (h.shortfall m.memory request) h m.memory := by
  obtain ⟨n, hact⟩ := hd.allocate_of_none (hd.allocate_result_iff.1 ⟨fault, hf⟩)
  rw [hact]
  exact ⟨rfl, rfl, Ambient.memory_countReads m n⟩

/-- A request that the heap serves is one that the list allocator serves. -/
theorem exists_of_allocate (hd : inv.Describes h m.memory) {a : Addr} {h' : Heap} {m' : Ambient}
    (hact : Heap.allocate request h m = ⟨.ok a, h', m'⟩) :
    ∃ e inv', inv.allocate m.memory.size request.toNat = some (e, inv') ∧
      inv'.Describes h' m'.memory ∧ m'.memory.size = m.memory.size ∧
      h'.counters = inv.countAllocate m.memory.size request.toNat h.counters := by
  cases hs : inv.allocate m.memory.size request.toNat with
  | none =>
      obtain ⟨n, hnone⟩ := hd.allocate_of_none hs
      rw [hnone] at hact
      cases hact
  | some result =>
      obtain ⟨h'', m'', hsome, hnew, hchange, hcounters⟩ := hd.allocate_of_some hs
      rw [hsome] at hact
      cases hact
      exact ⟨_, _, rfl, hnew, hchange.size, hcounters⟩

/-- A request that is served is counted, so it leaves another heap. -/
theorem own_ne_of_allocate (hd : inv.Describes h m.memory) {a : Addr} {h' : Heap} {m' : Ambient}
    (hact : Heap.allocate request h m = ⟨.ok a, h', m'⟩) : h' ≠ h := by
  obtain ⟨e, inv', hs, -, -, hcounters⟩ := hd.exists_of_allocate hact
  have hcount := allocations_countServe hs h.counters
  rw [← countAllocate_of_some hs, ← hcounters] at hcount
  rintro rfl
  omega

end Describes

end Inventory

/-! ### Slices -/

namespace Heap

variable {length element : Word} {h h₁ h₂ : Heap} {m m₁ m₂ : Ambient} {record : Addr}
  {fault : Fault}

theorem allocateSlice_of_le (hle : Word.bound ≤ length.toNat * element.toNat) :
    allocateSlice length element h m = ⟨.error (.sliceTooLarge length element), h, m⟩ :=
  Act.bind_of_error (Act.check_of_error (if_neg (Nat.not_lt.2 hle)))

theorem allocateSlice_of_record_error (hlt : length.toNat * element.toNat < Word.bound)
    (hr : allocate SliceRecord.bytes h m = ⟨.error fault, h₁, m₁⟩) :
    allocateSlice length element h m = ⟨.error fault, h₁, m₁⟩ := by
  have hbytes : contentSize length element = .ok (length * element) := if_pos hlt
  exact (Act.bind_of_ok (Act.check_of_ok hbytes)).trans (Act.bind_of_error hr)

theorem allocateSlice_of_content_error (hlt : length.toNat * element.toNat < Word.bound)
    (hr : allocate SliceRecord.bytes h m = ⟨.ok record, h₁, m₁⟩)
    (hc : allocate (length * element) h₁ m₁ = ⟨.error fault, h₂, m₂⟩) :
    allocateSlice length element h m = ⟨.error fault, h₂, m₂⟩ := by
  have hbytes : contentSize length element = .ok (length * element) := if_pos hlt
  refine (Act.bind_of_ok (Act.check_of_ok hbytes)).trans ?_
  exact (Act.bind_of_ok hr).trans (Act.bind_of_error hc)

end Heap

namespace Inventory.Describes

variable {inv : Inventory} {h : Heap} {m : Ambient} {length element : Word}

theorem slice_stops (hd : inv.Describes h m.memory) {record : Addr} {h₁ : Heap} {m₁ : Ambient}
    (hlt : length.toNat * element.toNat < Word.bound)
    (hr : Heap.allocate SliceRecord.bytes h m = ⟨.ok record, h₁, m₁⟩) {fault : Fault}
    (hf : (Heap.allocate (length * element) h₁ m₁).result = .error fault) :
    (Heap.allocateSlice length element h m).Stops (h₁.shortfall m₁.memory (length * element)) h₁
      m₁.memory := by
  obtain ⟨e, left, -, hd₁, -⟩ := hd.exists_of_allocate hr
  obtain ⟨hresult, hown, hmemory⟩ := hd₁.allocate_stops hf
  rcases hc : Heap.allocate (length * element) h₁ m₁ with ⟨result, h₂, m₂⟩
  rw [hc] at hresult hown hmemory
  cases hresult
  rw [Heap.allocateSlice_of_content_error hlt hr hc]
  exact ⟨rfl, hown, hmemory⟩

/-- A slice call both of whose requests are served is not stopped. -/
theorem slice_returns (hd : inv.Describes h m.memory) {record content : Addr} {h₁ h₂ : Heap}
    {m₁ m₂ : Ambient} (hlt : length.toNat * element.toNat < Word.bound)
    (hr : Heap.allocate SliceRecord.bytes h m = ⟨.ok record, h₁, m₁⟩)
    (hc : Heap.allocate (length * element) h₁ m₁ = ⟨.ok content, h₂, m₂⟩) (fault : Fault) :
    (Heap.allocateSlice length element h m).result ≠ .error fault := by
  obtain ⟨r, left, hrecord, hd₁, hsize, -⟩ := hd.exists_of_allocate hr
  obtain ⟨c, inv', hcontent, -⟩ := hd₁.exists_of_allocate hc
  have hrecord₈ : inv.allocate m.memory.size 8 = some (r, left) := hrecord
  rw [hsize, (contentSize_of_lt hlt).2] at hcontent
  have hpair : inv.allocateSlice m.memory.size length.toNat element.toNat = ([c, r], inv') := by
    simp only [Inventory.allocateSlice, if_pos hlt, hrecord₈, hcontent]
  obtain ⟨-, h', m', hact, -⟩ := hd.allocateSlice_of_pair hpair
  rw [hact]
  intro hf
  cases hf

theorem slice_fault (hd : inv.Describes h m.memory) {fault : Fault}
    (hf : (Heap.allocateSlice length element h m).result = .error fault)
    (hlt : length.toNat * element.toNat < Word.bound) :
    (Heap.allocate SliceRecord.bytes h m).result = .error fault ∨
      ∃ record h₁ m₁, Heap.allocate SliceRecord.bytes h m = ⟨.ok record, h₁, m₁⟩ ∧
        (Heap.allocate (length * element) h₁ m₁).result = .error fault := by
  rcases hr : Heap.allocate SliceRecord.bytes h m with ⟨_ | record, h₁, m₁⟩
  · rw [Heap.allocateSlice_of_record_error hlt hr] at hf
    exact Or.inl hf
  · rcases hc : Heap.allocate (length * element) h₁ m₁ with ⟨_ | content, h₂, m₂⟩
    · rw [Heap.allocateSlice_of_content_error hlt hr hc] at hf
      exact Or.inr ⟨record, h₁, m₁, rfl, by rw [hc]; exact hf⟩
    · exact absurd hf (hd.slice_returns hlt hr hc fault)

theorem slice_unchanged_iff (hd : inv.Describes h m.memory) :
    (∃ fault, (Heap.allocateSlice length element h m).Stops fault h m.memory) ↔
      Word.bound ≤ length.toNat * element.toNat ∨
        ∃ fault, (Heap.allocate SliceRecord.bytes h m).result = .error fault := by
  constructor
  · rintro ⟨fault, hresult, hown, -⟩
    by_cases hlt : length.toNat * element.toNat < Word.bound
    · rcases hd.slice_fault hresult hlt with hr | ⟨record, h₁, m₁, hr, hf⟩
      · exact Or.inr ⟨fault, hr⟩
      · have hstops := hd.slice_stops hlt hr hf
        exact absurd (hstops.own.symm.trans hown) (hd.own_ne_of_allocate hr)
    · exact Or.inl (Nat.not_lt.1 hlt)
  · intro hcause
    by_cases hlt : length.toNat * element.toNat < Word.bound
    · obtain ⟨fault, hf⟩ := hcause.resolve_left (Nat.not_le.2 hlt)
      obtain ⟨hresult, hown, hmemory⟩ := hd.allocate_stops hf
      rcases hr : Heap.allocate SliceRecord.bytes h m with ⟨result, h₁, m₁⟩
      rw [hr] at hresult hown hmemory
      cases hresult
      rw [Heap.allocateSlice_of_record_error hlt hr]
      exact ⟨_, rfl, hown, hmemory⟩
    · rw [Heap.allocateSlice_of_le (Nat.not_lt.1 hlt)]
      exact ⟨_, rfl, rfl, rfl⟩

theorem faultsExactly (hd : inv.Describes h m.memory) : h.FaultsExactly m where
  request_iff := fun _ => hd.allocate_result_iff.trans hd.allocate_eq_none_iff
  request_stops := fun _ _ hf => hd.allocate_stops hf
  slice_unchanged_iff := fun _ _ => hd.slice_unchanged_iff
  slice_stops := fun _ _ _ _ _ hlt hr _ hf => hd.slice_stops hlt hr hf
  slice_fault := by
    intro length element fault hf
    by_cases hlt : length.toNat * element.toNat < Word.bound
    · exact Or.inr ⟨hlt, hd.slice_fault hf hlt⟩
    · have hle := Nat.not_lt.1 hlt
      rw [Heap.allocateSlice_of_le hle] at hf
      cases hf
      exact Or.inl ⟨hle, rfl⟩

end Inventory.Describes

/-- After every lawful run, requests and slice calls fault exactly when nothing free serves them
    and no room is left, with that fault, and leave no more behind than what was served. -/
theorem faultsExactly_of_lawful {requested : Addr} {m m' : Ambient} {h : Heap} {as : List Action}
    (hc : Heap.create requested () m = ⟨.ok (.ok h), (), m'⟩)
    (hl : (Tenancy.opened h m').Lawful as) :
    let s := (Tenancy.opened h m').run as
    s.heap.FaultsExactly s.ambient := by
  obtain ⟨hempty, haligned, -⟩ := Heap.create_eq_ok hc
  exact ((Mirrors.opened hempty haligned).run hl).describes.faultsExactly

/-- A run that cuts a block, fills its memory, and faults with and without a record left
    behind. -/
theorem faultsExactly_of_full_run :
    let m : Ambient := { memory := .zeros 96, journal := #[.heapCreated 0 0] }
    let s := (Tenancy.opened (.empty 0) m).run
      [.allocate 60, .free 4, .allocate 36, .allocate 16, .allocate 16, .allocateSlice 8 8,
        .allocate 4294967295]
    s.heap.FaultsExactly s.ambient :=
  faultsExactly_of_lawful (show Heap.create 0 () { memory := .zeros 96 } = _ from rfl)
    (by decide +kernel)

end LinearHeap
