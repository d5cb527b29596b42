/-
  LinearHeap/Proofs/Calls.lean
  ============================
  **Heap and list allocator, call by call.**  On a heap that an inventory
  describes, each call returns the address that the list allocator hands out, and
  faults exactly where the list allocator has nothing; either way the heap left
  behind is described by the list allocator's next state.

  A slice call is two allocations and a record.  A record whose content was
  refused stays handed out, although no one was told its address: `sliceBlocks`
  lists what a slice call took.
-/
import LinearHeap.Proofs.Serving

namespace LinearHeap

/-- The payload addresses that a slice call takes, the record last. -/
def Heap.sliceBlocks (length element : Word) (h : Heap) (m : Ambient) : List Addr :=
  match contentSize length element with
  | .error _ => []
  | .ok bytes =>
      match allocate SliceRecord.bytes h m with
      | ⟨.error _, _, _⟩ => []
      | ⟨.ok handle, h', m'⟩ =>
          match allocate bytes h' m' with
          | ⟨.error _, _, _⟩ => [handle]
          | ⟨.ok data, _, _⟩ => [data, handle]

/-- What stops a request that is not served. -/
def Heap.shortfall (h : Heap) (m : Memory) (request : Word) : Fault :=
  if Word.bound - 4 < request.toNat then .requestTooLarge request
  else h.shortage m (UInt32.ofNat (Inventory.padded request.toNat))

namespace Inventory

/-- Hands out a record and the content of a slice, the record first.  The list holds what was
    handed out, the latest first. -/
def allocateSlice (room length element : Nat) (inv : Inventory) : List Extent × Inventory :=
  if length * element < Word.bound then
    match inv.allocate room 8 with
    | none => ([], inv)
    | some (record, left) =>
        match left.allocate room (length * element) with
        | none => ([record], left)
        | some (content, left) => ([content, record], left)
  else ([], inv)

/-! ### What the list allocator does in a call -/

section Allocator

variable {inv inv' : Inventory} {room request length element : Nat} {e : Extent}
  {lent : List Extent}

theorem request_le_padded (request : Nat) : request ≤ padded request := by
  unfold padded
  omega

theorem lends_of_allocate (hs : inv.allocate room request = some (e, inv')) :
    inv.Lends inv' e ∧ request ≤ e.size := by
  obtain ⟨hlends, hsize⟩ := lends_of_serve hs
  exact ⟨hlends, Nat.le_trans (request_le_padded request) hsize⟩

theorem allocateSlice_cases (hs : inv.allocateSlice room length element = (lent, inv')) :
    (lent = [] ∧ inv' = inv ∧
      (Word.bound ≤ length * element ∨ inv.allocate room 8 = none)) ∨
    (∃ record, lent = [record] ∧ length * element < Word.bound ∧
      inv.allocate room 8 = some (record, inv') ∧
      inv'.allocate room (length * element) = none) ∨
    ∃ content record left, lent = [content, record] ∧ length * element < Word.bound ∧
      inv.allocate room 8 = some (record, left) ∧
      left.allocate room (length * element) = some (content, inv') := by
  unfold allocateSlice at hs
  split at hs
  · rename_i hbound
    split at hs
    · rename_i hrecord
      cases hs
      exact Or.inl ⟨rfl, rfl, Or.inr hrecord⟩
    · rename_i record left hrecord
      split at hs
      · rename_i hcontent
        cases hs
        exact Or.inr (Or.inl ⟨record, rfl, hbound, hrecord, hcontent⟩)
      · rename_i content left' hcontent
        cases hs
        exact Or.inr (Or.inr ⟨content, record, left, rfl, hbound, hrecord, hcontent⟩)
  · rename_i hbound
    cases hs
    exact Or.inl ⟨rfl, rfl, Or.inl (Nat.not_lt.1 hbound)⟩

theorem lends_of_allocateSlice (hs : inv.allocateSlice room length element = (lent, inv')) :
    inv'.start = inv.start ∧ inv.frontier ≤ inv'.frontier ∧ inv'.live = lent ++ inv.live := by
  obtain ⟨rfl, rfl, -⟩ | ⟨record, rfl, -, hrecord, -⟩ |
    ⟨content, record, left, rfl, -, hrecord, hcontent⟩ := allocateSlice_cases hs
  · exact ⟨rfl, Nat.le_refl _, rfl⟩
  · have hr := (lends_of_allocate hrecord).1
    exact ⟨hr.start, hr.frontier, hr.live⟩
  · have hr := (lends_of_allocate hrecord).1
    have hc := (lends_of_allocate hcontent).1
    refine ⟨hc.start.trans hr.start, Nat.le_trans hr.frontier hc.frontier, ?_⟩
    rw [hc.live, hr.live]
    rfl

/-- What is handed out is found by its payload. -/
theorem Sound.find?_live (h : inv.Sound) (he : e ∈ inv.live) :
    (inv.live.find? fun f => f.payload == e.payload) = some e := by
  cases hfind : inv.live.find? fun f => f.payload == e.payload with
  | none =>
      have hne := List.find?_eq_none.1 hfind e he
      simp at hne
  | some f =>
      have hf := List.mem_of_find?_eq_some hfind
      have hpayload : f.payload = e.payload := by simpa using List.find?_some hfind
      simp only [Extent.payload] at hpayload
      rw [h.eq_of_header (mem_extents_of_live hf) (mem_extents_of_live he) (by omega)]

/-- Freeing puts back the first extent with that payload address. -/
theorem free_of_find? {payload : Nat}
    (hfind : (inv.live.find? fun f => f.payload == payload) = some e) :
    ∃ before after, inv.live = before ++ e :: after ∧
      inv.free payload = (inv.withLive (before ++ after)).shelve e := by
  obtain ⟨before, after, hlive, herase, -, -⟩ := exists_append_of_find?_eq_some hfind
  refine ⟨before, after, hlive, ?_⟩
  simp only [free, hfind, herase]
  rfl

/-- Freeing the payload of what is handed out puts exactly that extent back. -/
theorem Sound.free_of_live (h : inv.Sound) (he : e ∈ inv.live) :
    ∃ rest, inv.live.Perm (e :: rest) ∧
      inv.free e.payload = (inv.withLive rest).shelve e := by
  obtain ⟨before, after, hlive, hfree⟩ := free_of_find? (h.find?_live he)
  refine ⟨before ++ after, ?_, hfree⟩
  rw [hlive]
  exact List.perm_middle

theorem Sound.mem_live_free (h : inv.Sound) (he : e ∈ inv.live) {f : Extent} :
    f ∈ (inv.free e.payload).live ↔ f ∈ inv.live ∧ f ≠ e := by
  obtain ⟨rest, hperm, hfree⟩ := h.free_of_live he
  have hnodup : (e :: rest).Nodup := hperm.nodup_iff.1 (List.nodup_append.1 h.nodup).1
  obtain ⟨hnot, -⟩ := List.nodup_cons.1 hnodup
  rw [hfree, live_shelve, live_withLive, hperm.mem_iff, List.mem_cons]
  constructor
  · intro hf
    exact ⟨Or.inr hf, fun hfe => hnot (hfe ▸ hf)⟩
  · rintro ⟨hf, hfe⟩
    exact hf.resolve_left hfe

/-- What stays out is what has another payload. -/
theorem Sound.live_free (h : inv.Sound) (he : e ∈ inv.live) :
    (inv.free e.payload).live.Perm
      (inv.live.filter fun f => f.payload ∉ [e.payload]) := by
  obtain ⟨rest, hperm, hfree⟩ := h.free_of_live he
  have hnodup := (hperm.map Extent.payload).nodup_iff.1 h.nodup_payloads
  obtain ⟨hnot, -⟩ := List.nodup_cons.1 hnodup
  have hrest : rest.filter (fun f => decide (f.payload ∉ [e.payload])) = rest := by
    apply List.filter_eq_self.2
    intro f hf
    rw [decide_eq_true_eq, List.mem_singleton]
    intro hfe
    exact hnot (hfe ▸ List.mem_map_of_mem hf)
  rw [hfree, live_shelve, live_withLive]
  refine List.Perm.trans ?_ (hperm.symm.filter _)
  rw [List.filter_cons, if_neg (by simp), hrest]

theorem Sound.free (h : inv.Sound) (he : e ∈ inv.live) : (inv.free e.payload).Sound := by
  obtain ⟨rest, hperm, hfree⟩ := h.free_of_live he
  rw [hfree]
  have hout : (inv.withLive (e :: rest)).Sound := h.withLive hperm.symm
  exact hout.shelve

theorem Sound.live_free_free {f : Extent} (h : inv.Sound) (he : e ∈ inv.live) (hf : f ∈ inv.live)
    (hfe : f ≠ e) :
    ((inv.free e.payload).free f.payload).live.Perm
      (inv.live.filter fun g => g.payload ∉ [e.payload, f.payload]) := by
  have hf' : f ∈ (inv.free e.payload).live := (h.mem_live_free he).2 ⟨hf, hfe⟩
  refine ((h.free he).live_free hf').trans ?_
  have hboth : (inv.live.filter fun g => g.payload ∉ [e.payload, f.payload]) =
      (inv.live.filter fun g => g.payload ∉ [e.payload]).filter
        fun g => g.payload ∉ [f.payload] := by
    rw [List.filter_filter]
    apply List.filter_congr
    intro g _
    simp only [List.mem_cons, List.not_mem_nil, or_false, not_or, Bool.decide_and,
      Bool.and_comm]
  rw [hboth]
  exact (h.live_free he).filter _

theorem bounds_free (payload : Nat) :
    (inv.free payload).start = inv.start ∧ (inv.free payload).frontier = inv.frontier := by
  unfold Inventory.free
  split
  · exact ⟨start_shelve .., frontier_shelve ..⟩
  · exact ⟨rfl, rfl⟩

end Allocator

namespace Describes

variable {inv inv' : Inventory} {h : Heap} {m : Ambient} {e : Extent} {request : Word}

/-! ### Objects -/

theorem paddedSize_of_lt (hlt : request.toNat + 3 < Word.bound) :
    paddedSize request = .ok (UInt32.ofNat (padded request.toNat)) ∧
      (UInt32.ofNat (padded request.toNat)).toNat = padded request.toNat := by
  refine ⟨?_, ?_⟩
  · rw [paddedSize, if_pos hlt]
    rfl
  · apply toNat_ofNat_of_lt
    simp only [padded, Word.bound] at hlt ⊢
    omega

theorem padded_words (n : Nat) : padded n % 4 = 0 ∧ 4 ≤ padded n := by
  unfold padded
  omega

theorem toNat_slot_eq_payload (hd : inv.Describes h m.memory) (he : e ∈ inv.extents) :
    e.block.slot.toNat = e.payload := hd.toNat_slot he

theorem allocate_of_some (hd : inv.Describes h m.memory)
    (hs : inv.allocate m.memory.size request.toNat = some (e, inv')) :
    ∃ h' m', Heap.allocate request h m = ⟨.ok e.block.slot, h', m'⟩ ∧
      inv'.Describes h' m'.memory ∧
      Memory.ChangesOnly (inv.Vacant inv'.frontier) m.memory m'.memory ∧
      h'.counters = inv.countAllocate m.memory.size request.toNat h.counters := by
  rw [countAllocate_of_some hs]
  by_cases hlt : request.toNat + 3 < Word.bound
  · obtain ⟨hpadded, hsize⟩ := paddedSize_of_lt hlt
    obtain ⟨hwords, hleast⟩ := padded_words request.toNat
    rw [← hsize] at hwords hleast
    rw [Inventory.allocate, ← hsize] at hs
    obtain ⟨h', m', hserve, hnew, hchange, hcounters⟩ := hd.serve_of_some hwords hleast hs
    have he : e ∈ inv'.extents := by
      apply mem_extents_of_live
      rw [(lends_of_serve hs).1.live]
      exact List.mem_cons_self
    rw [hsize] at hcounters
    exact ⟨h', m', Heap.allocate_of_serve hpadded hserve (hnew.block_lt he), hnew, hchange,
      hcounters⟩
  · have hbound : Word.bound ≤ padded request.toNat := by
      simp only [padded, Word.bound] at hlt ⊢
      omega
    rw [Inventory.allocate, serve_of_bound_le hd.sound hbound] at hs
    cases hs

/-- A request that is not served changes nothing but the meter. -/
theorem allocate_of_none (hd : inv.Describes h m.memory)
    (hs : inv.allocate m.memory.size request.toNat = none) :
    ∃ n, Heap.allocate request h m =
      ⟨.error (h.shortfall m.memory request), h, m.countReads n⟩ := by
  by_cases hlt : request.toNat + 3 < Word.bound
  · obtain ⟨hpadded, hsize⟩ := paddedSize_of_lt hlt
    rw [Inventory.allocate, ← hsize] at hs
    obtain ⟨n, hserve⟩ := hd.serve_of_none hs
    refine ⟨n, (Heap.allocate_of_serve_error hpadded hserve).trans ?_⟩
    simp only [Word.bound] at hlt
    rw [Heap.shortfall, if_neg (by simp only [Word.bound]; omega)]
  · have hpadded : paddedSize request = .error (.requestTooLarge request) := by
      rw [paddedSize, if_neg hlt]
    refine ⟨0, (Heap.allocate_of_padded_error hpadded).trans ?_⟩
    simp only [Word.bound] at hlt
    rw [Heap.shortfall, if_pos (by simp only [Word.bound]; omega)]
    rfl

theorem free_of_live (hd : inv.Describes h m.memory) (he : e ∈ inv.live) {a : Addr}
    (ha : a.toNat = e.payload) :
    ∃ h' m', Heap.free a h m = ⟨.ok (), h', m'⟩ ∧ (inv.free a.toNat).Describes h' m'.memory ∧
      Memory.ChangesOnly (fun i => a.toNat ≤ i ∧ i < a.toNat + 4) m.memory m'.memory ∧
      h'.counters = inv.countFree a.toNat h.counters := by
  obtain ⟨rest, hperm, hfree⟩ := hd.sound.free_of_live he
  have hout := hd.withLive hperm.symm
  obtain ⟨h', m', hshelve, hnew, hchange, hcounters⟩ := hout.shelve_act
  have hblock : Block.ofPayload a = .ok e.block := by
    rw [Block.ofPayload_eq_ok_iff, hd.sound.toNat_header (mem_extents_of_live he)]
    exact ha
  refine ⟨h', m', (Act.bind_of_ok (Act.check_of_ok hblock)).trans hshelve, ?_, ?_, ?_⟩
  · rw [ha, hfree]
    exact hnew
  · simp only [ha, Extent.payload]
    exact hchange
  · rw [hcounters, ha, countFree, hd.sound.find?_live he]

/-! ### Slices -/

/-- A block of eight bytes or more has room for a record. -/
theorem hasWord_record (hd : inv.Describes h m.memory) (he : e ∈ inv.extents)
    (hsize : 8 ≤ e.size) {a : Addr} (ha : a.toNat = e.payload) :
    ∃ lengthAt : Addr, lengthAt.toNat = a.toNat + 4 ∧ m.memory.HasWord a ∧
      m.memory.HasWord lengthAt := by
  have hinside := hd.inside e he
  have hstop := hd.sound.stop_lt he
  have hpayload : e.payload = e.header + 4 := rfl
  simp only [Extent.stop] at hinside hstop
  have hat : (UInt32.ofNat (a.toNat + 4)).toNat = a.toNat + 4 := toNat_ofNat_of_lt (by omega)
  refine ⟨UInt32.ofNat (a.toNat + 4), hat, ?_, ?_⟩
  · rw [Memory.hasWord_iff]
    omega
  · rw [Memory.hasWord_iff, hat]
    omega

theorem exists_record (hd : inv.Describes h m.memory) (he : e ∈ inv.extents) (hsize : 8 ≤ e.size)
    {a : Addr} (ha : a.toNat = e.payload) :
    ∃ lengthAt : Addr, lengthAt.toNat = a.toNat + 4 ∧ ∃ r : SliceRecord,
      m.memory.load? a = some r.data ∧ m.memory.load? lengthAt = some r.length := by
  have hload : ∀ b : Addr, m.memory.HasWord b → ∃ w, m.memory.load? b = some w := by
    intro b hb
    refine Option.ne_none_iff_exists'.1 fun hnone => ?_
    exact Memory.load?_eq_none_iff.1 hnone hb
  obtain ⟨lengthAt, hat, hdw, hlw⟩ := hd.hasWord_record he hsize ha
  obtain ⟨data, hdata⟩ := hload a hdw
  obtain ⟨length, hlength⟩ := hload lengthAt hlw
  exact ⟨lengthAt, hat, ⟨data, length⟩, hdata, hlength⟩

theorem writeRecord_of_live (hd : inv.Describes h m.memory) (he : e ∈ inv.live)
    (hsize : 8 ≤ e.size) (r : SliceRecord) :
    ∃ m', (r.write e.block.slot : Act Heap Unit) h m = ⟨.ok (), h, m'⟩ ∧
      inv.Describes h m'.memory ∧ Memory.ChangesOnly e.Covers m.memory m'.memory ∧
      m'.memory.Holds e.payload r.data ∧ m'.memory.Holds (e.payload + 4) r.length := by
  have hmem := mem_extents_of_live he
  have hhandle := hd.toNat_slot_eq_payload hmem
  obtain ⟨lengthAt, hat, hdw, hlw⟩ := hd.hasWord_record hmem hsize hhandle
  have hact := SliceRecord.write_of_hasWord (s := h) (m := m) (r := r) hat hdw hlw
  have hpayload : e.payload = e.header + 4 := rfl
  have hlw' : (m.memory.store e.block.slot r.data).HasWord lengthAt := Memory.hasWord_store.2 hlw
  have hchange : Memory.ChangesOnly (fun i => e.payload ≤ i ∧ i < e.stop) m.memory
      ((m.memory.store e.block.slot r.data).store lengthAt r.length) := by
    refine (Memory.ChangesOnly.store hdw ?_).trans (Memory.ChangesOnly.store hlw' ?_)
    · intro i hl hu
      exact ⟨by omega, by simp only [Extent.stop]; omega⟩
    · intro i hl hu
      exact ⟨by omega, by simp only [Extent.stop]; omega⟩
  have hkept := hd.congr (Nat.le_of_eq hchange.size.symm) fun i hi =>
    hchange.byte i fun hin => hd.sound.not_guards_of_payload he hin.1 hin.2 hi
  refine ⟨_, hact, hkept, hchange.mono ?_, ?_, ?_⟩
  · rintro i ⟨hl, hu⟩
    exact ⟨by omega, hu⟩
  · have hdata : (m.memory.store e.block.slot r.data).Holds e.payload r.data := by
      rw [← hhandle]
      exact Memory.holds_store hdw
    exact hdata.congr fun j hl hu => Memory.byte?_store_of_off hlw' (by omega)
  · have hlast := Memory.holds_store (w := r.length) hlw'
    rwa [hat, hhandle] at hlast

section Slice

variable {length element : Word}

theorem contentSize_of_lt (hlt : length.toNat * element.toNat < Word.bound) :
    Heap.contentSize length element = .ok (length * element) ∧
      (length * element).toNat = length.toNat * element.toNat := by
  refine ⟨if_pos hlt, ?_⟩
  simp only [Word.bound] at hlt
  rw [UInt32.toNat_mul]
  omega

/-- A slice call that is served: both blocks, and the record of one filled in with the other. -/
theorem allocateSlice_of_pair {record content : Extent} (hd : inv.Describes h m.memory)
    (hs : inv.allocateSlice m.memory.size length.toNat element.toNat =
      ([content, record], inv')) :
    8 ≤ record.size ∧
    ∃ h' m', Heap.allocateSlice length element h m = ⟨.ok record.block.slot, h', m'⟩ ∧
      Heap.sliceBlocks length element h m = [content.block.slot, record.block.slot] ∧
      inv'.Describes h' m'.memory ∧
      Memory.ChangesOnly (inv.Vacant inv'.frontier) m.memory m'.memory ∧
      m'.memory.Holds record.payload content.block.slot ∧
      m'.memory.Holds (record.payload + 4) length ∧
      h'.counters = inv.countSlice m.memory.size length.toNat element.toNat h.counters := by
  obtain ⟨hnil, -⟩ | ⟨r, hone, -⟩ | ⟨c, r, left, hpair, hlt, hr, hc⟩ := allocateSlice_cases hs
  · cases hnil
  · cases hone
  · cases hpair
    obtain ⟨hbytes, hproduct⟩ := contentSize_of_lt hlt
    have hbytes₈ : inv.allocate m.memory.size SliceRecord.bytes.toNat = some (record, left) := hr
    obtain ⟨h₁, m₁, hact₁, hd₁, hchange₁, hcount₁⟩ := hd.allocate_of_some hbytes₈
    rw [← hproduct, ← hchange₁.size] at hc
    obtain ⟨h₂, m₂, hact₂, hd₂, hchange₂, hcount₂⟩ := hd₁.allocate_of_some hc
    obtain ⟨hlr, hsize⟩ := lends_of_allocate hr
    obtain ⟨hlc, -⟩ := lends_of_allocate hc
    have hrecord₁ : record ∈ left.live := by
      rw [hlr.live]
      exact List.mem_cons_self
    have hrecord : record ∈ inv'.live := by
      rw [hlc.live]
      exact List.mem_cons_of_mem content hrecord₁
    obtain ⟨m₃, hact₃, hd₃, hchange₃, hdata, hlength⟩ :=
      hd₂.writeRecord_of_live hrecord hsize ⟨content.block.slot, length⟩
    -- the record is new, so writing it is writing vacant bytes
    have hold : ∀ f ∈ inv.live, f ∈ left.live := fun f hf => by
      rw [hlr.live]
      exact List.mem_cons_of_mem record hf
    have hfresh : record ∉ inv.live := by
      have hnodup := (List.nodup_append.1 hd₁.sound.nodup).1
      rw [hlr.live] at hnodup
      exact (List.nodup_cons.1 hnodup).1
    have hvacant : ∀ i, record.Covers i → inv.Vacant inv'.frontier i := fun i hi =>
      (hd₁.sound.vacant_of_covers hlr.start hold (mem_extents_of_live hrecord₁) hfresh hi).mono
        hlc.frontier
    have hcounters : h₂.counters =
        inv.countSlice m.memory.size length.toNat element.toNat h.counters := by
      rw [hcount₂, hcount₁, hchange₁.size, hproduct]
      simp only [countSlice, if_pos hlt, hr]
      rfl
    refine ⟨hsize, h₂, m₃, ?_, ?_, hd₃, ?_, hdata, hlength, hcounters⟩
    · refine (Act.bind_of_ok (Act.check_of_ok hbytes)).trans ?_
      refine (Act.bind_of_ok hact₁).trans ?_
      refine (Act.bind_of_ok hact₂).trans ?_
      exact Act.bind_of_ok hact₃
    · simp only [Heap.sliceBlocks, hbytes, hact₁, hact₂]
    · refine (hchange₁.mono fun i hi => hi.mono hlc.frontier).trans ?_
      refine (hchange₂.mono fun i hi => ?_).trans (hchange₃.mono hvacant)
      exact ⟨hlr.start ▸ hi.start_le, hi.lt_limit, fun f hf => hi.not_covers f (hold f hf)⟩

/-- A slice call that faults: at most the record was taken, and it stays out. -/
theorem allocateSlice_of_not_pair {lent : List Extent} (hd : inv.Describes h m.memory)
    (hs : inv.allocateSlice m.memory.size length.toNat element.toNat = (lent, inv'))
    (hlent : lent.length ≠ 2) :
    ∃ fault h' m', Heap.allocateSlice length element h m = ⟨.error fault, h', m'⟩ ∧
      Heap.sliceBlocks length element h m = lent.map (fun e => e.block.slot) ∧
      inv'.Describes h' m'.memory ∧
      Memory.ChangesOnly (inv.Vacant inv'.frontier) m.memory m'.memory ∧
      h'.counters = inv.countSlice m.memory.size length.toNat element.toNat h.counters := by
  obtain ⟨rfl, rfl, hnone⟩ | ⟨r, rfl, hlt, hr, hc⟩ | ⟨c, r, left, rfl, -⟩ :=
    allocateSlice_cases hs
  · by_cases hlt : length.toNat * element.toNat < Word.bound
    · obtain ⟨hbytes, -⟩ := contentSize_of_lt hlt
      have hr : inv'.allocate m.memory.size SliceRecord.bytes.toNat = none :=
        hnone.resolve_left (Nat.not_le.2 hlt)
      obtain ⟨n, hact⟩ := hd.allocate_of_none hr
      refine ⟨h.shortfall m.memory SliceRecord.bytes, h, _, ?_, ?_, hd.countReads n, ?_, ?_⟩
      · exact (Act.bind_of_ok (Act.check_of_ok hbytes)).trans (Act.bind_of_error hact)
      · simp only [Heap.sliceBlocks, hbytes, hact, List.map_nil]
      · rw [Ambient.memory_countReads]
        exact Memory.ChangesOnly.refl _ _
      · have hrecord : inv'.allocate m.memory.size 8 = none := hr
        simp only [countSlice, if_pos hlt, hrecord]
    · have hbytes : Heap.contentSize length element = .error (.sliceTooLarge length element) :=
        if_neg hlt
      refine ⟨_, h, m, Act.bind_of_error (Act.check_of_error hbytes), ?_, hd,
        Memory.ChangesOnly.refl _ _, ?_⟩
      · simp only [Heap.sliceBlocks, hbytes, List.map_nil]
      · simp only [countSlice, if_neg hlt]
  · obtain ⟨hbytes, hproduct⟩ := contentSize_of_lt hlt
    have hbytes₈ : inv.allocate m.memory.size SliceRecord.bytes.toNat = some (r, inv') := hr
    obtain ⟨h₁, m₁, hact₁, hd₁, hchange₁, hcount₁⟩ := hd.allocate_of_some hbytes₈
    have hcontent := hc
    rw [← hproduct, ← hchange₁.size] at hc
    obtain ⟨n, hact₂⟩ := hd₁.allocate_of_none hc
    refine ⟨h₁.shortfall m₁.memory (length * element), h₁, _, ?_, ?_, hd₁.countReads n, ?_, ?_⟩
    · refine (Act.bind_of_ok (Act.check_of_ok hbytes)).trans ?_
      exact (Act.bind_of_ok hact₁).trans (Act.bind_of_error hact₂)
    · simp only [Heap.sliceBlocks, hbytes, hact₁, hact₂, List.map_cons, List.map_nil]
    · rwa [Ambient.memory_countReads]
    · rw [hcount₁]
      simp only [countSlice, if_pos hlt, hr, countAllocate_of_none hcontent]
      rfl
  · exact absurd rfl hlent

/-- A slice whose record is read is freed content first; both blocks get a new link and nothing
    else. -/
theorem freeSlice_of_load? {record content : Extent} {handle data lengthAt : Addr}
    (hd : inv.Describes h m.memory) (hr : record ∈ inv.live) (hc : content ∈ inv.live)
    (hne : record ≠ content) (hhandle : handle.toNat = record.payload)
    (hdata : data.toNat = content.payload) (hat : lengthAt.toNat = handle.toNat + 4)
    (hload : m.memory.load? handle = some data)
    (hlength : m.memory.load? lengthAt = some length) :
    ∃ h' m', Heap.freeSlice handle h m = ⟨.ok (), h', m'⟩ ∧
      ((inv.free data.toNat).free handle.toNat).Describes h' m'.memory ∧
      Memory.ChangesOnly (fun i => (data.toNat ≤ i ∧ i < data.toNat + 4) ∨
        (handle.toNat ≤ i ∧ i < handle.toNat + 4)) m.memory m'.memory ∧
      h'.counters = (inv.free data.toNat).countFree handle.toNat
        (inv.countFree data.toNat h.counters) := by
  have hread := SliceRecord.read_of_load? (s := h) hat hload hlength
  obtain ⟨h₁, m₁, hact₁, hd₁, hchange₁, hcount₁⟩ :=
    free_of_live (m := m.countRead.countRead) hd hc hdata
  have hr₁ : record ∈ (inv.free data.toNat).live := by
    rw [hdata, hd.sound.mem_live_free hc]
    exact ⟨hr, hne⟩
  obtain ⟨h₂, m₂, hact₂, hd₂, hchange₂, hcount₂⟩ := hd₁.free_of_live hr₁ hhandle
  rw [hcount₁] at hcount₂
  refine ⟨h₂, m₂, ?_, hd₂, ?_, hcount₂⟩
  · refine (Act.bind_of_ok hread).trans ?_
    exact (Act.bind_of_ok hact₁).trans hact₂
  · exact (hchange₁.mono fun i hi => Or.inl hi).trans (hchange₂.mono fun i hi => Or.inr hi)

/-- A record in a block that has room for it is read. -/
theorem freeSlice_of_live {record content : Extent} {handle data : Addr}
    (hd : inv.Describes h m.memory) (hr : record ∈ inv.live) (hc : content ∈ inv.live)
    (hne : record ≠ content) (hsize : 8 ≤ record.size) (hhandle : handle.toNat = record.payload)
    (hdata : data.toNat = content.payload) (hholds : m.memory.Holds handle.toNat data) :
    ∃ h' m', Heap.freeSlice handle h m = ⟨.ok (), h', m'⟩ ∧
      ((inv.free data.toNat).free handle.toNat).Describes h' m'.memory ∧
      Memory.ChangesOnly (fun i => (data.toNat ≤ i ∧ i < data.toNat + 4) ∨
        (handle.toNat ≤ i ∧ i < handle.toNat + 4)) m.memory m'.memory ∧
      h'.counters = (inv.free data.toNat).countFree handle.toNat
        (inv.countFree data.toNat h.counters) := by
  obtain ⟨lengthAt, hat, ⟨data', length⟩, hload, hlength⟩ :=
    hd.exists_record (mem_extents_of_live hr) hsize hhandle
  have hdata' : data' = data := by
    rw [Memory.load?_eq_some_iff_holds.2 hholds] at hload
    exact (Option.some.inj hload).symm
  subst hdata'
  exact hd.freeSlice_of_load? hr hc hne hhandle hdata hat hload hlength

/-- Linking a block leaves its header, and room for another link. -/
theorem again_of_linking (hd : inv.Describes h m.memory) (he : e ∈ inv.extents) (size : Word)
    (next : Link) :
    e.block.size? (m.linking e.block size next).memory = some (UInt32.ofNat e.size) ∧
      e.block.header.toNat + 8 ≤ (m.linking e.block size next).memory.size ∧
      (m.linking e.block size next).memory.HasWord e.block.slot := by
  refine ⟨?_, ?_, ?_⟩
  · rw [Block.size?, Memory.load?_eq_some_iff_holds, hd.sound.toNat_header he]
    exact hd.header_store_slot he he
  · rw [Ambient.linking, Memory.size_store]
    exact hd.block_le he
  · rw [Memory.hasWord_iff, Ambient.linking, Memory.size_store]
    exact hd.hasWord_slot he

/-- A record that names itself: its block is freed twice, and the second time it is linked to
    itself. -/
theorem freeSlice_of_self {handle : Addr} (hd : inv.Describes h m.memory) (he : e ∈ inv.live)
    (hsize : 8 ≤ e.size) (hhandle : handle.toNat = e.payload)
    (hself : m.memory.load? handle = some handle) :
    ∃ h' m', Heap.freeSlice handle h m = ⟨.ok (), h', m'⟩ ∧
      ∀ bs, ¬ FreeChain.Linked m'.memory (h'.chainHead (SizeClass.ofNat? e.size)) bs := by
  have hmem := mem_extents_of_live he
  obtain ⟨lengthAt, hlengthAt, r, hload, hlength⟩ := hd.exists_record hmem hsize hhandle
  have hdata : r.data = handle := (Option.some.inj (hself.symm.trans hload)).symm
  have hread := SliceRecord.read_of_load? (s := h) hlengthAt hload hlength
  have hheader : handle.toNat = e.block.header.toNat + 4 := by
    rw [hd.sound.toNat_header hmem]
    exact hhandle
  have hclass : SizeClass.ofSize? (UInt32.ofNat e.size) = SizeClass.ofNat? e.size := by
    rw [SizeClass.ofSize?_eq_ofNat?, hd.toNat_size hmem]
  have hfirst := Heap.free_of_size? (h := h) (m := m.countRead.countRead) hheader
    (hd.size?_block hmem) (hd.block_le hmem)
  rw [hclass, ← hdata] at hfirst
  -- the first free left the header alone, so the second goes the same way
  obtain ⟨hsize', hle, hword⟩ := again_of_linking (m := m.countRead.countRead) hd hmem
    (UInt32.ofNat e.size) (h.chainHead (SizeClass.ofNat? e.size))
  have hsecond := Heap.free_of_size? (h := h.joined (SizeClass.ofNat? e.size) e.block) hheader
    hsize' hle
  rw [hclass, Heap.chainHead_joined_same] at hsecond
  refine ⟨_, _, (Act.bind_of_ok hread).trans ((Act.bind_of_ok hfirst).trans hsecond), ?_⟩
  rw [Heap.chainHead_joined_same]
  apply FreeChain.not_linked_of_self_link
  rw [Block.link?_eq_some_iff (hd.block_lt hmem)]
  refine ⟨e.block.header, ?_, Link.ofWord_toWord (l := some e.block) ?_⟩
  · rw [hd.sound.toNat_header hmem, ← hd.toNat_slot hmem]
    exact Memory.holds_store hword
  · intro hend
    have hlt := hd.block_lt hmem
    rw [Option.some.inj hend] at hlt
    exact absurd hlt (by decide)

end Slice

end Describes

end Inventory

end LinearHeap
