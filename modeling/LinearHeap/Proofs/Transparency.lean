/-
  LinearHeap/Proofs/Transparency.lean
  ===================================
  **A ledger that refuses nothing is not noticed.**  A call that is not refused does
  to heap, counts and memory what the heap alone does (`Session.Follows`), with a
  ledger or without one.  What a ledger costs is reads, and none of them faults
  where the heap itself would not have: the headers of what was handed out lie in
  memory, and a record that is vetted is read again by the heap.

  Nothing is assumed about the memory.  An exposed session is one whose memory is
  edited and cut between calls in any way at all, and `trace` is everything that
  can be seen of it.
-/
import LinearHeap.Proofs.Conduct
import LinearHeap.Proofs.Sessions
import LinearHeap.Proofs.Visits

namespace LinearHeap

theorem Act.exists_of_bind_ok {σ α β : Type} {x : Act σ α} {f : α → Act σ β} {s s' : σ}
    {m m' : Ambient} {b : β} (h : (x >>= f) s m = ⟨.ok b, s', m'⟩) :
    ∃ a s₁ m₁, x s m = ⟨.ok a, s₁, m₁⟩ ∧ f a s₁ m₁ = ⟨.ok b, s', m'⟩ := by
  rcases hx : x s m with ⟨e | a, s₁, m₁⟩
  · rw [Act.bind_of_error hx] at h
    cases h
  · rw [Act.bind_of_ok hx] at h
    exact ⟨a, s₁, m₁, rfl, h⟩

theorem Act.eq_of_store_ok {σ : Type} {a : Addr} {w : Word} {s s' : σ} {m m' : Ambient} {u : Unit}
    (h : (Act.store a w : Act σ Unit) s m = ⟨.ok u, s', m'⟩) :
    m.memory.HasWord a ∧ m' = m.storing a w := by
  by_cases hw : m.memory.HasWord a
  · rw [Act.store_storing hw] at h
    cases h
    exact ⟨hw, rfl⟩
  · rw [Act.store_of_not_hasWord hw] at h
    cases h

theorem Act.eq_of_check_ok {σ α : Type} {x : Except Fault α} {a : α} {s s' : σ} {m m' : Ambient}
    (h : (Act.check x : Act σ α) s m = ⟨.ok a, s', m'⟩) : x = .ok a ∧ s' = s ∧ m' = m := by
  cases x with
  | error e => cases h
  | ok b =>
      cases h
      exact ⟨rfl, rfl, rfl⟩

/-! ### Records in memory -/

namespace SliceRecord

/-- What reading a record comes to. -/
def inMemory (handle : Addr) (m : Memory) : Except Fault SliceRecord :=
  match m.load? handle with
  | none => .error (.wordOutside handle m.size)
  | some data =>
      match Word.sum handle 4 with
      | .error e => .error e
      | .ok lengthAt =>
          match m.load? lengthAt with
          | none => .error (.wordOutside lengthAt m.size)
          | some length => .ok ⟨data, length⟩

theorem exists_of_inMemory {handle : Addr} {m : Memory} {r : SliceRecord}
    (h : inMemory handle m = .ok r) :
    ∃ lengthAt : Addr, lengthAt.toNat = handle.toNat + 4 ∧ m.load? handle = some r.data ∧
      m.load? lengthAt = some r.length := by
  unfold inMemory at h
  split at h
  · cases h
  · rename_i data hdata
    split at h
    · cases h
    · rename_i lengthAt hsum
      split at h
      · cases h
      · rename_i length hlength
        cases h
        exact ⟨lengthAt, Word.sum_eq_ok_iff.1 hsum, hdata, hlength⟩

theorem exists_read {σ : Type} (handle : Addr) (s : σ) (m : Ambient) :
    ∃ m', read handle s m = ⟨inMemory handle m.memory, s, m'⟩ ∧ m'.memory = m.memory := by
  cases hdata : m.memory.load? handle with
  | none =>
      refine ⟨m.countRead, ?_, rfl⟩
      simp only [inMemory, hdata]
      exact Act.bind_of_error (Act.load_of_none hdata)
  | some data =>
      cases hsum : Word.sum handle 4 with
      | error e =>
          refine ⟨m.countRead, ?_, rfl⟩
          simp only [inMemory, hdata, hsum]
          exact (Act.bind_of_ok (Act.load_of_some hdata)).trans
            (Act.bind_of_error (Act.check_of_error hsum))
      | ok lengthAt =>
          refine ⟨m.countRead.countRead, ?_, rfl⟩
          have hread : read handle s m =
              (do return ⟨data, ← Act.load lengthAt⟩ : Act σ SliceRecord) s m.countRead :=
            (Act.bind_of_ok (Act.load_of_some hdata)).trans
              (Act.bind_of_ok (Act.check_of_ok hsum))
          rw [hread]
          cases hlength : m.memory.load? lengthAt with
          | none =>
              simp only [inMemory, hdata, hsum, hlength]
              exact Act.bind_of_error (Act.load_of_none hlength)
          | some length =>
              simp only [inMemory, hdata, hsum, hlength]
              exact Act.bind_of_ok (Act.load_of_some hlength)

/-- A record that was written is read back. -/
theorem inMemory_of_write {σ : Type} {r : SliceRecord} {handle : Addr} {s s' : σ}
    {m m' : Ambient} {u : Unit} (h : r.write handle s m = ⟨.ok u, s', m'⟩) :
    inMemory handle m'.memory = .ok r ∧ m'.memory.size = m.memory.size := by
  obtain ⟨_, s₁, m₁, hstore, hrest⟩ := Act.exists_of_bind_ok h
  obtain ⟨lengthAt, s₂, m₂, hcheck, hstore'⟩ := Act.exists_of_bind_ok hrest
  obtain ⟨hw, rfl⟩ := Act.eq_of_store_ok hstore
  obtain ⟨hsum, -, hm₂⟩ := Act.eq_of_check_ok (x := Word.sum handle 4) hcheck
  rw [hm₂] at hstore'
  obtain ⟨hw', rfl⟩ := Act.eq_of_store_ok hstore'
  have hat := Word.sum_eq_ok_iff.1 hsum
  have h4 : (4 : Word).toNat = 4 := rfl
  have hdata : (((m.storing handle r.data).storing lengthAt r.length).memory).load? handle =
      some r.data :=
    (Memory.load?_store_of_disjoint hw' (Or.inr (by omega))).trans (Memory.load?_store hw)
  have hlength : (((m.storing handle r.data).storing lengthAt r.length).memory).load? lengthAt =
      some r.length := Memory.load?_store hw'
  refine ⟨by simp only [inMemory, hdata, hsum, hlength], ?_⟩
  rw [Ambient.memory_storing, Memory.size_store, Ambient.memory_storing, Memory.size_store]

end SliceRecord

namespace Heap

/-- The header below a payload address lies in the memory. -/
def HasHeader (a : Addr) (m : Memory) : Prop :=
  ∃ b : Block, a.toNat = b.header.toNat + 4 ∧ b.header.toNat + 4 ≤ m.size

variable {h h' : Heap} {m m' : Ambient}

theorem HasHeader.of_size_eq {a : Addr} {memory memory' : Memory} (hh : HasHeader a memory)
    (hsize : memory'.size = memory.size) : HasHeader a memory' := by
  obtain ⟨b, ha, hb⟩ := hh
  exact ⟨b, ha, hsize ▸ hb⟩

theorem HasHeader.exists_size {a : Addr} {memory : Memory} (hh : HasHeader a memory) :
    ∃ (b : Block) (size : Word), a.toNat = b.header.toNat + 4 ∧ b.size? memory = some size := by
  obtain ⟨b, ha, hb⟩ := hh
  obtain ⟨size, hsize⟩ : ∃ size, b.size? memory = some size := by
    refine Option.ne_none_iff_exists'.1 fun hnone => ?_
    exact Memory.load?_eq_none_iff.1 hnone (Memory.hasWord_iff.2 hb)
  exact ⟨b, size, ha, hsize⟩

theorem hasHeader_of_allocate {request : Word} {a : Addr}
    (hact : allocate request h m = ⟨.ok a, h', m'⟩) : HasHeader a m'.memory := by
  have hsize := (steady_allocate request).size h m rfl
  obtain ⟨b, ha, hb⟩ := (steady_allocate request).value h m a rfl (by rw [hact])
  rw [hact] at hsize
  exact ⟨b, ha, hsize ▸ hb⟩

/-- A slice that was allocated took two blocks, has a record that can be read, and headers below
    the record and below what it points at. -/
theorem inMemory_of_allocateSlice {length element : Word} {handle : Addr}
    (hact : allocateSlice length element h m = ⟨.ok handle, h', m'⟩) :
    ∃ data, sliceBlocks length element h m = [data, handle] ∧
      SliceRecord.inMemory handle m'.memory = .ok ⟨data, length⟩ ∧
      HasHeader handle m'.memory ∧ HasHeader data m'.memory := by
  obtain ⟨bytes, h₀, m₀, hcheck, hact⟩ := Act.exists_of_bind_ok hact
  obtain ⟨hbytes, hh₀, hm₀⟩ := Act.eq_of_check_ok (x := contentSize length element) hcheck
  rw [hh₀, hm₀] at hact
  obtain ⟨a, h₁, m₁, hhandle, hact⟩ := Act.exists_of_bind_ok hact
  obtain ⟨data, h₂, m₂, hdata, hact⟩ := Act.exists_of_bind_ok hact
  obtain ⟨_, h₃, m₃, hwrite, hact⟩ := Act.exists_of_bind_ok hact
  cases hact
  obtain ⟨hread, hsize⟩ := SliceRecord.inMemory_of_write hwrite
  -- the second allocation keeps the size of memory, and so the header below the record
  have hkept := (steady_allocate bytes).size h₁ m₁ rfl
  rw [hdata] at hkept
  have hrecord := (hasHeader_of_allocate hhandle).of_size_eq hkept
  refine ⟨data, ?_, hread, hrecord.of_size_eq hsize,
    (hasHeader_of_allocate hdata).of_size_eq hsize⟩
  simp only [sliceBlocks, hbytes, hhandle, hdata]

end Heap

/-! ### What a call does beside its heap act -/

/-- What a call asks of the heap. -/
def Call.onHeap : Call → Act Heap (Option Addr)
  | .newObject size => do return some (← Heap.allocate size)
  | .dropObject a _ => do
      Heap.free a
      return none
  | .newSlice length element => do return some (← Heap.allocateSlice length element)
  | .dropSlice handle _ => do
      Heap.freeSlice handle
      return none

theorem Call.steady_onHeap {n : Nat} (c : Call) : c.onHeap.Steady n fun _ => True := by
  cases c with
  | newObject size =>
      exact Act.Steady.bind (Heap.steady_allocate size) fun _ _ => Act.steady_pure trivial
  | dropObject a size =>
      exact Act.Steady.bind (Heap.steady_free a) fun _ _ => Act.steady_pure trivial
  | newSlice length element =>
      exact Act.Steady.bind (Heap.steady_allocateSlice length element) fun _ _ =>
        Act.steady_pure trivial
  | dropSlice handle element =>
      exact Act.Steady.bind (Heap.steady_freeSlice handle) fun _ _ => Act.steady_pure trivial

namespace Session

variable {s s' : Session} {m m' : Ambient}

/-- Nothing but ledger, meter and journal is different. -/
structure Unseen (s s' : Session) (m m' : Ambient) : Prop where
  heap : s'.heap = s.heap
  tally : s'.tally = s.tally
  tracking : s'.isTracking = s.isTracking
  memory : m'.memory = m.memory

theorem Unseen.trans {s'' : Session} {m'' : Ambient} (h : s.Unseen s' m m')
    (h' : s'.Unseen s'' m' m'') : s.Unseen s'' m m'' where
  heap := h'.heap.trans h.heap
  tally := h'.tally.trans h.tally
  tracking := h'.tracking.trans h.tracking
  memory := h'.memory.trans h.memory

theorem exists_enter {a : Addr} (s : Session) (hh : Heap.HasHeader a m.memory) :
    ∃ s' m', enter a s m = ⟨.ok (), s', m'⟩ ∧ s.Unseen s' m m' := by
  obtain ⟨b, size, ha, hsize⟩ := hh.exists_size
  cases hl : s.ledger with
  | none =>
      have htracking : s.isTracking = false := by rw [isTracking, hl, Option.isSome_none]
      refine ⟨s, m, ?_, rfl, rfl, rfl, rfl⟩
      refine (Act.bind_of_ok (x := Act.own) rfl).trans ?_
      rw [htracking]
      rfl
  | some l =>
      refine ⟨_, _, enter_of_size? hl ha hsize, rfl, rfl, ?_, rfl⟩
      exact (isTracking_of_ledger rfl).trans (isTracking_of_ledger hl).symm

/-- Both addresses of a slice that the heap has just handed out can be entered. -/
theorem exists_enterSlice {length element : Word} {handle : Addr} {h h' : Heap} (s : Session)
    (hact : Heap.allocateSlice length element h m = ⟨.ok handle, h', m'⟩) :
    ∃ s'' m'', (do
      if (← Act.own).isTracking then
        let slice ← SliceRecord.read handle
        enter handle
        enter slice.data
      return handle : Act Session Addr) s m' = ⟨.ok handle, s'', m''⟩ ∧ s.Unseen s'' m' m'' := by
  obtain ⟨data, -, hrecord, hhandle, hdata⟩ := Heap.inMemory_of_allocateSlice hact
  cases htracking : s.isTracking with
  | false =>
      refine ⟨s, m', ?_, rfl, rfl, rfl, rfl⟩
      refine (Act.bind_of_ok (x := Act.own) rfl).trans ?_
      rw [htracking]
      rfl
  | true =>
      obtain ⟨m₁, hread, hm₁⟩ := SliceRecord.exists_read handle s m'
      rw [hrecord] at hread
      have hunread : s.Unseen s m' m₁ := ⟨rfl, rfl, rfl, hm₁⟩
      obtain ⟨s₂, m₂, henter, hunseen⟩ := exists_enter s (hm₁ ▸ hhandle)
      obtain ⟨s₃, m₃, henter', hunseen'⟩ := exists_enter (m := m₂) s₂
        (hdata.of_size_eq (by rw [hunseen.memory, hm₁]))
      refine ⟨s₃, m₃, ?_, hunread.trans (hunseen.trans hunseen')⟩
      refine (Act.bind_of_ok (x := Act.own) rfl).trans ?_
      rw [htracking]
      refine (Act.bind_of_ok hread).trans ?_
      exact (Act.bind_of_ok henter).trans (Act.bind_of_ok henter')

theorem unseen_struck (s : Session) (a : Addr) (m : Ambient) : s.Unseen (s.struck a) m m := by
  refine ⟨rfl, rfl, ?_, rfl⟩
  cases hl : s.ledger with
  | none => simp only [isTracking, struck, hl, Option.map_none]
  | some l => simp only [isTracking, struck, hl, Option.map_some, Option.isSome_some]

/-- A call of the function left in the session what an act left on its heap: the same answer or
    fault, heap and memory.  Apart from that the call was counted. -/
structure Follows (s : Session) (f : Import)
    (left : Outcome Session (Except CallError (Option Addr))) (done : Outcome Heap (Option Addr)) :
    Prop where
  result : left.result = done.result.map .ok
  heap : left.own.heap = done.own
  tally : left.own.tally = s.tally.record f
  tracking : left.own.isTracking = s.isTracking
  memory : left.ambient.memory = done.ambient.memory

/-- A call that is counted, leaves all else to an act of the heap, and then only keeps the
    books.  Words may have been read before. -/
theorem follows_of_books {α : Type} {f : Import} {c : Call} (x : Act Heap α)
    (books : α → Act Session (Except CallError (Option Addr))) {g : α → Option Addr}
    {m₁ : Ambient} (hm₁ : m₁.memory = m.memory)
    (hcall : answer c s m = (Act.within heapPart x >>= books) (s.counted f) m₁)
    (honHeap : c.onHeap = do return g (← x))
    (hbooks : ∀ {a h' m'}, x s.heap m₁ = ⟨.ok a, h', m'⟩ → ∃ s'' m'',
      books a (heapPart.set (s.counted f) h') m' = ⟨.ok (.ok (g a)), s'', m''⟩ ∧
        (heapPart.set (s.counted f) h').Unseen s'' m' m'') :
    s.Follows f (answer c s m) (c.onHeap s.heap m) := by
  have hafter : s.Follows f (answer c s m) (c.onHeap s.heap m₁) := by
    rw [hcall, honHeap]
    rcases hact : x s.heap m₁ with ⟨e | a, h', m'⟩
    · have hheap := Act.within_of_eq (p := heapPart) (t := s.counted f) hact
      rw [Act.bind_of_error hheap, Act.bind_of_error hact]
      exact ⟨rfl, rfl, rfl, rfl, rfl⟩
    · have hheap := Act.within_of_eq (p := heapPart) (t := s.counted f) hact
      obtain ⟨s'', m'', hdone, hunseen⟩ := hbooks hact
      rw [Act.bind_of_ok hheap, hdone, Act.bind_of_ok hact]
      exact ⟨rfl, hunseen.heap, hunseen.tally, hunseen.tracking, hunseen.memory⟩
  have hsame := c.steady_onHeap.same s.heap m m₁ rfl hm₁
  exact ⟨hsame.result ▸ hafter.result, hafter.heap.trans hsame.own, hafter.tally, hafter.tracking,
    hafter.memory.trans hsame.memory⟩

theorem newObject_follows (size : Word) (s : Session) (m : Ambient) :
    s.Follows .newObject (answer (.newObject size) s m)
      ((Call.newObject size).onHeap s.heap m) := by
  refine follows_of_books (Heap.allocate size) (fun a => do
    enter a
    return .ok (some a)) rfl ?_ rfl ?_
  · simp only [answer, newObject, bind_assoc, pure_bind]
    exact Act.bind_of_ok (record_eq .newObject s m)
  · intro a h' m' hact
    obtain ⟨s₂, m₂, henter, hunseen⟩ :=
      exists_enter (heapPart.set (s.counted .newObject) h') (Heap.hasHeader_of_allocate hact)
    exact ⟨s₂, m₂, Act.bind_of_ok henter, hunseen⟩

theorem newSlice_follows (length element : Word) (s : Session) (m : Ambient) :
    s.Follows .newSlice (answer (.newSlice length element) s m)
      ((Call.newSlice length element).onHeap s.heap m) := by
  refine follows_of_books (Heap.allocateSlice length element) (fun handle => do
    let entered : Act Session Addr := do
      if (← Act.own).isTracking then
        let slice ← SliceRecord.read handle
        enter handle
        enter slice.data
      return handle
    return .ok (some (← entered))) rfl ?_ rfl ?_
  · simp only [answer, newSlice, bind_assoc]
    exact Act.bind_of_ok (record_eq .newSlice s m)
  · intro handle h' m' hact
    obtain ⟨s₂, m₂, hentered, hunseen⟩ :=
      exists_enterSlice (heapPart.set (s.counted .newSlice) h') hact
    exact ⟨s₂, m₂, Act.bind_of_ok hentered, hunseen⟩

/-- A free that is vetted, or not vetted at all. -/
theorem dropObject_follows {a : Addr} {size : Word} (hv : s.vetFree a size = .ok ()) :
    s.Follows .dropObject (answer (.dropObject a size) s m)
      ((Call.dropObject a size).onHeap s.heap m) := by
  have hv' : (s.counted .dropObject).vetFree a size = .ok () := hv
  refine follows_of_books (Heap.free a) (fun _ => do
    strike a
    return .ok none) rfl ?_ rfl ?_
  · simp only [answer, dropObject, bind_assoc]
    refine (Act.bind_of_ok (record_eq .dropObject s m)).trans ?_
    refine (Act.bind_of_ok (x := Act.own) rfl).trans ?_
    rw [hv']
    simp only [bind_assoc, pure_bind, dropAnswer]
  · intro _ h' m' _
    exact ⟨_, m', Act.bind_of_ok (strike_eq a _ m'), unseen_struck _ a m'⟩

theorem dropSlice_follows_of_not_tracking {handle : Addr} {element : Word}
    (htracking : s.isTracking = false) :
    s.Follows .dropSlice (answer (.dropSlice handle element) s m)
      ((Call.dropSlice handle element).onHeap s.heap m) := by
  have htracking' : (s.counted .dropSlice).isTracking = false := htracking
  have hvet : vetSlice handle element (s.counted .dropSlice) m =
      ⟨.ok (.ok ()), s.counted .dropSlice, m⟩ := vetSlice_of_not_tracking htracking'
  refine follows_of_books (Heap.freeSlice handle) (fun _ => return .ok none) rfl ?_ rfl ?_
  · simp only [answer, dropSlice, bind_assoc]
    refine (Act.bind_of_ok (record_eq .dropSlice s m)).trans ?_
    refine (Act.bind_of_ok hvet).trans ?_
    simp only [bind_assoc]
    refine (Act.bind_of_ok (x := Act.own) rfl).trans ?_
    rw [htracking']
    simp only [Bool.false_eq_true, if_false, bind_assoc, pure_bind, dropAnswer]
  · intro _ h' m' _
    exact ⟨_, m', rfl, rfl, rfl, rfl, rfl⟩

/-- With a ledger a slice is refused, or its record cannot be read, or it passes; nothing but
    reading is done. -/
theorem vetSlice_cases {l : Ledger} (hl : s.ledger = some l) (handle : Addr) (element : Word)
    (m : Ambient) :
    ∃ m', m'.memory = m.memory ∧
      ((∃ cause, vetSlice handle element s m = ⟨.ok (.error cause), s, m'⟩) ∨
        (∃ e, SliceRecord.inMemory handle m.memory = .error e ∧
          vetSlice handle element s m = ⟨.error e, s, m'⟩) ∨
        (∃ r, SliceRecord.inMemory handle m.memory = .ok r ∧
          vetSlice handle element s m = ⟨.ok (.ok ()), s, m'⟩)) := by
  cases hv : s.vetFree handle SliceRecord.bytes with
  | error cause => exact ⟨m, rfl, Or.inl ⟨cause, vetSlice_of_refused hl hv⟩⟩
  | ok _ =>
      obtain ⟨m₁, hread, hm₁⟩ := SliceRecord.exists_read handle s m
      have hvet : vetSlice handle element s m =
          (do
            let slice ← SliceRecord.read handle
            return s.vetFree slice.data (saturatingProduct slice.length element) :
              Act Session (Except Refusal Unit)) s m := by
        refine (Act.bind_of_ok (x := Act.own) rfl).trans ?_
        rw [isTracking_of_ledger hl, hv]
        rfl
      refine ⟨m₁, hm₁, ?_⟩
      cases hr : SliceRecord.inMemory handle m.memory with
      | error e =>
          rw [hr] at hread
          exact Or.inr (Or.inl ⟨e, rfl, hvet.trans (Act.bind_of_error hread)⟩)
      | ok r =>
          rw [hr] at hread
          have hdone := hvet.trans (Act.bind_of_ok hread)
          cases hv' : s.vetFree r.data (saturatingProduct r.length element) with
          | error cause =>
              rw [hv'] at hdone
              exact Or.inl ⟨cause, hdone⟩
          | ok _ =>
              rw [hv'] at hdone
              exact Or.inr (Or.inr ⟨r, rfl, hdone⟩)

/-- The heap meets the same fault on a record that cannot be read. -/
theorem dropSlice_follows_of_unreadable {handle : Addr} {element : Word} {e : Fault}
    {m₁ : Ambient} (hm₁ : m₁.memory = m.memory)
    (hr : SliceRecord.inMemory handle m.memory = .error e)
    (hvet : vetSlice handle element (s.counted .dropSlice) m =
      ⟨.error e, s.counted .dropSlice, m₁⟩) :
    s.Follows .dropSlice (answer (.dropSlice handle element) s m)
      ((Call.dropSlice handle element).onHeap s.heap m) := by
  have hanswer := dropSlice_of_vet_error hvet
  obtain ⟨m₂, hread, hm₂⟩ := SliceRecord.exists_read handle s.heap m
  rw [hr] at hread
  have hdone : (Call.dropSlice handle element).onHeap s.heap m = ⟨.error e, s.heap, m₂⟩ :=
    Act.bind_of_error (Act.bind_of_error hread)
  rw [hanswer, hdone]
  exact ⟨rfl, rfl, rfl, rfl, hm₁.trans hm₂.symm⟩

theorem dropSlice_follows_of_tracking {handle : Addr} {element : Word} {l : Ledger}
    (hl : s.ledger = some l)
    (hn : ∀ cause, (answer (.dropSlice handle element) s m).result ≠
      .ok (.error (.refused cause))) :
    s.Follows .dropSlice (answer (.dropSlice handle element) s m)
      ((Call.dropSlice handle element).onHeap s.heap m) := by
  obtain ⟨m₁, hm₁, ⟨cause, hvet⟩ | ⟨e, hr, hvet⟩ | ⟨r, hr, hvet⟩⟩ :=
    vetSlice_cases (s := s.counted .dropSlice) hl handle element m
  · obtain ⟨s', m', hanswer, -⟩ := dropSlice_of_refused hl hvet
    exact absurd (by rw [hanswer]) (hn cause)
  · exact dropSlice_follows_of_unreadable hm₁ hr hvet
  · obtain ⟨m₂, hread, hm₂⟩ := SliceRecord.exists_read handle (s.counted .dropSlice) m₁
    rw [hm₁, hr] at hread
    refine follows_of_books (Heap.freeSlice handle) (fun _ => do
      strike r.data
      strike handle
      return .ok none) (hm₂.trans hm₁) ?_ rfl ?_
    · simp only [answer, dropSlice, bind_assoc]
      refine (Act.bind_of_ok (record_eq .dropSlice s m)).trans ?_
      refine (Act.bind_of_ok hvet).trans ?_
      simp only [bind_assoc]
      refine (Act.bind_of_ok (x := Act.own) rfl).trans ?_
      rw [isTracking_of_ledger (s := s.counted .dropSlice) hl]
      simp only [if_true, bind_assoc, pure_bind, dropAnswer]
      exact Act.bind_of_ok hread
    · intro _ h' m' _
      refine ⟨_, m', ?_, (unseen_struck _ r.data m').trans (unseen_struck _ handle m')⟩
      exact (Act.bind_of_ok (strike_eq r.data _ m')).trans
        (Act.bind_of_ok (strike_eq handle _ m'))

/-- A call that is not refused does what it asks of the heap, ledger or no ledger. -/
theorem follows_of_not_refused {c : Call}
    (hn : s.isTracking = false ∨
      ∀ cause, (answer c s m).result ≠ .ok (.error (.refused cause))) :
    s.Follows c.func (answer c s m) (c.onHeap s.heap m) := by
  cases c with
  | newObject size => exact newObject_follows size s m
  | newSlice length element => exact newSlice_follows length element s m
  | dropObject a size =>
      apply dropObject_follows
      cases hl : s.ledger with
      | none => simp only [vetFree, hl]
      | some l =>
          cases hv : s.vetFree a size with
          | ok _ => rfl
          | error cause =>
              obtain ⟨s', m', hanswer, -⟩ := dropObject_of_refused (m := m) hl hv
              rcases hn with htracking | hn
              · rw [isTracking_of_ledger hl] at htracking
                cases htracking
              · exact absurd (by rw [hanswer]) (hn cause)
  | dropSlice handle element =>
      cases hl : s.ledger with
      | none =>
          apply dropSlice_follows_of_not_tracking
          rw [isTracking, hl, Option.isSome_none]
      | some l =>
          refine dropSlice_follows_of_tracking hl (hn.resolve_left fun htracking => ?_)
          rw [isTracking_of_ledger hl] at htracking
          cases htracking

end Session

/-! ### Exposed sessions -/

/-- A session and the memory it works on. -/
structure Exposed where
  session : Session
  ambient : Ambient

inductive Incident where
  | call (c : Call)
  /-- Memory is edited, cut or extended in whatever way. -/
  | edit (f : Memory → Memory)

/-- What can be seen of a session between calls. -/
structure Sight where
  /-- The bounds, the heads of all chains, and the counters. -/
  heap : Heap
  tally : Tally
  memory : Memory

namespace Exposed

def sight (e : Exposed) : Sight := ⟨e.session.heap, e.session.tally, e.ambient.memory⟩

def step (e : Exposed) : Incident → Exposed
  | .call c =>
      let left := Session.answer c e.session e.ambient
      ⟨left.own, left.ambient⟩
  | .edit f => ⟨e.session, { e.ambient with memory := f e.ambient.memory }⟩

/-- The answer to a call, or the fault that stopped it. -/
def reply? (e : Exposed) : Incident → Option (Except Fault (Except CallError (Option Addr)))
  | .call c => some (Session.answer c e.session e.ambient).result
  | .edit _ => none

/-- Every reply of a run, with what can be seen after it. -/
def trace (e : Exposed) :
    List Incident → List (Option (Except Fault (Except CallError (Option Addr))) × Sight)
  | [] => []
  | i :: is => (e.reply? i, (e.step i).sight) :: (e.step i).trace is

def refuses (e : Exposed) (i : Incident) : Bool :=
  match e.reply? i with
  | some (.ok (.error (.refused _))) => true
  | _ => false

/-- No call of the run is refused. -/
def NeverRefuses (e : Exposed) : List Incident → Prop
  | [] => True
  | i :: is => e.refuses i = false ∧ (e.step i).NeverRefuses is

def decidableNeverRefuses (e : Exposed) : (is : List Incident) → Decidable (e.NeverRefuses is)
  | [] => inferInstanceAs (Decidable True)
  | i :: is =>
      have := (e.step i).decidableNeverRefuses is
      inferInstanceAs (Decidable (e.refuses i = false ∧ (e.step i).NeverRefuses is))

instance (e : Exposed) : DecidablePred e.NeverRefuses := e.decidableNeverRefuses

/-- Two sessions that look the same, the second one without a ledger. -/
structure Alike (e e' : Exposed) : Prop where
  sight : e'.sight = e.sight
  tracking : e'.session.isTracking = false

namespace Alike

variable {e e' : Exposed} {i : Incident}

theorem edit (ha : e.Alike e') (f : Memory → Memory) :
    (e.step (.edit f)).Alike (e'.step (.edit f)) := by
  obtain ⟨hheap, htally, hmemory⟩ := Sight.mk.inj ha.sight
  refine ⟨?_, ha.tracking⟩
  simp only [Exposed.sight, step, hheap, htally, hmemory]

/-- Both calls do what one act does on the same heap and memory. -/
theorem call (ha : e.Alike e') {c : Call} (hn : e.refuses (.call c) = false) :
    e'.reply? (.call c) = e.reply? (.call c) ∧ (e.step (.call c)).Alike (e'.step (.call c)) := by
  obtain ⟨hheap, htally, hmemory⟩ := Sight.mk.inj ha.sight
  have hpass : ∀ cause, (Session.answer c e.session e.ambient).result ≠
      .ok (.error (.refused cause)) := by
    intro cause hr
    simp only [refuses, reply?, hr] at hn
    cases hn
  have hf := Session.follows_of_not_refused (m := e.ambient) (Or.inr hpass)
  have hf' := Session.follows_of_not_refused (c := c) (m := e'.ambient) (Or.inl ha.tracking)
  have hsame := c.steady_onHeap.same e.session.heap e.ambient e'.ambient rfl hmemory
  rw [hheap] at hf'
  refine ⟨?_, ?_, hf'.tracking.trans ha.tracking⟩
  · simp only [reply?, hf'.result, hf.result, hsame.result]
  · simp only [Exposed.sight, step, hf'.heap, hf.heap, hf'.tally, hf.tally, hf'.memory, hf.memory,
      hsame.own, hsame.memory, htally]

theorem step (ha : e.Alike e') (hn : e.refuses i = false) :
    e'.reply? i = e.reply? i ∧ (e.step i).Alike (e'.step i) := by
  cases i with
  | call c => exact ha.call hn
  | edit f => exact ⟨rfl, ha.edit f⟩

theorem trace_eq {is : List Incident} (ha : e.Alike e') (hn : e.NeverRefuses is) :
    e'.trace is = e.trace is := by
  induction is generalizing e e' with
  | nil => rfl
  | cons i is ih =>
      obtain ⟨hreply, hnext⟩ := ha.step hn.1
      rw [trace, trace, hreply, hnext.sight, ih hnext hn.2]

end Alike

/-- A heap that was placed for a session with a ledger is placed for one without. -/
theorem exists_alike {σ : Type} {x : Act σ (Except PlacementError Heap)}
    {opens : Bool → Act σ (Except PlacementError Session)}
    (hopens : ∀ tracking, opens tracking = do
      match ← x with
      | .error e => return .error e
      | .ok h => return .ok (← Session.startedOn h tracking))
    {s s' : σ} {m m₁ : Ambient} {session : Session}
    (hc : opens true s m = ⟨.ok (.ok session), s', m₁⟩) :
    ∃ plain m₂, opens false s m = ⟨.ok (.ok plain), s', m₂⟩ ∧
      (⟨session, m₁⟩ : Exposed).Alike ⟨plain, m₂⟩ := by
  rw [hopens] at hc ⊢
  rcases hx : x s m with ⟨e | e | h, s₁, m₃⟩
  · rw [Act.bind_of_error hx] at hc
    cases hc
  · rw [Act.bind_of_ok hx] at hc
    cases hc
  · rw [Act.bind_of_ok hx] at hc
    rw [Act.bind_of_ok hx]
    cases hc
    exact ⟨_, _, rfl, rfl, rfl⟩

end Exposed

/-- As long as a session with a ledger has refused no call, one without a ledger that was opened
    at the same start over the same memory gives the same answers, meets the same faults, and has
    the same heap, counts and memory after every step. -/
theorem trace_eq_of_neverRefuses
    {opens : Session.Config → Act Unit (Except PlacementError Session)}
    (ho : opens = Session.create ∨ opens = Session.createInside) {start : Addr}
    {m m₁ : Ambient} {session : Session} {is : List Incident}
    (hc : opens ⟨start, true⟩ () m = ⟨.ok (.ok session), (), m₁⟩)
    (hn : (⟨session, m₁⟩ : Exposed).NeverRefuses is) :
    ∃ plain m₂, opens ⟨start, false⟩ () m = ⟨.ok (.ok plain), (), m₂⟩ ∧
      plain.isTracking = false ∧
      (⟨plain, m₂⟩ : Exposed).sight = (⟨session, m₁⟩ : Exposed).sight ∧
      (⟨plain, m₂⟩ : Exposed).trace is = (⟨session, m₁⟩ : Exposed).trace is := by
  have hopens : ∃ x : Act Unit (Except PlacementError Heap), ∀ tracking,
      opens ⟨start, tracking⟩ = do
        match ← x with
        | .error e => return .error e
        | .ok h => return .ok (← Session.startedOn h tracking) := by
    rcases ho with rfl | rfl
    · exact ⟨Heap.create start, fun _ => rfl⟩
    · exact ⟨Heap.createInside start, fun _ => rfl⟩
  obtain ⟨x, hopens⟩ := hopens
  obtain ⟨plain, m₂, hplain, ha⟩ := Exposed.exists_alike hopens hc
  exact ⟨plain, m₂, hplain, ha.tracking, ha.sight, ha.trace_eq hn⟩

/-- Memory is cut through a record, which cannot be read then; a request does not fit; a header is
    overwritten, and the block with the wrong size is freed and cut in two. -/
theorem trace_eq_of_damage :
    let s : Exposed := ⟨{ heap := .empty 0, ledger := some {} },
      { memory := .zeros 64, journal := #[.heapCreated 0 0, .sessionOpened 0 true] }⟩
    let t : Exposed := ⟨{ heap := .empty 0 },
      { memory := .zeros 64, journal := #[.heapCreated 0 0, .sessionOpened 0 false] }⟩
    let is : List Incident := [.call (.newObject 8), .call (.newSlice 2 4),
      .edit (·.resize 20), .call (.dropSlice 16 4), .call (.newObject 100),
      .edit (·.resize 128), .edit (·.store 0 4294967280), .call (.dropObject 4 8),
      .call (.newObject 40)]
    s.NeverRefuses is ∧ t.trace is = s.trace is ∧
      (t.trace is).map (fun x => x.1.map Except.isOk) =
        [some true, some true, none, some false, some false, none, none, some true, some true] := by
  intro s t is
  have hc : Session.createInside ⟨0, true⟩ () { memory := .zeros 64 } =
      ⟨.ok (.ok s.session), (), s.ambient⟩ := rfl
  have hn : s.NeverRefuses is := by decide +kernel
  obtain ⟨plain, m, hplain, -, -, htrace⟩ := trace_eq_of_neverRefuses (.inr rfl) hc hn
  cases hplain
  refine ⟨hn, htrace, ?_⟩
  decide +kernel

end LinearHeap
