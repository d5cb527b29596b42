/-
  LinearHeap/Proofs/Sessions.lean
  ===============================
  **What a call comes to in a session that keeps a ledger.**  One lemma for each
  way a call can go: which answer it gives, and which heap, ledger and memory it
  leaves.  Counts and journal move too, but nothing here depends on them.
-/
import LinearHeap.Session.Basic
import LinearHeap.Proofs.Acts
import LinearHeap.Proofs.Ledgers

namespace LinearHeap

/-- A vetted free is of a live address, and of no more than was recorded. -/
theorem Ledger.mem_of_vet {l : Ledger} {h : Heap} {a : Addr} {declared size : Word}
    (hv : l.vet h a (some declared) = .ok size) :
    (a, size) ∈ l.live.toList ∧ declared ≤ size := by
  have hsize := (size?_of_vet hv).2
  refine ⟨Array.mem_toList_iff.2 (exists_mem_of_size? hsize), ?_⟩
  unfold vet at hv
  split at hv
  · cases hv
  · rw [hsize] at hv
    simp only at hv
    split at hv
    · cases hv
    · rename_i hle
      exact UInt32.not_lt.1 hle

/-- A free of a live address, of no more than was recorded, passes. -/
theorem Ledger.vet_of_mem {l : Ledger} {h : Heap} {a : Addr} {declared size : Word}
    (hn : l.keys.Nodup) (hh : h.holds a = true) (hmem : (a, size) ∈ l.live.toList)
    (hle : declared ≤ size) : l.vet h a (some declared) = .ok size := by
  have hsize : l.size? a = some size := size?_of_mem hn hmem
  simp only [vet, hh, hsize, Bool.not_true, Bool.false_eq_true, if_false,
    if_neg (UInt32.not_lt.2 hle)]

namespace Session

variable {s : Session} {l : Ledger} {m m' : Ambient} {h' : Heap}

/-- A call left this heap, this ledger and this memory. -/
structure Leaves (s : Session) (m : Ambient) (h : Heap) (l : Ledger) (memory : Memory) : Prop where
  heap : s.heap = h
  ledger : s.ledger = some l
  memory : m.memory = memory

theorem exists_mem_of_vetFree {a : Addr} {declared : Word} (hl : s.ledger = some l)
    (hv : s.vetFree a declared = .ok ()) :
    ∃ size, (a, size) ∈ l.live.toList ∧ declared ≤ size := by
  unfold vetFree at hv
  rw [hl] at hv
  simp only at hv
  split at hv
  · cases hv
  · rename_i size hvet
    exact ⟨size, Ledger.mem_of_vet hvet⟩

theorem enter_of_size? {a : Addr} {b : Block} {size : Word} (hl : s.ledger = some l)
    (ha : a.toNat = b.header.toNat + 4) (hs : b.size? m.memory = some size) :
    enter a s m = ⟨.ok (), { s with ledger := some (l.enter a size) }, m.countRead⟩ := by
  have htracking : s.isTracking = true := by rw [isTracking, hl]; rfl
  have hread := Block.sizeAt_of_size? (s := s) ha hs
  refine (Act.bind_of_ok (x := Act.own) rfl).trans ?_
  simp only [htracking, if_true]
  refine (Act.bind_of_ok hread).trans ?_
  simp only [Act.update, hl, Option.map_some]

/-- The session after a call of the function was counted. -/
def counted (s : Session) (f : Import) : Session := { s with tally := s.tally.record f }

theorem record_eq (f : Import) (s : Session) (m : Ambient) :
    record f s m = ⟨.ok (), s.counted f, m⟩ := rfl

/-- The session after an address was struck from its ledger. -/
def struck (s : Session) (a : Addr) : Session := { s with ledger := s.ledger.map (·.strike a) }

theorem strike_eq (a : Addr) (s : Session) (m : Ambient) :
    strike a s m = ⟨.ok (), s.struck a, m⟩ := rfl

theorem ledger_struck {a : Addr} (hl : s.ledger = some l) :
    (s.struck a).ledger = some (l.strike a) := by
  rw [struck, hl, Option.map_some]

theorem refuse_eq {α : Type} (f : Import) (cause : Refusal) (s : Session) (m : Ambient) :
    (refuse f cause : Act Session (Except Refusal α)) s m =
      ⟨.ok (.error cause), { s with tally := s.tally.recordRefusal },
        { m with journal := m.journal.push (.callRefused f.name cause.message) }⟩ := rfl

/-! ### Objects -/

theorem newObject_of_ok {size recorded : Word} {a : Addr} {b : Block} (hl : s.ledger = some l)
    (hact : Heap.allocate size s.heap m = ⟨.ok a, h', m'⟩) (ha : a.toNat = b.header.toNat + 4)
    (hs : b.size? m'.memory = some recorded) :
    ∃ s' m'', answer (.newObject size) s m = ⟨.ok (.ok (some a)), s', m''⟩ ∧
      s'.Leaves m'' h' (l.enter a recorded) m'.memory := by
  have hheap := Act.within_of_eq (p := heapPart) (t := s.counted .newObject) hact
  have henter := enter_of_size? (s := heapPart.set (s.counted .newObject) h') hl ha hs
  have hnew : newObject size s m = ⟨.ok a, _, _⟩ :=
    (Act.bind_of_ok (record_eq .newObject s m)).trans
      ((Act.bind_of_ok hheap).trans (Act.bind_of_ok henter))
  exact ⟨_, _, Act.bind_of_ok hnew, rfl, rfl, rfl⟩

theorem newObject_of_error {size : Word} {fault : Fault} (hl : s.ledger = some l)
    (hact : Heap.allocate size s.heap m = ⟨.error fault, h', m'⟩) :
    ∃ s' m'', answer (.newObject size) s m = ⟨.error fault, s', m''⟩ ∧
      s'.Leaves m'' h' l m'.memory := by
  have hheap := Act.within_of_eq (p := heapPart) (t := s.counted .newObject) hact
  have hnew : newObject size s m = ⟨.error fault, _, _⟩ :=
    (Act.bind_of_ok (record_eq .newObject s m)).trans (Act.bind_of_error hheap)
  exact ⟨_, _, Act.bind_of_error hnew, rfl, hl, rfl⟩

theorem dropObject_eq_of_error {a : Addr} {size : Word} {cause : Refusal}
    (hv : s.vetFree a size = .error cause) :
    dropObject a size s m = refuse .dropObject cause (s.counted .dropObject) m := by
  have hv' : (s.counted .dropObject).vetFree a size = .error cause := hv
  refine (Act.bind_of_ok (record_eq .dropObject s m)).trans ?_
  refine (Act.bind_of_ok (x := Act.own) rfl).trans ?_
  rw [hv']

theorem dropObject_eq_of_ok {a : Addr} {size : Word} (hv : s.vetFree a size = .ok ()) :
    dropObject a size s m =
      (do
        Act.within heapPart (Heap.free a)
        strike a
        return .ok () : Act Session (Except Refusal Unit)) (s.counted .dropObject) m := by
  have hv' : (s.counted .dropObject).vetFree a size = .ok () := hv
  refine (Act.bind_of_ok (record_eq .dropObject s m)).trans ?_
  refine (Act.bind_of_ok (x := Act.own) rfl).trans ?_
  rw [hv']

theorem dropObject_of_refused {a : Addr} {size : Word} {cause : Refusal}
    (hl : s.ledger = some l) (hv : s.vetFree a size = .error cause) :
    ∃ s' m', answer (.dropObject a size) s m = ⟨.ok (.error (.refused cause)), s', m'⟩ ∧
      s'.Leaves m' s.heap l m.memory := by
  have hdrop := (dropObject_eq_of_error (m := m) hv).trans (refuse_eq _ _ _ _)
  exact ⟨_, _, Act.bind_of_ok hdrop, rfl, hl, rfl⟩

/-- An object drop that passed: the block is freed, then struck. -/
theorem dropObject_eq_of_vetted {a : Addr} {size : Word} (hv : s.vetFree a size = .ok ())
    (hact : Heap.free a s.heap m = ⟨.ok (), h', m'⟩) :
    dropObject a size s m =
      ⟨.ok (.ok ()), (heapPart.set (s.counted .dropObject) h').struck a, m'⟩ := by
  have hheap := Act.within_of_eq (p := heapPart) (t := s.counted .dropObject) hact
  refine (dropObject_eq_of_ok hv).trans ?_
  refine (Act.bind_of_ok hheap).trans ?_
  exact Act.bind_of_ok (strike_eq a _ m')

theorem dropObject_of_vetted {a : Addr} {size : Word} (hl : s.ledger = some l)
    (hv : s.vetFree a size = .ok ()) (hact : Heap.free a s.heap m = ⟨.ok (), h', m'⟩) :
    ∃ s' m'', answer (.dropObject a size) s m = ⟨.ok (.ok none), s', m''⟩ ∧
      s'.Leaves m'' h' (l.strike a) m'.memory :=
  ⟨_, _, Act.bind_of_ok (dropObject_eq_of_vetted hv hact), rfl, ledger_struck hl, rfl⟩

theorem dropObject_of_error {a : Addr} {size : Word} {fault : Fault}
    (hv : s.vetFree a size = .ok ()) (hact : Heap.free a s.heap m = ⟨.error fault, h', m'⟩) :
    ∃ s', answer (.dropObject a size) s m = ⟨.error fault, s', m'⟩ := by
  have hheap := Act.within_of_eq (p := heapPart) (t := s.counted .dropObject) hact
  have hdrop : dropObject a size s m =
      ⟨.error fault, heapPart.set (s.counted .dropObject) h', m'⟩ :=
    (dropObject_eq_of_ok hv).trans (Act.bind_of_error hheap)
  exact ⟨_, Act.bind_of_error hdrop⟩

/-! ### Slices -/

theorem isTracking_of_ledger (hl : s.ledger = some l) : s.isTracking = true := by
  rw [isTracking, hl, Option.isSome_some]

theorem newSlice_of_ok {length element recorded recorded' : Word} {handle lengthAt : Addr}
    {r : SliceRecord} {b c : Block} (hl : s.ledger = some l)
    (hact : Heap.allocateSlice length element s.heap m = ⟨.ok handle, h', m'⟩)
    (hat : lengthAt.toNat = handle.toNat + 4) (hdata : m'.memory.load? handle = some r.data)
    (hlength : m'.memory.load? lengthAt = some r.length)
    (hb : handle.toNat = b.header.toNat + 4) (hbs : b.size? m'.memory = some recorded)
    (hc : r.data.toNat = c.header.toNat + 4) (hcs : c.size? m'.memory = some recorded') :
    ∃ s' m'', answer (.newSlice length element) s m = ⟨.ok (.ok (some handle)), s', m''⟩ ∧
      s'.Leaves m'' h' ((l.enter handle recorded).enter r.data recorded') m'.memory := by
  have hheap := Act.within_of_eq (p := heapPart) (t := s.counted .newSlice) hact
  have htracking : (heapPart.set (s.counted .newSlice) h').isTracking = true :=
    isTracking_of_ledger hl
  have hread := SliceRecord.read_of_load? (s := heapPart.set (s.counted .newSlice) h') hat hdata
    hlength
  have henter := enter_of_size? (s := heapPart.set (s.counted .newSlice) h')
    (m := m'.countRead.countRead) hl hb hbs
  have henter' := enter_of_size? (m := m'.countRead.countRead.countRead)
    (s := { heapPart.set (s.counted .newSlice) h' with ledger := some (l.enter handle recorded) })
    rfl hc hcs
  have hnew : newSlice length element s m =
      (do
        let slice ← SliceRecord.read handle
        enter handle
        enter slice.data
        return handle) (heapPart.set (s.counted .newSlice) h') m' := by
    refine (Act.bind_of_ok (record_eq .newSlice s m)).trans ?_
    refine (Act.bind_of_ok hheap).trans ?_
    refine (Act.bind_of_ok (x := Act.own) rfl).trans ?_
    rw [htracking]
    rfl
  have hdone := hnew.trans ((Act.bind_of_ok hread).trans
    ((Act.bind_of_ok henter).trans (Act.bind_of_ok henter')))
  exact ⟨_, _, Act.bind_of_ok hdone, rfl, rfl, rfl⟩

theorem newSlice_of_error {length element : Word} {fault : Fault} (hl : s.ledger = some l)
    (hact : Heap.allocateSlice length element s.heap m = ⟨.error fault, h', m'⟩) :
    ∃ s' m'', answer (.newSlice length element) s m = ⟨.error fault, s', m''⟩ ∧
      s'.Leaves m'' h' l m'.memory := by
  have hheap := Act.within_of_eq (p := heapPart) (t := s.counted .newSlice) hact
  have hnew : newSlice length element s m = ⟨.error fault, _, _⟩ :=
    (Act.bind_of_ok (record_eq .newSlice s m)).trans (Act.bind_of_error hheap)
  exact ⟨_, _, Act.bind_of_error hnew, rfl, hl, rfl⟩

/-- Without a ledger nothing is vetted. -/
theorem vetSlice_of_not_tracking {handle : Addr} {element : Word}
    (htracking : s.isTracking = false) :
    vetSlice handle element s m = ⟨.ok (.ok ()), s, m⟩ := by
  refine (Act.bind_of_ok (x := Act.own) rfl).trans ?_
  rw [htracking]
  rfl

theorem vetSlice_of_refused {handle : Addr} {element : Word} {cause : Refusal}
    (hl : s.ledger = some l) (hv : s.vetFree handle SliceRecord.bytes = .error cause) :
    vetSlice handle element s m = ⟨.ok (.error cause), s, m⟩ := by
  refine (Act.bind_of_ok (x := Act.own) rfl).trans ?_
  rw [isTracking_of_ledger hl, hv]
  rfl

theorem vetSlice_of_vetted {handle lengthAt : Addr} {element : Word} {r : SliceRecord}
    (hl : s.ledger = some l) (hv : s.vetFree handle SliceRecord.bytes = .ok ())
    (hat : lengthAt.toNat = handle.toNat + 4) (hdata : m.memory.load? handle = some r.data)
    (hlength : m.memory.load? lengthAt = some r.length) :
    vetSlice handle element s m =
      ⟨.ok (s.vetFree r.data (saturatingProduct r.length element)), s,
        m.countRead.countRead⟩ := by
  have hread := SliceRecord.read_of_load? (s := s) hat hdata hlength
  refine (Act.bind_of_ok (x := Act.own) rfl).trans ?_
  rw [isTracking_of_ledger hl, hv]
  exact Act.bind_of_ok hread

theorem dropSlice_eq_of_refused {handle : Addr} {element : Word} {cause : Refusal}
    (hv : vetSlice handle element (s.counted .dropSlice) m =
      ⟨.ok (.error cause), s.counted .dropSlice, m'⟩) :
    dropSlice handle element s m = refuse .dropSlice cause (s.counted .dropSlice) m' :=
  (Act.bind_of_ok (record_eq .dropSlice s m)).trans (Act.bind_of_ok hv)

theorem dropSlice_of_refused {handle : Addr} {element : Word} {cause : Refusal}
    (hl : s.ledger = some l)
    (hv : vetSlice handle element (s.counted .dropSlice) m =
      ⟨.ok (.error cause), s.counted .dropSlice, m'⟩) :
    ∃ s' m'', answer (.dropSlice handle element) s m = ⟨.ok (.error (.refused cause)), s', m''⟩ ∧
      s'.Leaves m'' s.heap l m'.memory := by
  have hdrop := dropSlice_eq_of_refused hv
  rw [refuse_eq] at hdrop
  exact ⟨_, _, Act.bind_of_ok hdrop, rfl, hl, rfl⟩

/-- Without a ledger a slice drop is a free of the slice, whatever the element size. -/
theorem dropSlice_eq_of_not_tracking {handle : Addr} (htracking : s.isTracking = false)
    (hact : Heap.freeSlice handle s.heap m = ⟨.ok (), h', m'⟩) (element : Word) :
    dropSlice handle element s m =
      ⟨.ok (.ok ()), heapPart.set (s.counted .dropSlice) h', m'⟩ := by
  have htracking' : (s.counted .dropSlice).isTracking = false := htracking
  have hheap := Act.within_of_eq (p := heapPart) (t := s.counted .dropSlice) hact
  refine (Act.bind_of_ok (record_eq .dropSlice s m)).trans ?_
  refine (Act.bind_of_ok (vetSlice_of_not_tracking htracking')).trans ?_
  refine (Act.bind_of_ok (x := Act.own) rfl).trans ?_
  rw [htracking']
  exact Act.bind_of_ok hheap

/-- A slice drop that passed: content and record are freed, then struck. -/
theorem dropSlice_eq_of_vetted {handle lengthAt : Addr} {element : Word} {r : SliceRecord}
    {m'' : Ambient} (hl : s.ledger = some l)
    (hv : vetSlice handle element (s.counted .dropSlice) m =
      ⟨.ok (.ok ()), s.counted .dropSlice, m'⟩)
    (hat : lengthAt.toNat = handle.toNat + 4) (hdata : m'.memory.load? handle = some r.data)
    (hlength : m'.memory.load? lengthAt = some r.length)
    (hact : Heap.freeSlice handle s.heap m'.countRead.countRead = ⟨.ok (), h', m''⟩) :
    dropSlice handle element s m =
      ⟨.ok (.ok ()), ((heapPart.set (s.counted .dropSlice) h').struck r.data).struck handle,
        m''⟩ := by
  have hread := SliceRecord.read_of_load? (s := s.counted .dropSlice) hat hdata hlength
  have hheap := Act.within_of_eq (p := heapPart) (t := s.counted .dropSlice) hact
  have htracking : (s.counted .dropSlice).isTracking = true := isTracking_of_ledger hl
  refine (Act.bind_of_ok (record_eq .dropSlice s m)).trans ?_
  refine (Act.bind_of_ok hv).trans ?_
  refine (Act.bind_of_ok (x := Act.own) rfl).trans ?_
  rw [htracking]
  refine (Act.bind_of_ok hread).trans ?_
  refine (Act.bind_of_ok hheap).trans ?_
  refine (Act.bind_of_ok (strike_eq r.data _ m'')).trans ?_
  exact Act.bind_of_ok (strike_eq handle _ m'')

theorem dropSlice_of_vetted {handle lengthAt : Addr} {element : Word} {r : SliceRecord}
    {m'' : Ambient} (hl : s.ledger = some l)
    (hv : vetSlice handle element (s.counted .dropSlice) m =
      ⟨.ok (.ok ()), s.counted .dropSlice, m'⟩)
    (hat : lengthAt.toNat = handle.toNat + 4) (hdata : m'.memory.load? handle = some r.data)
    (hlength : m'.memory.load? lengthAt = some r.length)
    (hact : Heap.freeSlice handle s.heap m'.countRead.countRead = ⟨.ok (), h', m''⟩) :
    ∃ s', answer (.dropSlice handle element) s m = ⟨.ok (.ok none), s', m''⟩ ∧
      s'.Leaves m'' h' ((l.strike r.data).strike handle) m''.memory :=
  ⟨_, Act.bind_of_ok (dropSlice_eq_of_vetted hl hv hat hdata hlength hact), rfl,
    ledger_struck (ledger_struck hl), rfl⟩

theorem dropSlice_of_vet_error {handle : Addr} {element : Word} {fault : Fault}
    (hv : vetSlice handle element (s.counted .dropSlice) m =
      ⟨.error fault, s.counted .dropSlice, m'⟩) :
    answer (.dropSlice handle element) s m = ⟨.error fault, s.counted .dropSlice, m'⟩ :=
  Act.bind_of_error ((Act.bind_of_ok (record_eq .dropSlice s m)).trans (Act.bind_of_error hv))

theorem dropSlice_of_error {handle lengthAt : Addr} {element : Word} {r : SliceRecord}
    {fault : Fault} {m'' : Ambient} (hl : s.ledger = some l)
    (hv : vetSlice handle element (s.counted .dropSlice) m =
      ⟨.ok (.ok ()), s.counted .dropSlice, m'⟩)
    (hat : lengthAt.toNat = handle.toNat + 4) (hdata : m'.memory.load? handle = some r.data)
    (hlength : m'.memory.load? lengthAt = some r.length)
    (hact : Heap.freeSlice handle s.heap m'.countRead.countRead = ⟨.error fault, h', m''⟩) :
    ∃ s', answer (.dropSlice handle element) s m = ⟨.error fault, s', m''⟩ := by
  have hread := SliceRecord.read_of_load? (s := s.counted .dropSlice) hat hdata hlength
  have hheap := Act.within_of_eq (p := heapPart) (t := s.counted .dropSlice) hact
  have htracking : (s.counted .dropSlice).isTracking = true := isTracking_of_ledger hl
  have hdrop : dropSlice handle element s m =
      ⟨.error fault, heapPart.set (s.counted .dropSlice) h', m''⟩ := by
    refine (Act.bind_of_ok (record_eq .dropSlice s m)).trans ?_
    refine (Act.bind_of_ok hv).trans ?_
    refine (Act.bind_of_ok (x := Act.own) rfl).trans ?_
    rw [htracking]
    exact (Act.bind_of_ok hread).trans (Act.bind_of_error hheap)
  exact ⟨_, Act.bind_of_error hdrop⟩

end Session

end LinearHeap
