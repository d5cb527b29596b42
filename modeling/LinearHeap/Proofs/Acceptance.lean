/-
  LinearHeap/Proofs/Acceptance.lean
  =================================
  **Which slices a ledger lets go.**  A session is orderly when its ledger lists
  exactly the carved blocks that are in no chain, each with the size in its header
  (`Orderly`); the payloads may hold anything.  Whether it lets a slice go is then
  a question about plain numbers (`Ledger.Admits`): the record must be listed with
  eight bytes or more, the data word must be listed, and the content must have room
  for `length * element` bytes, a product that no word bounds.

  The session asks with a product that stops at the largest word.  No block is as
  large as that (`size_lt`), so a product that was cut off is always refused
  (`saturatingProduct_le_iff`).
-/
import LinearHeap.Proofs.Accounts
import LinearHeap.Proofs.Stocktaking

namespace LinearHeap

/-! ### The question and the answer -/

namespace Ledger

/-- The record at the handle is listed with room for a record, and what it points at is listed with
    room for its elements. -/
def Admits (l : Ledger) (m : Memory) (handle : Addr) (element : Word) : Prop :=
  ∃ size data length bytes : Word, (handle, size) ∈ l.live.toList ∧ 8 ≤ size.toNat ∧
    m.Holds handle.toNat data ∧ m.Holds (handle.toNat + 4) length ∧
    (data, bytes) ∈ l.live.toList ∧ length.toNat * element.toNat ≤ bytes.toNat

/-- Why a slice is not let go: the reason for its record if there is one, and otherwise the reason
    for its content, asked for with the product or the largest word. -/
inductive TurnsAway (l : Ledger) (h : Heap) (m : Memory) (handle : Addr) (element : Word) :
    Refusal → Prop
  | record {cause : Refusal} (hrecord : l.vet h handle (some 8) = .error cause) :
      TurnsAway l h m handle element cause
  | content {size data length declared : Word} {cause : Refusal}
      (hrecord : l.vet h handle (some 8) = .ok size) (hdata : m.Holds handle.toNat data)
      (hlength : m.Holds (handle.toNat + 4) length)
      (hdeclared : declared.toNat = min (length.toNat * element.toNat) (Word.bound - 1))
      (hcontent : l.vet h data (some declared) = .error cause) :
      TurnsAway l h m handle element cause

end Ledger

namespace Session

/-- The ledger lists exactly the carved blocks that are in no chain, with the sizes in their
    headers. -/
structure Orderly (s : Session) (m : Memory) (l : Ledger) (tiles : List Extent)
    (chains : Option SizeClass → List Extent) : Prop where
  ledger : s.ledger = some l
  heap : s.heap.WellFormed m l.keys tiles chains
  sizes : ∀ x ∈ l.live.toList, m.sizeAt? x.1 = some x.2

theorem toNat_saturatingProduct (a b : Word) :
    (saturatingProduct a b).toNat = min (a.toNat * b.toNat) (Word.bound - 1) := by
  apply toNat_ofNat_of_lt
  simp only [Word.bound]
  omega

/-- A size below the largest word is never reached by a product that was cut off. -/
theorem saturatingProduct_le_iff {a b size : Word} (hsize : size.toNat < Word.bound - 1) :
    saturatingProduct a b ≤ size ↔ a.toNat * b.toNat ≤ size.toNat := by
  rw [UInt32.le_iff_toNat_le, toNat_saturatingProduct]
  omega

section Vetting

variable {s : Session} {l : Ledger} {a : Addr} {declared : Word}

theorem vetFree_of_ok {size : Word} (hl : s.ledger = some l)
    (hv : l.vet s.heap a (some declared) = .ok size) : s.vetFree a declared = .ok () := by
  simp only [vetFree, hl, hv]

theorem vetFree_of_error {cause : Refusal} (hl : s.ledger = some l)
    (hv : l.vet s.heap a (some declared) = .error cause) :
    s.vetFree a declared = .error cause := by
  simp only [vetFree, hl, hv]

end Vetting

namespace Orderly

variable {s s' : Session} {m m' : Memory} {l l' : Ledger} {tiles : List Extent}
  {chains chains' : Option SizeClass → List Extent} {a : Addr} {size : Word}

/-! ### Entries and blocks -/

/-- An entry is the payload and the size of a block that is out. -/
theorem exists_block (ho : s.Orderly m l tiles chains) (hx : (a, size) ∈ l.live.toList) :
    ∃ inv : Inventory, inv.Describes s.heap m ∧
      ∃ e ∈ inv.live, a.toNat = e.payload ∧ size.toNat = e.size := by
  have hkey : a ∈ l.keys := Ledger.mem_keys_of_mem hx
  obtain ⟨_, htile, -⟩ := ho.heap.known a hkey
  obtain ⟨inv, hc, hd⟩ := ho.heap.exists_inventory htile
  obtain ⟨e, -, he, hae⟩ := hc.exists_extent hkey
  have hmem := Inventory.mem_extents_of_live he
  have hsize : some size = some (UInt32.ofNat e.size) :=
    (ho.sizes _ hx).symm.trans (hd.sizeAt?_of_mem hmem hae)
  refine ⟨inv, hd, e, he, hae, ?_⟩
  rw [Option.some.inj hsize, hd.toNat_size hmem]

/-- A block and its header lie below the end of the address space. -/
theorem size_lt (ho : s.Orderly m l tiles chains) (hx : (a, size) ∈ l.live.toList) :
    size.toNat < Word.bound - 1 := by
  obtain ⟨inv, hd, e, he, -, hsize⟩ := ho.exists_block hx
  have hstop := hd.sound.stop_lt (Inventory.mem_extents_of_live he)
  simp only [Extent.stop] at hstop
  omega

theorem vet_eq_ok_iff (ho : s.Orderly m l tiles chains) {declared : Word} :
    l.vet s.heap a (some declared) = .ok size ↔
      (a, size) ∈ l.live.toList ∧ declared ≤ size := by
  constructor
  · intro hv
    exact Ledger.mem_of_vet hv
  · rintro ⟨hx, hle⟩
    obtain ⟨inv, hd, e, he, hae, -⟩ := ho.exists_block hx
    have hholds := hd.holds_of_mem (Inventory.mem_extents_of_live he) hae
    exact Ledger.vet_of_mem ho.heap.nodup hholds hx hle

/-- The record of a slice whose handle passed can be read. -/
theorem exists_record {m : Ambient} (ho : s.Orderly m.memory l tiles chains)
    (hx : (a, size) ∈ l.live.toList) (height : 8 ≤ size.toNat) :
    ∃ lengthAt : Addr, lengthAt.toNat = a.toNat + 4 ∧ ∃ r : SliceRecord,
      m.memory.load? a = some r.data ∧ m.memory.load? lengthAt = some r.length := by
  obtain ⟨inv, hd, e, he, hae, hsize⟩ := ho.exists_block hx
  rw [hsize] at height
  exact hd.exists_record (Inventory.mem_extents_of_live he) height hae

/-- A session over the same blocks that lists nothing new is orderly again. -/
theorem of_subset (ho : s.Orderly m l tiles chains) (hl : s'.ledger = some l')
    (hw : s'.heap.WellFormed m' l'.keys tiles chains')
    (hsub : ∀ x ∈ l'.live.toList, x ∈ l.live.toList) : s'.Orderly m' l' tiles chains' where
  ledger := hl
  heap := hw
  sizes := by
    intro x hx
    obtain ⟨e, he, hxe⟩ := ho.heap.known x.1 (Ledger.mem_keys_of_mem (hsub x hx))
    rw [hw.sizeAt?_of_mem he hxe, ← ho.heap.sizeAt?_of_mem he hxe]
    exact ho.sizes x (hsub x hx)

end Orderly

end Session

/-- After every run without a fault and without a drop that doubles, a session that was opened with
    a ledger is orderly. -/
theorem Visit.exists_orderly {session : Session} {m : Ambient} {ts : List Turn}
    (hledger : session.ledger = some {}) (hempty : session.heap = .empty session.heap.start)
    (haligned : session.heap.start.toNat % 4 = 0) (hl : (Visit.opened session m).Lawful ts)
    (hnever : (Visit.opened session m).NeverDoubles ts)
    (hfaults : (Visit.opened session m).NeverFaults ts) :
    let v := (Visit.opened session m).run ts
    ∃ l tiles chains, v.session.Orderly v.memory l tiles chains := by
  have hcovered : (Visit.opened session m).Covered {} := by
    refine ⟨hledger, ?_⟩
    intro a ha
    cases ha
  obtain ⟨inv, l, hd, hc⟩ :=
    (Audited.opened hledger hempty haligned).exists_run hcovered hl hnever hfaults
  obtain ⟨tiles, haccounted⟩ := hd.accounted hc
  exact ⟨l, tiles, inv.chain, haccounted.ledger, haccounted.heap, haccounted.sizes⟩

/-- A session on 96 bytes that has handed out an object of sixty bytes and a slice of two words. -/
def Visit.furnished : Visit :=
  (Visit.opened { heap := .empty 0, ledger := some {} }
    { memory := .zeros 96, journal := #[.heapCreated 0 0, .sessionOpened 0 true] }).run
      [.call (.newObject 60), .call (.newSlice 2 4)]

theorem Visit.orderly_furnished : ∃ tiles chains,
    Visit.furnished.session.Orderly Visit.furnished.memory ⟨#[(4, 60), (68, 8), (80, 8)], []⟩
      tiles chains := by
  obtain ⟨l, tiles, chains, ho⟩ :
      ∃ l tiles chains, Visit.furnished.session.Orderly Visit.furnished.memory l tiles chains :=
    Visit.exists_orderly rfl rfl (by decide) (by decide +kernel) (by decide +kernel)
      (by decide +kernel)
  have hledger : Visit.furnished.session.ledger = some ⟨#[(4, 60), (68, 8), (80, 8)], []⟩ := by
    decide +kernel
  obtain rfl := Option.some.inj (ho.ledger.symm.trans hledger)
  exact ⟨tiles, chains, ho⟩

namespace Session

/-! ### What a slice drop comes to -/

section Drop

variable {s : Session} {m : Ambient} {l : Ledger} {tiles : List Extent}
  {chains : Option SizeClass → List Extent} {handle lengthAt : Addr} {element size bytes : Word}
  {r : SliceRecord}

/-- The drop is vetted, and this is what was found: the entries of record and content, and the
    record itself. -/
structure Passes (s : Session) (l : Ledger) (m : Ambient) (handle : Addr) (element : Word)
    (size bytes : Word) (lengthAt : Addr) (r : SliceRecord) : Prop where
  record : (handle, size) ∈ l.live.toList
  room : 8 ≤ size.toNat
  behind : lengthAt.toNat = handle.toNat + 4
  data : m.memory.load? handle = some r.data
  length : m.memory.load? lengthAt = some r.length
  content : (r.data, bytes) ∈ l.live.toList
  fits : r.length.toNat * element.toNat ≤ bytes.toNat
  vetted : vetSlice handle element (s.counted .dropSlice) m =
    ⟨.ok (.ok ()), s.counted .dropSlice, m.countRead.countRead⟩

/-- The drop is refused for this reason, with memory as it was. -/
def Refuses (s : Session) (m : Ambient) (handle : Addr) (element : Word) (cause : Refusal) : Prop :=
  ∃ m', m'.memory = m.memory ∧
    dropSlice handle element s m = refuse .dropSlice cause (s.counted .dropSlice) m'

/-- What is left when a slice is gone: its content and then its record were put in front of the
    chains of their sizes, and the ledger lists everything else that it listed. -/
structure Sheds (m : Memory) (l : Ledger) (tiles : List Extent)
    (chains : Option SizeClass → List Extent) (data handle : Addr) (s' : Session) (l' : Ledger)
    (m' : Memory) : Prop where
  blocks : ∃ content ∈ tiles, ∃ record ∈ tiles,
    data.toNat = content.payload ∧ handle.toNat = record.payload ∧
      s'.Orderly m' l' tiles (record.pushOn (content.pushOn chains))
  entries : ∀ x, x ∈ l'.live.toList ↔ x ∈ l.live.toList ∧ x.1 ≠ data ∧ x.1 ≠ handle
  /-- Only the links of the two are written. -/
  links : m.ChangesOnly (fun i => (data.toNat ≤ i ∧ i < data.toNat + 4) ∨
    (handle.toNat ≤ i ∧ i < handle.toNat + 4)) m'

namespace Passes

theorem holds_length (hp : s.Passes l m handle element size bytes lengthAt r) :
    m.memory.Holds (handle.toNat + 4) r.length := by
  rw [← hp.behind]
  exact Memory.load?_eq_some_iff_holds.1 hp.length

theorem admits (hp : s.Passes l m handle element size bytes lengthAt r) :
    l.Admits m.memory handle element :=
  ⟨size, r.data, r.length, bytes, hp.record, hp.room, Memory.load?_eq_some_iff_holds.1 hp.data,
    hp.holds_length, hp.content, hp.fits⟩

/-- Once the heap has freed the slice, the drop is answered. -/
theorem dropSlice_eq (hp : s.Passes l m handle element size bytes lengthAt r)
    (hl : s.ledger = some l) {h' : Heap} {m' : Ambient}
    (hact : Heap.freeSlice handle s.heap m.countRead.countRead.countRead.countRead =
      ⟨.ok (), h', m'⟩) :
    dropSlice handle element s m =
      ⟨.ok (.ok ()), ((heapPart.set (s.counted .dropSlice) h').struck r.data).struck handle, m'⟩ :=
  dropSlice_eq_of_vetted hl hp.vetted hp.behind hp.data hp.length hact

/-- A slice of two blocks is freed, and both are struck. -/
theorem sheds (hp : s.Passes l m handle element size bytes lengthAt r)
    (ho : s.Orderly m.memory l tiles chains) (hne : r.data ≠ handle) :
    ∃ s' m' l', dropSlice handle element s m = ⟨.ok (.ok ()), s', m'⟩ ∧
      Sheds m.memory l tiles chains r.data handle s' l' m'.memory := by
  have hhandle : handle ∈ l.keys := Ledger.mem_keys_of_mem hp.record
  have hdata : r.data ∈ l.keys := Ledger.mem_keys_of_mem hp.content
  obtain ⟨content, hc, record, hr, hdc, hhr, h', m', hact, hwell, hlinks⟩ :=
    Heap.WellFormed.freeSlice (m := m.countRead.countRead.countRead.countRead) ho.heap hhandle
      hdata hne hp.behind hp.data hp.length
  have hn := ho.heap.nodup
  have hn' := Ledger.nodup_keys_strike (a := r.data) hn
  have hentries : ∀ x, x ∈ ((l.strike r.data).strike handle).live.toList ↔
      x ∈ l.live.toList ∧ x.1 ≠ r.data ∧ x.1 ≠ handle := by
    intro x
    rw [Ledger.mem_strike_iff hn', Ledger.mem_strike_iff hn, and_assoc]
  have hkeys : ∀ a, a ∈ ((l.strike r.data).strike handle).keys ↔
      a ∈ l.keys.filter (· ∉ [r.data, handle]) := by
    intro a
    rw [Ledger.mem_keys_strike_iff hn', Ledger.mem_keys_strike_iff hn, and_assoc]
    simp only [List.mem_filter, List.mem_cons, List.not_mem_nil, or_false, not_or,
      decide_eq_true_eq]
  have hwell' := hwell.of_mem_iff (Ledger.nodup_keys_strike hn') hkeys
  have hledger : (((heapPart.set (s.counted .dropSlice) h').struck r.data).struck handle).ledger =
      some ((l.strike r.data).strike handle) := ledger_struck (ledger_struck ho.ledger)
  have horderly := ho.of_subset hledger hwell' fun x hx => ((hentries x).1 hx).1
  exact ⟨_, m', _, hp.dropSlice_eq ho.ledger hact,
    ⟨content, hc, record, hr, hdc, hhr, horderly⟩, hentries, hlinks⟩

/-- A slice that passed is dropped without a fault, also when its record names itself. -/
theorem accepted (hp : s.Passes l m handle element size bytes lengthAt r)
    (ho : s.Orderly m.memory l tiles chains) :
    ∃ s' m', dropSlice handle element s m = ⟨.ok (.ok ()), s', m'⟩ := by
  by_cases hself : r.data = handle
  · obtain ⟨inv, hd, e, he, hae, hsize⟩ := ho.exists_block hp.record
    have height : 8 ≤ e.size := hsize ▸ hp.room
    have hload : m.memory.load? handle = some handle := hp.data.trans (congrArg some hself)
    obtain ⟨h', m', hact, -⟩ := Inventory.Describes.freeSlice_of_self
      (m := m.countRead.countRead.countRead.countRead) hd he height hae hload
    exact ⟨_, m', hp.dropSlice_eq ho.ledger hact⟩
  · obtain ⟨s', m', -, hdrop, -⟩ := hp.sheds ho hself
    exact ⟨s', m', hdrop⟩

end Passes

namespace Orderly

variable {cause : Refusal} {data length : Word}

theorem not_admits_of_record (ho : s.Orderly m.memory l tiles chains)
    (hrecord : l.vet s.heap handle (some 8) = .error cause) :
    ¬ l.Admits m.memory handle element := by
  rintro ⟨size, data, length, bytes, hx, height, -⟩
  have hle : (8 : Word) ≤ size := UInt32.le_iff_toNat_le.2 height
  have hok := ho.vet_eq_ok_iff.2 ⟨hx, hle⟩
  rw [hrecord] at hok
  cases hok

/-- A product that is too large for a word is too large for every block. -/
theorem not_admits_of_content (ho : s.Orderly m.memory l tiles chains)
    (hdata : m.memory.Holds handle.toNat data)
    (hlength : m.memory.Holds (handle.toNat + 4) length)
    (hcontent : l.vet s.heap data (some (saturatingProduct length element)) = .error cause) :
    ¬ l.Admits m.memory handle element := by
  rintro ⟨-, data', length', bytes, -, -, hdata', hlength', hx, hfits⟩
  -- the words at the handle are the ones that were read
  obtain rfl : data' = data := hdata'.unique hdata
  obtain rfl : length' = length := hlength'.unique hlength
  have hle := (saturatingProduct_le_iff (ho.size_lt hx)).2 hfits
  have hok := ho.vet_eq_ok_iff.2 ⟨hx, hle⟩
  rw [hcontent] at hok
  cases hok

/-- A drop is refused, and was not to be admitted, or it passes. -/
theorem dropSlice_cases (ho : s.Orderly m.memory l tiles chains) (handle : Addr)
    (element : Word) :
    (¬ l.Admits m.memory handle element ∧
      ∃ cause, l.TurnsAway s.heap m.memory handle element cause ∧
        s.Refuses m handle element cause) ∨
    ∃ size bytes lengthAt r, s.Passes l m handle element size bytes lengthAt r := by
  have hl : (s.counted .dropSlice).ledger = some l := ho.ledger
  cases hrecord : l.vet s.heap handle (some 8) with
  | error cause =>
      refine Or.inl ⟨ho.not_admits_of_record hrecord, cause, .record hrecord, m, rfl, ?_⟩
      exact dropSlice_eq_of_refused (vetSlice_of_refused hl (vetFree_of_error hl hrecord))
  | ok size =>
      obtain ⟨hx, hle⟩ := ho.vet_eq_ok_iff.1 hrecord
      have height : 8 ≤ size.toNat := UInt32.le_iff_toNat_le.1 hle
      obtain ⟨lengthAt, hat, r, hdata, hlength⟩ := ho.exists_record hx height
      have hvetted : vetSlice handle element (s.counted .dropSlice) m = _ :=
        vetSlice_of_vetted hl (vetFree_of_ok hl hrecord) hat hdata hlength
      cases hcontent : l.vet s.heap r.data (some (saturatingProduct r.length element)) with
      | error cause =>
          have hholds := Memory.load?_eq_some_iff_holds.1 hdata
          have hholds' : m.memory.Holds (handle.toNat + 4) r.length := by
            rw [← hat]
            exact Memory.load?_eq_some_iff_holds.1 hlength
          rw [vetFree_of_error hl hcontent] at hvetted
          refine Or.inl ⟨ho.not_admits_of_content hholds hholds' hcontent, cause, ?_,
            m.countRead.countRead, rfl, dropSlice_eq_of_refused hvetted⟩
          exact .content hrecord hholds hholds' (toNat_saturatingProduct _ _) hcontent
      | ok bytes =>
          obtain ⟨hx', hle'⟩ := ho.vet_eq_ok_iff.1 hcontent
          rw [vetFree_of_ok hl hcontent] at hvetted
          exact Or.inr ⟨size, bytes, lengthAt, r, hx, height, hat, hdata, hlength, hx',
            (saturatingProduct_le_iff (ho.size_lt hx')).1 hle', hvetted⟩

end Orderly

end Drop

end Session

/-- In an orderly session a slice drop is accepted exactly when the ledger admits the slice.  If it
    is, and the record names another block, content and record go to the front of their chains and
    out of the ledger, and nothing else does.  If it is not, it is turned away for its record or,
    failing that, for its content. -/
theorem slice_drop_exact {s : Session} {m : Ambient} {l : Ledger} {tiles : List Extent}
    {chains : Option SizeClass → List Extent} (ho : s.Orderly m.memory l tiles chains)
    (handle : Addr) (element : Word) :
    ((∃ s' m', Session.dropSlice handle element s m = ⟨.ok (.ok ()), s', m'⟩) ↔
      l.Admits m.memory handle element) ∧
    (∀ data, l.Admits m.memory handle element → m.memory.Holds handle.toNat data →
      data ≠ handle → ∃ s' m' l', Session.dropSlice handle element s m = ⟨.ok (.ok ()), s', m'⟩ ∧
        Session.Sheds m.memory l tiles chains data handle s' l' m'.memory) ∧
    (¬ l.Admits m.memory handle element → ∃ cause s' m',
      Session.dropSlice handle element s m = ⟨.ok (.error cause), s', m'⟩ ∧
        l.TurnsAway s.heap m.memory handle element cause ∧ s'.Leaves m' s.heap l m.memory) := by
  rcases ho.dropSlice_cases handle element with
    ⟨hnot, cause, haway, m', hmemory, hdrop⟩ | ⟨size, bytes, lengthAt, r, hp⟩
  · rw [Session.refuse_eq] at hdrop
    refine ⟨⟨?_, fun hadmits => absurd hadmits hnot⟩, fun _ hadmits => absurd hadmits hnot, ?_⟩
    · rintro ⟨s', m'', haccepted⟩
      rw [hdrop] at haccepted
      cases haccepted
    · intro _
      exact ⟨cause, _, _, hdrop, haway, rfl, ho.ledger, hmemory⟩
  · refine ⟨⟨fun _ => hp.admits, fun _ => hp.accepted ho⟩, ?_, fun hnot => absurd hp.admits hnot⟩
    intro data _ hdata hne
    obtain rfl : data = r.data :=
      Memory.Holds.unique hdata (Memory.load?_eq_some_iff_holds.1 hp.data)
    exact hp.sheds ho hne

/-- A slice of two elements is let go as elements of four bytes.  As elements of 2³¹ bytes it is
    not: their product is no word, and is asked for as the largest one. -/
theorem slice_drop_exact_of_two_elements :
    let v := Visit.furnished
    ∃ l tiles chains, v.session.Orderly v.memory l tiles chains ∧
      (∃ s' m' l', Session.dropSlice 68 4 v.session v.ambient = ⟨.ok (.ok ()), s', m'⟩ ∧
        Session.Sheds v.memory l tiles chains 80 68 s' l' m'.memory) ∧
      ∃ cause s' m', Session.dropSlice 68 2147483648 v.session v.ambient =
          ⟨.ok (.error cause), s', m'⟩ ∧
        l.TurnsAway v.session.heap v.memory 68 2147483648 cause ∧
        s'.Leaves m' v.session.heap l v.memory := by
  intro v
  obtain ⟨tiles, chains, ho⟩ := Visit.orderly_furnished
  have hload : v.memory.load? 68 = some 80 := by decide +kernel
  have hload' : v.memory.load? 72 = some 2 := by decide +kernel
  have hdata := Memory.load?_eq_some_iff_holds.1 hload
  have hlength := Memory.load?_eq_some_iff_holds.1 hload'
  obtain ⟨-, hlets, -⟩ := slice_drop_exact ho 68 4
  obtain ⟨-, -, haway⟩ := slice_drop_exact ho 68 2147483648
  refine ⟨_, tiles, chains, ho, hlets 80 ?_ hdata (by decide), haway ?_⟩
  · exact ⟨8, 80, 2, 8, by decide, by decide, hdata, hlength, by decide, by decide⟩
  · rintro ⟨-, -, length, bytes, -, -, -, hlength', -, hfits⟩
    obtain rfl : length = 2 := hlength'.unique hlength
    have hbytes := bytes.toNat_lt
    exact absurd (Nat.lt_of_le_of_lt hfits hbytes) (by decide)

end LinearHeap
