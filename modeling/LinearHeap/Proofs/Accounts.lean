/-
  LinearHeap/Proofs/Accounts.lean
  ===============================
  **The ledger and the chains are complements.**  Two things keep account of the
  carved blocks: the ledger beside the heap, and the chains inside the guest's
  memory.  As long as no call faults and none doubles, each block is in exactly one
  of them (`Visit.Accounted`), so that what both say adds up to what was carved.

  That the ledger lists nothing else than what is out is what vetting keeps
  (`Audited`).  That it lists all of it takes no soundness of the heap at all: an
  answered call enters what it takes, and strikes only what it frees (`Covered`).
  A call that faults may take a block and enter nothing.
-/
import LinearHeap.Proofs.Censuses
import LinearHeap.Proofs.Transparency
import LinearHeap.Proofs.Vetting
import LinearHeap.Proofs.WellFormed

namespace LinearHeap

/-! ### Ledgers that list all extents -/

namespace Ledger

/-- The blocks that the entries speak of. -/
def extents (l : Ledger) : List Extent :=
  l.live.toList.map fun x => ⟨x.1.toNat - 4, x.2.toNat⟩

variable {l : Ledger} {es : List Extent}

namespace Lists

theorem extent_of_entry (h : l.Lists es) {x : Addr × Word} (hx : x ∈ l.live.toList) :
    (⟨x.1.toNat - 4, x.2.toNat⟩ : Extent) ∈ es ∧
      x.1.toNat = (⟨x.1.toNat - 4, x.2.toNat⟩ : Extent).payload := by
  obtain ⟨⟨header, size⟩, he, hpayload, hsize⟩ := h.entry x hx
  simp only [Extent.payload] at hpayload hsize ⊢
  rw [hpayload, hsize, Nat.add_sub_cancel]
  exact ⟨he, rfl⟩

theorem payloads (h : l.Lists es) : l.extents.map Extent.payload = l.keys.map UInt32.toNat := by
  rw [extents, keys, List.map_map, List.map_map]
  apply List.map_congr_left
  intro x hx
  exact (h.extent_of_entry hx).2.symm

/-- A ledger with an entry for every extent lists them all, each once. -/
theorem extents_perm (h : l.Lists es) (hn : (es.map Extent.payload).Nodup)
    (hall : ∀ e ∈ es, ∃ a ∈ l.keys, a.toNat = e.payload) : l.extents.Perm es := by
  have hnodup : (l.extents.map Extent.payload).Nodup := by
    rw [h.payloads]
    exact h.nodup.map fun a b hab => UInt32.toNat_inj.1 hab
  refine (List.perm_ext_iff_of_nodup hnodup.of_map hn.of_map).2 fun e => ⟨?_, ?_⟩
  · intro he
    obtain ⟨x, hx, rfl⟩ := List.mem_map.1 he
    exact (h.extent_of_entry hx).1
  · intro he
    obtain ⟨a, ha, hae⟩ := hall e he
    obtain ⟨x, hx, rfl⟩ := List.mem_map.1 ha
    obtain ⟨hmem, hpayload⟩ := h.extent_of_entry hx
    have hxe := List.inj_on_of_nodup_map hn hmem he (hpayload.symm.trans hae)
    exact hxe ▸ List.mem_map_of_mem hx

end Lists

theorem length_extents (l : Ledger) : l.extents.length = l.count := by
  rw [extents, List.length_map, Array.length_toList, count]

theorem sum_size_extents (l : Ledger) : (l.extents.map Extent.size).sum = l.bytes := by
  rw [bytes_eq_sum, extents, List.map_map]
  rfl

end Ledger

namespace Visit

/-! ### Runs without faults -/

/-- The turn is not a call that faults. -/
def answers (s : Visit) : Turn → Bool
  | .call c => (s.outcome c).result.isOk
  | .write _ | .grow _ => true

/-- No call of the run faults. -/
def NeverFaults (s : Visit) : List Turn → Prop
  | [] => True
  | t :: ts => s.answers t = true ∧ (s.step t).NeverFaults ts

def decidableNeverFaults (s : Visit) : (ts : List Turn) → Decidable (s.NeverFaults ts)
  | [] => inferInstanceAs (Decidable True)
  | t :: ts =>
      have := (s.step t).decidableNeverFaults ts
      inferInstanceAs (Decidable (s.answers t = true ∧ (s.step t).NeverFaults ts))

instance (s : Visit) : DecidablePred s.NeverFaults := s.decidableNeverFaults

/-! ### What is out has an entry -/

/-- The session keeps this ledger, and every address that is out is in it. -/
structure Covered (s : Visit) (l : Ledger) : Prop where
  ledger : s.session.ledger = some l
  entered : ∀ a ∈ s.live, a ∈ l.keys

namespace Covered

variable {s : Visit} {l l' : Ledger} {c : Call} {session : Session} {m : Ambient}

theorem of_call (hc : s.Covered l) {result : Except Fault (Except CallError (Option Addr))}
    (hcall : s.outcome c = ⟨result, session, m⟩) (hledger : session.ledger = some l')
    (htaken : ∀ a ∈ s.taken (.call c), a ∈ l'.keys)
    (hkept : ∀ a ∈ l.keys, a ∉ s.released (.call c) → a ∈ l'.keys) :
    (s.step (.call c)).Covered l' where
  ledger := by
    show (s.outcome c).own.ledger = some l'
    rw [hcall]
    exact hledger
  entered := by
    intro a ha
    rcases List.mem_append.1 ha with htook | hstayed
    · exact htaken a htook
    · obtain ⟨hlive, hnot⟩ := List.mem_filter.1 hstayed
      exact hkept a (hc.entered a hlive) (of_decide_eq_true hnot)

theorem not_answers {fault : Fault} (hcall : s.outcome c = ⟨.error fault, session, m⟩) :
    ¬ s.answers (.call c) = true := by
  rw [answers, hcall]
  exact Bool.false_ne_true

theorem newObject {size : Word} (hc : s.Covered l)
    (hanswers : s.answers (.call (.newObject size)) = true) :
    ∃ l', (s.step (.call (.newObject size))).Covered l' := by
  rcases hact : Heap.allocate size s.session.heap s.ambient with ⟨fault | a, h', m'⟩
  · obtain ⟨session, m'', hcall, -⟩ := Session.newObject_of_error hc.ledger hact
    exact absurd hanswers (not_answers hcall)
  · obtain ⟨b, recorded, ha, hs⟩ := (Heap.hasHeader_of_allocate hact).exists_size
    obtain ⟨session, m'', hcall, hleaves⟩ := Session.newObject_of_ok hc.ledger hact ha hs
    have htaken : s.taken (.call (.newObject size)) = [a] := by simp only [taken, hact]
    refine ⟨_, hc.of_call hcall hleaves.ledger ?_ ?_⟩
    · intro x hx
      rw [htaken, List.mem_singleton] at hx
      exact Ledger.mem_keys_enter_iff.2 (Or.inl hx)
    · intro x hx _
      exact Ledger.mem_keys_enter_iff.2 (Or.inr hx)

theorem newSlice {length element : Word} (hc : s.Covered l)
    (hanswers : s.answers (.call (.newSlice length element)) = true) :
    ∃ l', (s.step (.call (.newSlice length element))).Covered l' := by
  rcases hact : Heap.allocateSlice length element s.session.heap s.ambient with
    ⟨fault | handle, h', m'⟩
  · obtain ⟨session, m'', hcall, -⟩ := Session.newSlice_of_error hc.ledger hact
    exact absurd hanswers (not_answers hcall)
  · obtain ⟨data, hblocks, hrecord, hhandle, hdata⟩ := Heap.inMemory_of_allocateSlice hact
    obtain ⟨lengthAt, hat, hload, hlength⟩ := SliceRecord.exists_of_inMemory hrecord
    obtain ⟨b, recorded, hb, hbs⟩ := hhandle.exists_size
    obtain ⟨d, recorded', hd, hds⟩ := hdata.exists_size
    obtain ⟨session, m'', hcall, hleaves⟩ :=
      Session.newSlice_of_ok hc.ledger hact hat hload hlength hb hbs hd hds
    have htaken : s.taken (.call (.newSlice length element)) = [data, handle] := hblocks
    refine ⟨_, hc.of_call hcall hleaves.ledger ?_ ?_⟩
    · intro x hx
      rw [htaken, List.mem_cons, List.mem_singleton] at hx
      rw [Ledger.mem_keys_enter_iff, Ledger.mem_keys_enter_iff]
      exact hx.imp_right Or.inl
    · intro x hx _
      rw [Ledger.mem_keys_enter_iff, Ledger.mem_keys_enter_iff]
      exact Or.inr (Or.inr hx)

/-- A refused call leaves the ledger as it is, and takes nothing. -/
theorem of_refused (hc : s.Covered l) {result : Except Fault (Except CallError (Option Addr))}
    (hcall : s.outcome c = ⟨result, session, m⟩) (hledger : session.ledger = some l)
    (htaken : s.taken (.call c) = []) : ∃ l', (s.step (.call c)).Covered l' := by
  refine ⟨l, hc.of_call hcall hledger ?_ fun a ha _ => ha⟩
  rw [htaken]
  intro a ha
  cases ha

theorem dropObject {a : Addr} {size : Word} (hc : s.Covered l)
    (hanswers : s.answers (.call (.dropObject a size)) = true) :
    ∃ l', (s.step (.call (.dropObject a size))).Covered l' := by
  cases hv : s.session.vetFree a size with
  | error cause =>
      obtain ⟨session, m', hcall, hleaves⟩ := Session.dropObject_of_refused hc.ledger hv
      exact hc.of_refused hcall hleaves.ledger rfl
  | ok _ =>
      rcases hact : Heap.free a s.session.heap s.ambient with ⟨fault | _, h', m'⟩
      · obtain ⟨session, hcall⟩ := Session.dropObject_of_error hv hact
        exact absurd hanswers (not_answers hcall)
      · obtain ⟨session, m'', hcall, hleaves⟩ := Session.dropObject_of_vetted hc.ledger hv hact
        have hreleased := released_dropObject hcall
        refine ⟨_, hc.of_call hcall hleaves.ledger ?_ ?_⟩
        · intro x hx
          cases hx
        · intro x hx hnot
          rw [hreleased, List.mem_singleton] at hnot
          exact Ledger.mem_keys_strike_of_ne hx hnot

theorem dropSlice {handle : Addr} {element : Word} (hc : s.Covered l)
    (hanswers : s.answers (.call (.dropSlice handle element)) = true) :
    ∃ l', (s.step (.call (.dropSlice handle element))).Covered l' := by
  have hledger : (s.session.counted .dropSlice).ledger = some l := hc.ledger
  obtain ⟨m₁, hm₁, ⟨cause, hvet⟩ | ⟨fault, -, hvet⟩ | ⟨r, hr, hvet⟩⟩ :=
    Session.vetSlice_cases hledger handle element s.ambient
  · obtain ⟨session, m', hcall, hleaves⟩ := Session.dropSlice_of_refused hc.ledger hvet
    exact hc.of_refused hcall hleaves.ledger rfl
  · exact absurd hanswers (not_answers (Session.dropSlice_of_vet_error hvet))
  · rw [← hm₁] at hr
    obtain ⟨lengthAt, hat, hload, hlength⟩ := SliceRecord.exists_of_inMemory hr
    rcases hact : Heap.freeSlice handle s.session.heap m₁.countRead.countRead with
      ⟨fault | _, h', m'⟩
    · obtain ⟨session, hcall⟩ := Session.dropSlice_of_error hc.ledger hvet hat hload hlength hact
      exact absurd hanswers (not_answers hcall)
    · obtain ⟨session, hcall, hleaves⟩ :=
        Session.dropSlice_of_vetted hc.ledger hvet hat hload hlength hact
      have hreleased := released_dropSlice hcall (hm₁ ▸ hload)
      refine ⟨_, hc.of_call hcall hleaves.ledger ?_ ?_⟩
      · intro x hx
        cases hx
      · intro x hx hnot
        rw [hreleased, List.mem_cons, List.mem_singleton, not_or] at hnot
        exact Ledger.mem_keys_strike_of_ne (Ledger.mem_keys_strike_of_ne hx hnot.1) hnot.2

theorem turn {t : Turn} (hc : s.Covered l) (hanswers : s.answers t = true) :
    ∃ l', (s.step t).Covered l' := by
  cases t with
  | write after => exact ⟨l, hc.ledger, fun a ha => hc.entered a (List.mem_filter.1 ha).1⟩
  | grow after => exact ⟨l, hc.ledger, fun a ha => hc.entered a (List.mem_filter.1 ha).1⟩
  | call c =>
      cases c with
      | newObject size => exact hc.newObject hanswers
      | dropObject a size => exact hc.dropObject hanswers
      | newSlice length element => exact hc.newSlice hanswers
      | dropSlice handle element => exact hc.dropSlice hanswers

end Covered

/-! ### Both accounts of a visit -/

/-- The ledger lists exactly the carved blocks that are in no chain of the memory: the blocks
    tile the carved region, and the nine chains in memory are `chains`. -/
structure Accounted (s : Visit) (l : Ledger) (tiles : List Extent)
    (chains : Option SizeClass → List Extent) : Prop where
  ledger : s.session.ledger = some l
  heap : s.session.heap.WellFormed s.memory l.keys tiles chains
  held : ∀ a, a ∈ l.keys ↔ ∃ e ∈ tiles, a.toNat = e.payload ∧ ∀ k, e ∉ chains k
  once : l.keys.Nodup
  /-- What was recorded is what the header says now. -/
  sizes : ∀ x ∈ l.live.toList, s.memory.sizeAt? x.1 = some x.2
  /-- A census is answered, and it and the ledger add up to what was carved. -/
  total : ∃ c m' freeBytes freeBlocks,
    Heap.census s.session.heap s.ambient = ⟨.ok c, s.session.heap, m'⟩ ∧
    c.freeBytes = .ok freeBytes ∧ c.freeBlocks = .ok freeBlocks ∧
    l.bytes + 4 * l.count + freeBytes + 4 * freeBlocks = c.carvedBytes.toNat ∧
    s.session.heap.start.toNat + c.carvedBytes.toNat = s.session.heap.frontier.toNat
  /-- Whatever is listed may be dropped, as no more than was recorded. -/
  accepted : ∀ x ∈ l.live.toList, ∀ declared : Word, declared ≤ x.2 →
    (s.outcome (.dropObject x.1 declared)).result = .ok (.ok none)

end Visit

namespace Audited

variable {s : Visit} {inv : Inventory} {l : Ledger}

/-- If everything out has an entry, the entries are exactly what is out. -/
theorem extents_perm (hd : Audited s inv l) (hc : s.Covered l) : l.extents.Perm inv.live := by
  apply hd.lists.extents_perm hd.describes.sound.nodup_payloads
  intro e he
  have hmem : e.payload ∈ s.live.map UInt32.toNat :=
    hd.live.mem_iff.2 (List.mem_map_of_mem he)
  obtain ⟨a, ha, hae⟩ := List.mem_map.1 hmem
  exact ⟨a, hc.entered a ha, hae⟩

/-- An entry passes the vetting of every drop that declares no more than it records. -/
theorem vetFree_of_entry (hd : Audited s inv l) {x : Addr × Word} (hx : x ∈ l.live.toList)
    {declared : Word} (hle : declared ≤ x.2) : s.session.vetFree x.1 declared = .ok () := by
  obtain ⟨e, he, hxe, -⟩ := hd.lists.entry x hx
  have hholds := hd.describes.holds_of_mem (Inventory.mem_extents_of_live he) hxe
  have hvet := Ledger.vet_of_mem hd.lists.nodup hholds hx hle
  simp only [Session.vetFree, hd.ledger, hvet]

theorem dropObject_of_entry (hd : Audited s inv l) {x : Addr × Word} (hx : x ∈ l.live.toList)
    {declared : Word} (hle : declared ≤ x.2) :
    (s.outcome (.dropObject x.1 declared)).result = .ok (.ok none) := by
  obtain ⟨e, he, hxe, -⟩ := hd.lists.entry x hx
  obtain ⟨h', m', hact, -⟩ := hd.describes.free_of_live (m := s.ambient) he hxe
  obtain ⟨session, m'', hcall, -⟩ :=
    Session.dropObject_of_vetted hd.ledger (hd.vetFree_of_entry hx hle) hact
  rw [Visit.outcome, hcall]

theorem accounted (hd : Audited s inv l) (hc : s.Covered l) :
    ∃ tiles, s.Accounted l tiles inv.chain := by
  have hperm := hd.extents_perm hc
  have hkeys := hperm.map Extent.payload
  rw [hd.lists.payloads] at hkeys
  obtain ⟨tiles, hwell, -⟩ := hd.describes.exists_wellFormed hkeys
  refine ⟨tiles, hd.ledger, hwell, fun a => hwell.mem_live_iff, hd.lists.nodup, ?_, ?_, ?_⟩
  · intro x hx
    obtain ⟨e, he, hxe, hsize⟩ := hd.lists.entry x hx
    rw [hd.describes.sizeAt?_of_mem (Inventory.mem_extents_of_live he) hxe, ← hsize,
      UInt32.ofNat_toNat]
  · obtain ⟨c, m', hcensus, -, hcounts⟩ := hd.describes.exists_census (m := s.ambient)
    have hsound := hd.describes.sound
    have hbytes := (hperm.map Extent.size).sum_nat
    have hcount := hperm.length_eq
    rw [l.sum_size_extents] at hbytes
    rw [l.length_extents] at hcount
    have htotal := hsound.bytes_add_headers
    have hcarved := hcounts.carvedBytes
    refine ⟨c, m', _, _, hcensus, hcounts.freeBytes_eq hsound, hcounts.freeBlocks_eq hsound, ?_, ?_⟩
    · omega
    · rw [hd.describes.start, hd.describes.frontier]
      exact hcarved
  · intro x hx declared hle
    exact hd.dropObject_of_entry hx hle

/-- Both accounts are kept through every run without faults in which nothing doubles. -/
theorem exists_run {ts : List Turn} (hd : Audited s inv l) (hc : s.Covered l)
    (hl : s.Lawful ts) (hnever : s.NeverDoubles ts) (hfaults : s.NeverFaults ts) :
    ∃ inv' l', Audited (s.run ts) inv' l' ∧ (s.run ts).Covered l' := by
  induction ts generalizing s inv l with
  | nil => exact ⟨inv, l, hd, hc⟩
  | cons t ts ih =>
      obtain ⟨l', hc'⟩ := hc.turn hfaults.1
      rcases hd.turn hl.1 with ⟨-, inv', l'', hd'⟩ | ⟨hdoubles, -⟩
      · -- both speak of the one ledger that the turn left
        have hsame : l'' = l' := Option.some.inj (hd'.ledger.symm.trans hc'.ledger)
        subst hsame
        exact ih hd' hc' hl.2 hnever.2 hfaults.2
      · exact absurd hdoubles hnever.1

end Audited

/-- In a session that keeps a ledger, after every run without faults and without a drop that
    doubles, the ledger lists exactly the carved blocks that are in no chain, with the sizes in
    their headers; it and the chains add up to what was carved, and what it lists may be
    dropped. -/
theorem accounted_of_neverFaults {config : Session.Config} {m m' : Ambient} {session : Session}
    {ts : List Turn} (htracking : config.tracking = true)
    (hcreate : Session.create config () m = ⟨.ok (.ok session), (), m'⟩ ∨
      Session.createInside config () m = ⟨.ok (.ok session), (), m'⟩)
    (hl : (Visit.opened session m').Lawful ts)
    (hnever : (Visit.opened session m').NeverDoubles ts)
    (hfaults : (Visit.opened session m').NeverFaults ts) :
    ∃ l tiles chains, ((Visit.opened session m').run ts).Accounted l tiles chains := by
  have hopened := hcreate.elim id Session.create_of_createInside
  obtain ⟨hempty, haligned, hledger, -⟩ := Session.create_eq_ok hopened
  rw [htracking, if_pos rfl] at hledger
  have hcovered : (Visit.opened session m').Covered {} := by
    refine ⟨hledger, ?_⟩
    intro a ha
    cases ha
  obtain ⟨inv, l, hd, hc⟩ :=
    (Audited.opened hledger hempty haligned).exists_run hcovered hl hnever hfaults
  obtain ⟨tiles, haccounted⟩ := hd.accounted hc
  exact ⟨l, tiles, inv.chain, haccounted⟩

/-- A block is cut, a slice is dropped in pieces after its record was written to, and two drops
    are refused. -/
theorem accounted_of_pieces :
    let s := Visit.opened { heap := .empty 0, ledger := some {} }
      { memory := .zeros 96, journal := #[.heapCreated 0 0, .sessionOpened 0 true] }
    ∃ l tiles chains, (s.run [.call (.newObject 60), .call (.newSlice 2 4),
      .write ((((((Memory.zeros 96).store 0 60).store 64 8).store 76 8).store 68 80).store 72 1),
      .call (.dropObject 4 61), .call (.dropObject 4 60), .call (.newObject 36),
      .call (.dropObject 80 8), .call (.dropSlice 68 4)]).Accounted l tiles chains := by
  have hc : Session.createInside { start := 0, tracking := true } () { memory := .zeros 96 } =
      ⟨.ok (.ok { heap := .empty 0, ledger := some {} }), (),
        { memory := .zeros 96, journal := #[.heapCreated 0 0, .sessionOpened 0 true] }⟩ := rfl
  exact accounted_of_neverFaults rfl (.inr hc) (by decide +kernel) (by decide +kernel)
    (by decide +kernel)

end LinearHeap
