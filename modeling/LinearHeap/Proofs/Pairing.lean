/-
  LinearHeap/Proofs/Pairing.lean
  ==============================
  **A slice is built and released as a pair.**  A slice call that returns has taken
  two blocks that share no byte, a record of exactly eight bytes and a content of at
  least the size of its elements, and has written the address of the one into the
  other (`Tenancy.Builds`).  The second allocation cannot disturb the first: what
  it writes lies outside everything that is out.

  At any later time, as long as both are out and the record still says what it said,
  freeing the slice gives back these two blocks and no other
  (`Tenancy.ReleasesPair`).  The element size is not looked at: the content knows
  its own size.
-/
import LinearHeap.Proofs.Provision
import LinearHeap.Proofs.Sessions
import LinearHeap.Proofs.Stocktaking

namespace LinearHeap

namespace Tenancy

/-- In the second state the slice has been built that a call in the first state asked for. -/
structure Builds (s t : Tenancy) (handle data : Addr) (length element : Word) : Prop where
  /-- The record reads as it was meant. -/
  reads : (SliceRecord.read handle : Act Heap SliceRecord) t.heap t.ambient =
    ⟨.ok ⟨data, length⟩, t.heap, t.ambient.countRead.countRead⟩
  taken : t.live = data :: handle :: s.live
  fresh : handle ∉ s.live ∧ data ∉ s.live
  distinct : data ≠ handle
  apart : ∀ i, t.memory.InBlock handle i → ¬ t.memory.InBlock data i
  record : t.memory.sizeAt? handle = some 8
  content : ∃ size, t.memory.sizeAt? data = some size ∧
    length.toNat * element.toNat ≤ size.toNat ∧ 4 ≤ size.toNat

/-- Freeing the slice puts its content and then its record in front of the chains of their sizes,
    and changes nothing else; a session without a ledger does just that, whatever element size it
    is told. -/
def ReleasesPair (u : Tenancy) (handle data : Addr) : Prop :=
  ∃ chains, u.heap.WellFormed u.memory u.live u.blocks chains ∧
    ∃ content ∈ u.blocks, ∃ record ∈ u.blocks,
      data.toNat = content.payload ∧ handle.toNat = record.payload ∧
      ∃ h' m', Heap.freeSlice handle u.heap u.ambient = ⟨.ok (), h', m'⟩ ∧
        h'.WellFormed m'.memory (u.live.filter (· ∉ [data, handle])) u.blocks
          (record.pushOn (content.pushOn chains)) ∧
        u.memory.ChangesOnly (fun i => (data.toNat ≤ i ∧ i < data.toNat + 4) ∨
          (handle.toNat ≤ i ∧ i < handle.toNat + 4)) m'.memory ∧
        ∀ session : Session, session.heap = u.heap → session.ledger = none → ∀ element,
          Session.dropSlice handle element session u.ambient =
            ⟨.ok (.ok ()), Session.heapPart.set (session.counted .dropSlice) h', m'⟩

end Tenancy

namespace Mirrors

variable {s : Tenancy} {p : Blueprint} {length element : Word} {handle data lengthAt : Addr}

/-! ### Building -/

/-- A slice call that returns was served with two extents, the record's last. -/
theorem exists_pair (hm : Mirrors s p)
    (hreturns : (Heap.allocateSlice length element s.heap s.ambient).result = .ok handle) :
    ∃ content record, (p.effect (.allocateSlice length element)).1 = [content, record] ∧
      handle = record.block.slot ∧
      (s.step (.allocateSlice length element)).memory.Holds record.payload content.block.slot ∧
      (s.step (.allocateSlice length element)).memory.Holds (record.payload + 4) length := by
  rcases hs : p.inventory.allocateSlice p.room length.toNat element.toNat with ⟨lent, left⟩
  have heffect : (p.effect (.allocateSlice length element)).1 = lent := by
    simp only [Blueprint.effect, hs]
  rw [hm.room] at hs
  by_cases hlent : lent.length = 2
  · obtain ⟨content, record, rfl⟩ := List.length_eq_two.1 hlent
    obtain ⟨-, h', m', hact, -, -, -, hdata, hlength, -⟩ :=
      hm.describes.allocateSlice_of_pair (m := s.ambient) hs
    have hcall : s.call (.allocateSlice length element) = ⟨.ok (some _), h', m'⟩ :=
      Act.map_of_ok hact
    have hmemory : (s.step (.allocateSlice length element)).memory = m'.memory := by
      show (s.call (.allocateSlice length element)).ambient.memory = m'.memory
      rw [hcall]
    rw [hact] at hreturns
    rw [hmemory]
    exact ⟨content, record, heffect, (Except.ok.inj hreturns).symm, hdata, hlength⟩
  · obtain ⟨fault, h', m', hact, -⟩ :=
      hm.describes.allocateSlice_of_not_pair (m := s.ambient) hs hlent
    rw [hact] at hreturns
    cases hreturns

section Pair

variable {content record : Extent}

/-- Content and record are out, in front of what was out before. -/
theorem live_of_pair (hm : Mirrors s p)
    (hpair : (p.effect (.allocateSlice length element)).1 = [content, record]) :
    content ∈ (p.step (.allocateSlice length element)).inventory.live ∧
      record ∈ (p.step (.allocateSlice length element)).inventory.live ∧
      (s.step (.allocateSlice length element)).live =
        content.block.slot :: record.block.slot :: s.live := by
  have ha : s.Allows (.allocateSlice length element) := trivial
  have hf := hm.follows ha
  have hout := hf.live
  have htaken := hf.taken
  rw [hpair] at hout htaken
  refine ⟨hout.mem_iff.2 (by simp), hout.mem_iff.2 (by simp), ?_⟩
  show s.taken _ ++ s.live.filter (· ∉ s.released _) = _
  rw [htaken]
  simp [Tenancy.released]

/-- The record has the size of a record, and the content has room for the elements. -/
theorem sizes_of_pair (hm : Mirrors s p)
    (hpair : (p.effect (.allocateSlice length element)).1 = [content, record]) :
    record.size = 8 ∧ length.toNat * element.toNat ≤ content.size ∧ 4 ≤ content.size := by
  have hsuits := hm.suits_of_effect (.allocateSlice length element)
  rw [hpair] at hsuits
  have hrecord : Inventory.Suits (Inventory.padded 8) record :=
    hsuits (record, 8) List.mem_cons_self
  have hcontent : Inventory.Suits (Inventory.padded (length.toNat * element.toNat)) content :=
    hsuits (content, length.toNat * element.toNat) (List.mem_cons_of_mem _ List.mem_cons_self)
  have hasked := Inventory.request_le_padded (length.toNat * element.toNat)
  have hleast := (Inventory.Describes.padded_words (length.toNat * element.toNat)).2
  exact ⟨hrecord.size_of_le (by decide) (by decide) (by decide), hasked.trans hcontent.fit,
    hleast.trans hcontent.fit⟩

/-- Neither was out before, and they are not the same. -/
theorem fresh_of_pair (hm : Mirrors s p)
    (hpair : (p.effect (.allocateSlice length element)).1 = [content, record]) :
    content.block.slot ≠ record.block.slot ∧ record.block.slot ∉ s.live ∧
      content.block.slot ∉ s.live := by
  have ha : s.Allows (.allocateSlice length element) := trivial
  have hm' := hm.step ha
  have hnodup := hm'.describes.sound.nodup_of_live_perm hm'.live
  rw [(hm.live_of_pair hpair).2.2, List.nodup_cons, List.nodup_cons, List.mem_cons, not_or]
    at hnodup
  obtain ⟨⟨hne, hcontent⟩, hrecord, -⟩ := hnodup
  exact ⟨hne, hrecord, hcontent⟩

end Pair

/-- What a slice call that returns has built. -/
theorem exists_builds (hm : Mirrors s p)
    (hreturns : (Heap.allocateSlice length element s.heap s.ambient).result = .ok handle) :
    ∃ data lengthAt : Addr, lengthAt.toNat = handle.toNat + 4 ∧
      s.Builds (s.step (.allocateSlice length element)) handle data length element := by
  obtain ⟨content, record, hpair, rfl, hdata, hlength⟩ := hm.exists_pair hreturns
  obtain ⟨hc, hr, hlive⟩ := hm.live_of_pair hpair
  obtain ⟨height, hfit, hleast⟩ := hm.sizes_of_pair hpair
  obtain ⟨hne, hrfresh, hcfresh⟩ := hm.fresh_of_pair hpair
  have ha : s.Allows (.allocateSlice length element) := trivial
  have hd := (hm.step ha).describes
  have hrmem := Inventory.mem_extents_of_live hr
  have hcmem := Inventory.mem_extents_of_live hc
  have hrslot := hd.toNat_slot_eq_payload hrmem
  have hcslot := hd.toNat_slot_eq_payload hcmem
  have hextents : record ≠ content := by
    rintro rfl
    exact hne rfl
  obtain ⟨lengthAt, hat, -, -⟩ :=
    hd.hasWord_record (m := (s.step (.allocateSlice length element)).ambient) hrmem
      (Nat.le_of_eq height.symm) hrslot
  refine ⟨content.block.slot, lengthAt, hat, ?_⟩
  constructor
  · apply SliceRecord.read_of_load? hat
    · rw [Memory.load?_eq_some_iff_holds, hrslot]
      exact hdata
    · rw [Memory.load?_eq_some_iff_holds, hat, hrslot]
      exact hlength
  · exact hlive
  · exact ⟨hrfresh, hcfresh⟩
  · exact hne
  · intro i hi hi'
    exact Extent.not_covers_of_apart (hd.sound.apart hrmem hcmem hextents)
      ((hd.inBlock_iff hrmem hrslot).1 hi) ((hd.inBlock_iff hcmem hcslot).1 hi')
  · rw [hd.sizeAt?_of_mem hrmem hrslot, height]
    rfl
  · refine ⟨_, hd.sizeAt?_of_mem hcmem hcslot, ?_⟩
    rw [hd.toNat_size hcmem]
    exact ⟨hfit, hleast⟩

/-! ### Releasing -/

/-- A slice both of whose blocks are out, and whose record can be read, is released as a pair. -/
theorem releasesPair (hm : Mirrors s p) (hhandle : handle ∈ s.live) (hdata : data ∈ s.live)
    (hne : data ≠ handle) (hat : lengthAt.toNat = handle.toNat + 4)
    (hload : s.memory.load? handle = some data) (hlength : s.memory.load? lengthAt = some length) :
    s.ReleasesPair handle data := by
  obtain ⟨hwell, -⟩ := hm.exists_wellFormed_blocks
  obtain ⟨content, hc, record, hr, hdc, hhr, h', m', hact, hwell', hlinks⟩ :=
    Heap.WellFormed.freeSlice (m := s.ambient) hwell hhandle hdata hne hat hload hlength
  refine ⟨_, hwell, content, hc, record, hr, hdc, hhr, h', m', hact, hwell', hlinks, ?_⟩
  intro session hheap hledger element
  have htracking : session.isTracking = false := by
    rw [Session.isTracking, hledger, Option.isSome_none]
  rw [← hheap] at hact
  exact Session.dropSlice_eq_of_not_tracking htracking hact element

end Mirrors

/-- In every state of a lawful run, a slice call that returns has built a pair; and in every later
    state in which both blocks are out and the record is intact, freeing the slice releases that
    pair and nothing else, whatever the element size. -/
theorem slices_paired {requested : Addr} {m m' : Ambient} {h : Heap} {as : List Action}
    {length element : Word} {handle : Addr}
    (hc : Heap.create requested () m = ⟨.ok (.ok h), (), m'⟩)
    (hl : (Tenancy.opened h m').Lawful as)
    (hreturns : (Heap.allocateSlice length element ((Tenancy.opened h m').run as).heap
      ((Tenancy.opened h m').run as).ambient).result = .ok handle) :
    let s := (Tenancy.opened h m').run as
    let t := s.step (.allocateSlice length element)
    ∃ data, s.Builds t handle data length element ∧
      ∀ bs, t.Lawful bs → handle ∈ (t.run bs).live → data ∈ (t.run bs).live →
        (t.run bs).memory.Holds handle.toNat data →
        (t.run bs).memory.Holds (handle.toNat + 4) length →
        (t.run bs).ReleasesPair handle data := by
  intro s t
  obtain ⟨hempty, haligned, -⟩ := Heap.create_eq_ok hc
  have hm := (Mirrors.opened (m := m') hempty haligned).run hl
  obtain ⟨data, lengthAt, hat, hbuilds⟩ := hm.exists_builds hreturns
  refine ⟨data, hbuilds, fun bs hbs hhandle hdata hholds hlength => ?_⟩
  have hallowed : s.Allows (.allocateSlice length element) := trivial
  have hu := (hm.step hallowed).run hbs
  rw [← hat] at hlength
  exact hu.releasesPair hhandle hdata hbuilds.distinct hat
    (Memory.load?_eq_some_iff_holds.2 hholds) (Memory.load?_eq_some_iff_holds.2 hlength)

/-- A slice is built behind a block that was freed; the guest writes into its content, another block
    comes and goes, and the slice is still the pair that was built. -/
theorem slices_paired_of_written_content :
    let m : Ambient := { memory := .zeros 128, journal := #[.heapCreated 0 0] }
    let s := (Tenancy.opened (.empty 0) m).run [.allocate 60, .free 4]
    let t := s.step (.allocateSlice 2 4)
    let later := t.run [.write (t.memory.store 84 68), .allocate 12, .free 92]
    s.Builds t 68 80 2 4 ∧ later.ReleasesPair 68 80 := by
  intro m s t later
  have hcreate : Heap.create 0 () { memory := .zeros 128 } = ⟨.ok (.ok (.empty 0)), (), m⟩ := rfl
  have hlawful : (Tenancy.opened (.empty 0) m).Lawful [.allocate 60, .free 4] := by decide +kernel
  have hreturns : (Heap.allocateSlice 2 4 s.heap s.ambient).result = .ok 68 := by decide +kernel
  obtain ⟨data, hbuilds, hreleases⟩ := slices_paired hcreate hlawful hreturns
  have hlive : t.live = [80, 68] := by decide +kernel
  have htaken : t.live = data :: 68 :: s.live := hbuilds.taken
  rw [hlive] at htaken
  obtain rfl : 80 = data := (List.cons.inj htaken).1
  have hafter : t.Lawful [.write (t.memory.store 84 68), .allocate 12, .free 92] := by
    decide +kernel
  have hhandle : 68 ∈ later.live := by decide +kernel
  have hcontent : 80 ∈ later.live := by decide +kernel
  have hdata : later.memory.load? 68 = some 80 := by decide +kernel
  have hlength : later.memory.load? 72 = some 2 := by decide +kernel
  have hat : (68 : Addr).toNat + 4 = (72 : Addr).toNat := rfl
  refine ⟨hbuilds, hreleases _ hafter hhandle hcontent ?_ ?_⟩
  · exact Memory.load?_eq_some_iff_holds.1 hdata
  · rw [hat]
    exact Memory.load?_eq_some_iff_holds.1 hlength

end LinearHeap
