/-
  LinearHeap/Proofs/Vetting.lean
  ==============================
  **What a ledger protects, and what it does not.**  The invariant (`Audited`) is
  that an inventory describes the heap and that every entry of the ledger is the
  payload and the size of something handed out.  A drop that passes the ledger is
  then a drop of something handed out, and of two different things if it is a
  slice, with one exception: both addresses are looked up before either is struck,
  so a record that names itself passes twice.  That drop frees one block twice and
  leaves its chain without an end.
-/
import LinearHeap.Proofs.Sessions
import LinearHeap.Proofs.Visits

namespace LinearHeap

/-- Every entry is the payload and size of one of the extents, and no address has two. -/
structure Ledger.Lists (l : Ledger) (es : List Extent) : Prop where
  nodup : l.keys.Nodup
  entry : ∀ x ∈ l.live.toList, ∃ e ∈ es, x.1.toNat = e.payload ∧ x.2.toNat = e.size

namespace Ledger.Lists

variable {l : Ledger} {es fs : List Extent} {e : Extent} {a : Addr} {size : Word}

theorem mono (h : l.Lists es) (hsub : ∀ e ∈ es, e ∈ fs) : l.Lists fs := by
  refine ⟨h.nodup, fun x hx => ?_⟩
  obtain ⟨e, he, hxe⟩ := h.entry x hx
  exact ⟨e, hsub e he, hxe⟩

theorem enter (h : l.Lists es) (ha : a.toNat = e.payload) (hsize : size.toNat = e.size) :
    (l.enter a size).Lists (e :: es) := by
  refine ⟨nodup_keys_enter h.nodup, fun x hx => ?_⟩
  rcases (mem_enter_iff h.nodup).1 hx with rfl | ⟨hmem, -⟩
  · exact ⟨e, List.mem_cons_self, ha, hsize⟩
  · obtain ⟨f, hf, hxf⟩ := h.entry x hmem
    exact ⟨f, List.mem_cons_of_mem e hf, hxf⟩

theorem strike (h : l.Lists es) : (l.strike a).Lists (es.filter fun e => e.payload ∉ [a.toNat]) := by
  refine ⟨nodup_keys_strike h.nodup, fun x hx => ?_⟩
  obtain ⟨hmem, hne⟩ := (mem_strike_iff h.nodup).1 hx
  obtain ⟨e, he, hxe, hsize⟩ := h.entry x hmem
  refine ⟨e, List.mem_filter.2 ⟨he, ?_⟩, hxe, hsize⟩
  rw [decide_eq_true_eq, List.mem_singleton, ← hxe]
  exact fun heq => hne (UInt32.toNat_inj.1 heq)

end Ledger.Lists

/-- The inventory describes the heap, and the ledger lists nothing that is not out. -/
structure Audited (s : Visit) (inv : Inventory) (l : Ledger) : Prop where
  describes : inv.Describes s.session.heap s.memory
  ledger : s.session.ledger = some l
  lists : l.Lists inv.live
  live : (s.live.map UInt32.toNat).Perm (inv.live.map Extent.payload)
  balance : ∀ a, s.handed.count a = s.returned.count a + s.live.count a

namespace Audited

variable {s : Visit} {inv inv' : Inventory} {l l' : Ledger} {t : Turn}

theorem exists_extent (hd : Audited s inv l) {a : Addr} (ha : a ∈ s.live) :
    ∃ e ∈ inv.live, a.toNat = e.payload :=
  exists_of_live_perm hd.live ha

theorem nodup_live (hd : Audited s inv l) : s.live.Nodup :=
  hd.describes.sound.nodup_of_live_perm hd.live

/-! ### What the invariant is worth -/

theorem not_ofPayload_of_mem_chain (hd : Audited s inv l) {a : Addr} (ha : a ∈ s.live)
    {k : Option SizeClass} {f : Extent} (hf : f ∈ inv.chain k) :
    Block.ofPayload a ≠ .ok f.block := by
  intro hblock
  obtain ⟨e, he, hae⟩ := hd.exists_extent ha
  have hfm := Inventory.mem_extents_of_chain hf
  rw [Block.ofPayload_eq_ok_iff, hd.describes.sound.toNat_header hfm, hae] at hblock
  have hef : e = f := by
    apply hd.describes.sound.eq_of_header (Inventory.mem_extents_of_live he) hfm
    simp only [Extent.payload] at hblock
    omega
  exact hd.describes.sound.not_mem_chain_of_live he k (hef ▸ hf)

theorem safe (hd : Audited s inv l) : s.Safe where
  chains := by
    intro k
    have hlinked := hd.describes.chains k
    refine ⟨_, hlinked, FreeChain.nodup_of_linked hlinked, ?_⟩
    intro b hb a ha
    obtain ⟨f, hf, rfl⟩ := List.mem_map.1 hb
    exact hd.not_ofPayload_of_mem_chain ha hf
  headers := by
    intro a ha
    obtain ⟨e, he, hae⟩ := hd.exists_extent ha
    rw [hd.describes.sizeAt?_of_mem (Inventory.mem_extents_of_live he) hae]
    rfl
  apart := by
    intro a ha b hb hab i hia hib
    obtain ⟨e, he, hae⟩ := hd.exists_extent ha
    obtain ⟨f, hf, hbf⟩ := hd.exists_extent hb
    have hem := Inventory.mem_extents_of_live he
    have hfm := Inventory.mem_extents_of_live hf
    have hne : e ≠ f := by
      rintro rfl
      exact hab (UInt32.toNat_inj.1 (hae.trans hbf.symm))
    exact Extent.not_covers_of_apart (hd.describes.sound.apart hem hfm hne)
      ((hd.describes.inBlock_iff hem hae).1 hia) ((hd.describes.inBlock_iff hfm hbf).1 hib)
  nodup := hd.nodup_live
  alternating := by
    intro a
    have hbalance := hd.balance a
    have hone := List.nodup_iff_count_le_one.1 hd.nodup_live a
    omega

/-! ### Steps -/

theorem count_eq_of_released {live released : List Addr} (hl : live.Nodup) (hr : released.Nodup)
    (hsub : ∀ a ∈ released, a ∈ live) (a : Addr) :
    live.count a = released.count a + (live.filter (· ∉ released)).count a := by
  by_cases ha : a ∈ released
  · have hnot : a ∉ live.filter (· ∉ released) := by
      intro hmem
      exact of_decide_eq_true (List.mem_filter.1 hmem).2 ha
    rw [List.count_eq_one_of_mem hl (hsub a ha), List.count_eq_one_of_mem hr ha,
      List.count_eq_zero.2 hnot]
  · rw [List.count_eq_zero.2 ha, List.count_filter (by simpa using ha), Nat.zero_add]

/-- A turn keeps the invariant if what it takes and releases is what the list allocator hands
    out and takes back. -/
theorem of_turn (hd : Audited s inv l) (lent : List Extent)
    (hdescribes : inv'.Describes (s.after t).1.heap (s.after t).2.memory)
    (hledger : (s.after t).1.ledger = some l') (hlists : l'.Lists inv'.live)
    (htaken : (s.taken t).map UInt32.toNat = lent.map Extent.payload)
    (hreleased : (s.released t).Nodup) (hsub : ∀ a ∈ s.released t, a ∈ s.live)
    (hlive : inv'.live.Perm
      (lent ++ inv.live.filter fun e => e.payload ∉ (s.released t).map UInt32.toNat)) :
    Audited (s.step t) inv' l' where
  describes := hdescribes
  ledger := hledger
  lists := hlists
  live := live_perm_of_step hd.live htaken hlive
  balance := by
    intro a
    have hbalance := hd.balance a
    have hcount := count_eq_of_released hd.nodup_live hreleased hsub a
    show (s.taken t ++ s.handed).count a = (s.released t ++ s.returned).count a +
      (s.taken t ++ s.live.filter (· ∉ s.released t)).count a
    rw [List.count_append, List.count_append, List.count_append]
    omega

theorem of_call (hd : Audited s inv l) {c : Call} (lent : List Extent)
    {result : Except Fault (Except CallError (Option Addr))} {session : Session} {m : Ambient}
    {h : Heap} {memory : Memory} (hcall : s.outcome c = ⟨result, session, m⟩)
    (hleaves : session.Leaves m h l' memory) (hdescribes : inv'.Describes h memory)
    (hlists : l'.Lists inv'.live)
    (htaken : (s.taken (.call c)).map UInt32.toNat = lent.map Extent.payload)
    (hreleased : (s.released (.call c)).Nodup) (hsub : ∀ a ∈ s.released (.call c), a ∈ s.live)
    (hlive : inv'.live.Perm
      (lent ++ inv.live.filter fun e => e.payload ∉ (s.released (.call c)).map UInt32.toNat)) :
    Audited (s.step (.call c)) inv' l' := by
  apply hd.of_turn lent ?_ ?_ hlists htaken hreleased hsub hlive
  · show inv'.Describes (s.outcome c).own.heap (s.outcome c).ambient.memory
    rw [hcall, hleaves.heap, hleaves.memory]
    exact hdescribes
  · show (s.outcome c).own.ledger = some l'
    rw [hcall]
    exact hleaves.ledger

/-- A call that releases nothing, and takes what the list allocator hands out. -/
theorem of_grant (hd : Audited s inv l) {c : Call} (lent : List Extent)
    {result : Except Fault (Except CallError (Option Addr))} {session : Session} {m : Ambient}
    {h : Heap} {memory : Memory} (hcall : s.outcome c = ⟨result, session, m⟩)
    (hleaves : session.Leaves m h l' memory) (hdescribes : inv'.Describes h memory)
    (hlists : l'.Lists inv'.live)
    (htaken : (s.taken (.call c)).map UInt32.toNat = lent.map Extent.payload)
    (hreleased : s.released (.call c) = []) (hlive : inv'.live = lent ++ inv.live) :
    Audited (s.step (.call c)) inv' l' := by
  apply hd.of_call lent hcall hleaves hdescribes hlists htaken
  · rw [hreleased]
    exact List.nodup_nil
  · rw [hreleased]
    intro a ha
    cases ha
  · rw [hlive]
    simp [hreleased]

/-- A call that takes nothing and releases nothing, and leaves heap, ledger and memory. -/
theorem of_idle (hd : Audited s inv l) {c : Call}
    {result : Except Fault (Except CallError (Option Addr))} {session : Session} {m : Ambient}
    (hcall : s.outcome c = ⟨result, session, m⟩)
    (hleaves : session.Leaves m s.session.heap l s.memory) (htaken : s.taken (.call c) = [])
    (hreleased : s.released (.call c) = []) : Audited (s.step (.call c)) inv l := by
  apply hd.of_grant [] hcall hleaves hd.describes hd.lists ?_ hreleased rfl
  rw [htaken]
  rfl

theorem newObject (hd : Audited s inv l) (size : Word) :
    ∃ inv' l', Audited (s.step (.call (.newObject size))) inv' l' := by
  cases hs : inv.allocate s.memory.size size.toNat with
  | some result =>
      obtain ⟨e, left⟩ := result
      obtain ⟨h', m', hact, hnew, -⟩ := hd.describes.allocate_of_some (m := s.ambient) hs
      have hlive : left.live = e :: inv.live := (Inventory.lends_of_allocate hs).1.live
      have he : e ∈ left.extents := by
        apply Inventory.mem_extents_of_live
        rw [hlive]
        exact List.mem_cons_self
      have hslot := hnew.toNat_slot_eq_payload he
      obtain ⟨session, m'', hcall, hleaves⟩ := Session.newObject_of_ok hd.ledger hact
        (Block.toNat_slot (hnew.block_lt he)) (hnew.size?_block he)
      have hlists := hd.lists.enter hslot (hnew.toNat_size he)
      rw [← hlive] at hlists
      refine ⟨left, _, hd.of_grant [e] hcall hleaves hnew hlists ?_ rfl hlive⟩
      simp only [Visit.taken, hact, List.map_cons, List.map_nil, hslot]
  | none =>
      obtain ⟨n, hact⟩ := hd.describes.allocate_of_none (m := s.ambient) hs
      obtain ⟨session, m'', hcall, hleaves⟩ := Session.newObject_of_error hd.ledger hact
      rw [Ambient.memory_countReads] at hleaves
      refine ⟨inv, l, hd.of_idle hcall hleaves ?_ rfl⟩
      simp only [Visit.taken, hact]

section NewSlice

variable {length element : Word}

theorem newSlice_of_pair (hd : Audited s inv l) {content record : Extent}
    (hs : inv.allocateSlice s.memory.size length.toNat element.toNat =
      ([content, record], inv')) :
    ∃ l', Audited (s.step (.call (.newSlice length element))) inv' l' := by
  have hlive : inv'.live = content :: record :: inv.live :=
    (Inventory.lends_of_allocateSlice hs).2.2
  obtain ⟨hsize, h', m', hact, hblocks, hnew, -, hdata, -⟩ :=
    hd.describes.allocateSlice_of_pair (m := s.ambient) hs
  have hc : content ∈ inv'.extents := by
    apply Inventory.mem_extents_of_live
    rw [hlive]
    exact List.mem_cons_self
  have hr : record ∈ inv'.extents := by
    apply Inventory.mem_extents_of_live
    rw [hlive]
    exact List.mem_cons_of_mem content List.mem_cons_self
  have hrslot := hnew.toNat_slot_eq_payload hr
  have hcslot := hnew.toNat_slot_eq_payload hc
  obtain ⟨lengthAt, hat, r, hload, hlength⟩ := hnew.exists_record hr hsize hrslot
  have hrdata : r.data = content.block.slot := by
    rw [← hrslot] at hdata
    rw [Memory.load?_eq_some_iff_holds.2 hdata] at hload
    exact (Option.some.inj hload).symm
  have hcdata : r.data.toNat = content.block.header.toNat + 4 := by
    rw [hrdata]
    exact Block.toNat_slot (hnew.block_lt hc)
  obtain ⟨session, m'', hcall, hleaves⟩ := Session.newSlice_of_ok hd.ledger hact hat hload hlength
    (Block.toNat_slot (hnew.block_lt hr)) (hnew.size?_block hr) hcdata (hnew.size?_block hc)
  rw [hrdata] at hleaves
  have hentered := hd.lists.enter hrslot (hnew.toNat_size hr)
  have hlists := hentered.enter hcslot (hnew.toNat_size hc)
  rw [← hlive] at hlists
  refine ⟨_, hd.of_grant [content, record] hcall hleaves hnew hlists ?_ rfl hlive⟩
  simp only [Visit.taken, hblocks, List.map_cons, List.map_nil, hrslot, hcslot]

theorem newSlice_of_not_pair (hd : Audited s inv l) {lent : List Extent}
    (hs : inv.allocateSlice s.memory.size length.toNat element.toNat = (lent, inv'))
    (hlent : lent.length ≠ 2) :
    Audited (s.step (.call (.newSlice length element))) inv' l := by
  have hlive : inv'.live = lent ++ inv.live := (Inventory.lends_of_allocateSlice hs).2.2
  obtain ⟨fault, h', m', hact, hblocks, hnew, -⟩ :=
    hd.describes.allocateSlice_of_not_pair (m := s.ambient) hs hlent
  obtain ⟨session, m'', hcall, hleaves⟩ := Session.newSlice_of_error hd.ledger hact
  have hlists : l.Lists inv'.live := hd.lists.mono fun e he => by
    rw [hlive]
    exact List.mem_append_right _ he
  apply hd.of_grant lent hcall hleaves hnew hlists ?_ rfl hlive
  simp only [Visit.taken, hblocks, List.map_map]
  apply List.map_congr_left
  intro e he
  have hout : e ∈ inv'.live := by
    rw [hlive]
    exact List.mem_append_left _ he
  exact hnew.toNat_slot_eq_payload (Inventory.mem_extents_of_live hout)

theorem newSlice (hd : Audited s inv l) (length element : Word) :
    ∃ inv' l', Audited (s.step (.call (.newSlice length element))) inv' l' := by
  rcases hs : inv.allocateSlice s.memory.size length.toNat element.toNat with ⟨lent, left⟩
  by_cases hlent : lent.length = 2
  · obtain ⟨content, record, rfl⟩ := List.length_eq_two.1 hlent
    exact ⟨left, hd.newSlice_of_pair hs⟩
  · exact ⟨left, l, hd.newSlice_of_not_pair hs hlent⟩

end NewSlice

/-- What passes the ledger is out, and holds what was declared. -/
theorem exists_of_vetted (hd : Audited s inv l) {a : Addr} {declared : Word}
    (hv : s.session.vetFree a declared = .ok ()) :
    ∃ e ∈ inv.live, a.toNat = e.payload ∧ declared.toNat ≤ e.size := by
  obtain ⟨size, hmem, hle⟩ := Session.exists_mem_of_vetFree hd.ledger hv
  obtain ⟨e, he, hae, hsize⟩ := hd.lists.entry _ hmem
  rw [UInt32.le_iff_toNat_le, hsize] at hle
  exact ⟨e, he, hae, hle⟩

theorem dropObject (hd : Audited s inv l) (a : Addr) (size : Word) :
    ∃ inv' l', Audited (s.step (.call (.dropObject a size))) inv' l' := by
  cases hv : s.session.vetFree a size with
  | error cause =>
      obtain ⟨session, m', hcall, hleaves⟩ := Session.dropObject_of_refused hd.ledger hv
      refine ⟨inv, l, hd.of_idle hcall hleaves rfl ?_⟩
      simp only [Visit.released, Visit.not_accepts_of_refused hcall, Bool.false_eq_true, if_false]
  | ok u =>
      obtain ⟨e, he, hae, -⟩ := hd.exists_of_vetted hv
      obtain ⟨h', m', hact, hnew, -⟩ := hd.describes.free_of_live (m := s.ambient) he hae
      obtain ⟨session, m'', hcall, hleaves⟩ := Session.dropObject_of_vetted hd.ledger hv hact
      have hreleased := Visit.released_dropObject hcall
      have hlive := hd.describes.sound.live_free he
      rw [← hae] at hlive
      have hlists : (l.strike a).Lists (inv.free a.toNat).live :=
        hd.lists.strike.mono fun f hf => hlive.mem_iff.2 hf
      refine ⟨_, _, hd.of_call [] hcall hleaves hnew hlists rfl ?_ ?_ ?_⟩
      · rw [hreleased]
        exact List.nodup_singleton a
      · rw [hreleased]
        intro b hb
        rw [List.mem_singleton.1 hb]
        exact mem_of_live_perm hd.live he hae
      · rw [hreleased]
        exact hlive

section DropSlice

variable {handle : Addr} {element : Word}

theorem dropSlice_of_refused (hd : Audited s inv l) {cause : Refusal} {m' : Ambient}
    (hmem : m'.memory = s.memory)
    (hvet : Session.vetSlice handle element (s.session.counted .dropSlice) s.ambient =
      ⟨.ok (.error cause), s.session.counted .dropSlice, m'⟩) :
    ¬ s.Doubles (.call (.dropSlice handle element)) ∧
      ∃ inv' l', Audited (s.step (.call (.dropSlice handle element))) inv' l' := by
  obtain ⟨session, m'', hcall, hleaves⟩ := Session.dropSlice_of_refused hd.ledger hvet
  have haccepts := Visit.not_accepts_of_refused hcall
  rw [hmem] at hleaves
  refine ⟨?_, inv, l, hd.of_idle hcall hleaves rfl ?_⟩
  · rintro ⟨haccepted, -⟩
    rw [haccepts] at haccepted
    cases haccepted
  · simp only [Visit.released, haccepts, Bool.false_eq_true, if_false]

section Vetted

variable {lengthAt : Addr} {r : SliceRecord} {e f : Extent}

theorem dropSlice_of_ne (hd : Audited s inv l) (he : e ∈ inv.live) (hsize : 8 ≤ e.size)
    (hae : handle.toNat = e.payload) (hf : f ∈ inv.live) (hrf : r.data.toNat = f.payload)
    (hne : r.data ≠ handle) (hat : lengthAt.toNat = handle.toNat + 4)
    (hload : s.ambient.memory.load? handle = some r.data)
    (hlength : s.ambient.memory.load? lengthAt = some r.length)
    (hvet : Session.vetSlice handle element (s.session.counted .dropSlice) s.ambient =
      ⟨.ok (.ok ()), s.session.counted .dropSlice, s.ambient.countRead.countRead⟩) :
    ∃ inv' l', Audited (s.step (.call (.dropSlice handle element))) inv' l' := by
  have hef : e ≠ f := by
    rintro rfl
    exact hne (UInt32.toNat_inj.1 (hrf.trans hae.symm))
  have hholds := Memory.load?_eq_some_iff_holds.1 hload
  obtain ⟨h', m', hact, hnew, -⟩ := hd.describes.freeSlice_of_live
    (m := s.ambient.countRead.countRead.countRead.countRead) he hf hef hsize hae hrf hholds
  obtain ⟨session, hcall, hleaves⟩ :=
    Session.dropSlice_of_vetted hd.ledger hvet hat hload hlength hact
  have hreleased := Visit.released_dropSlice hcall hload
  have hlive := hd.describes.sound.live_free_free hf he hef
  rw [← hrf, ← hae] at hlive
  have hlists : ((l.strike r.data).strike handle).Lists
      ((inv.free r.data.toNat).free handle.toNat).live := by
    apply hd.lists.strike.strike.mono
    intro g hg
    apply hlive.mem_iff.2
    simp only [List.mem_filter, List.mem_cons, List.not_mem_nil, or_false,
      decide_eq_true_eq, not_or] at hg ⊢
    exact ⟨hg.1.1, hg.1.2, hg.2⟩
  refine ⟨_, _, hd.of_call [] hcall hleaves hnew hlists rfl ?_ ?_ ?_⟩
  · rw [hreleased]
    exact List.nodup_cons.2 ⟨fun hmem => hne (List.mem_singleton.1 hmem), List.nodup_singleton _⟩
  · rw [hreleased]
    intro b hb
    rcases List.mem_cons.1 hb with rfl | hb
    · exact mem_of_live_perm hd.live hf hrf
    · rw [List.mem_singleton.1 hb]
      exact mem_of_live_perm hd.live he hae
  · rw [hreleased]
    exact hlive

/-- The record names itself: the drop is accepted, and a chain has no end afterwards. -/
theorem dropSlice_of_self (hd : Audited s inv l) (he : e ∈ inv.live) (hsize : 8 ≤ e.size)
    (hae : handle.toNat = e.payload) (hself : r.data = handle)
    (hat : lengthAt.toNat = handle.toNat + 4)
    (hload : s.ambient.memory.load? handle = some r.data)
    (hlength : s.ambient.memory.load? lengthAt = some r.length)
    (hvet : Session.vetSlice handle element (s.session.counted .dropSlice) s.ambient =
      ⟨.ok (.ok ()), s.session.counted .dropSlice, s.ambient.countRead.countRead⟩) :
    s.Doubles (.call (.dropSlice handle element)) ∧
      ¬ (s.step (.call (.dropSlice handle element))).Safe := by
  have hself' : s.ambient.memory.load? handle = some handle := hload.trans (congrArg some hself)
  obtain ⟨h', m', hact, hendless⟩ := hd.describes.freeSlice_of_self
    (m := s.ambient.countRead.countRead.countRead.countRead) he hsize hae hself'
  obtain ⟨session, hcall, hleaves⟩ :=
    Session.dropSlice_of_vetted hd.ledger hvet hat hload hlength hact
  refine ⟨⟨Visit.accepts_of_ok hcall, hself'⟩, fun hsafe => ?_⟩
  obtain ⟨bs, hlinked, -⟩ := hsafe.chains (SizeClass.ofNat? e.size)
  have hheap : (s.step (.call (.dropSlice handle element))).session.heap = h' := by
    show (s.outcome (.dropSlice handle element)).own.heap = h'
    rw [Visit.outcome, hcall]
    exact hleaves.heap
  have hmemory : (s.step (.call (.dropSlice handle element))).memory = m'.memory := by
    show (s.outcome (.dropSlice handle element)).ambient.memory = m'.memory
    rw [Visit.outcome, hcall]
  rw [hheap, hmemory] at hlinked
  exact hendless bs hlinked

end Vetted

/-- A drop of a slice is refused, or frees two blocks, or is accepted for one block twice. -/
theorem dropSlice (hd : Audited s inv l) :
    (¬ s.Doubles (.call (.dropSlice handle element)) ∧
      ∃ inv' l', Audited (s.step (.call (.dropSlice handle element))) inv' l') ∨
    (s.Doubles (.call (.dropSlice handle element)) ∧
      ¬ (s.step (.call (.dropSlice handle element))).Safe) := by
  have hledger : (s.session.counted .dropSlice).ledger = some l := hd.ledger
  cases hv : s.session.vetFree handle SliceRecord.bytes with
  | error cause =>
      exact Or.inl (hd.dropSlice_of_refused rfl (Session.vetSlice_of_refused hledger hv))
  | ok u =>
      obtain ⟨e, he, hae, hsize⟩ := hd.exists_of_vetted hv
      obtain ⟨lengthAt, hat, r, hload, hlength⟩ :=
        hd.describes.exists_record (m := s.ambient) (Inventory.mem_extents_of_live he) hsize hae
      have hvet : Session.vetSlice handle element (s.session.counted .dropSlice) s.ambient = _ :=
        Session.vetSlice_of_vetted hledger hv hat hload hlength
      cases hv' : s.session.vetFree r.data (Session.saturatingProduct r.length element) with
      | error cause =>
          have hcause : (s.session.counted .dropSlice).vetFree r.data
              (Session.saturatingProduct r.length element) = .error cause := hv'
          rw [hcause] at hvet
          have hmem : s.ambient.countRead.countRead.memory = s.memory := rfl
          exact Or.inl (hd.dropSlice_of_refused hmem hvet)
      | ok u' =>
          have hpassed : (s.session.counted .dropSlice).vetFree r.data
              (Session.saturatingProduct r.length element) = .ok () := hv'
          rw [hpassed] at hvet
          obtain ⟨f, hf, hrf, -⟩ := hd.exists_of_vetted hv'
          -- both look-ups passed before anything was struck: that leaves one bad case
          by_cases hself : r.data = handle
          · exact Or.inr (hd.dropSlice_of_self he hsize hae hself hat hload hlength hvet)
          · refine Or.inl ⟨?_, hd.dropSlice_of_ne he hsize hae hf hrf hself hat hload hlength hvet⟩
            rintro ⟨-, hdouble⟩
            exact hself (Option.some.inj (hload.symm.trans hdouble))

end DropSlice

/-! ### Turns and runs -/

theorem write (hd : Audited s inv l) {after : Memory} (ha : s.Allows (.write after)) :
    Audited (s.step (.write after)) inv l := by
  apply hd.of_turn (t := .write after) [] ?_ hd.ledger hd.lists rfl List.nodup_nil
  · intro a ha
    cases ha
  · simp [Visit.released]
  · apply hd.describes.written ha
    rintro i ⟨a, hlive, hin⟩
    obtain ⟨e, he, hae⟩ := hd.exists_extent hlive
    exact hd.describes.not_guards_of_inPayload he hae hin

theorem grow (hd : Audited s inv l) {after : Memory} (ha : s.Allows (.grow after)) :
    Audited (s.step (.grow after)) inv l := by
  apply hd.of_turn (t := .grow after) [] (hd.describes.grown ha) hd.ledger hd.lists rfl
    List.nodup_nil
  · intro a ha
    cases ha
  · simp [Visit.released]

/-- A turn that does not double keeps the invariant; one that does ends safety. -/
theorem turn (hd : Audited s inv l) (ha : s.Allows t) :
    (¬ s.Doubles t ∧ ∃ inv' l', Audited (s.step t) inv' l') ∨
      (s.Doubles t ∧ ¬ (s.step t).Safe) := by
  cases t with
  | write after => exact Or.inl ⟨id, inv, l, hd.write ha⟩
  | grow after => exact Or.inl ⟨id, inv, l, hd.grow ha⟩
  | call c =>
      cases c with
      | newObject size => exact Or.inl ⟨id, hd.newObject size⟩
      | dropObject a size => exact Or.inl ⟨id, hd.dropObject a size⟩
      | newSlice length element => exact Or.inl ⟨id, hd.newSlice length element⟩
      | dropSlice handle element => exact hd.dropSlice

/-- From a state that satisfies the invariant, all states of a run are safe exactly if no turn
    doubles. -/
theorem safe_iff {ts : List Turn} (hd : Audited s inv l) (hl : s.Lawful ts) :
    (∀ us, us <+: ts → (s.run us).Safe) ↔ s.NeverDoubles ts := by
  -- a turn either keeps the invariant, and the rest of the run decides, or ends both sides
  induction ts generalizing s inv l with
  | nil =>
      refine ⟨fun _ => trivial, fun _ us hus => ?_⟩
      rw [List.prefix_nil.1 hus]
      exact hd.safe
  | cons t ts ih =>
      rcases hd.turn hl.1 with ⟨hnot, inv', l', hd'⟩ | ⟨hdouble, hunsafe⟩
      · constructor
        · intro hsafe
          refine ⟨hnot, (ih hd' hl.2).1 fun us hus => ?_⟩
          exact hsafe (t :: us) (List.cons_prefix_cons.2 ⟨rfl, hus⟩)
        · rintro ⟨-, hnever⟩ us hus
          cases us with
          | nil => exact hd.safe
          | cons u us =>
              obtain ⟨rfl, htail⟩ := List.cons_prefix_cons.1 hus
              exact (ih hd' hl.2).2 hnever us htail
      · constructor
        · intro hsafe
          exact absurd (hsafe [t] (List.cons_prefix_cons.2 ⟨rfl, List.nil_prefix⟩)) hunsafe
        · rintro ⟨hnot, -⟩
          exact absurd hdouble hnot

theorem opened {session : Session} {m : Ambient} (hledger : session.ledger = some {})
    (hempty : session.heap = Heap.empty session.heap.start)
    (haligned : session.heap.start.toNat % 4 = 0) :
    Audited (.opened session m) (.fresh session.heap.start.toNat) {} where
  describes := by
    have hdescribes := Inventory.describes_empty (m := m.memory) haligned
    rw [← hempty] at hdescribes
    exact hdescribes
  ledger := hledger
  lists := ⟨List.nodup_nil, by intro x hx; cases hx⟩
  live := List.Perm.refl _
  balance := fun _ => rfl

end Audited

/-- In a session that keeps a ledger, every state of a run is safe if and only if no drop of a
    slice is accepted whose record names itself. -/
theorem safe_iff_neverDoubles {config : Session.Config} {m m' : Ambient} {session : Session}
    {ts : List Turn} (htracking : config.tracking = true)
    (hc : Session.create config () m = ⟨.ok (.ok session), (), m'⟩ ∨
      Session.createInside config () m = ⟨.ok (.ok session), (), m'⟩)
    (hl : (Visit.opened session m').Lawful ts) :
    (∀ us, us <+: ts → ((Visit.opened session m').run us).Safe) ↔
      (Visit.opened session m').NeverDoubles ts := by
  have hcreate := hc.elim id Session.create_of_createInside
  obtain ⟨hempty, haligned, hledger, -⟩ := Session.create_eq_ok hcreate
  rw [htracking, if_pos rfl] at hledger
  exact (Audited.opened hledger hempty haligned).safe_iff hl

/-- A slice made and dropped is safe; an object dropped as a slice whose record it holds itself
    is not. -/
theorem safe_iff_neverDoubles_of_slice_and_self :
    let s := Visit.opened { heap := .empty 0, ledger := some {} }
      { memory := .zeros 64, journal := #[.heapCreated 0 0, .sessionOpened 0 true] }
    (∀ us, us <+: [Turn.call (.newSlice 2 4), .call (.dropSlice 4 4), .call (.newObject 8),
      .call (.dropObject 4 8), .call (.dropObject 4 8)] → (s.run us).Safe) ∧
    ¬ ∀ us, us <+: [Turn.call (.newObject 8), .write (((Memory.zeros 64).store 0 8).store 4 4),
      .call (.dropSlice 4 0)] → (s.run us).Safe := by
  have hc : Session.createInside { start := 0, tracking := true } () { memory := .zeros 64 } =
      ⟨.ok (.ok { heap := .empty 0, ledger := some {} }), (),
        { memory := .zeros 64, journal := #[.heapCreated 0 0, .sessionOpened 0 true] }⟩ := rfl
  constructor
  · exact (safe_iff_neverDoubles rfl (.inr hc) (by decide +kernel)).2 (by decide +kernel)
  · intro hsafe
    exact absurd ((safe_iff_neverDoubles rfl (.inr hc) (by decide +kernel)).1 hsafe) (by decide +kernel)

end LinearHeap
