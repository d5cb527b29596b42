/-
  LinearHeap/Proofs/Balance.lean
  ==============================
  **Chains, counters and blocks balance.**  A heap counts what it does, call by
  call; a census walks what lies in its chains.  After every lawful run the two
  agree:

      blocks in the bins        = frees into bins - reuses from bins
      blocks in the list        = frees into the list - reuses from the list
      blocks carved             = allocations from the wilderness + splits
      blocks out                = allocations - (frees - splits)

  A split is the rare case: its remainder counts as freed although no guest freed
  it, and so stands on both sides.

  The counters of a run are those of the blueprint (`Mirrors.counters_step`); what
  one call does to inventory and counters keeps the balance (`Balances`), whatever
  the inventory.
-/
import LinearHeap.Proofs.Censuses
import LinearHeap.Proofs.WellFormed

namespace LinearHeap

/-! ### What a run counts -/

/-- The counters after an action. -/
def Blueprint.counted (p : Blueprint) (a : Action) (n : Counters) : Counters :=
  match a with
  | .allocate request => p.inventory.countAllocate p.room request.toNat n
  | .allocateSlice length element => p.inventory.countSlice p.room length.toNat element.toNat n
  | .free a => p.inventory.countFree a.toNat n
  | .freeSlice handle =>
      match p.slices.lookup handle.toNat with
      | some data =>
          (p.inventory.free data).countFree handle.toNat (p.inventory.countFree data n)
      | none => n
  | .write _ | .grow _ => n

namespace Mirrors

open Blueprint

variable {s : Tenancy} {p : Blueprint} {a : Action}

/-- What a call leaves is known once the act behind it is. -/
theorem counters_of_call {result : Except Fault (Option Addr)} {h' : Heap} {m' : Ambient}
    (hcall : s.call a = ⟨result, h', m'⟩) : (s.step a).heap.counters = h'.counters := by
  show (s.call a).own.counters = h'.counters
  rw [hcall]

theorem counters_allocate (hm : Mirrors s p) (request : Word) :
    (s.step (.allocate request)).heap.counters =
      p.inventory.countAllocate p.room request.toNat s.heap.counters := by
  have hd := hm.describes
  rw [hm.room]
  cases hs : p.inventory.allocate s.memory.size request.toNat with
  | some result =>
      obtain ⟨h', m', hact, -, -, hcounters⟩ := hd.allocate_of_some (m := s.ambient) hs
      exact (counters_of_call (Act.map_of_ok hact)).trans hcounters
  | none =>
      obtain ⟨n, hact⟩ := hd.allocate_of_none (m := s.ambient) hs
      rw [Inventory.countAllocate_of_none hs]
      exact counters_of_call (Act.bind_of_error hact)

theorem counters_allocateSlice (hm : Mirrors s p) (length element : Word) :
    (s.step (.allocateSlice length element)).heap.counters =
      p.inventory.countSlice p.room length.toNat element.toNat s.heap.counters := by
  have hd := hm.describes
  rw [hm.room]
  rcases hs : p.inventory.allocateSlice s.memory.size length.toNat element.toNat with
    ⟨lent, left⟩
  by_cases hlent : lent.length = 2
  · obtain ⟨content, record, rfl⟩ := List.length_eq_two.1 hlent
    obtain ⟨-, h', m', hact, -, -, -, -, -, hcounters⟩ :=
      hd.allocateSlice_of_pair (m := s.ambient) hs
    exact (counters_of_call (Act.map_of_ok hact)).trans hcounters
  · obtain ⟨fault, h', m', hact, -, -, -, hcounters⟩ :=
      hd.allocateSlice_of_not_pair (m := s.ambient) hs hlent
    exact (counters_of_call (Act.bind_of_error hact)).trans hcounters

/-- The heap counts what the blueprint counts. -/
theorem counters_step (hm : Mirrors s p) (ha : s.Allows a) :
    (s.step a).heap.counters = p.counted a s.heap.counters := by
  cases a with
  | allocate request => exact hm.counters_allocate request
  | allocateSlice length element => exact hm.counters_allocateSlice length element
  | free a =>
      obtain ⟨e, he, hae⟩ := hm.exists_extent ha
      obtain ⟨h', m', hact, -, -, hcounters⟩ :=
        hm.describes.free_of_live (m := s.ambient) he hae
      exact (counters_of_call (Act.map_of_ok hact)).trans hcounters
  | freeSlice handle =>
      obtain ⟨data, hlookup⟩ := Option.isSome_iff_exists.1 ha
      obtain ⟨record, hr, content, hc, hne, hhandle, hdata, hsize, hholds⟩ :=
        hm.lookup_record hlookup
      obtain ⟨h', m', hact, -, -, hcounters⟩ := hm.describes.freeSlice_of_live (m := s.ambient)
        hr hc hne hsize hhandle hdata hholds
      simp only [counted, hm.lookup_slices hlookup]
      exact (counters_of_call (Act.map_of_ok hact)).trans hcounters
  | write after => rfl
  | grow after => rfl

end Mirrors

/-! ### What a move leaves in the chains -/

namespace Inventory

variable {inv inv' : Inventory} {e : Extent} {k : Option SizeClass} {before after : List Extent}

theorem class_of_mem_bin {c : SizeClass} (he : e ∈ inv.chain (some c)) :
    SizeClass.ofNat? e.size = some c := by
  rw [size_of_mem_bin he, SizeClass.toNat_bytes, SizeClass.ofNat?_width]

/-- The first-fit list takes what it is given, and a bin what is of its size. -/
theorem chain_withChain_of_bin {es : List Extent}
    (h : ∀ c, k = some c → ∀ f ∈ es, SizeClass.ofNat? f.size = k) :
    (inv.withChain k es).chain k = es := by
  rcases k with _ | c
  · rfl
  · exact chain_withChain_same (h c rfl)

theorem shelved_shelve (e : Extent) (inv : Inventory) :
    (inv.shelve e).shelved.Perm (e :: inv.shelved) := by
  have hsame : (inv.shelve e).chain (SizeClass.ofNat? e.size) =
      [] ++ e :: inv.chain (SizeClass.ofNat? e.size) := by
    rw [shelve_eq_withChain]
    apply chain_withChain_of_bin
    intro c hc f hf
    rcases List.mem_cons.1 hf with rfl | hf
    · rfl
    · rw [hc] at hf ⊢
      exact class_of_mem_bin hf
  have hother : ∀ j, j ≠ SizeClass.ofNat? e.size → (inv.shelve e).chain j = inv.chain j := by
    intro j hj
    rw [shelve_eq_withChain, chain_withChain_of_ne hj]
  exact shelved_perm_cons hsame rfl hother

theorem shelved_take (hk : inv.chain k = before ++ e :: after) (lent : Extent) :
    inv.shelved.Perm (e :: (inv.take k before after lent).shelved) := by
  have hsame : (inv.take k before after lent).chain k = before ++ after := by
    rw [take, chain_lend]
    apply chain_withChain_of_bin
    rintro c rfl f hf
    have hmem : f ∈ inv.chain (some c) := by
      rw [hk]
      exact (List.mem_append.1 hf).elim (fun hf => List.mem_append_left _ hf)
        fun hf => List.mem_append_right _ (List.mem_cons_of_mem e hf)
    exact class_of_mem_bin hmem
  exact shelved_perm_cons hk hsame fun j hj => (chain_take_of_ne hj).symm

/-! ### The balance -/

/-- The chains and what is out balance with the counters. -/
structure Balances (inv : Inventory) (n : Counters) : Prop where
  fits : inv.fits.length + n.fitReuses = n.fitFrees
  shelved : inv.shelved.length + n.reuses = n.binFrees + n.fitFrees
  carved : inv.live.length + inv.shelved.length = n.carved + n.splits
  splits : n.splits ≤ n.fitReuses

theorem balances_fresh (start : Nat) : (fresh start).Balances {} := by
  have hshelved : (fresh start).shelved = [] := by
    apply List.flatMap_eq_nil_iff.2
    rintro (_ | c) - <;> rfl
  refine ⟨rfl, ?_, ?_, Nat.le_refl _⟩
  · rw [hshelved]
    rfl
  · rw [hshelved]
    rfl

variable {n : Counters} {room size request length element : Nat}

theorem Balances.shelve (hb : inv.Balances n) (live : List Extent)
    (hlive : live.length + 1 = inv.live.length) :
    ((inv.withLive live).shelve e).Balances (n.joined (SizeClass.ofNat? e.size)) := by
  obtain ⟨hfits, hshelved, hcarved, hsplits⟩ := hb
  have hlength := (shelved_shelve e (inv.withLive live)).length_eq
  rw [List.length_cons, shelved_withLive] at hlength
  have hlive' : ((inv.withLive live).shelve e).live.length = live.length := by
    rw [live_shelve, live_withLive]
  cases hk : SizeClass.ofNat? e.size with
  | none =>
      have hfits' : ((inv.withLive live).shelve e).fits.length = inv.fits.length + 1 := by
        simp only [Inventory.shelve, hk]
        rfl
      constructor <;> simp only [Counters.joined, Counters.reuses] at * <;> omega
  | some c =>
      have hfits' : ((inv.withLive live).shelve e).fits = inv.fits := by
        simp only [Inventory.shelve, hk]
        rfl
      rw [← hfits'] at hfits
      constructor <;> simp only [Counters.joined, Counters.reuses] at * <;> omega

theorem Balances.take (hb : inv.Balances n) (hk : inv.chain k = before ++ e :: after)
    (lent : Extent) : (inv.take k before after lent).Balances (n.reused k) := by
  obtain ⟨hfits, hshelved, hcarved, hsplits⟩ := hb
  have hlength := (shelved_take hk lent).length_eq
  rw [List.length_cons] at hlength
  have hlive : (inv.take k before after lent).live.length = inv.live.length + 1 := by
    rw [live_take, List.length_cons]
  cases k with
  | none =>
      have hfits' : (inv.take none before after lent).fits.length + 1 = inv.fits.length := by
        have hold : inv.fits = before ++ e :: after := hk
        rw [hold]
        show (before ++ after).length + 1 = (before ++ e :: after).length
        simp only [List.length_append, List.length_cons]
        omega
      constructor <;> simp only [Counters.reused, Counters.reuses] at * <;> omega
  | some c =>
      have hfits' : (inv.take (some c) before after lent).fits = inv.fits := rfl
      rw [← hfits'] at hfits
      constructor <;> simp only [Counters.reused, Counters.reuses] at * <;> omega

theorem Balances.bump (hb : inv.Balances n) (hs : inv.bump room size = some (e, inv')) :
    inv'.Balances n.carvedOnce := by
  obtain ⟨-, -, rfl, rfl⟩ := bump_eq_some_iff.1 hs
  obtain ⟨hfits, hshelved, hcarved, hsplits⟩ := hb
  refine ⟨hfits, hshelved, ?_, hsplits⟩
  show (inv.live.length + 1) + inv.shelved.length = (n.carved + 1) + n.splits
  omega

/-- Cutting a fit is taking it out, and putting its upper part back as if that had been out. -/
theorem Balances.cut (hb : inv.Balances n) (hk : inv.fits = before ++ e :: after)
    (low high : Extent) :
    ((inv.take none before after low).shelve high).Balances
      (n.cutInto (SizeClass.ofNat? high.size)) := by
  obtain ⟨hfits, hshelved, hcarved, hsplits⟩ := hb.take (k := none) hk low
  let out := (inv.take none before after low).withLive
    (high :: (inv.take none before after low).live)
  have hout : out.Balances
      { n with fitReuses := n.fitReuses + 1, splits := n.splits + 1 } := by
    have hsame : out.shelved = (inv.take none before after low).shelved := shelved_withLive _ _
    have hlive : out.live.length = (inv.take none before after low).live.length + 1 := rfl
    refine ⟨hfits, ?_, ?_, Nat.succ_le_succ hb.splits⟩
    · rw [hsame]
      exact hshelved
    · rw [hsame, hlive]
      simp only [Counters.reused] at hcarved ⊢
      omega
  exact hout.shelve (inv.take none before after low).live rfl

/-- A size that is served moves the counters along with the extents. -/
theorem Balances.serve (hb : inv.Balances n) (hs : inv.serve room size = some (e, inv')) :
    inv'.Balances (inv.countServe size n) := by
  cases serves_of_serve hs with
  | carved hs hn =>
      rw [hn]
      exact hb.bump hs
  | whole hk hn =>
      rw [hn]
      exact hb.take hk e
  | cut hk hn =>
      rw [hn]
      exact hb.cut hk _ _

theorem Balances.allocate (hb : inv.Balances n) (hs : inv.allocate room request = some (e, inv')) :
    inv'.Balances (inv.countAllocate room request n) := by
  rw [countAllocate_of_some hs]
  exact hb.serve hs

theorem Balances.allocateSlice (hb : inv.Balances n) :
    (inv.allocateSlice room length element).2.Balances (inv.countSlice room length element n) := by
  unfold Inventory.allocateSlice countSlice
  split
  · cases hr : inv.allocate room 8 with
    | none => exact hb
    | some record =>
        have hleft := hb.allocate hr
        cases hc : record.2.allocate room (length * element) with
        | none =>
            simp only [hc, countAllocate_of_none hc]
            exact hleft
        | some content =>
            simp only [hc]
            exact hleft.allocate hc
  · exact hb

theorem Balances.free (hb : inv.Balances n) (payload : Nat) :
    (inv.free payload).Balances (inv.countFree payload n) := by
  unfold countFree
  cases hfind : inv.live.find? fun e => e.payload == payload with
  | none =>
      simp only [Inventory.free, hfind]
      exact hb
  | some e =>
      obtain ⟨before, after, hlive, hfree⟩ := free_of_find? hfind
      rw [hfree]
      apply hb.shelve
      rw [hlive]
      simp only [List.length_append, List.length_cons]
      omega

end Inventory

/-- One action keeps the balance, whether it is lawful or not. -/
theorem Blueprint.balances_step {p : Blueprint} {n : Counters} (hb : p.inventory.Balances n)
    (a : Action) : (p.step a).inventory.Balances (p.counted a n) := by
  cases a with
  | allocate request =>
      show ((p.effect (.allocate request)).2).Balances _
      cases hs : p.inventory.allocate p.room request.toNat with
      | none =>
          simp only [effect, counted, hs, Inventory.countAllocate_of_none hs]
          exact hb
      | some served =>
          simp only [effect, counted, hs]
          exact hb.allocate hs
  | allocateSlice length element => exact hb.allocateSlice
  | free a => exact hb.free a.toNat
  | freeSlice handle =>
      show ((p.effect (.freeSlice handle)).2).Balances _
      cases hlookup : p.slices.lookup handle.toNat with
      | none =>
          simp only [effect, counted, hlookup]
          exact hb
      | some data =>
          simp only [effect, counted, hlookup]
          exact (hb.free data).free handle.toNat
  | write after => exact hb
  | grow after => exact hb

/-- The balance is kept through every lawful run. -/
theorem Mirrors.balances_run {s : Tenancy} {p : Blueprint} {as : List Action} (hm : Mirrors s p)
    (hb : p.inventory.Balances s.heap.counters) (hl : s.Lawful as) :
    (p.run as).inventory.Balances (s.run as).heap.counters := by
  induction as generalizing s p with
  | nil => exact hb
  | cons a as ih =>
      have hnext := p.balances_step hb a
      rw [← hm.counters_step hl.1] at hnext
      exact ih (hm.step hl.1) hnext hl.2

/-! ### What a census shows -/

/-- A census, the counters and what is out, in balance.  Differences of counts are differences of
    integers. -/
structure Tenancy.Balanced (s : Tenancy) (tiles : List Extent)
    (chains : Option SizeClass → List Extent) (c : Census) : Prop where
  wellFormed : s.heap.WellFormed s.memory s.live tiles chains
  census : ∃ m', Heap.census s.heap s.ambient = ⟨.ok c, s.heap, m'⟩
  /-- A block that is counted for a size has that size in its header. -/
  binBlocks : ∀ i, c.binBlocks.get i = (chains (some i)).length ∧
    ∀ e ∈ chains (some i), e.block.size? s.memory = some (SizeClass.bytes i)
  fitBlocks : c.fitBlocks = (chains none).length
  bins : ((SizeClass.all.map c.binBlocks.get).sum : Int) =
    s.heap.counters.binFrees - s.heap.counters.binReuses
  fits : (c.fitBlocks : Int) = s.heap.counters.fitFrees - s.heap.counters.fitReuses
  blocks : tiles.length = s.heap.counters.carved + s.heap.counters.splits
  live : (s.live.length : Int) = s.heap.counters.allocations -
    (s.heap.counters.binFrees + s.heap.counters.fitFrees - s.heap.counters.splits)
  /-- Free payloads, the headers of free blocks, and the blocks that are out fill the region. -/
  bytes : ∃ free blocks, c.freeBytes = .ok free ∧ c.freeBlocks = .ok blocks ∧
    free + 4 * blocks +
        (s.live.map fun a => ((s.memory.sizeAt? a).getD 0).toNat + 4).sum =
      c.carvedBytes.toNat ∧
    c.carvedBytes.toNat = s.heap.frontier.toNat - s.heap.start.toNat

namespace Mirrors

variable {s : Tenancy} {p : Blueprint}

/-- Headers and payloads of what is out, read from memory. -/
theorem sum_live (hm : Mirrors s p) :
    (s.live.map fun a => ((s.memory.sizeAt? a).getD 0).toNat + 4).sum =
      (p.inventory.live.map Extent.size).sum + 4 * p.inventory.live.length := by
  let bytesAt : Nat → Nat := fun q => ((s.memory.sizeAt? (UInt32.ofNat q)).getD 0).toNat + 4
  have hread : (s.live.map fun a => ((s.memory.sizeAt? a).getD 0).toNat + 4) =
      (s.live.map UInt32.toNat).map bytesAt := by
    simp only [bytesAt, List.map_map, Function.comp_def, UInt32.ofNat_toNat]
  have hsize : ∀ e ∈ p.inventory.live, (bytesAt ∘ Extent.payload) e = e.size + 4 := by
    intro e he
    have hmem := Inventory.mem_extents_of_live he
    have hslot := hm.describes.toNat_slot hmem
    have hpayload : UInt32.ofNat e.payload = e.block.slot := by
      rw [Extent.payload, ← hslot, UInt32.ofNat_toNat]
    have hsize := hm.describes.sizeAt?_of_mem hmem hslot
    simp only [bytesAt, Function.comp_apply, hpayload, hsize, Option.getD_some,
      hm.describes.toNat_size hmem]
  have hsum : ∀ es : List Extent, (es.map fun e => e.size + 4).sum =
      (es.map Extent.size).sum + 4 * es.length := by
    intro es
    induction es with
    | nil => rfl
    | cons e es ih =>
        simp only [List.map_cons, List.sum_cons, List.length_cons, ih]
        omega
  rw [hread, (hm.live.map bytesAt).sum_nat, List.map_map, List.map_congr_left hsize, hsum]

theorem exists_balanced (hm : Mirrors s p) (hb : p.inventory.Balances s.heap.counters) :
    ∃ tiles chains c, s.Balanced tiles chains c := by
  have hsound := hm.describes.sound
  obtain ⟨tiles, hwell, hperm⟩ := hm.describes.exists_wellFormed hm.live
  obtain ⟨c, m', hcensus, -, hcounts⟩ := hm.describes.exists_census (m := s.ambient)
  obtain ⟨hfits, hshelved, hcarved, hsplits⟩ := hb
  have hlength := p.inventory.length_shelved
  have hbins : (SizeClass.all.map c.binBlocks.get).sum =
      (SizeClass.all.map fun i => (p.inventory.chain (some i)).length).sum :=
    congrArg List.sum (List.map_congr_left fun i _ => hcounts.bins i)
  have hlive := hm.live.length_eq
  rw [List.length_map, List.length_map] at hlive
  have hblocks := hperm.length_eq
  rw [Inventory.extents, List.length_append] at hblocks
  simp only [Counters.reuses] at hshelved
  refine ⟨tiles, p.inventory.chain, c, hwell, ⟨m', hcensus⟩, ?_, hcounts.fitBlocks, ?_, ?_, ?_, ?_,
    ?_⟩
  · refine fun i => ⟨hcounts.bins i, fun e he => ?_⟩
    rw [hm.describes.size?_block (Inventory.mem_extents_of_chain he), Inventory.size_of_mem_bin he,
      UInt32.ofNat_toNat]
  · omega
  · have hcount := hcounts.fitBlocks
    omega
  · omega
  · simp only [Counters.allocations]
    omega
  · refine ⟨_, _, hcounts.freeBytes_eq hsound, hcounts.freeBlocks_eq hsound, ?_, ?_⟩
    · have htotal := hsound.bytes_add_headers
      have hstart := hcounts.carvedBytes
      rw [hm.sum_live]
      omega
    · have hstart := hcounts.carvedBytes
      rw [hm.describes.start, hm.describes.frontier]
      omega

end Mirrors

/-- After every lawful run, the census of the chains, the counters and the blocks that are out
    balance, and together with their headers they fill the region. -/
theorem balanced_of_lawful {requested : Addr} {m m' : Ambient} {h : Heap} {as : List Action}
    (hc : Heap.create requested () m = ⟨.ok (.ok h), (), m'⟩)
    (hl : (Tenancy.opened h m').Lawful as) :
    let s := (Tenancy.opened h m').run as
    ∃ tiles chains c, s.Balanced tiles chains c := by
  obtain ⟨hempty, haligned, -⟩ := Heap.create_eq_ok hc
  have hm := Mirrors.opened (m := m') hempty haligned
  have hcounters : (Tenancy.opened h m').heap.counters = {} := by
    show h.counters = {}
    rw [hempty]
    rfl
  refine (hm.run hl).exists_balanced (hm.balances_run ?_ hl)
  rw [hcounters]
  exact Inventory.balances_fresh _

/-- A block is freed and handed out again in part, the rest of it joining a bin; a slice that
    faults leaves its record out; a fit goes out whole. -/
theorem balanced_of_split_run :
    let m : Ambient := { memory := .zeros 128, journal := #[.heapCreated 0 0] }
    let s := (Tenancy.opened (.empty 0) m).run
      [.allocate 60, .allocate 12, .free 4, .allocate 36, .allocateSlice 16 16, .free 4,
        .allocate 33, .free 68]
    ∃ tiles chains c, s.Balanced tiles chains c :=
  balanced_of_lawful (show Heap.create 0 () { memory := .zeros 128 } = _ from rfl)
    (by decide +kernel)

end LinearHeap
