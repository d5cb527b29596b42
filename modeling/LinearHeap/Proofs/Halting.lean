/-
  LinearHeap/Proofs/Halting.lean
  ==============================
  **Every loop over a chain ends inside the carved region.**  The loops follow the
  links in memory and count nothing: a walk lists a chain, a search passes blocks
  until one is large enough, and a census adds up sizes.  What ends them is room.
  The blocks of a chain are disjoint parts of the carved region, and none takes
  less than its size and a header:

      a bin                its size + 4 bytes each
      the first-fit list   40 bytes each, since 4 to 32 have bins

  So a chain has no more blocks than fit side by side (`Sound.length_chain_le`),
  and the number of steps that a loop was given makes no difference as long as it
  is no less than that (`Heap.Ends`).  To say which blocks a search and a census
  pass, each is written once more with a list of them (`searchNoting`,
  `measureNoting`) and proved to be the same loop.
-/
import LinearHeap.Proofs.Censuses
import LinearHeap.Proofs.FirstFit
import LinearHeap.Proofs.Mirrors
import LinearHeap.Proofs.Transparency

namespace LinearHeap

/-! ### Room -/

/-- The least bytes that a block of a chain takes, header included. -/
def leastBlock : Option SizeClass → Nat
  | some c => (SizeClass.bytes c).toNat + 4
  | none => 40

/-- A payload of whole words that no bin takes has at least nine. -/
theorem Extent.Fair.le_size {e : Extent} (h : e.Fair) (hclass : SizeClass.ofNat? e.size = none) :
    36 ≤ e.size := by
  obtain ⟨-, hwords, hroom⟩ := h
  unfold SizeClass.ofNat? at hclass
  split at hclass
  · cases hclass
  · omega

theorem length_mul_le_sum {es : List Extent} {width : Nat} (h : ∀ e ∈ es, width ≤ e.size + 4) :
    es.length * width ≤ (es.map Extent.size).sum + 4 * es.length := by
  induction es with
  | nil => simp
  | cons e es ih =>
      have hrest := ih fun f hf => h f (List.mem_cons_of_mem e hf)
      have hfirst := h e List.mem_cons_self
      rw [List.length_cons, List.map_cons, List.sum_cons, Nat.succ_mul]
      omega

namespace Inventory

variable {inv : Inventory} {k : Option SizeClass} {e : Extent}

theorem Sound.leastBlock_le (h : inv.Sound) (he : e ∈ inv.chain k) :
    leastBlock k ≤ e.size + 4 := by
  rcases k with _ | c
  · have hsize := (h.fair (mem_extents_of_chain he)).le_size (h.class_of_mem_chain he)
    simp only [leastBlock]
    omega
  · rw [size_of_mem_bin he]
    exact Nat.le_refl _

/-- Payloads and headers of one chain take no more than what is carved. -/
theorem Sound.chain_fits (h : inv.Sound) (k : Option SizeClass) :
    inv.start + (((inv.chain k).map Extent.size).sum + 4 * (inv.chain k).length) ≤
      inv.frontier := by
  have htotal := h.bytes_add_headers
  obtain ⟨before, after, hshelves⟩ := List.append_of_mem (mem_shelves k)
  rw [shelved, hshelves, List.flatMap_append, List.flatMap_cons, List.map_append, List.map_append,
    List.sum_append_nat, List.sum_append_nat, List.length_append, List.length_append] at htotal
  omega

/-- A chain has no more blocks than fit side by side into what is carved. -/
theorem Sound.length_chain_le (h : inv.Sound) (k : Option SizeClass) :
    (inv.chain k).length ≤ (inv.frontier - inv.start) / leastBlock k := by
  have hpositive : 0 < leastBlock k := by
    cases k with
    | none => decide
    | some c => exact Nat.succ_pos _
  have hfits := h.chain_fits k
  have hsum := length_mul_le_sum fun e he => h.leastBlock_le (k := k) he
  rw [Nat.le_div_iff_mul_le hpositive]
  omega

end Inventory

/-- How many blocks of a chain fit side by side into the carved region. -/
def Heap.capacity (h : Heap) (k : Option SizeClass) : Nat :=
  (h.frontier.toNat - h.start.toNat) / leastBlock k

/-- Blocks that a loop over a chain passes: few, each once, and each with its header and its link
    in the carved region. -/
structure Heap.Confines (h : Heap) (k : Option SizeClass) (bs : List Block) : Prop where
  few : bs.length ≤ h.capacity k
  nodup : bs.Nodup
  inside : ∀ b ∈ bs, h.start.toNat ≤ b.header.toNat ∧ b.header.toNat + 8 ≤ h.frontier.toNat

theorem Heap.Confines.sublist {h : Heap} {k : Option SizeClass} {bs cs : List Block}
    (hc : h.Confines k bs) (hsub : cs.Sublist bs) : h.Confines k cs where
  few := Nat.le_trans hsub.length_le hc.few
  nodup := hc.nodup.sublist hsub
  inside := fun b hb => hc.inside b (hsub.subset hb)

theorem Inventory.Describes.length_chain_le {inv : Inventory} {h : Heap} {m : Memory}
    (hd : inv.Describes h m) (k : Option SizeClass) : (inv.chain k).length ≤ h.capacity k := by
  rw [Heap.capacity, hd.start, hd.frontier]
  exact hd.sound.length_chain_le k

theorem Inventory.Describes.confines {inv : Inventory} {h : Heap} {m : Memory}
    (hd : inv.Describes h m) (k : Option SizeClass) :
    h.Confines k ((inv.chain k).map Extent.block) where
  few := by
    rw [List.length_map]
    exact hd.length_chain_le k
  nodup := FreeChain.nodup_of_linked (hd.chains k)
  inside := by
    intro b hb
    obtain ⟨e, he, rfl⟩ := List.mem_map.1 hb
    have hmem := mem_extents_of_chain he
    have hlow := hd.sound.start_le hmem
    have hroom := hd.sound.header_add_eight_le hmem
    have hstop := hd.sound.stop_le hmem
    rw [hd.start, hd.frontier, hd.sound.toNat_header hmem]
    omega

/-! ### The search, noting what it passes -/

namespace FitList

/-- The search, with the blocks whose header and link it has read. -/
def searchNoting (size : Word) :
    (steps : Nat) → (prev cursor : Link) → Act FitList (Option Fit × List Block)
  | _, _, none => return (none, [])
  | 0, _, some _ => Act.fault .endlessChain
  | steps + 1, prev, some b => do
      let free ← b.readSize
      let next ← b.readLink
      if free < size then
        let (found, passed) ← searchNoting size steps (some b) next
        return (found, b :: passed)
      else
        splice prev next
        return (some (← cut b free size), [b])

/-- Without its list it is the search. -/
theorem search_eq_noting (size : Word) (steps : Nat) (prev cursor : Link) :
    search size steps prev cursor = Prod.fst <$> searchNoting size steps prev cursor := by
  induction steps generalizing prev cursor with
  | zero => cases cursor <;> rfl
  | succ steps ih =>
      cases cursor with
      | none => rfl
      | some b =>
          simp only [search, searchNoting, map_bind]
          congr 1
          funext free
          congr 1
          funext next
          split
          · simp only [ih, map_eq_pure_bind, bind_assoc, pure_bind]
          · simp only [map_bind, map_pure]

variable {size : Word} {steps steps' : Nat} {prev cursor : Link} {list list' : FitList}
  {m m' : Ambient} {bs passed : List Block} {found : Option Fit}

theorem search_of_noting
    (h : searchNoting size steps prev cursor list m = ⟨.ok (found, passed), list', m'⟩) :
    search size steps prev cursor list m = ⟨.ok found, list', m'⟩ := by
  rw [search_eq_noting]
  exact Act.map_of_ok h

theorem exists_noting (h : search size steps prev cursor list m = ⟨.ok found, list', m'⟩) :
    ∃ passed, searchNoting size steps prev cursor list m = ⟨.ok (found, passed), list', m'⟩ := by
  rw [search_eq_noting, map_eq_pure_bind] at h
  obtain ⟨⟨found', passed⟩, list₁, m₁, hnoting, hdone⟩ := Act.exists_of_bind_ok h
  cases hdone
  exact ⟨passed, hnoting⟩

section Step

variable {free : Word} {next : Link} {b : Block} (hf : b.size? m.memory = some free)
  (hl : b.link? m.memory = some next)
include hf hl

theorem searchNoting_of_lt (hlt : free < size) :
    searchNoting size (steps + 1) prev (some b) list m =
      (do
        let (found, passed) ← searchNoting size steps (some b) next
        return (found, b :: passed)) list m.countRead.countRead := by
  refine (Act.bind_of_ok (Block.readSize_of_size? hf)).trans ?_
  refine (Act.bind_of_ok (Block.readLink_of_link? (m := m.countRead) hl)).trans ?_
  rw [if_pos hlt]

theorem searchNoting_of_le (hle : ¬ free < size) :
    searchNoting size (steps + 1) prev (some b) list m =
      (do
        splice prev next
        return (some (← cut b free size), [b])) list m.countRead.countRead := by
  refine (Act.bind_of_ok (Block.readSize_of_size? hf)).trans ?_
  refine (Act.bind_of_ok (Block.readLink_of_link? (m := m.countRead) hl)).trans ?_
  rw [if_neg hle]

end Step

/-- On a chain that ends, the number of steps makes no difference once it covers the chain. -/
theorem searchNoting_congr (hl : FreeChain.Linked m.memory cursor bs)
    (hsize : ∀ b ∈ bs, ∃ free, b.size? m.memory = some free) (hsteps : bs.length ≤ steps)
    (hsteps' : bs.length ≤ steps') :
    searchNoting size steps prev cursor list m = searchNoting size steps' prev cursor list m := by
  induction bs generalizing steps steps' prev cursor m with
  | nil =>
      rw [FreeChain.linked_nil_iff] at hl
      subst hl
      cases steps <;> cases steps' <;> rfl
  | cons b bs ih =>
      obtain ⟨rfl, next, hnext, htail⟩ := hl
      obtain ⟨free, hfree⟩ := hsize b List.mem_cons_self
      cases steps with
      | zero => cases hsteps
      | succ steps =>
          cases steps' with
          | zero => cases hsteps'
          | succ steps' =>
              by_cases hlt : free < size
              · have hrest : searchNoting size steps (some b) next list m.countRead.countRead =
                    searchNoting size steps' (some b) next list m.countRead.countRead :=
                  ih htail (fun c hc => hsize c (List.mem_cons_of_mem b hc))
                    (Nat.le_of_succ_le_succ hsteps) (Nat.le_of_succ_le_succ hsteps')
                rw [searchNoting_of_lt hfree hnext hlt, searchNoting_of_lt hfree hnext hlt,
                  Act.bind_eq, Act.bind_eq, hrest]
              · rw [searchNoting_of_le hfree hnext hlt, searchNoting_of_le hfree hnext hlt]

/-! ### Words that a search reads -/

theorem reads_splice {next : Link} {u : Unit}
    (h : splice prev next list m = ⟨.ok u, list', m'⟩) : m'.traffic.reads = m.traffic.reads := by
  rcases prev with _ | p
  · cases h
    rfl
  · obtain ⟨slot, list₁, m₁, hslot, hstore⟩ := Act.exists_of_bind_ok h
    obtain ⟨-, -, rfl⟩ := Act.eq_of_check_ok hslot
    obtain ⟨-, rfl⟩ := Act.eq_of_store_ok hstore
    rfl

theorem reads_cut {b : Block} {free : Word} {fit : Fit}
    (h : cut b free size list m = ⟨.ok fit, list', m'⟩) :
    m'.traffic.reads = m.traffic.reads := by
  unfold cut at h
  dsimp only at h
  split at h
  · cases h
    rfl
  · obtain ⟨payload, list₁, m₁, hpayload, hrest⟩ := Act.exists_of_bind_ok h
    obtain ⟨header, list₂, m₂, hheader, hwrites⟩ := Act.exists_of_bind_ok hrest
    obtain ⟨_, list₃, m₃, hlow, hhigher⟩ := Act.exists_of_bind_ok hwrites
    obtain ⟨_, list₄, m₄, hhigh, hnote⟩ := Act.exists_of_bind_ok hhigher
    cases hnote
    obtain ⟨-, -, rfl⟩ := Act.eq_of_check_ok hpayload
    obtain ⟨-, -, rfl⟩ := Act.eq_of_check_ok hheader
    obtain ⟨-, rfl⟩ := Act.eq_of_store_ok hlow
    obtain ⟨-, rfl⟩ := Act.eq_of_store_ok hhigh
    rfl

/-- A search passes a first part of the chain, and reads two words of each block of it and no other
    word. -/
theorem passed_of_noting (hl : FreeChain.Linked m.memory cursor bs)
    (hsize : ∀ b ∈ bs, ∃ free, b.size? m.memory = some free)
    (h : searchNoting size steps prev cursor list m = ⟨.ok (found, passed), list', m'⟩) :
    passed.Sublist bs ∧ m'.traffic.reads = m.traffic.reads + 2 * passed.length := by
  induction bs generalizing steps prev cursor m passed with
  | nil =>
      rw [FreeChain.linked_nil_iff] at hl
      subst hl
      cases steps <;> cases h <;> exact ⟨List.Sublist.refl _, rfl⟩
  | cons b bs ih =>
      obtain ⟨rfl, next, hnext, htail⟩ := hl
      obtain ⟨free, hfree⟩ := hsize b List.mem_cons_self
      cases steps with
      | zero => cases h
      | succ steps =>
          by_cases hlt : free < size
          · rw [searchNoting_of_lt hfree hnext hlt] at h
            obtain ⟨⟨found', rest⟩, list₁, m₁, hrest, hdone⟩ := Act.exists_of_bind_ok h
            cases hdone
            obtain ⟨hsub, hreads⟩ := ih (m := m.countRead.countRead) htail
              (fun c hc => hsize c (List.mem_cons_of_mem b hc)) hrest
            refine ⟨hsub.cons_cons b, ?_⟩
            simp only [Ambient.countRead] at hreads
            rw [hreads, List.length_cons]
            omega
          · rw [searchNoting_of_le hfree hnext hlt] at h
            obtain ⟨_, list₁, m₁, hsplice, h⟩ := Act.exists_of_bind_ok h
            obtain ⟨fit, list₂, m₂, hcut, hdone⟩ := Act.exists_of_bind_ok h
            cases hdone
            refine ⟨List.singleton_sublist.2 List.mem_cons_self, ?_⟩
            rw [reads_cut hcut, reads_splice hsplice]
            rfl

end FitList

/-! ### The census, noting what it passes -/

namespace Heap

/-- The measure of a first-fit list, with the blocks whose link and header it has read. -/
def measureNoting :
    (steps : Nat) → Link → (blocks bytes : Nat) → Act Heap ((Nat × Nat) × List Block)
  | _, none, blocks, bytes => return ((blocks, bytes), [])
  | 0, some _, _, _ => Act.fault .endlessChain
  | steps + 1, some b, blocks, bytes => do
      let next ← b.readLink
      let size ← b.readSize
      let (sums, passed) ← measureNoting steps next (blocks + 1) (bytes + size.toNat)
      return (sums, b :: passed)

/-- Without its list it is the measure. -/
theorem measureFits_eq_noting (steps : Nat) (l : Link) (blocks bytes : Nat) :
    measureFits steps l blocks bytes = Prod.fst <$> measureNoting steps l blocks bytes := by
  induction steps generalizing l blocks bytes with
  | zero => cases l <;> rfl
  | succ steps ih =>
      cases l with
      | none => rfl
      | some b =>
          simp only [measureFits, measureNoting, ih, map_eq_pure_bind, bind_assoc, pure_bind]

/-- The measure passes every block of the list. -/
theorem measureNoting_of_linked {l : Link} {es : List Extent} {steps : Nat} (blocks bytes : Nat)
    {h : Heap} {m : Ambient} (hl : FreeChain.Linked m.memory l (es.map Extent.block))
    (hsize : ∀ e ∈ es, ∃ size, e.block.size? m.memory = some size ∧ size.toNat = e.size)
    (hsteps : es.length ≤ steps) :
    measureNoting steps l blocks bytes h m =
      ⟨.ok ((blocks + es.length, bytes + (es.map Extent.size).sum), es.map Extent.block), h,
        m.countReads (2 * es.length)⟩ := by
  induction es generalizing l steps blocks bytes m with
  | nil =>
      rw [List.map_nil, FreeChain.linked_nil_iff] at hl
      subst hl
      cases steps <;> rfl
  | cons e es ih =>
      obtain ⟨rfl, next, hnext, htail⟩ := hl
      obtain ⟨size, hread, heq⟩ := hsize e List.mem_cons_self
      cases steps with
      | zero => cases hsteps
      | succ steps =>
          have hrest := ih (blocks + 1) (bytes + size.toNat) (m := m.countRead.countRead) htail
            (fun f hf => hsize f (List.mem_cons_of_mem e hf)) (Nat.le_of_succ_le_succ hsteps)
          have hblocks : blocks + (e :: es).length = blocks + 1 + es.length := by
            rw [List.length_cons]
            omega
          have hbytes : bytes + ((e :: es).map Extent.size).sum =
              bytes + size.toNat + (es.map Extent.size).sum := by
            rw [List.map_cons, List.sum_cons, heq, Nat.add_assoc]
          rw [hblocks, hbytes]
          refine (Act.bind_of_ok (Block.readLink_of_link? hnext)).trans ?_
          refine (Act.bind_of_ok (Block.readSize_of_size? (m := m.countRead) hread)).trans ?_
          exact Act.bind_of_ok hrest

/-- Listing a chain ends, and these are its blocks. -/
structure Walks (h : Heap) (m : Ambient) (k : Option SizeClass) (passed : List Block) : Prop where
  confined : h.Confines k passed
  linked : FreeChain.Linked m.memory (h.chainHead k) passed
  /-- One word of each block is read. -/
  listed : FreeChain.walkAll (h.chainHead k) h m =
    ⟨.ok passed, h, m.countReads passed.length⟩
  within : ∀ steps ≥ h.capacity k, FreeChain.walk steps (h.chainHead k) h m =
    ⟨.ok passed, h, m.countReads passed.length⟩

/-- A search of the first-fit list ends, and passes these blocks. -/
structure Searches (h : Heap) (m : Ambient) (size : Word) (found : Option Fit)
    (passed : List Block) (list' : FitList) (m' : Ambient) : Prop where
  confined : h.Confines none passed
  /-- Two words of each block are read. -/
  reads : m'.traffic.reads = m.traffic.reads + 2 * passed.length
  taken : FitList.take size h.fits m = ⟨.ok found, list', m'⟩
  within : ∀ steps ≥ h.capacity none,
    FitList.search size steps none h.fits.head h.fits m = ⟨.ok found, list', m'⟩
  noted : ∀ steps ≥ h.capacity none,
    FitList.searchNoting size steps none h.fits.head h.fits m = ⟨.ok (found, passed), list', m'⟩

/-- A census is answered, and passes these blocks of the first-fit list. -/
structure Measures (h : Heap) (m : Ambient) (c : Census) (passed : List Block) (m' : Ambient) :
    Prop where
  answered : census h m = ⟨.ok c, h, m'⟩
  bins : ∀ k, c.binBlocks.get k ≤ h.capacity (some k)
  confined : h.Confines none passed
  counted : c.fitBlocks = passed.length
  /-- Two words of each block are read. -/
  within : ∀ steps ≥ h.capacity none, measureFits steps h.fitHead 0 0 h m =
    ⟨.ok (c.fitBlocks, c.fitBytes), h, m.countReads (2 * passed.length)⟩
  noted : ∀ steps ≥ h.capacity none, measureNoting steps h.fitHead 0 0 h m =
    ⟨.ok ((c.fitBlocks, c.fitBytes), passed), h, m.countReads (2 * passed.length)⟩

/-- Every loop over a chain of the heap ends, and stays in the carved region.  Any number of steps
    will do that covers the blocks that fit there. -/
structure Ends (h : Heap) (m : Ambient) : Prop where
  walks : ∀ k, ∃ passed, h.Walks m k passed
  /-- The size need not be one that is asked for: it may be any word. -/
  searches : ∀ size, ∃ found passed list' m', h.Searches m size found passed list' m'
  censuses : ∃ c passed m', h.Measures m c passed m'

end Heap

/-! ### Described heaps -/

/-- A search on a list of blocks that share no byte and lie in memory meets no fault. -/
theorem FitList.Carries.exists_taken {list : FitList} {m : Ambient} {es : List Extent}
    (h : list.Carries m.memory es) (size : Word) :
    ∃ found list' m', FitList.take size list m = ⟨.ok found, list', m'⟩ := by
  cases hfind : es.find? fun e => decide (size.toNat ≤ e.size) with
  | none =>
      have hsmall : ∀ e ∈ es, e.size < size.toNat := by
        intro e he
        simpa using List.find?_eq_none.1 hfind e he
      exact ⟨none, list, _, take_of_all_lt h.linked (h.small_blocks (List.Subset.refl es) hsmall)⟩
  | some e =>
      obtain ⟨before, after, rfl, -, hfit, hbefore⟩ := exists_append_of_find?_eq_some hfind
      have hlarge := of_decide_eq_true hfit
      have hsmall : ∀ f ∈ before, f.size < size.toNat := by
        intro f hf
        simpa using hbefore f hf
      by_cases hslack : e.size - size.toNat < 12
      · obtain ⟨list', m', hwhole, -⟩ := h.gives_whole hsmall hlarge hslack
        exact ⟨_, list', m', hwhole⟩
      · obtain ⟨fit, list', m', hcut, -⟩ := h.gives_cut hsmall hlarge (Nat.not_lt.1 hslack)
        exact ⟨_, list', m', hcut⟩

namespace Inventory.Describes

variable {inv : Inventory} {h : Heap} {m : Ambient}

theorem carries {m : Memory} (hd : inv.Describes h m) : h.fits.Carries m inv.fits where
  linked := hd.chains none
  headers := by
    intro e he
    have hmem := mem_extents_of_chain (k := none) he
    rw [hd.size?_block hmem, Option.map_some, hd.toNat_size hmem]
  room := fun e he => (hd.sound.fair (mem_extents_of_chain (k := none) he)).room
  inside := fun e he => hd.inside e (mem_extents_of_chain (k := none) he)
  space := fun e he => Nat.le_of_lt (hd.sound.stop_lt (mem_extents_of_chain (k := none) he))
  apart := by
    refine (hd.sound.nodup_chain none).imp_of_mem ?_
    intro e f he hf hne
    exact hd.sound.apart (mem_extents_of_chain he) (mem_extents_of_chain hf) hne

theorem exists_size (hd : inv.Describes h m.memory) (k : Option SizeClass) :
    ∀ b ∈ (inv.chain k).map Extent.block, ∃ size, b.size? m.memory = some size := by
  intro b hb
  obtain ⟨e, he, rfl⟩ := List.mem_map.1 hb
  exact ⟨_, hd.size?_block (mem_extents_of_chain he)⟩

theorem walks (hd : inv.Describes h m.memory) (k : Option SizeClass) :
    h.Walks m k ((inv.chain k).map Extent.block) where
  confined := hd.confines k
  linked := hd.chains k
  listed := FreeChain.walkAll_of_linked (hd.chains k)
  within := by
    intro steps hsteps
    exact FreeChain.walk_of_linked (hd.chains k) (Nat.le_trans (hd.confines k).few hsteps)

theorem exists_searches (hd : inv.Describes h m.memory) (size : Word) :
    ∃ found passed list' m', h.Searches m size found passed list' m' := by
  have hlinked := hd.chains none
  have hsize := hd.exists_size none
  obtain ⟨found, list', m', htake⟩ := hd.carries.exists_taken size
  have hsearch : FitList.search size (m.memory.size + 1) none h.fits.head h.fits m =
      ⟨.ok found, list', m'⟩ := htake
  obtain ⟨passed, hnoting⟩ := FitList.exists_noting hsearch
  obtain ⟨hsub, hreads⟩ := FitList.passed_of_noting hlinked hsize hnoting
  have hnoted : ∀ steps ≥ h.capacity none,
      FitList.searchNoting size steps none h.fits.head h.fits m =
        ⟨.ok (found, passed), list', m'⟩ := by
    intro steps hsteps
    rw [← hnoting]
    exact FitList.searchNoting_congr hlinked hsize (Nat.le_trans (hd.confines none).few hsteps)
      (Nat.le_succ_of_le (FreeChain.length_le_size hlinked))
  exact ⟨found, passed, list', m', {
    confined := (hd.confines none).sublist hsub
    reads := hreads
    taken := htake
    within := fun steps hsteps => FitList.search_of_noting (hnoted steps hsteps)
    noted := hnoted }⟩

theorem exists_measures (hd : inv.Describes h m.memory) :
    ∃ c m', h.Measures m c (inv.fits.map Extent.block) m' := by
  obtain ⟨c, m', hcensus, -, hcounts⟩ := hd.exists_census
  have hsize : ∀ e ∈ inv.fits,
      ∃ size, e.block.size? m.memory = some size ∧ size.toNat = e.size := by
    intro e he
    have hmem := mem_extents_of_chain (k := none) he
    exact ⟨_, hd.size?_block hmem, hd.toNat_size hmem⟩
  have hcounted : c.fitBlocks = (inv.fits.map Extent.block).length := by
    rw [hcounts.fitBlocks, List.length_map]
  have hnoted : ∀ steps ≥ h.capacity none, Heap.measureNoting steps h.fitHead 0 0 h m =
      ⟨.ok ((c.fitBlocks, c.fitBytes), inv.fits.map Extent.block), h,
        m.countReads (2 * (inv.fits.map Extent.block).length)⟩ := by
    intro steps hsteps
    have hlinked : FreeChain.Linked m.memory h.fitHead (inv.fits.map Extent.block) :=
      hd.chains none
    have hnoting := Heap.measureNoting_of_linked 0 0 (h := h) hlinked hsize
      (Nat.le_trans (hd.length_chain_le none) hsteps)
    rw [Nat.zero_add, Nat.zero_add, ← hcounts.fitBlocks, ← hcounts.fitBytes] at hnoting
    rw [← hcounted]
    exact hnoting
  exact ⟨c, m', {
    answered := hcensus
    bins := by
      intro k
      rw [hcounts.bins]
      exact hd.length_chain_le (some k)
    confined := hd.confines none
    counted := hcounted
    within := by
      intro steps hsteps
      rw [Heap.measureFits_eq_noting]
      exact Act.map_of_ok (hnoted steps hsteps)
    noted := hnoted }⟩

theorem ends (hd : inv.Describes h m.memory) : h.Ends m where
  walks := fun k => ⟨_, hd.walks k⟩
  searches := hd.exists_searches
  censuses := by
    obtain ⟨c, m', hmeasures⟩ := hd.exists_measures
    exact ⟨c, _, m', hmeasures⟩

end Inventory.Describes

/-! ### Lawful runs -/

/-- Every loop ends between actions, and also between the two allocations of a slice. -/
structure Tenancy.Ends (s : Tenancy) : Prop where
  settled : s.heap.Ends s.ambient
  between : ∀ handle h' m',
    Heap.allocate SliceRecord.bytes s.heap s.ambient = ⟨.ok handle, h', m'⟩ → h'.Ends m'

theorem Mirrors.ends {s : Tenancy} {p : Blueprint} (hm : Mirrors s p) : s.Ends where
  settled := hm.describes.ends
  between := by
    intro handle h' m' hact
    have hcall : s.call (.allocate SliceRecord.bytes) = ⟨.ok (some handle), h', m'⟩ :=
      Act.map_of_ok hact
    obtain ⟨hheap, hambient⟩ := Tenancy.step_of_call hcall
    have hnext := (hm.step (a := .allocate SliceRecord.bytes) trivial).describes
    rw [Tenancy.memory, hheap, hambient] at hnext
    exact hnext.ends

/-- After every lawful run on a new heap, all loops over its chains end, and none leaves the carved
    region or passes more blocks than fit there. -/
theorem ends_of_lawful {requested : Addr} {m m' : Ambient} {h : Heap} {as : List Action}
    (hc : Heap.create requested () m = ⟨.ok (.ok h), (), m'⟩)
    (hl : (Tenancy.opened h m').Lawful as) : ((Tenancy.opened h m').run as).Ends := by
  obtain ⟨hempty, haligned, -⟩ := Heap.create_eq_ok hc
  exact ((Mirrors.opened hempty haligned).run hl).ends

/-- Four blocks of 36 would fit into the 172 bytes that are carved, and three are free.  A search
    for 48 passes the one of 40 and cuts the one of 60. -/
theorem ends_of_three_fits :
    let m : Ambient := { memory := .zeros 192, journal := #[.heapCreated 0 0] }
    let s := (Tenancy.opened (.empty 0) m).run
      [.allocate 36, .allocate 8, .allocate 60, .allocate 40, .free 4, .free 56, .free 120,
        .free 44, .allocateSlice 2 4]
    s.Ends ∧ (FitList.searchNoting 48 4 none s.heap.fitHead s.heap.fits s.ambient).result =
      .ok (some (.split ⟨52⟩ ⟨104⟩), [⟨116⟩, ⟨52⟩]) :=
  ⟨ends_of_lawful (show Heap.create 0 () { memory := .zeros 192 } = _ from rfl)
    (by decide +kernel), by decide +kernel⟩

end LinearHeap
