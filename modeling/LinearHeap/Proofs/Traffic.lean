/-
  LinearHeap/Proofs/Traffic.lean
  ==============================
  **What every call costs, to the word.**  The meter counts each word that is read
  or written.  After a lawful run the traffic of a call is a function of where its
  block comes from:

      from its bin            1 read                0 writes
      from the wilderness     0 reads               1 write      (small sizes)
      k-th block, whole       2k reads              0 or 1 writes
      k-th block, cut         2k + 1 reads          3 or 4 writes
      wilderness, behind n    2n reads              1 write
      free, freeSlice         1 and 4 reads         1 and 2 writes

  The one write more is the link of the block in front, when there is one
  (`FitList.traffic_relinked`).  `Charges` says all this about a heap, its memory
  and its first-fit list; each line is one outcome of serving a size, spelled out.
-/
import LinearHeap.Proofs.Exhaustion
import LinearHeap.Proofs.FirstFit

namespace LinearHeap

/-! ### The meter -/

/-- The meter after so many words more. -/
def Traffic.plus (t : Traffic) (reads writes : Nat) : Traffic :=
  ⟨t.reads + reads, t.writes + writes⟩

@[simp] theorem Traffic.plus_plus (t : Traffic) (r w r' w' : Nat) :
    (t.plus r w).plus r' w' = t.plus (r + r') (w + w') := by
  simp only [plus, Nat.add_assoc]

theorem Ambient.traffic_countReads (m : Ambient) (n : Nat) :
    (m.countReads n).traffic = m.traffic.plus n 0 := by
  rw [Ambient.countReads_eq]
  rfl

theorem Ambient.traffic_linking (m : Ambient) (b : Block) (size : Word) (next : Link) :
    (m.linking b size next).traffic = m.traffic.plus 1 1 := rfl

namespace FitList

/-- Linking past a block writes the link of the block in front of it, or the head. -/
theorem traffic_relinked (before : List Block) (next : Link) (m : Ambient) :
    (relinked before next m).traffic = m.traffic.plus 0 (if before = [] then 0 else 1) := by
  rcases List.eq_nil_or_concat before with rfl | ⟨front, p, rfl⟩
  · rfl
  · rw [List.concat_eq_append, if_neg (by simp)]
    simp only [relinked, List.getLast?_concat]
    rfl

/-- A fit that is cut, with its upper part put on a chain: two headers are written on the way, and
    one is read again. -/
theorem traffic_shelved_rest (before : List Block) (next next' : Link) (b rest : Block)
    (free size upper : Word) (m : Ambient) :
    ((divided b rest free size (relinked before next m)).linking rest upper next').traffic =
      m.traffic.plus 1 (3 + if before = [] then 0 else 1) := by
  have hdivided : (divided b rest free size (relinked before next m)).traffic =
      (relinked before next m).traffic.plus 0 2 := rfl
  rw [Ambient.traffic_linking, hdivided, traffic_relinked, Traffic.plus_plus, Traffic.plus_plus,
    Nat.add_comm 3]

end FitList

/-! ### What the list allocator hands out -/

namespace Inventory

variable {inv : Inventory} {room size : Nat} {c : SizeClass} {e : Extent}
  {before after : List Extent}

theorem bins_eq_nil_iff : inv.bins c = [] ↔ inv.chain (some c) = [] := by
  rw [chain, List.map_eq_nil_iff]

theorem serve_of_bin_nil (hc : SizeClass.ofNat? size = some c) (hk : inv.chain (some c) = []) :
    inv.serve room size = inv.bump room size := by
  simp only [serve, hc, bins_eq_nil_iff.2 hk]

/-- Among extents that are too small no fit is found. -/
theorem find?_eq_none_of_all_lt {es : List Extent} (hall : ∀ f ∈ es, f.size < size) :
    (es.find? fun f => decide (size ≤ f.size)) = none := by
  rw [List.find?_eq_none]
  intro f hf
  simpa using hall f hf

theorem serve_of_all_lt (hc : SizeClass.ofNat? size = none) (hall : ∀ f ∈ inv.fits, f.size < size) :
    inv.serve room size = inv.bump room size := by
  simp only [serve, hc, find?_eq_none_of_all_lt hall]

/-- The first extent that is large enough is the one that is found, and the one that is dropped. -/
theorem find?_fits (hk : inv.fits = before ++ e :: after) (hsmall : ∀ f ∈ before, f.size < size)
    (hfit : size ≤ e.size) :
    (inv.fits.find? fun f => decide (size ≤ f.size)) = some e ∧
      (inv.fits.eraseP fun f => decide (size ≤ f.size)) = before ++ after := by
  rw [hk]
  constructor
  · rw [List.find?_append, find?_eq_none_of_all_lt hsmall, Option.none_or]
    exact List.find?_cons_of_pos (decide_eq_true hfit)
  · rw [List.eraseP_append_right _ fun f hf => by simpa using hsmall f hf]
    exact congrArg (before ++ ·) (List.eraseP_cons_of_pos (decide_eq_true hfit))

/-- Every extent of a bin serves the bin's size, so it is the first one that does. -/
theorem eq_nil_of_small (hk : inv.chain (some c) = before ++ e :: after)
    (hsize : SizeClass.ofNat? size = some c) (hsmall : ∀ f ∈ before, f.size < size) :
    before = [] := by
  rcases before with _ | ⟨f, before⟩
  · rfl
  · have hf : f ∈ inv.chain (some c) := by
      rw [hk]
      exact List.mem_cons_self
    obtain ⟨header, -, rfl⟩ := List.mem_map.1 hf
    have hlt := hsmall _ List.mem_cons_self
    rw [SizeClass.ofNat?_eq_some_iff.1 hsize] at hlt
    exact absurd hlt (Nat.lt_irrefl _)

/-- The first extent of its chain that is large enough is handed out whole, if little of it is
    left over. -/
theorem serve_of_whole {k : Option SizeClass} (hclass : SizeClass.ofNat? size = k)
    (hk : inv.chain k = before ++ e :: after) (hsmall : ∀ f ∈ before, f.size < size)
    (hfit : size ≤ e.size) (hslack : e.size - size < 12) :
    inv.serve room size = some (e, inv.take k before after e) := by
  rcases k with _ | c
  · have hfits : inv.fits = before ++ e :: after := hk
    obtain ⟨hfind, herase⟩ := find?_fits hfits hsmall hfit
    simp only [serve, hclass, hfind, herase, if_pos hslack]
    rfl
  · obtain rfl := eq_nil_of_small hk hclass hsmall
    rw [List.nil_append, chain, List.map_eq_cons_iff] at hk
    obtain ⟨header, rest, hbin, rfl, rfl⟩ := hk
    obtain rfl := SizeClass.ofNat?_eq_some_iff.1 hclass
    have hrest :
        (rest.map fun header => (⟨header, c.width⟩ : Extent)).map Extent.header = rest := by
      rw [List.map_map]
      exact List.map_id rest
    simp only [serve, hclass, hbin, Inventory.take, withChain, List.nil_append, hrest]

theorem exists_serve_of_cut (hc : SizeClass.ofNat? size = none)
    (hk : inv.fits = before ++ e :: after) (hsmall : ∀ f ∈ before, f.size < size)
    (hfit : size ≤ e.size) (hslack : 12 ≤ e.size - size) :
    ∃ inv', inv.serve room size = some (⟨e.header, size⟩, inv') := by
  simp only [serve, hc, (find?_fits hk hsmall hfit).1, if_neg (Nat.not_lt.2 hslack)]
  exact ⟨_, rfl⟩

/-- Whatever the list allocator serves has a padded size inside the address space. -/
theorem Sound.request_lt {request : Nat} {result : Extent × Inventory} (h : inv.Sound)
    (hs : inv.allocate room request = some result) : request + 3 < Word.bound := by
  by_cases hlt : request + 3 < Word.bound
  · exact hlt
  · have hbound : Word.bound ≤ padded request := by
      simp only [padded, Word.bound] at hlt ⊢
      omega
    rw [Inventory.allocate, serve_of_bound_le h hbound] at hs
    cases hs

/-! ### Outcomes, spelled out -/

namespace Describes

variable {h : Heap} {m : Ambient} {size : Word}

theorem serve_from_bin (hd : inv.Describes h m.memory) (hc : SizeClass.ofNat? size.toNat = some c)
    (hk : inv.chain (some c) = e :: after) :
    Heap.serve size h m =
      ⟨.ok e.block, (h.setHead (some c) (after.map Extent.block).head?).counting
        (Counters.reused (some c)), m.countRead⟩ := by
  obtain ⟨hhead, next, hnext, -⟩ := hd.take_first hk
  have hlinked := hd.chains (some c)
  rw [hk] at hlinked
  obtain ⟨-, next', hnext', htail⟩ := hlinked
  have hlink : next = (after.map Extent.block).head? := by
    rw [← FreeChain.head?_of_linked htail]
    exact Option.some.inj (hnext.symm.trans hnext')
  rw [Heap.serve_of_class (by rw [SizeClass.ofSize?_eq_ofNat?, hc]), ← hlink]
  exact Heap.fromBin_of_some hhead hnext

theorem serve_past_bin (hd : inv.Describes h m.memory) (hc : SizeClass.ofNat? size.toNat = some c)
    (hk : inv.chain (some c) = []) : Heap.serve size h m = Heap.fromWilderness size h m := by
  rw [Heap.serve_of_class (by rw [SizeClass.ofSize?_eq_ofNat?, hc])]
  exact Heap.fromBin_of_none (hd.binHead_of_nil (bins_eq_nil_iff.2 hk))

theorem serve_past_fits (hd : inv.Describes h m.memory) (hc : SizeClass.ofNat? size.toNat = none)
    (hall : ∀ f ∈ inv.fits, f.size < size.toNat) :
    Heap.serve size h m = Heap.fromWilderness size h (m.countReads (2 * inv.fits.length)) := by
  rw [Heap.serve_of_no_class (by rw [SizeClass.ofSize?_eq_ofNat?, hc]),
    hd.fromFits_of_find?_eq_none (find?_eq_none_of_all_lt hall), List.length_map]

section Fit

variable (hd : inv.Describes h m.memory) (hc : SizeClass.ofNat? size.toNat = none)
  (hk : inv.fits = before ++ e :: after) (hsmall : ∀ f ∈ before, f.size < size.toNat)
  (hfit : size.toNat ≤ e.size)

include hd hk

/-- The link of an extent of the first-fit list leads to the one behind it. -/
theorem link?_of_append : e.block.link? m.memory = some (after.map Extent.block).head? := by
  obtain ⟨next, hnext, htail⟩ := FreeChain.exists_link?_of_append (hd.chain_linked (k := none) hk)
  rw [hnext, FreeChain.head?_of_linked htail]

include hc hsmall hfit

theorem serve_whole (hslack : e.size - size.toNat < 12) :
    Heap.serve size h m =
      ⟨.ok e.block, (h.relinked (before.map Extent.block) (after.map Extent.block).head?).counting
          (Counters.reused none),
        FitList.relinked (before.map Extent.block) (after.map Extent.block).head?
          (m.countReads (2 * (before.length + 1)))⟩ := by
  have he : e ∈ inv.extents := mem_extents_of_chain (mem_chain_none_of_append hk).1
  have hact := Heap.fromFits_of_whole (hd.chain_linked (k := none) hk)
    (hd.size?_lt_of_append hk hsmall) (hd.block_lt_of_append hk) (hd.size?_block he)
    (hd.toNat_slack he hfit).1 (hd.link?_of_append hk) ((hd.lt_leastSlack_iff he hfit).2 hslack)
  rw [List.length_map] at hact
  rw [Heap.serve_of_no_class (by rw [SizeClass.ofSize?_eq_ofNat?, hc])]
  exact hact

/-- Of a cut only the traffic is of interest here: two headers, and the upper part joins a chain. -/
theorem serve_cut (hslack : 12 ≤ e.size - size.toNat) :
    ∃ h' m', Heap.serve size h m = ⟨.ok e.block, h', m'⟩ ∧
      m'.traffic = m.traffic.plus (2 * (before.length + 1) + 1)
        (3 + if before = [] then 0 else 1) := by
  have he : e ∈ inv.extents := mem_extents_of_chain (mem_chain_none_of_append hk).1
  have hstop := hd.sound.stop_lt he
  have hinside := hd.inside e he
  have hheader := hd.sound.toNat_header he
  simp only [Extent.stop] at hstop hinside
  generalize hr : (⟨UInt32.ofNat (e.header + 4 + size.toNat)⟩ : Block) = rest
  have hrest : rest.header.toNat = e.header + 4 + size.toNat := by
    rw [← hr]
    exact toNat_ofNat_of_lt (by omega)
  have hmeet : rest.header.toNat = e.block.header.toNat + 4 + size.toNat := by
    rw [hrest, hheader]
  have hact := Heap.fromFits_of_split (hd.chain_linked (k := none) hk)
    (hd.size?_lt_of_append hk hsmall) (hd.block_lt_of_append hk) (hd.size?_block he)
    (hd.toNat_slack he hfit).1 (hd.link?_of_append hk)
    (fun hlt => Nat.not_lt.2 hslack ((hd.lt_leastSlack_iff he hfit).1 hlt)) hmeet (by omega)
  generalize hm : FitList.relinked (before.map Extent.block) (after.map Extent.block).head?
    (m.countReads (2 * ((before.map Extent.block).length + 1))) = m₁ at hact
  have hsize : m₁.memory.size = m.memory.size := by
    rw [← hm, FitList.size_relinked, Ambient.memory_countReads]
  have hb : m₁.memory.HasWord e.block.header := by
    rw [Memory.hasWord_iff, hsize, hheader]
    omega
  have hw : m₁.memory.HasWord rest.header := by
    rw [Memory.hasWord_iff, hsize, hrest]
    omega
  obtain ⟨-, hupper, hchange⟩ := FitList.divided_headers (UInt32.ofNat e.size) hb hw hmeet
  have hshelve := Heap.shelve_of_size?
    (h := (h.relinked (before.map Extent.block) (after.map Extent.block).head?).counting
      fun n => { n with fitReuses := n.fitReuses + 1, splits := n.splits + 1 }) hupper
    (by omega) (by rw [hchange.size, hsize]; omega)
  rw [Heap.serve_of_no_class (by rw [SizeClass.ofSize?_eq_ofNat?, hc])]
  have hdone := hact.trans (Act.bind_of_ok hshelve)
  rw [Act.pure_eq] at hdone
  refine ⟨_, _, hdone, ?_⟩
  rw [← hm, FitList.traffic_shelved_rest, Ambient.traffic_countReads, Traffic.plus_plus,
    List.length_map, Nat.zero_add]
  simp only [List.map_eq_nil_iff]

end Fit

end Describes

end Inventory

/-! ### What a call costs -/

namespace Heap

/-- The request is served with this extent, and moves so many words. -/
def Grants (request : Word) (h : Heap) (m : Ambient) (e : Extent) (reads writes : Nat) : Prop :=
  ∃ h' m', allocate request h m = ⟨.ok e.block.slot, h', m'⟩ ∧
    (e.block.size? m'.memory).map UInt32.toNat = some e.size ∧
    m'.traffic = m.traffic.plus reads writes

/-- The act returns, and moves so many words. -/
def Moves (x : Act Heap Unit) (h : Heap) (m : Ambient) (reads writes : Nat) : Prop :=
  ∃ h' m', x h m = ⟨.ok (), h', m'⟩ ∧ m'.traffic = m.traffic.plus reads writes

end Heap

/-- What each call costs, where these extents make up the first-fit list, in this order. -/
structure Tenancy.Charges (s : Tenancy) (fits : List Extent) : Prop where
  linked : FreeChain.Linked s.memory s.heap.fitHead (fits.map Extent.block)
  headers : ∀ e ∈ fits, (e.block.size? s.memory).map UInt32.toNat = some e.size
  /-- A small size is served from its bin, or from the wilderness if the bin is empty. -/
  small : ∀ request : Word, Inventory.padded request.toNat ≤ 32 →
    ∃ c, Inventory.padded request.toNat = (SizeClass.bytes c).toNat ∧
      (∀ b, s.heap.binHead c = some b →
        s.heap.Grants request s.ambient ⟨b.header.toNat, Inventory.padded request.toNat⟩ 1 0) ∧
      (s.heap.binHead c = none → s.heap.HasRoom s.memory (Inventory.padded request.toNat) →
        s.heap.Grants request s.ambient
          ⟨s.heap.frontier.toNat, Inventory.padded request.toNat⟩ 0 1)
  /-- Any other size is served with the first block that is large enough, whole or cut. -/
  first_fit : ∀ (request : Word) before e after, 32 < Inventory.padded request.toNat →
    fits = before ++ e :: after → (∀ f ∈ before, f.size < Inventory.padded request.toNat) →
    Inventory.padded request.toNat ≤ e.size →
    (e.size - Inventory.padded request.toNat < 12 →
      s.heap.Grants request s.ambient e (2 * (before.length + 1)) (if before = [] then 0 else 1)) ∧
    (12 ≤ e.size - Inventory.padded request.toNat →
      s.heap.Grants request s.ambient ⟨e.header, Inventory.padded request.toNat⟩
        (2 * (before.length + 1) + 1) (3 + if before = [] then 0 else 1))
  /-- If no block is large enough, all of them have been looked at. -/
  no_fit : ∀ request : Word, 32 < Inventory.padded request.toNat →
    (∀ e ∈ fits, e.size < Inventory.padded request.toNat) →
    s.heap.HasRoom s.memory (Inventory.padded request.toNat) →
    s.heap.Grants request s.ambient ⟨s.heap.frontier.toNat, Inventory.padded request.toNat⟩
      (2 * fits.length) 1
  free : ∀ a ∈ s.live, Heap.Moves (Heap.free a) s.heap s.ambient 1 1
  freeSlice : ∀ handle, s.Allows (.freeSlice handle) →
    Heap.Moves (Heap.freeSlice handle) s.heap s.ambient 4 2

namespace Inventory

/-- A padded size is a class just when it is at most 32. -/
theorem ofNat?_padded (request : Nat) :
    (padded request ≤ 32 → ∃ c, SizeClass.ofNat? (padded request) = some c) ∧
      (32 < padded request → SizeClass.ofNat? (padded request) = none) := by
  obtain ⟨hwords, hleast⟩ := Describes.padded_words request
  constructor
  · intro hle
    exact ⟨_, dif_pos ⟨by omega, hwords, hle⟩⟩
  · intro hlt
    exact dif_neg (by omega)

namespace Describes

variable {inv : Inventory} {h : Heap} {m : Ambient} {e : Extent} {request : Word}
  {reads writes : Nat}

/-- What the list allocator serves, the heap grants, at the cost of serving the size. -/
theorem grants {inv' : Inventory} (hd : inv.Describes h m.memory)
    (hs : inv.serve m.memory.size (padded request.toNat) = some (e, inv'))
    (hcost : ∀ size : Word, size.toNat = padded request.toNat → ∃ h' m',
      Heap.serve size h m = ⟨.ok e.block, h', m'⟩ ∧
        m'.traffic = m.traffic.plus reads writes) :
    h.Grants request m e reads writes := by
  obtain ⟨h', m', hact, hnew, -⟩ := hd.allocate_of_some hs
  obtain ⟨hpadded, hsize⟩ := paddedSize_of_lt (hd.sound.request_lt hs)
  obtain ⟨h'', m'', hserve, htraffic⟩ := hcost _ hsize
  have he : e ∈ inv'.extents := by
    apply mem_extents_of_live
    rw [(lends_of_serve hs).1.live]
    exact List.mem_cons_self
  have hsame := hact.symm.trans (Heap.allocate_of_serve hpadded hserve (hnew.block_lt he))
  cases hsame
  refine ⟨h', m', hact, ?_, htraffic⟩
  rw [hnew.size?_block he, Option.map_some, hnew.toNat_size he]

/-- A request that comes to the wilderness, after so many reads, writes the header of what is
    carved. -/
theorem grants_carved (hd : inv.Describes h m.memory) {n : Nat}
    (hroom : h.HasRoom m.memory (padded request.toNat))
    (hs : inv.serve m.memory.size (padded request.toNat) =
      inv.bump m.memory.size (padded request.toNat))
    (hcost : ∀ size : Word, size.toNat = padded request.toNat →
      Heap.serve size h m = Heap.fromWilderness size h (m.countReads n)) :
    h.Grants request m ⟨h.frontier.toNat, padded request.toNat⟩ n 1 := by
  obtain ⟨⟨e, inv'⟩, hbump⟩ := Option.ne_none_iff_exists'.1 (hd.hasRoom_iff.1 hroom)
  obtain ⟨hspace, hmemory, rfl, -⟩ := bump_eq_some_iff.1 hbump
  rw [← hd.frontier] at hbump hspace hmemory
  refine hd.grants (hs.trans hbump) fun size hsize => ?_
  have hblock : (⟨h.frontier⟩ : Block) =
      Extent.block ⟨h.frontier.toNat, padded request.toNat⟩ := by
    simp only [Extent.block, UInt32.ofNat_toNat]
  have hspace' : h.frontier.toNat + 4 + size.toNat < Word.bound := by rwa [hsize]
  have hmemory' : h.frontier.toNat + 4 + size.toNat ≤ (m.countReads n).memory.size := by
    rwa [hsize, Ambient.memory_countReads]
  have hact := Heap.fromWilderness_of_le hspace' hmemory'
  rw [hblock] at hact
  refine ⟨_, _, (hcost size hsize).trans hact, ?_⟩
  show ((m.countReads n).traffic.plus 0 1) = _
  rw [Ambient.traffic_countReads, Traffic.plus_plus, Nat.zero_add, Nat.add_zero]

/-- The block on top of a bin is the first extent of the bin's chain. -/
theorem exists_of_binHead {m : Memory} (hd : inv.Describes h m) {c : SizeClass} {b : Block}
    (hb : h.binHead c = some b) :
    ∃ e after, inv.chain (some c) = e :: after ∧ b = e.block ∧ e.size = c.width := by
  have hlinked := hd.chains (some c)
  rw [show h.chainHead (some c) = some b from hb] at hlinked
  cases hk : inv.chain (some c) with
  | nil =>
      rw [hk, List.map_nil, FreeChain.linked_nil_iff] at hlinked
      cases hlinked
  | cons e after =>
      rw [hk] at hlinked
      have he : e ∈ inv.chain (some c) := by
        rw [hk]
        exact List.mem_cons_self
      exact ⟨e, after, rfl, Option.some.inj hlinked.1,
        SizeClass.ofNat?_eq_some_iff.1 (hd.sound.class_of_mem_chain he)⟩

theorem grants_small (hd : inv.Describes h m.memory) {c : SizeClass}
    (hc : SizeClass.ofNat? (padded request.toNat) = some c) :
    (∀ b, h.binHead c = some b →
      h.Grants request m ⟨b.header.toNat, padded request.toNat⟩ 1 0) ∧
    (h.binHead c = none → h.HasRoom m.memory (padded request.toNat) →
      h.Grants request m ⟨h.frontier.toNat, padded request.toNat⟩ 0 1) := by
  have hlinked := hd.chains (some c)
  constructor
  · intro b hb
    obtain ⟨e, after, hk, rfl, hwidth⟩ := hd.exists_of_binHead hb
    have he : e ∈ inv.chain (some c) := by
      rw [hk]
      exact List.mem_cons_self
    have hsize : e.size = padded request.toNat := by
      rw [hwidth, SizeClass.ofNat?_eq_some_iff.1 hc]
    rw [hd.sound.toNat_header (mem_extents_of_chain he), ← hsize]
    have hs : inv.serve m.memory.size e.size = some (e, inv.take (some c) [] after e) :=
      serve_of_whole (hsize ▸ hc) hk nofun (Nat.le_refl _) (by omega)
    rw [hsize] at hs
    refine hd.grants hs fun size hsize => ⟨_, _, hd.serve_from_bin (by rwa [hsize]) hk, rfl⟩
  · intro hnone hroom
    have hk : inv.chain (some c) = [] := by
      rw [show h.chainHead (some c) = none from hnone, FreeChain.linked_none_iff] at hlinked
      exact List.map_eq_nil_iff.1 hlinked
    exact hd.grants_carved hroom (serve_of_bin_nil hc hk) fun size hsize =>
      hd.serve_past_bin (by rwa [hsize]) hk

theorem grants_first_fit {before after : List Extent} (hd : inv.Describes h m.memory)
    (hc : SizeClass.ofNat? (padded request.toNat) = none) (hk : inv.fits = before ++ e :: after)
    (hsmall : ∀ f ∈ before, f.size < padded request.toNat) (hfit : padded request.toNat ≤ e.size) :
    (e.size - padded request.toNat < 12 →
      h.Grants request m e (2 * (before.length + 1)) (if before = [] then 0 else 1)) ∧
    (12 ≤ e.size - padded request.toNat →
      h.Grants request m ⟨e.header, padded request.toNat⟩
        (2 * (before.length + 1) + 1) (3 + if before = [] then 0 else 1)) := by
  constructor
  · intro hslack
    have hs : inv.serve m.memory.size (padded request.toNat) = some (e, _) :=
      serve_of_whole hc hk hsmall hfit hslack
    refine hd.grants hs fun size hsize => ?_
    rw [← hsize] at hc hsmall hfit hslack
    refine ⟨_, _, hd.serve_whole hc hk hsmall hfit hslack, ?_⟩
    rw [FitList.traffic_relinked, Ambient.traffic_countReads, Traffic.plus_plus]
    simp only [List.map_eq_nil_iff, Nat.add_zero, Nat.zero_add]
  · intro hslack
    obtain ⟨inv', hs⟩ : ∃ inv', inv.serve m.memory.size (padded request.toNat) = some (_, inv') :=
      exists_serve_of_cut hc hk hsmall hfit hslack
    refine hd.grants hs fun size hsize => ?_
    rw [← hsize] at hc hsmall hfit hslack
    -- the part that is given stands under the header of the whole
    have hcut := hd.serve_cut hc hk hsmall hfit hslack
    exact hcut

/-- Freeing reads a header and writes a link. -/
theorem moves_free (hd : inv.Describes h m.memory) (he : e ∈ inv.live) {a : Addr}
    (ha : a.toNat = e.payload) : Heap.Moves (Heap.free a) h m 1 1 := by
  have hmem := mem_extents_of_live he
  have hat : a.toNat = e.block.header.toNat + 4 := by
    rw [hd.sound.toNat_header hmem]
    exact ha
  exact ⟨_, _, Heap.free_of_size? hat (hd.size?_block hmem) (hd.block_le hmem), rfl⟩

end Describes

end Inventory

/-- A slice is read, and then freed twice. -/
theorem Mirrors.moves_freeSlice {s : Tenancy} {p : Blueprint} (hm : Mirrors s p) {handle : Addr}
    (ha : s.Allows (.freeSlice handle)) :
    Heap.Moves (Heap.freeSlice handle) s.heap s.ambient 4 2 := by
  obtain ⟨data, hlookup⟩ := Option.isSome_iff_exists.1 ha
  obtain ⟨record, hr, content, hc, hne, hhandle, hdata, hsize, hholds⟩ := hm.lookup_record hlookup
  have hd := hm.describes
  obtain ⟨lengthAt, hat, ⟨data', length⟩, hload, hlength⟩ :=
    hd.exists_record (Inventory.mem_extents_of_live hr) hsize hhandle
  have hsame : data' = data :=
    Option.some.inj (hload.symm.trans (Memory.load?_eq_some_iff_holds.2 hholds))
  subst hsame
  have hread := SliceRecord.read_of_load? (s := s.heap) (m := s.ambient) hat hload hlength
  have hd₀ : p.inventory.Describes s.heap s.ambient.countRead.countRead.memory := hd
  obtain ⟨h₁, m₁, hcontent, hcost₁⟩ := hd₀.moves_free hc hdata
  obtain ⟨h₁', m₁', hact, hd₁, -⟩ := hd₀.free_of_live hc hdata
  cases hact.symm.trans hcontent
  have hr₁ : record ∈ (p.inventory.free data'.toNat).live := by
    rw [hdata, hd.sound.mem_live_free hc]
    exact ⟨hr, hne⟩
  obtain ⟨h₂, m₂, hrecord, hcost₂⟩ := hd₁.moves_free hr₁ hhandle
  refine ⟨h₂, m₂, (Act.bind_of_ok hread).trans ((Act.bind_of_ok hcontent).trans hrecord), ?_⟩
  rw [hcost₂, hcost₁]
  rfl

theorem Mirrors.charges {s : Tenancy} {p : Blueprint} (hm : Mirrors s p) :
    s.Charges p.inventory.fits where
  linked := hm.describes.chains none
  headers := by
    intro e he
    have hmem : e ∈ p.inventory.extents := Inventory.mem_extents_of_chain (k := none) he
    rw [hm.describes.size?_block hmem, Option.map_some, hm.describes.toNat_size hmem]
  small := by
    intro request hle
    obtain ⟨c, hc⟩ := (Inventory.ofNat?_padded request.toNat).1 hle
    have hsize := SizeClass.ofNat?_eq_some_iff.1 hc
    rw [← SizeClass.toNat_bytes] at hsize
    exact ⟨c, hsize, hm.describes.grants_small (m := s.ambient) hc⟩
  first_fit := by
    intro request before e after hlt hk hsmall hfit
    have hc := (Inventory.ofNat?_padded request.toNat).2 hlt
    exact hm.describes.grants_first_fit (m := s.ambient) hc hk hsmall hfit
  no_fit := by
    intro request hlt hall hroom
    have hc := (Inventory.ofNat?_padded request.toNat).2 hlt
    have hd : p.inventory.Describes s.heap s.ambient.memory := hm.describes
    exact hd.grants_carved hroom (Inventory.serve_of_all_lt hc hall) fun size hsize =>
      hd.serve_past_fits (by rwa [hsize]) (by rwa [hsize])
  free := by
    intro a ha
    obtain ⟨e, he, hae⟩ := hm.exists_extent ha
    exact hm.describes.moves_free (m := s.ambient) he hae
  freeSlice := fun _ ha => hm.moves_freeSlice ha

/-- After every lawful run, calls move the words that `Charges` says, and no others. -/
theorem charges_of_lawful {requested : Addr} {m m' : Ambient} {h : Heap} {as : List Action}
    (hc : Heap.create requested () m = ⟨.ok (.ok h), (), m'⟩)
    (hl : (Tenancy.opened h m').Lawful as) :
    ∃ fits, ((Tenancy.opened h m').run as).Charges fits := by
  obtain ⟨hempty, haligned, -⟩ := Heap.create_eq_ok hc
  exact ⟨_, ((Mirrors.opened hempty haligned).run hl).charges⟩

/-- Two blocks on the first-fit list and one in a bin: the second block of the list is cut for a
    request of 50 bytes, and a slice and a block are still out. -/
theorem charges_of_second_fit :
    let m : Ambient := { memory := .zeros 512, journal := #[.heapCreated 0 0] }
    let s := (Tenancy.opened (.empty 0) m).run
      [.allocate 100, .allocate 8, .allocate 40, .allocateSlice 3 4, .free 4, .free 120,
        .free 108, .allocate 20]
    (∃ fits, s.Charges fits) ∧ s.Allows (.freeSlice 164) ∧
      (Heap.allocate 50 s.heap s.ambient).ambient.traffic = s.ambient.traffic.plus 5 4 := by
  intro m s
  have hcreate : Heap.create 0 () { memory := .zeros 512 } = ⟨.ok (.ok (.empty 0)), (), m⟩ := rfl
  exact ⟨charges_of_lawful hcreate (by decide +kernel), by decide +kernel, by decide +kernel⟩

end LinearHeap
