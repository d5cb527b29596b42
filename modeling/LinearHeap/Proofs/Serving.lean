/-
  LinearHeap/Proofs/Serving.lean
  ==============================
  **Serving a size in memory.**  On a heap that an inventory describes, a size is
  served with the extent that the list allocator hands out, and the heap left
  behind is described by the list allocator's next state; it faults exactly where
  the list allocator has nothing to hand out, and then memory is as before.

  The same lemmas say what serving may write: bytes between the start and the new
  frontier that nothing handed out owns (`Vacant`).
-/
import LinearHeap.Proofs.Counting
import LinearHeap.Proofs.Moves

namespace LinearHeap

namespace Inventory

/-- The byte lies between the start and the limit, and in nothing that is handed out. -/
structure Vacant (inv : Inventory) (limit i : Nat) : Prop where
  start_le : inv.start ≤ i
  lt_limit : i < limit
  not_covers : ∀ e ∈ inv.live, ¬ e.Covers i

theorem Vacant.mono {inv : Inventory} {limit limit' i : Nat} (h : inv.Vacant limit i)
    (hle : limit ≤ limit') : inv.Vacant limit' i :=
  ⟨h.start_le, Nat.lt_of_lt_of_le h.lt_limit hle, h.not_covers⟩

/-- What is not handed out yet is vacant. -/
theorem Sound.vacant_of_covers {inv inv' : Inventory} {e : Extent} {i : Nat} (h : inv'.Sound)
    (hstart : inv'.start = inv.start) (hlive : ∀ f ∈ inv.live, f ∈ inv'.live)
    (he : e ∈ inv'.extents) (hnew : e ∉ inv.live) (hi : e.Covers i) :
    inv.Vacant inv'.frontier i where
  start_le := by
    rw [← hstart]
    exact Nat.le_trans (h.start_le he) hi.1
  lt_limit := Nat.lt_of_lt_of_le hi.2 (h.stop_le he)
  not_covers := by
    intro f hf
    have hne : e ≠ f := fun hef => hnew (hef ▸ hf)
    exact Extent.not_covers_of_apart (h.apart he (mem_extents_of_live (hlive f hf)) hne) hi

theorem Sound.vacant_of_mem_chain {inv : Inventory} {k : Option SizeClass} {e : Extent} {i : Nat}
    (h : inv.Sound) (he : e ∈ inv.chain k) (hi : e.Covers i) : inv.Vacant inv.frontier i :=
  h.vacant_of_covers rfl (fun _ hf => hf) (mem_extents_of_chain he)
    (fun hf => h.not_mem_chain_of_live hf k he) hi

namespace Describes

variable {inv inv' : Inventory} {h : Heap} {m : Ambient} {e : Extent} {size : Word}

theorem countReads (hd : inv.Describes h m.memory) (n : Nat) :
    inv.Describes h (m.countReads n).memory := by
  rwa [Ambient.memory_countReads]

/-! ### The wilderness -/

theorem fromWilderness_of_some (hd : inv.Describes h m.memory) (hwords : size.toNat % 4 = 0)
    (hleast : 4 ≤ size.toNat) (hb : inv.bump m.memory.size size.toNat = some (e, inv')) :
    ∃ h' m', Heap.fromWilderness size h m = ⟨.ok e.block, h', m'⟩ ∧ inv'.Describes h' m'.memory ∧
      Memory.ChangesOnly (inv.Vacant inv'.frontier) m.memory m'.memory ∧
      h'.counters = h.counters.carvedOnce := by
  have hnew := hd.bump hwords hleast hb
  obtain ⟨hspace, hroom, rfl, rfl⟩ := bump_eq_some_iff.1 hb
  have hfrontier := hd.frontier
  have hblock : (⟨h.frontier⟩ : Block) = Extent.block ⟨inv.frontier, size.toNat⟩ := by
    simp only [Extent.block, ← hfrontier, UInt32.ofNat_toNat]
  have hword : m.memory.HasWord h.frontier := by
    rw [Memory.hasWord_iff]
    omega
  have hs : h.frontier.toNat + 4 + size.toNat < Word.bound := by rwa [hfrontier]
  have hm : h.frontier.toNat + 4 + size.toNat ≤ m.memory.size := by rwa [hfrontier]
  have hact := Heap.fromWilderness_of_le hs hm
  rw [UInt32.ofNat_toNat] at hnew
  rw [hfrontier, hblock] at hact
  refine ⟨_, _, hact, hnew.counting _, ?_, rfl⟩
  apply Memory.ChangesOnly.store hword
  intro i hl hu
  refine ⟨?_, ?_, fun f hf hi => ?_⟩
  · have hle := hd.sound.start_le_frontier
    omega
  · show i < inv.frontier + 4 + size.toNat
    omega
  · have hstop := hd.sound.stop_le (mem_extents_of_live hf)
    have hlt := hi.2
    omega

theorem fromWilderness_of_none (hd : inv.Describes h m.memory)
    (hb : inv.bump m.memory.size size.toNat = none) :
    Heap.fromWilderness size h m = ⟨.error (h.shortage m.memory size), h, m⟩ := by
  apply Heap.fromWilderness_of_lt
  have hfrontier := hd.frontier
  simp only [Inventory.bump] at hb
  split at hb
  · cases hb
  · omega

/-! ### The bins -/

theorem binHead_of_cons (hd : inv.Describes h m.memory) {c : SizeClass} {header : Nat}
    {rest : List Nat} (hc : inv.bins c = header :: rest) :
    ∃ next, h.binHead c = some (Extent.block ⟨header, c.width⟩) ∧
      (Extent.block ⟨header, c.width⟩).link? m.memory = some next ∧
      (lend ⟨header, c.width⟩ { inv with bins := Function.update inv.bins c rest }).Describes
        (h.setHead (some c) next) m.memory := by
  have hk : inv.chain (some c) =
      ⟨header, c.width⟩ :: rest.map fun header => ⟨header, c.width⟩ := by
    simp only [chain, hc, List.map_cons]
  obtain ⟨hhead, next, hnext, hnew⟩ := hd.take_first hk
  refine ⟨next, hhead, hnext, ?_⟩
  have hrest : (rest.map fun header => (⟨header, c.width⟩ : Extent)).map Extent.header = rest := by
    rw [List.map_map]
    exact List.map_id rest
  simpa only [Inventory.take, withChain, List.nil_append, hrest] using hnew

theorem binHead_of_nil (hd : inv.Describes h m.memory) {c : SizeClass} (hc : inv.bins c = []) :
    h.binHead c = none := by
  have hl := hd.chains (some c)
  simp only [chain, hc, List.map_nil] at hl
  exact hl

/-! ### The first-fit list -/

theorem take_fit (hd : inv.Describes h m.memory) {before after : List Extent}
    (hk : inv.fits = before ++ e :: after) :
    ∃ next, e.block.link? m.memory = some next ∧
      (inv.take none before after e).Describes (h.relinked (before.map Extent.block) next)
        (FitList.relinked (before.map Extent.block) next m).memory ∧
      Memory.ChangesOnly (fun i => ∃ p ∈ before, p.Covers i) m.memory
        (FitList.relinked (before.map Extent.block) next m).memory := by
  rcases List.eq_nil_or_concat before with rfl | ⟨before, p, rfl⟩
  · obtain ⟨-, next, hnext, hnew⟩ := hd.take_first (k := none) hk
    exact ⟨next, hnext, hnew, Memory.ChangesOnly.refl _ _⟩
  · rw [List.concat_eq_append] at hk ⊢
    obtain ⟨next, hnext, -⟩ :=
      FreeChain.exists_link?_of_append (hd.chain_linked (k := none) hk)
    have hp : p ∈ inv.extents := by
      apply mem_extents_of_chain (k := none)
      rw [chain, hk]
      simp
    have hlast : ((before ++ [p]).map Extent.block).getLast? = some p.block := by simp
    have hne : (before ++ [p]).map Extent.block ≠ [] := by simp
    refine ⟨next, hnext, ?_, ?_⟩
    · simp only [Heap.relinked, FitList.relinkedHead, if_neg hne, FitList.relinked, hlast]
      exact hd.take_behind hk hnext
    · simp only [FitList.relinked, hlast]
      apply (hd.changesOnly_store_slot hp).mono
      intro i hi
      have height := hd.sound.header_add_eight_le hp
      exact ⟨p, by simp, by omega, by omega⟩

/-! ### Cutting a fit -/

/-- The slack of a fit, as a word and as a number. -/
theorem toNat_slack (hd : inv.Describes h m.memory) (he : e ∈ inv.extents)
    (hfit : size.toNat ≤ e.size) :
    ¬ UInt32.ofNat e.size < size ∧
      (UInt32.ofNat e.size - size).toNat = e.size - size.toNat := by
  have hsize := hd.toNat_size he
  have hle : size ≤ UInt32.ofNat e.size := by
    rw [UInt32.le_iff_toNat_le, hsize]
    exact hfit
  refine ⟨UInt32.not_lt.2 hle, ?_⟩
  rw [UInt32.toNat_sub_of_le _ _ hle, hsize]

theorem lt_leastSlack_iff (hd : inv.Describes h m.memory) (he : e ∈ inv.extents)
    (hfit : size.toNat ≤ e.size) :
    UInt32.ofNat e.size - size < FitList.leastSlack ↔ e.size - size.toNat < 12 := by
  have h12 : FitList.leastSlack.toNat = 12 := rfl
  rw [UInt32.lt_iff_toNat_lt, (hd.toNat_slack he hfit).2, h12]

theorem upper_size (hd : inv.Describes h m.memory) (he : e ∈ inv.extents)
    (hfit : size.toNat ≤ e.size) (hslack : 12 ≤ e.size - size.toNat) :
    UInt32.ofNat e.size - size - Block.headerBytes = UInt32.ofNat (e.size - size.toNat - 4) := by
  have h4 : Block.headerBytes.toNat = 4 := rfl
  have hsub := (hd.toNat_slack he hfit).2
  have hle : Block.headerBytes ≤ UInt32.ofNat e.size - size := by
    rw [UInt32.le_iff_toNat_le, hsub, h4]
    omega
  have hlt : e.size - size.toNat - 4 < Word.bound :=
    Nat.lt_of_le_of_lt (by omega) (hd.sound.size_lt he)
  apply UInt32.toNat_inj.1
  rw [UInt32.toNat_sub_of_le _ _ hle, hsub, h4, toNat_ofNat_of_lt hlt]

/-- Cutting an extent that is out writes inside that extent only. -/
theorem divided_of_slack {live : List Extent} {b rest : Block}
    (hd : (inv.withLive (e :: live)).Describes h m.memory) (hwords : size.toNat % 4 = 0)
    (hleast : 4 ≤ size.toNat) (hfit : size.toNat ≤ e.size) (hslack : 12 ≤ e.size - size.toNat)
    (hb : b = e.block) (hrest : rest.header.toNat = e.header + 4 + size.toNat) :
    (inv.withLive (⟨e.header + 4 + size.toNat, e.size - size.toNat - 4⟩ ::
        ⟨e.header, size.toNat⟩ :: live)).Describes h
      (FitList.divided b rest (UInt32.ofNat e.size) size m).memory ∧
    Memory.ChangesOnly e.Covers m.memory
      (FitList.divided b rest (UInt32.ofNat e.size) size m).memory := by
  subst hb
  have he : e ∈ (inv.withLive (e :: live)).extents := mem_extents_of_live List.mem_cons_self
  have hparts := (hd.sound.fair he).parts hwords hleast hslack
  have hheader := hd.sound.toNat_header he
  have hcut := hd.cut hparts hheader hrest
  rw [UInt32.ofNat_toNat] at hcut
  simp only [FitList.divided, hd.upper_size he hfit hslack]
  exact ⟨hcut, hd.changesOnly_cut he hparts hheader hrest⟩

theorem exists_size?_lt (hd : inv.Describes h m.memory) {es : List Extent}
    (hmem : ∀ f ∈ es, f ∈ inv.extents) (hsmall : ∀ f ∈ es, f.size < size.toNat) :
    ∀ b ∈ es.map Extent.block, ∃ free, b.size? m.memory = some free ∧ free < size := by
  intro b hb
  obtain ⟨f, hf, rfl⟩ := List.mem_map.1 hb
  refine ⟨_, hd.size?_block (hmem f hf), ?_⟩
  rw [UInt32.lt_iff_toNat_lt, hd.toNat_size (hmem f hf)]
  exact hsmall f hf

/-! ### Shelving and freeing -/

theorem shelve_act {live : List Extent} (hd : (inv.withLive (e :: live)).Describes h m.memory) :
    ∃ h' m', Heap.shelve e.block h m = ⟨.ok (), h', m'⟩ ∧
      ((inv.withLive live).shelve e).Describes h' m'.memory ∧
      Memory.ChangesOnly (fun i => e.header + 4 ≤ i ∧ i < e.header + 8) m.memory m'.memory ∧
      h'.counters = h.counters.joined (SizeClass.ofNat? e.size) := by
  have he : e ∈ (inv.withLive (e :: live)).extents := mem_extents_of_live List.mem_cons_self
  have hact := Heap.shelve_of_size? (h := h) (hd.size?_block he) (hd.block_lt he) (hd.block_le he)
  rw [SizeClass.ofSize?_eq_ofNat?, hd.toNat_size he] at hact
  refine ⟨_, _, hact, hd.shelve.counting _, hd.changesOnly_store_slot he, ?_⟩
  exact congrArg (Counters.joined _) (Heap.counters_setHead h _ _)

/-! ### Serving a size -/

section FirstFit

variable {before after : List Extent}

theorem mem_chain_none_of_append (hk : inv.fits = before ++ e :: after) :
    e ∈ inv.chain none ∧ ∀ f ∈ before, f ∈ inv.chain none := by
  rw [chain, hk]
  exact ⟨List.mem_append_right _ List.mem_cons_self, fun f hf => List.mem_append_left _ hf⟩

theorem block_lt_of_append (hd : inv.Describes h m.memory)
    (hk : inv.fits = before ++ e :: after) :
    ∀ b ∈ before.map Extent.block, b.header.toNat + 4 < Word.bound := by
  intro b hb
  obtain ⟨f, hf, rfl⟩ := List.mem_map.1 hb
  exact hd.block_lt (mem_extents_of_chain ((mem_chain_none_of_append hk).2 f hf))

theorem size?_lt_of_append (hd : inv.Describes h m.memory)
    (hk : inv.fits = before ++ e :: after) (hsmall : ∀ f ∈ before, f.size < size.toNat) :
    ∀ b ∈ before.map Extent.block, ∃ free, b.size? m.memory = some free ∧ free < size :=
  hd.exists_size?_lt
    (fun f hf => mem_extents_of_chain ((mem_chain_none_of_append hk).2 f hf)) hsmall

theorem vacant_of_append (hd : inv.Describes h m.memory)
    (hk : inv.fits = before ++ e :: after) {i : Nat}
    (hi : (∃ p ∈ before, p.Covers i) ∨ e.Covers i) : inv.Vacant inv.frontier i := by
  rcases hi with ⟨p, hp, hi⟩ | hi
  · exact hd.sound.vacant_of_mem_chain ((mem_chain_none_of_append hk).2 p hp) hi
  · exact hd.sound.vacant_of_mem_chain (mem_chain_none_of_append hk).1 hi

theorem fromFits_of_lt_twelve (hd : inv.Describes h m.memory)
    (hk : inv.fits = before ++ e :: after) (hsmall : ∀ f ∈ before, f.size < size.toNat)
    (hfit : size.toNat ≤ e.size) (hslack : e.size - size.toNat < 12) :
    ∃ h' m', Heap.fromFits size h m = ⟨.ok e.block, h', m'⟩ ∧
      (inv.take none before after e).Describes h' m'.memory ∧
      Memory.ChangesOnly (inv.Vacant inv.frontier) m.memory m'.memory ∧
      h'.counters = h.counters.reused none := by
  have he : e ∈ inv.extents := mem_extents_of_chain (mem_chain_none_of_append hk).1
  obtain ⟨next, hnext, htaken, hchange⟩ :=
    (hd.countReads (2 * ((before.map Extent.block).length + 1))).take_fit hk
  rw [Ambient.memory_countReads] at hnext hchange
  have hact := Heap.fromFits_of_whole (hd.chain_linked (k := none) hk)
    (hd.size?_lt_of_append hk hsmall) (hd.block_lt_of_append hk) (hd.size?_block he)
    (hd.toNat_slack he hfit).1 hnext ((hd.lt_leastSlack_iff he hfit).2 hslack)
  exact ⟨_, _, hact, htaken.counting _,
    hchange.mono fun i hi => hd.vacant_of_append hk (Or.inl hi), rfl⟩

theorem fromFits_of_twelve_le (hd : inv.Describes h m.memory) (hwords : size.toNat % 4 = 0)
    (hleast : 4 ≤ size.toNat) (hk : inv.fits = before ++ e :: after)
    (hsmall : ∀ f ∈ before, f.size < size.toNat) (hfit : size.toNat ≤ e.size)
    (hslack : ¬ e.size - size.toNat < 12) :
    ∃ h' m', Heap.fromFits size h m = ⟨.ok e.block, h', m'⟩ ∧
      (((inv.withChain none (before ++ after)).lend ⟨e.header, size.toNat⟩).shelve
        ⟨e.header + 4 + size.toNat, e.size - size.toNat - 4⟩).Describes h' m'.memory ∧
      Memory.ChangesOnly (inv.Vacant inv.frontier) m.memory m'.memory ∧
      h'.counters = h.counters.cutInto (SizeClass.ofNat? (e.size - size.toNat - 4)) := by
  have he : e ∈ inv.extents := mem_extents_of_chain (mem_chain_none_of_append hk).1
  obtain ⟨next, hnext, htaken, hchange⟩ :=
    (hd.countReads (2 * ((before.map Extent.block).length + 1))).take_fit hk
  rw [Ambient.memory_countReads] at hnext hchange
  have hstop := hd.sound.stop_lt he
  have hinside := hd.inside e he
  have hheader := hd.sound.toNat_header he
  simp only [Extent.stop] at hstop hinside
  have hrest : (⟨UInt32.ofNat (e.header + 4 + size.toNat)⟩ : Block).header.toNat =
      e.header + 4 + size.toNat := toNat_ofNat_of_lt (by omega)
  have hact := Heap.fromFits_of_split (hd.chain_linked (k := none) hk)
    (hd.size?_lt_of_append hk hsmall) (hd.block_lt_of_append hk) (hd.size?_block he)
    (hd.toNat_slack he hfit).1 hnext (fun hlt => hslack ((hd.lt_leastSlack_iff he hfit).1 hlt))
    (hrest.trans (by rw [hheader])) (by omega)
  -- the extent goes out whole, is cut there, and its upper part comes back
  have hout := htaken.counting fun n =>
    { n with fitReuses := n.fitReuses + 1, splits := n.splits + 1 }
  have hwhole : inv.take none before after e =
      (inv.withChain none (before ++ after)).withLive (e :: inv.live) := rfl
  rw [hwhole] at hout
  obtain ⟨hcut, hchange'⟩ := hout.divided_of_slack hwords hleast hfit (by omega) rfl hrest
  obtain ⟨h', m', hshelve, hnew, hchange'', hcounters⟩ := hcut.shelve_act
  refine ⟨h', m', hact.trans (Act.bind_of_ok hshelve), hnew, ?_, hcounters⟩
  refine (hchange.mono fun i hi => hd.vacant_of_append hk (Or.inl hi)).trans ?_
  refine (hchange'.mono fun i hi => hd.vacant_of_append hk (Or.inr hi)).trans ?_
  apply hchange''.mono
  rintro i ⟨hl, hu⟩
  dsimp only at hl hu
  apply hd.vacant_of_append hk
  refine Or.inr ⟨by omega, ?_⟩
  simp only [Extent.stop]
  omega

end FirstFit

/-- A size that no entry of the first-fit list holds is carved from the wilderness. -/
theorem fromFits_of_find?_eq_none (hd : inv.Describes h m.memory)
    (hfind : (inv.fits.find? fun e => decide (size.toNat ≤ e.size)) = none) :
    Heap.fromFits size h m =
      Heap.fromWilderness size h (m.countReads (2 * (inv.fits.map Extent.block).length)) := by
  have hsmall : ∀ f ∈ inv.fits, f.size < size.toNat := by
    intro f hf
    simpa using List.find?_eq_none.1 hfind f hf
  apply Heap.fromFits_of_all_lt (hd.chains none)
  exact hd.exists_size?_lt (fun f hf => mem_extents_of_chain (k := none) hf) hsmall

theorem serve_of_some (hd : inv.Describes h m.memory) (hwords : size.toNat % 4 = 0)
    (hleast : 4 ≤ size.toNat) (hs : inv.serve m.memory.size size.toNat = some (e, inv')) :
    ∃ h' m', Heap.serve size h m = ⟨.ok e.block, h', m'⟩ ∧ inv'.Describes h' m'.memory ∧
      Memory.ChangesOnly (inv.Vacant inv'.frontier) m.memory m'.memory ∧
      h'.counters = inv.countServe size.toNat h.counters := by
  unfold Inventory.serve at hs
  cases hc : SizeClass.ofNat? size.toNat with
  | some c =>
      rw [hc] at hs
      rw [Heap.serve_of_class (by rw [SizeClass.ofSize?_eq_ofNat?, hc])]
      cases hbin : inv.bins c with
      | nil =>
          simp only [hbin] at hs
          rw [Heap.fromBin_of_none (hd.binHead_of_nil hbin), countServe_of_nil hc hbin]
          exact hd.fromWilderness_of_some hwords hleast hs
      | cons header rest =>
          simp only [hbin, Option.some.injEq, Prod.mk.injEq] at hs
          obtain ⟨rfl, rfl⟩ := hs
          rw [countServe_of_cons hc hbin, SizeClass.ofNat?_eq_some_iff.1 hc]
          obtain ⟨next, hhead, hnext, hnew⟩ := hd.binHead_of_cons hbin
          refine ⟨_, _, Heap.fromBin_of_some hhead hnext, hnew.counting _,
            Memory.ChangesOnly.refl _ _, ?_⟩
          exact congrArg (Counters.reused (some c)) (Heap.counters_setHead h (some c) next)
  | none =>
      rw [hc] at hs
      rw [Heap.serve_of_no_class (by rw [SizeClass.ofSize?_eq_ofNat?, hc])]
      cases hfind : inv.fits.find? fun e => decide (size.toNat ≤ e.size) with
      | none =>
          simp only [hfind] at hs
          rw [hd.fromFits_of_find?_eq_none hfind, countServe_of_find?_eq_none hc hfind]
          -- the search has moved the meter, and only the meter
          rw [← Ambient.memory_countReads m (2 * (inv.fits.map Extent.block).length)] at hs ⊢
          exact (hd.countReads _).fromWilderness_of_some hwords hleast hs
      | some f =>
          obtain ⟨before, after, hk, herase, hfit, hbefore⟩ :=
            exists_append_of_find?_eq_some hfind
          have hsmall : ∀ f ∈ before, f.size < size.toNat := by
            intro f hf
            simpa using hbefore f hf
          simp only [hfind, herase] at hs
          split at hs
          · rename_i hslack
            simp only [Option.some.injEq, Prod.mk.injEq] at hs
            obtain ⟨rfl, rfl⟩ := hs
            rw [countServe_of_lt_twelve hc hfind hslack]
            exact hd.fromFits_of_lt_twelve hk hsmall (of_decide_eq_true hfit) hslack
          · rename_i hslack
            simp only [Option.some.injEq, Prod.mk.injEq] at hs
            obtain ⟨rfl, rfl⟩ := hs
            rw [frontier_shelve, countServe_of_twelve_le hc hfind hslack]
            exact hd.fromFits_of_twelve_le hwords hleast hk hsmall (of_decide_eq_true hfit) hslack

/-- A size that is not served changes nothing but the meter. -/
theorem serve_of_none (hd : inv.Describes h m.memory)
    (hs : inv.serve m.memory.size size.toNat = none) :
    ∃ n, Heap.serve size h m = ⟨.error (h.shortage m.memory size), h, m.countReads n⟩ := by
  unfold Inventory.serve at hs
  cases hc : SizeClass.ofNat? size.toNat with
  | some c =>
      rw [hc] at hs
      rw [Heap.serve_of_class (by rw [SizeClass.ofSize?_eq_ofNat?, hc])]
      cases hbin : inv.bins c with
      | nil =>
          simp only [hbin] at hs
          rw [Heap.fromBin_of_none (hd.binHead_of_nil hbin)]
          exact ⟨0, hd.fromWilderness_of_none hs⟩
      | cons header rest => simp [hbin] at hs
  | none =>
      rw [hc] at hs
      rw [Heap.serve_of_no_class (by rw [SizeClass.ofSize?_eq_ofNat?, hc])]
      cases hfind : inv.fits.find? fun e => decide (size.toNat ≤ e.size) with
      | none =>
          simp only [hfind] at hs
          rw [hd.fromFits_of_find?_eq_none hfind]
          rw [← Ambient.memory_countReads m (2 * (inv.fits.map Extent.block).length)] at hs
          have hact := (hd.countReads _).fromWilderness_of_none hs
          rw [Ambient.memory_countReads] at hact
          exact ⟨_, hact⟩
      | some f =>
          simp only [hfind] at hs
          split at hs <;> cases hs

end Describes

end Inventory

end LinearHeap
