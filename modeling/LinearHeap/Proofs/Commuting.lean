/-
  LinearHeap/Proofs/Commuting.lean
  ================================
  **Operations on different chains commute.**  A release puts a block in front of
  the chain of its size; a request that is served whole takes a block out of the
  chain of its own.  Two of them that work on different ones of the nine chains
  may be done in either order: both get the same answers, and heap and memory end
  the same (`commutes_of_lawful`).

  What such an operation does is a `ChainMove`: its chain gets a head, one link is
  written at most, one counter moves, and an answer is given.  Which move it is
  depends on the inventory's chain and on nothing else (`Performs`), and no move on
  another chain changes that (`Performs.of_spares`).  The link that is written
  belongs to a block of the chain's own size, so two moves write into different
  blocks (`Describes.relink_comm`).
-/
import LinearHeap.Proofs.Stocktaking
import LinearHeap.Proofs.Traffic

namespace LinearHeap

/-! ### Links that are written -/

namespace Memory

/-- Writes a link into a free block, if there is one to write. -/
def relink (m : Memory) : Option (Extent × Link) → Memory
  | some (p, next) => m.store p.block.slot (Link.toWord next)
  | none => m

end Memory

/-! ### Heads of different chains -/

namespace Heap

variable {h : Heap} {j k : Option SizeClass}

theorem setHead_comm (h : Heap) (hjk : j ≠ k) (l l' : Link) :
    (h.setHead j l).setHead k l' = (h.setHead k l').setHead j l := by
  rcases j with _ | c <;> rcases k with _ | d
  · exact absurd rfl hjk
  · rfl
  · rfl
  · have hcd : c.val ≠ d.val := fun he => hjk (congrArg some (Fin.ext he))
    simp only [setHead, Bins.setHead]
    rw [Vector.set_comm _ _ hcd]

end Heap

/-! ### Moves on a chain -/

/-- An operation on one chain, by what it leaves behind. -/
structure ChainMove where
  chain : Option SizeClass
  /-- The head that the chain gets. -/
  head : Link
  /-- The block that gets a new link, if one does. -/
  link : Option (Extent × Link)
  /-- What is handed out; a release hands out nothing. -/
  answer : Option Addr

namespace ChainMove

def count (t : ChainMove) : Counters → Counters :=
  match t.answer with
  | some _ => Counters.reused t.chain
  | none => Counters.joined t.chain

def heap (t : ChainMove) (h : Heap) : Heap := (h.setHead t.chain t.head).counting t.count

theorem count_comm (t u : ChainMove) (n : Counters) :
    u.count (t.count n) = t.count (u.count n) := by
  unfold count
  cases t.answer <;> cases u.answer <;> cases t.chain <;> cases u.chain <;> rfl

theorem heap_comm {t u : ChainMove} (hchain : t.chain ≠ u.chain) (h : Heap) :
    u.heap (t.heap h) = t.heap (u.heap h) := by
  have hcounting : ∀ (h : Heap) (f : Counters → Counters) k l,
      (h.counting f).setHead k l = (h.setHead k l).counting f := by
    intro h f k l
    cases k <;> rfl
  have hcount : ∀ h : Heap, (h.counting t.count).counting u.count =
      (h.counting u.count).counting t.count := by
    intro h
    simp only [Heap.counting, t.count_comm u]
  simp only [heap, hcounting]
  rw [Heap.setHead_comm h hchain, hcount]

end ChainMove

namespace Inventory

variable {inv inv' : Inventory} {a : Action} {t u : ChainMove} {k : Option SizeClass}

/-- The action is this move: a release of what is out, or a request that is served whole with the
    first extent of its chain that is large enough. -/
inductive Performs (inv : Inventory) : Action → ChainMove → Prop
  | free {a : Addr} {e : Extent} (he : e ∈ inv.live) (ha : a.toNat = e.payload) :
      Performs inv (.free a)
        ⟨SizeClass.ofNat? e.size, some e.block,
          some (e, ((inv.chain (SizeClass.ofNat? e.size)).map Extent.block).head?), none⟩
  | reuse {request : Word} {k : Option SizeClass} {before after : List Extent} {e : Extent}
      (hclass : SizeClass.ofNat? (padded request.toNat) = k)
      (hk : inv.chain k = before ++ e :: after)
      (hsmall : ∀ f ∈ before, f.size < padded request.toNat)
      (hfit : padded request.toNat ≤ e.size) (hslack : e.size - padded request.toNat < 12) :
      Performs inv (.allocate request)
        ⟨k, ((before ++ after).map Extent.block).head?,
          before.getLast?.map fun p => (p, (after.map Extent.block).head?), some e.block.slot⟩

/-- Of all chains but one, nothing is changed, and what is out and belongs to another one is still
    out. -/
structure Spares (inv : Inventory) (k : Option SizeClass) (inv' : Inventory) : Prop where
  chain : ∀ j, j ≠ k → inv'.chain j = inv.chain j
  live : ∀ e ∈ inv.live, SizeClass.ofNat? e.size ≠ k → e ∈ inv'.live

theorem Performs.of_spares (hp : inv.Performs a t) (hs : inv.Spares k inv') (hk : t.chain ≠ k) :
    inv'.Performs a t := by
  cases hp with
  | free he ha =>
      rw [← hs.chain _ hk]
      exact .free (hs.live _ he hk) ha
  | reuse hclass hchain hsmall hfit hslack =>
      rw [← hs.chain _ hk] at hchain
      exact .reuse hclass hchain hsmall hfit hslack

/-- The block that is linked anew has a size of the move's chain. -/
theorem Performs.mem_of_link (hp : inv.Performs a t) (hsound : inv.Sound) {p : Extent} {l : Link}
    (hl : t.link = some (p, l)) : p ∈ inv.extents ∧ SizeClass.ofNat? p.size = t.chain := by
  cases hp with
  | free he ha =>
      cases hl
      exact ⟨mem_extents_of_live he, rfl⟩
  | @reuse request k before after e hclass hchain hsmall hfit hslack =>
      obtain ⟨q, hq, hqp⟩ := Option.map_eq_some_iff.1 hl
      cases hqp
      have hmem : p ∈ inv.chain k := by
        rw [hchain]
        exact List.mem_append_left _ (List.mem_of_getLast? hq)
      exact ⟨mem_extents_of_chain hmem, hsound.class_of_mem_chain hmem⟩

namespace Describes

variable {h : Heap} {m : Memory}

/-- Two moves on different chains write into different blocks. -/
theorem relink_comm {b : Action} (hd : inv.Describes h m) (ht : inv.Performs a t)
    (hu : inv.Performs b u) (hchain : t.chain ≠ u.chain) :
    (m.relink t.link).relink u.link = (m.relink u.link).relink t.link := by
  rcases htl : t.link with _ | ⟨p, l⟩
  · rfl
  rcases hul : u.link with _ | ⟨q, l'⟩
  · rfl
  obtain ⟨hp, hpk⟩ := ht.mem_of_link hd.sound htl
  obtain ⟨hq, hqk⟩ := hu.mem_of_link hd.sound hul
  have hpq : p ≠ q := by
    rintro rfl
    exact hchain (hpk.symm.trans hqk)
  apply Memory.store_comm (hd.hasWord_slot hp) (hd.hasWord_slot hq)
  have hapart := hd.sound.apart hp hq hpq
  have hroom := hd.sound.header_add_eight_le hp
  have hroom' := hd.sound.header_add_eight_le hq
  simp only [Extent.Apart] at hapart
  rw [hd.toNat_slot hp, hd.toNat_slot hq]
  omega

/-! ### The heap moves -/

section Call

variable {s : Tenancy} {e : Extent} {before after : List Extent}

/-- A block leaves the first-fit list: its head changes only if the block was the first one. -/
theorem relinked_eq_setHead (hd : inv.Describes h m) (hk : inv.fits = before ++ e :: after) :
    h.relinked (before.map Extent.block) (after.map Extent.block).head? =
      h.setHead none ((before ++ after).map Extent.block).head? := by
  rcases before with _ | ⟨f, before⟩
  · rfl
  · have hhead : h.fitHead = some f.block := by
      have hlinked := hd.chains none
      rw [chain, hk] at hlinked
      exact hlinked.1
    have hfits : h.fits = ⟨some f.block⟩ := congrArg FitList.mk hhead
    simp only [Heap.relinked, FitList.relinkedHead, List.map_cons, List.cons_append,
      List.head?_cons, reduceCtorEq, if_false, Heap.setHead, hfits]

/-- A request that is served whole takes its block out of its chain: the chain gets its new head,
    and the block in front of it, if there is one, its new link. -/
theorem exists_serve {m : Ambient} {size : Word} (hd : inv.Describes h m.memory)
    (hclass : SizeClass.ofNat? size.toNat = k) (hk : inv.chain k = before ++ e :: after)
    (hsmall : ∀ f ∈ before, f.size < size.toNat) (hfit : size.toNat ≤ e.size)
    (hslack : e.size - size.toNat < 12) :
    ∃ m', Heap.serve size h m =
        ⟨.ok e.block, (h.setHead k ((before ++ after).map Extent.block).head?).counting
          (Counters.reused k), m'⟩ ∧
      m'.memory = m.memory.relink
        (before.getLast?.map fun p => (p, (after.map Extent.block).head?)) := by
  rcases k with _ | c
  · have hserve := hd.serve_whole hclass hk hsmall hfit hslack
    rw [hd.relinked_eq_setHead hk] at hserve
    refine ⟨_, hserve, ?_⟩
    simp only [FitList.relinked, List.getLast?_map]
    cases before.getLast? with
    | none => exact Ambient.memory_countReads m _
    | some p =>
        simp only [Option.map_some, Memory.relink, Ambient.memory_countReads]
  · obtain rfl := eq_nil_of_small hk hclass hsmall
    exact ⟨_, hd.serve_from_bin hclass hk, rfl⟩

theorem exists_call (hd : inv.Describes s.heap s.memory) (hp : inv.Performs a t) :
    ∃ m', s.call a = ⟨.ok t.answer, t.heap s.heap, m'⟩ ∧ m'.memory = s.memory.relink t.link ∧
      ∃ inv', inv'.Describes (t.heap s.heap) m'.memory ∧ inv.Spares t.chain inv' := by
  cases hp with
  | @free a e he ha =>
      have hmem := mem_extents_of_live he
      have hat : a.toNat = e.block.header.toNat + 4 := by
        rw [hd.sound.toNat_header hmem]
        exact ha
      have hact := Heap.free_of_size? (h := s.heap) (m := s.ambient) hat (hd.size?_block hmem)
        (hd.block_le hmem)
      rw [SizeClass.ofSize?_eq_ofNat?, hd.toNat_size hmem,
        FreeChain.head?_of_linked (hd.chains (SizeClass.ofNat? e.size))] at hact
      obtain ⟨h', m', hact', hnew, -⟩ := hd.free_of_live (m := s.ambient) he ha
      cases hact.symm.trans hact'
      refine ⟨_, Act.map_of_ok hact, rfl, _, hnew, ?_, ?_⟩
      · intro j hj
        rw [ha, hd.sound.chain_free he, Extent.pushOn, Function.update_of_ne hj]
      · intro f hf hclass
        rw [ha, hd.sound.mem_live_free he]
        exact ⟨hf, fun hfe => hclass (hfe ▸ rfl)⟩
  | @reuse request k before after e hclass hk hsmall hfit hslack =>
      have hs : inv.allocate s.memory.size request.toNat = some (e, inv.take k before after e) :=
        serve_of_whole hclass hk hsmall hfit hslack
      obtain ⟨hpadded, hsize⟩ := paddedSize_of_lt (hd.sound.request_lt hs)
      rw [← hsize] at hclass hsmall hfit hslack
      obtain ⟨m', hserve, hmemory⟩ :=
        exists_serve (m := s.ambient) hd hclass hk hsmall hfit hslack
      have he : e ∈ inv.extents := by
        apply mem_extents_of_chain (k := k)
        rw [hk]
        exact List.mem_append_right _ List.mem_cons_self
      have hact := Heap.allocate_of_serve hpadded hserve (hd.block_lt he)
      obtain ⟨h', m'', hact', hnew, -⟩ := hd.allocate_of_some (m := s.ambient) hs
      cases hact.symm.trans hact'
      refine ⟨m', Act.map_of_ok hact, hmemory, _, hnew, ?_, ?_⟩
      · exact fun j hj => chain_take_of_ne hj
      · intro f hf _
        rw [live_take]
        exact List.mem_cons_of_mem e hf

end Call

/-- After a move on another chain, a move is still the same move. -/
theorem exists_call_after {s : Tenancy} {b : Action} (hd : inv.Describes s.heap s.memory)
    (ht : inv.Performs a t) (hu : inv.Performs b u) (hchain : t.chain ≠ u.chain) :
    ∃ m', (s.step a).call b = ⟨.ok u.answer, u.heap (t.heap s.heap), m'⟩ ∧
      m'.memory = (s.memory.relink t.link).relink u.link := by
  obtain ⟨m₁, hcall, hmemory, inv', hnew, hspares⟩ := hd.exists_call ht
  obtain ⟨hheap, hambient⟩ := Tenancy.step_of_call hcall
  have hnew' : inv'.Describes (s.step a).heap (s.step a).memory := by
    rw [Tenancy.memory, hheap, hambient]
    exact hnew
  obtain ⟨m₂, hcall₂, hmemory₂, -⟩ := hnew'.exists_call (hu.of_spares hspares hchain.symm)
  rw [hheap] at hcall₂
  rw [Tenancy.memory, hambient, hmemory] at hmemory₂
  exact ⟨m₂, hcall₂, hmemory₂⟩

end Describes

end Inventory

/-! ### Operations of a guest -/

/-- The chain offers a block that is given whole for the size: the top of a bin, or, of the
    first-fit list, the first block that is large enough, if too little is left of it to be cut. -/
def Heap.OffersWhole (h : Heap) (m : Memory) (size : Word) : Option SizeClass → Prop
  | some c => (h.binHead c).isSome
  | none => ∃ before b after, FreeChain.Linked m h.fitHead (before ++ b :: after) ∧
      (∀ c ∈ before, ∃ free ∈ c.size? m, free < size) ∧
      ∃ free ∈ b.size? m, size ≤ free ∧ free - size < FitList.leastSlack

namespace Tenancy

/-- The action is a release onto this chain, or a request that is served whole from it. -/
def WorksOn (s : Tenancy) (k : Option SizeClass) : Action → Prop
  | .free a => a ∈ s.live ∧ ∃ size ∈ s.memory.sizeAt? a, SizeClass.ofSize? size = k
  | .allocate request => ∃ size, paddedSize request = .ok size ∧ SizeClass.ofSize? size = k ∧
      s.heap.OffersWhole s.memory size k
  | _ => False

/-- Both orders are lawful, give each of the two the same answer, and end in the same heap and the
    same memory. -/
structure Commutes (s : Tenancy) (a b : Action) : Prop where
  lawful : s.Lawful [a, b] ∧ s.Lawful [b, a]
  first : ∃ answer, (s.call a).result = .ok answer ∧ ((s.step b).call a).result = .ok answer
  second : ∃ answer, (s.call b).result = .ok answer ∧ ((s.step a).call b).result = .ok answer
  memory : (s.run [a, b]).memory = (s.run [b, a]).memory
  /-- Bounds, heads and counters. -/
  heap : (s.run [a, b]).heap = (s.run [b, a]).heap

variable {s : Tenancy} {a b : Action} {j k : Option SizeClass}

theorem WorksOn.allows (h : s.WorksOn k a) : s.Allows a := by
  cases a with
  | free a => exact h.1
  | allocate request => trivial
  | _ => exact h.elim

/-- What is freed onto one chain is still out after an operation on another. -/
theorem WorksOn.allows_step (ha : s.WorksOn j a) (hb : s.WorksOn k b) (hjk : j ≠ k) :
    (s.step a).Allows b := by
  cases b with
  | allocate request => trivial
  | free y =>
      refine List.mem_append_right _ (List.mem_filter.2 ⟨hb.1, ?_⟩)
      cases a with
      | allocate request => exact decide_eq_true List.not_mem_nil
      | free x =>
          obtain ⟨-, size, hsize, rfl⟩ := ha
          obtain ⟨-, size', hsize', rfl⟩ := hb
          apply decide_eq_true
          rw [Tenancy.released, List.mem_singleton]
          rintro rfl
          exact hjk (congrArg SizeClass.ofSize? (Option.some.inj (hsize.symm.trans hsize')))
      | _ => exact ha.elim
  | _ => exact hb.elim

end Tenancy

/-- The blocks that a first-fit list offers are extents of its inventory. -/
theorem Inventory.Describes.exists_of_offersWhole {inv : Inventory} {h : Heap} {m : Memory}
    {size : Word} (hd : inv.Describes h m) (ho : h.OffersWhole m size none) :
    ∃ before e after, inv.chain none = before ++ e :: after ∧
      (∀ f ∈ before, f.size < size.toNat) ∧ size.toNat ≤ e.size ∧ e.size - size.toNat < 12 := by
  obtain ⟨bs, b, cs, hlinked, hsmall, free, hfree, hfit, hslack⟩ := ho
  have hblocks := FreeChain.linked_unique (hd.chains none) hlinked
  obtain ⟨before, rest, hk, rfl, hrest⟩ := List.map_eq_append_iff.1 hblocks
  obtain ⟨e, after, rfl, rfl, -⟩ := List.map_eq_cons_iff.1 hrest
  have hmem : ∀ f ∈ before ++ e :: after, f ∈ inv.extents := fun f hf =>
    mem_extents_of_chain (k := none) (hk ▸ hf)
  have he : e ∈ inv.extents := hmem e (by simp)
  rw [hd.size?_block he] at hfree
  obtain rfl := Option.some.inj hfree
  have hle : size.toNat ≤ e.size := by
    rw [← hd.toNat_size he]
    exact hfit
  refine ⟨before, e, after, hk, ?_, hle, (hd.lt_leastSlack_iff (m := ⟨m, {}, #[]⟩) he hle).1 hslack⟩
  intro f hf
  have hfm : f ∈ inv.extents := hmem f (List.mem_append_left _ hf)
  obtain ⟨free, hfree, hlt⟩ := hsmall f.block (List.mem_map_of_mem hf)
  rw [hd.size?_block hfm] at hfree
  obtain rfl := Option.some.inj hfree
  rw [← hd.toNat_size hfm]
  exact hlt

namespace Mirrors

variable {s : Tenancy} {p : Blueprint} {a b : Action} {j k : Option SizeClass}

theorem exists_performs (hm : Mirrors s p) (hw : s.WorksOn k a) :
    ∃ t, p.inventory.Performs a t ∧ t.chain = k := by
  have hd := hm.describes
  cases a with
  | free a =>
      obtain ⟨ha, size, hsize, hclass⟩ := hw
      obtain ⟨e, he, hae⟩ := hm.exists_extent ha
      have hmem := Inventory.mem_extents_of_live he
      rw [hd.sizeAt?_of_mem hmem hae] at hsize
      obtain rfl := Option.some.inj hsize
      rw [SizeClass.ofSize?_eq_ofNat?, hd.toNat_size hmem] at hclass
      exact ⟨_, .free he hae, hclass⟩
  | allocate request =>
      obtain ⟨size, hpadded, hclass, hoffers⟩ := hw
      have hsize : size.toNat = Inventory.padded request.toNat := by
        obtain ⟨hwords, hleast, hle, hnear⟩ := paddedSize_eq_ok hpadded
        simp only [Inventory.padded]
        omega
      rw [SizeClass.ofSize?_eq_ofNat?, hsize] at hclass
      rcases k with _ | c
      · obtain ⟨before, e, after, hk, hsmall, hfit, hslack⟩ := hd.exists_of_offersWhole hoffers
        rw [hsize] at hsmall hfit hslack
        exact ⟨_, .reuse hclass hk hsmall hfit hslack, rfl⟩
      · obtain ⟨b, hb⟩ := Option.isSome_iff_exists.1 hoffers
        obtain ⟨e, after, hk, -, hwidth⟩ := hd.exists_of_binHead hb
        have hfull : Inventory.padded request.toNat = e.size := by
          rw [hwidth]
          exact SizeClass.ofNat?_eq_some_iff.1 hclass
        have hfirst : p.inventory.chain (some c) = [] ++ e :: after := hk
        have hnone : ∀ f ∈ ([] : List Extent), f.size < Inventory.padded request.toNat :=
          fun f hf => absurd hf List.not_mem_nil
        exact ⟨_, .reuse hclass hfirst hnone (by omega) (by omega), rfl⟩
  | _ => exact hw.elim

theorem commutes (hm : Mirrors s p) (ha : s.WorksOn j a) (hb : s.WorksOn k b) (hjk : j ≠ k) :
    s.Commutes a b := by
  have hd := hm.describes
  obtain ⟨t, ht, rfl⟩ := hm.exists_performs ha
  obtain ⟨u, hu, rfl⟩ := hm.exists_performs hb
  obtain ⟨m₁, hfirst, -⟩ := hd.exists_call ht
  obtain ⟨m₂, hsecond, -⟩ := hd.exists_call hu
  obtain ⟨m₁', hfirst', hmemory₁⟩ := hd.exists_call_after hu ht hjk.symm
  obtain ⟨m₂', hsecond', hmemory₂⟩ := hd.exists_call_after ht hu hjk
  have hlawful : s.Lawful [a, b] := ⟨ha.allows, ha.allows_step hb hjk, trivial⟩
  have hlawful' : s.Lawful [b, a] := ⟨hb.allows, hb.allows_step ha hjk.symm, trivial⟩
  refine ⟨⟨hlawful, hlawful'⟩, ?_, ?_, ?_, ?_⟩
  · exact ⟨t.answer, congrArg Outcome.result hfirst, congrArg Outcome.result hfirst'⟩
  · exact ⟨u.answer, congrArg Outcome.result hsecond, congrArg Outcome.result hsecond'⟩
  · show ((s.step a).call b).ambient.memory = ((s.step b).call a).ambient.memory
    rw [hsecond', hfirst', hmemory₂, hmemory₁]
    exact hd.relink_comm ht hu hjk
  · show ((s.step a).call b).own = ((s.step b).call a).own
    rw [hsecond', hfirst']
    exact ChainMove.heap_comm hjk s.heap

end Mirrors

/-- After every lawful run, two operations that work on different chains may be done in either
    order. -/
theorem commutes_of_lawful {requested : Addr} {m m' : Ambient} {h : Heap} {as : List Action}
    (hc : Heap.create requested () m = ⟨.ok (.ok h), (), m'⟩)
    (hl : (Tenancy.opened h m').Lawful as) {a b : Action} {j k : Option SizeClass}
    (ha : ((Tenancy.opened h m').run as).WorksOn j a)
    (hb : ((Tenancy.opened h m').run as).WorksOn k b) (hjk : j ≠ k) :
    ((Tenancy.opened h m').run as).Commutes a b := by
  obtain ⟨hempty, haligned, -⟩ := Heap.create_eq_ok hc
  exact ((Mirrors.opened hempty haligned).run hl).commutes ha hb hjk

/-- A request of 40 bytes takes the second block of the first-fit list whole, and a block of eight
    bytes comes back to its bin. -/
theorem commutes_of_middle_fit :
    let m : Ambient := { memory := .zeros 256, journal := #[.heapCreated 0 0] }
    let s := (Tenancy.opened (.empty 0) m).run
      [.allocate 48, .allocate 8, .allocate 36, .allocate 8, .free 4, .free 68]
    s.WorksOn none (.allocate 40) ∧ s.WorksOn (some 1) (.free 56) ∧
      s.Commutes (.allocate 40) (.free 56) := by
  intro m s
  have hcreate : Heap.create 0 () { memory := .zeros 256 } = ⟨.ok (.ok (.empty 0)), (), m⟩ := rfl
  have hfit : s.WorksOn none (.allocate 40) := by
    refine ⟨40, by decide, by decide, [⟨64⟩], ⟨0⟩, [], ?_, ?_, 48, by decide +kernel, by decide⟩
    · exact ⟨by decide +kernel, some ⟨0⟩, by decide +kernel, rfl, none, by decide +kernel, rfl⟩
    · intro c hc
      obtain rfl := List.mem_singleton.1 hc
      exact ⟨36, by decide +kernel, by decide⟩
  have hbin : s.WorksOn (some 1) (.free 56) := by
    refine ⟨by decide +kernel, 8, by decide +kernel, by decide⟩
  exact ⟨hfit, hbin, commutes_of_lawful hcreate (by decide +kernel) hfit hbin nofun⟩

end LinearHeap
