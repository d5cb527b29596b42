/-
  LinearHeap/Proofs/Scripts.lean
  ==============================
  **Every script is a lawful guest.**  A free names an entry of what is left, so
  the calls that a script makes (`Script.calls`) are allowed one by one, whatever
  the sizes and indices are.  What is left at the end is exactly what is out, each
  address once, with the size it was asked for.

  The frontier moves at an allocation only, by a header and the padded size at
  most, so it ends no further than the start and the sum of these
  (`Script.demand`).  A script whose demand fits into memory and the address space
  runs to its end; every short profile does, in ample memory.

  One invariant carries all of it: what is left agrees with what is held, entry by
  entry, and the peak is the frontier (`Tracks`).
-/
import LinearHeap.Script.Profile
import LinearHeap.Proofs.Exhaustion
import LinearHeap.Proofs.Provision
import LinearHeap.Proofs.Stocktaking

namespace LinearHeap

namespace Script

/-! ### What a script asks for -/

/-- The bytes that a step may carve: a header and a padded size. -/
def Step.bytes : Step → Nat
  | .alloc size => 4 + Inventory.padded size.toNat
  | .free _ => 0

/-- The bytes that a script may carve. -/
def demand (script : Script) : Nat := (script.map Step.bytes).sum

/-- The frees of a script that meet something live, if so many allocations are live before it. -/
def releases : (live : Nat) → Script → Nat
  | _, [] => 0
  | live, .alloc _ :: rest => releases (live + 1) rest
  | 0, .free _ :: rest => releases 0 rest
  | live + 1, .free _ :: rest => releases live rest + 1

theorem releases_free_of_pos {live : Nat} {index : Nat} {rest : Script} (hlive : 0 < live) :
    releases live (.free index :: rest) = releases (live - 1) rest + 1 := by
  cases live with
  | zero => exact absurd hlive (Nat.lt_irrefl 0)
  | succ live => rfl

/-- The calls that a script makes, in their order.  If one of them faults it is the last one. -/
def calls : Script → Remains → Tenancy → List Action
  | [], _, _ => []
  | .alloc size :: rest, ⟨live, peak⟩, s =>
      .allocate size ::
        match (Heap.allocate size s.heap s.ambient).result with
        | .ok a =>
            calls rest ⟨live.push (a, size), max peak (s.step (.allocate size)).heap.frontier⟩
              (s.step (.allocate size))
        | .error _ => []
  | .free index :: rest, ⟨live, peak⟩, s =>
      match live[index % live.size]? with
      | some (a, _) =>
          .free a ::
            match (Heap.free a s.heap s.ambient).result with
            | .ok _ => calls rest ⟨swapRemove live (index % live.size), peak⟩ (s.step (.free a))
            | .error _ => []
      | none => calls rest ⟨live, peak⟩ s

/-- What is left, with sizes as numbers. -/
def Remains.entries (left : Remains) : List (Addr × Nat) :=
  left.live.toList.map fun x => (x.1, x.2.toNat)

/-! ### One step -/

section Step

variable {s : Tenancy} (rest : Script) (left : Remains) {size : Word} {index : Nat} {a : Addr}
  {n : Word} {h' : Heap} {m' : Ambient} {fault : Fault}

theorem play_alloc_of_ok (hact : Heap.allocate size s.heap s.ambient = ⟨.ok a, h', m'⟩) :
    play (.alloc size :: rest) left s.heap s.ambient =
      play rest ⟨left.live.push (a, size), max left.peak (s.step (.allocate size)).heap.frontier⟩
        (s.step (.allocate size)).heap (s.step (.allocate size)).ambient ∧
    calls (.alloc size :: rest) left s = .allocate size ::
      calls rest ⟨left.live.push (a, size), max left.peak (s.step (.allocate size)).heap.frontier⟩
        (s.step (.allocate size)) := by
  obtain ⟨hheap, hambient⟩ := Tenancy.step_of_call (a := .allocate size) (Act.map_of_ok hact)
  constructor
  · rw [hheap, hambient]
    refine (Act.bind_of_ok hact).trans ?_
    exact Act.bind_of_ok (x := Act.own) rfl
  · simp only [calls, hact]

theorem play_alloc_of_error
    (hact : Heap.allocate size s.heap s.ambient = ⟨.error fault, h', m'⟩) :
    play (.alloc size :: rest) left s.heap s.ambient = ⟨.error fault, h', m'⟩ ∧
      calls (.alloc size :: rest) left s = [.allocate size] := by
  constructor
  · exact Act.bind_of_error hact
  · simp only [calls, hact]

theorem play_free_of_some (hentry : left.live[index % left.live.size]? = some (a, n))
    (hact : Heap.free a s.heap s.ambient = ⟨.ok (), h', m'⟩) :
    play (.free index :: rest) left s.heap s.ambient =
      play rest ⟨swapRemove left.live (index % left.live.size), left.peak⟩
        (s.step (.free a)).heap (s.step (.free a)).ambient ∧
    calls (.free index :: rest) left s = .free a ::
      calls rest ⟨swapRemove left.live (index % left.live.size), left.peak⟩
        (s.step (.free a)) := by
  obtain ⟨hheap, hambient⟩ := Tenancy.step_of_call (a := .free a) (Act.map_of_ok hact)
  constructor
  · rw [hheap, hambient]
    simp only [play, hentry]
    exact Act.bind_of_ok hact
  · simp only [calls, hentry, hact]

theorem play_free_of_none (hentry : left.live[index % left.live.size]? = none) :
    play (.free index :: rest) left s.heap s.ambient = play rest left s.heap s.ambient ∧
      calls (.free index :: rest) left s = calls rest left s := by
  constructor
  · simp only [play, hentry]
  · simp only [calls, hentry]

end Step

end Script

/-! ### How far the frontier moves -/

/-- Serving a size moves the frontier by a header and the size at most. -/
theorem Inventory.frontier_serve_le {inv inv' : Inventory} {room size : Nat} {e : Extent}
    (hs : inv.serve room size = some (e, inv')) : inv'.frontier ≤ inv.frontier + (4 + size) := by
  cases serves_of_serve hs with
  | carved hb hn =>
      obtain ⟨-, -, -, rfl⟩ := bump_eq_some_iff.1 hb
      show inv.frontier + 4 + size ≤ _
      omega
  | whole hk hn hclass hfit hslack =>
      rw [frontier_take]
      exact Nat.le_add_right _ _
  | cut hk hn hfit hslack =>
      rw [frontier_shelve, frontier_take]
      exact Nat.le_add_right _ _

/-- The frontier moved up, by so many bytes at most, and memory has kept its size. -/
structure Tenancy.Grows (s : Tenancy) (bytes : Nat) (s' : Tenancy) : Prop where
  le : s.heap.frontier.toNat ≤ s'.heap.frontier.toNat
  bound : s'.heap.frontier.toNat ≤ s.heap.frontier.toNat + bytes
  size : s'.memory.size = s.memory.size

theorem Tenancy.Grows.trans {s s' s'' : Tenancy} {n n' : Nat} (h : s.Grows n s')
    (h' : s'.Grows n' s'') : s.Grows (n + n') s'' := by
  obtain ⟨hle, hbound, hsize⟩ := h
  obtain ⟨hle', hbound', hsize'⟩ := h'
  exact ⟨by omega, by omega, hsize'.trans hsize⟩

namespace Mirrors

variable {s : Tenancy} {p : Blueprint} {size : Word} {a : Addr} {h' : Heap} {m' : Ambient}

theorem grows_allocate (hm : Mirrors s p)
    (hact : Heap.allocate size s.heap s.ambient = ⟨.ok a, h', m'⟩) :
    s.Grows (4 + Inventory.padded size.toNat) (s.step (.allocate size)) := by
  obtain ⟨hheap, hambient⟩ := Tenancy.step_of_call (a := .allocate size) (Act.map_of_ok hact)
  obtain ⟨e, inv', hs, hnew, hsize, -⟩ := hm.describes.exists_of_allocate hact
  have hle := (Inventory.lends_of_allocate hs).1.frontier
  have hbound := Inventory.frontier_serve_le hs
  rw [← hnew.frontier, ← hm.describes.frontier] at hle hbound
  refine ⟨?_, ?_, ?_⟩
  · rwa [hheap]
  · rwa [hheap]
  · rw [Tenancy.memory, hambient]
    exact hsize

/-- A request for which there is room is served. -/
theorem exists_allocate (hm : Mirrors s p)
    (hroom : s.heap.frontier.toNat + (4 + Inventory.padded size.toNat) ≤
      min (Word.bound - 1) s.memory.size) :
    ∃ a h' m', Heap.allocate size s.heap s.ambient = ⟨.ok a, h', m'⟩ := by
  rcases hact : Heap.allocate size s.heap s.ambient with ⟨fault | a, h', m'⟩
  · -- whatever the heap offers, the wilderness could have served it
    exfalso
    have hstops := (hm.describes.faultsExactly (m := s.ambient)).request_iff size
    rw [hact] at hstops
    rcases hstops.1 ⟨fault, rfl⟩ with hlarge | ⟨-, hnone⟩
    · have hle := Inventory.request_le_padded size.toNat
      simp only [Word.bound] at hlarge hroom
      omega
    · apply hnone
      rw [Heap.HasRoom, Nat.add_assoc]
      exact hroom
  · exact ⟨a, h', m', rfl⟩

/-- What is out can be freed; that moves no frontier. -/
theorem exists_free (hm : Mirrors s p) (ha : a ∈ s.live) :
    (∃ h' m', Heap.free a s.heap s.ambient = ⟨.ok (), h', m'⟩) ∧ s.Grows 0 (s.step (.free a)) := by
  obtain ⟨e, he, hae⟩ := hm.exists_extent ha
  obtain ⟨h', m', hact, hnew, hchange, -⟩ := hm.describes.free_of_live (m := s.ambient) he hae
  obtain ⟨hheap, hambient⟩ := Tenancy.step_of_call (a := .free a) (Act.map_of_ok hact)
  have hfrontier : h'.frontier.toNat = s.heap.frontier.toNat := by
    rw [hnew.frontier, (Inventory.bounds_free a.toNat).2, hm.describes.frontier]
  refine ⟨⟨h', m', hact⟩, ?_, ?_, ?_⟩
  · rw [hheap]
    exact Nat.le_of_eq hfrontier.symm
  · rw [hheap]
    exact Nat.le_of_eq hfrontier
  · rw [Tenancy.memory, hambient]
    exact hchange.size

end Mirrors

namespace Script

/-! ### What is left is what is out -/

/-- What a script has left agrees with what is held, entry by entry, and with the frontier. -/
structure Tracks (s : Tenancy) (held : List (Addr × Nat)) (left : Remains) : Prop where
  mirrors : ∃ p, Mirrors s p
  out : held.map Prod.fst = s.live
  entries : left.entries.Perm held
  peak : left.peak = s.heap.frontier

namespace Tracks

variable {s : Tenancy} {held : List (Addr × Nat)} {left : Remains} {size : Word} {a : Addr}
  {n : Word} {i : Nat} {h' : Heap} {m' : Ambient}

/-- What the next action leaves held. -/
theorem out_step (ht : Tracks s held left) (action : Action) :
    (s.asked action ++ held.filter (·.1 ∉ s.released action)).map Prod.fst =
      (s.step action).live := by
  have hone : (s.holdings held [action]).map Prod.fst = (s.run [action]).live :=
    Tenancy.map_fst_holdings ht.out
  exact hone

theorem nodup (ht : Tracks s held left) : (held.map Prod.fst).Nodup := by
  obtain ⟨p, hm⟩ := ht.mirrors
  rw [ht.out]
  exact hm.describes.sound.nodup_of_live_perm hm.live

/-- Whatever is left is out. -/
theorem mem_live (ht : Tracks s held left) (hentry : left.live[i]? = some (a, n)) :
    a ∈ s.live := by
  rw [← ht.out]
  have hmem : (a, n) ∈ left.live.toList := by
    rw [← Array.getElem?_toList] at hentry
    exact List.mem_of_getElem? hentry
  have hheld : (a, n.toNat) ∈ held := ht.entries.mem_iff.1 (List.mem_map.2 ⟨_, hmem, rfl⟩)
  exact List.mem_map_of_mem hheld

theorem alloc (ht : Tracks s held left)
    (hact : Heap.allocate size s.heap s.ambient = ⟨.ok a, h', m'⟩) :
    Tracks (s.step (.allocate size))
      (s.asked (.allocate size) ++ held.filter (·.1 ∉ s.released (.allocate size)))
      ⟨left.live.push (a, size), max left.peak (s.step (.allocate size)).heap.frontier⟩ where
  mirrors := by
    obtain ⟨p, hm⟩ := ht.mirrors
    exact ⟨_, hm.step trivial⟩
  out := ht.out_step _
  entries := by
    have hasked : s.asked (.allocate size) = [(a, size.toNat)] := by
      simp only [Tenancy.asked, Tenancy.taken, hact]
      rfl
    have hkept : held.filter (·.1 ∉ s.released (.allocate size)) = held := by
      apply List.filter_eq_self.2
      intro x _
      exact decide_eq_true List.not_mem_nil
    rw [hasked, hkept]
    simp only [Remains.entries, Array.toList_push, List.map_append, List.map_cons, List.map_nil]
    exact List.perm_append_comm.trans (ht.entries.cons _)
  peak := by
    obtain ⟨p, hm⟩ := ht.mirrors
    have hle := (hm.grows_allocate hact).le
    show max left.peak _ = _
    rw [ht.peak]
    exact if_pos (UInt32.le_iff_toNat_le.2 hle)

theorem free (ht : Tracks s held left) (hentry : left.live[i]? = some (a, n)) :
    Tracks (s.step (.free a)) (s.asked (.free a) ++ held.filter (·.1 ∉ s.released (.free a)))
      ⟨swapRemove left.live i, left.peak⟩ where
  mirrors := by
    obtain ⟨p, hm⟩ := ht.mirrors
    exact ⟨_, hm.step (ht.mem_live hentry)⟩
  out := ht.out_step _
  entries := by
    obtain ⟨hi, hget⟩ := Array.getElem?_eq_some_iff.1 hentry
    have hremoved := (cons_swapRemove_perm hi).map fun x => (x.1, x.2.toNat)
    rw [hget, List.map_cons] at hremoved
    have hheld := (hremoved.trans ht.entries).symm
    -- no other entry names the address that goes
    have hkeys := (hheld.map Prod.fst).nodup_iff.1 ht.nodup
    rw [List.map_cons, List.nodup_cons] at hkeys
    have hrest : ∀ x ∈ (swapRemove left.live i).toList.map fun x => (x.1, x.2.toNat),
        decide (x.1 ∉ [a]) = true := by
      intro x hx
      rw [decide_eq_true_eq, List.mem_singleton]
      intro hxa
      have hkey := List.mem_map_of_mem (f := Prod.fst) hx
      rw [hxa] at hkey
      exact hkeys.1 hkey
    show ((swapRemove left.live i).toList.map fun x => (x.1, x.2.toNat)).Perm
      (held.filter fun x => decide (x.1 ∉ [a]))
    refine List.Perm.trans ?_ (hheld.symm.filter _)
    rw [List.filter_cons, if_neg (by simp), List.filter_eq_self.2 hrest]
  peak := by
    obtain ⟨p, hm⟩ := ht.mirrors
    obtain ⟨-, hgrows⟩ := hm.exists_free (ht.mem_live hentry)
    have hsame := Nat.le_antisymm hgrows.le hgrows.bound
    exact ht.peak.trans (UInt32.toNat_inj.1 hsame)

end Tracks

/-! ### A script, played -/

/-- What playing a script comes to, from a state that tracks what is left. -/
structure Plays (script : Script) (s : Tenancy) (held : List (Addr × Nat)) (left : Remains) :
    Prop where
  lawful : s.Lawful (script.calls left s)
  own : (script.play left s.heap s.ambient).own = (s.run (script.calls left s)).heap
  ambient : (script.play left s.heap s.ambient).ambient = (s.run (script.calls left s)).ambient
  tracks : ∀ left', (script.play left s.heap s.ambient).result = .ok left' →
    Tracks (s.run (script.calls left s)) (s.holdings held (script.calls left s)) left'
  count : ∀ left', (script.play left s.heap s.ambient).result = .ok left' →
    left'.live.size + script.releases left.live.size =
      left.live.size + script.countP Step.isAlloc
  grows : s.Grows script.demand (s.run (script.calls left s))
  returns : s.heap.frontier.toNat + script.demand ≤ min (Word.bound - 1) s.memory.size →
    ∃ left', (script.play left s.heap s.ambient).result = .ok left'

section Play

variable {s : Tenancy} {held : List (Addr × Nat)} {left left₁ : Remains} {step : Step}
  {rest : Script} {a : Action}

theorem plays_nil (ht : Tracks s held left) : Plays [] s held left where
  lawful := trivial
  own := rfl
  ambient := rfl
  tracks := by
    rintro left' ⟨⟩
    exact ht
  count := by
    rintro left' ⟨⟩
    rfl
  grows := ⟨Nat.le_refl _, Nat.le_refl _, rfl⟩
  returns := fun _ => ⟨left, rfl⟩

/-- A call that returns, and then the rest of the script. -/
theorem Plays.cons
    (hplay : play (step :: rest) left s.heap s.ambient =
        play rest left₁ (s.step a).heap (s.step a).ambient ∧
      calls (step :: rest) left s = a :: calls rest left₁ (s.step a))
    (ha : s.Allows a) (hgrows : s.Grows step.bytes (s.step a))
    (hcount : ∀ n, n + rest.releases left₁.live.size =
        left₁.live.size + rest.countP Step.isAlloc →
      n + releases left.live.size (step :: rest) =
        left.live.size + (step :: rest).countP Step.isAlloc)
    (hrest : Plays rest (s.step a) (s.asked a ++ held.filter (·.1 ∉ s.released a)) left₁) :
    Plays (step :: rest) s held left := by
  obtain ⟨hplay, hcalls⟩ := hplay
  have hrun : s.run (a :: calls rest left₁ (s.step a)) =
      (s.step a).run (calls rest left₁ (s.step a)) := rfl
  have hdemand : demand (step :: rest) = step.bytes + demand rest := List.sum_cons
  constructor
  · rw [hcalls]
    exact ⟨ha, hrest.lawful⟩
  · rw [hplay, hcalls, hrun]
    exact hrest.own
  · rw [hplay, hcalls, hrun]
    exact hrest.ambient
  · rw [hplay, hcalls, hrun]
    exact hrest.tracks
  · rw [hplay]
    exact fun left' hleft => hcount _ (hrest.count left' hleft)
  · rw [hcalls, hrun, hdemand]
    exact hgrows.trans hrest.grows
  · rw [hplay, hdemand]
    intro hroom
    have hbound := hgrows.bound
    apply hrest.returns
    rw [hgrows.size]
    omega

/-- A script whose first request faults ends there. -/
theorem plays_of_fault {size : Word} {fault : Fault} {h' : Heap} {m' : Ambient}
    (ht : Tracks s held left)
    (hact : Heap.allocate size s.heap s.ambient = ⟨.error fault, h', m'⟩) :
    Plays (.alloc size :: rest) s held left := by
  obtain ⟨p, hm⟩ := ht.mirrors
  obtain ⟨hplay, hcalls⟩ := play_alloc_of_error rest left hact
  obtain ⟨hheap, hambient⟩ := Tenancy.step_of_call (a := .allocate size) (Act.bind_of_error hact)
  have hrun : s.run [.allocate size] = s.step (.allocate size) := rfl
  have hstops := hm.describes.allocate_stops (m := s.ambient) (congrArg Outcome.result hact)
  rw [hact] at hstops
  have hown : (s.step (.allocate size)).heap = s.heap := hheap.trans hstops.own
  constructor
  · rw [hcalls]
    exact ⟨trivial, trivial⟩
  · rw [hplay, hcalls, hrun, hheap]
  · rw [hplay, hcalls, hrun, hambient]
  · rw [hplay]
    rintro left' ⟨⟩
  · rw [hplay]
    rintro left' ⟨⟩
  · rw [hcalls, hrun]
    refine ⟨?_, ?_, ?_⟩
    · exact Nat.le_of_eq (congrArg (fun h => h.frontier.toNat) hown.symm)
    · exact Nat.le_trans (Nat.le_of_eq (congrArg (fun h => h.frontier.toNat) hown))
        (Nat.le_add_right _ _)
    · rw [Tenancy.memory, hambient]
      exact congrArg Memory.size hstops.memory
  · intro hroom
    have hdemand : demand (.alloc size :: rest) =
        (4 + Inventory.padded size.toNat) + demand rest := List.sum_cons
    obtain ⟨a, h'', m'', hserved⟩ : ∃ a h'' m'',
        Heap.allocate size s.heap s.ambient = ⟨.ok a, h'', m''⟩ := hm.exists_allocate (by omega)
    rw [hact] at hserved
    cases hserved

/-- A free that meets nothing live is passed over. -/
theorem Plays.skip {index : Nat} (hentry : left.live[index % left.live.size]? = none)
    (hrest : Plays rest s held left) : Plays (.free index :: rest) s held left := by
  obtain ⟨hplay, hcalls⟩ := play_free_of_none (s := s) rest left hentry
  have hdemand : demand (.free index :: rest) = demand rest := by
    simp only [demand, List.map_cons, List.sum_cons, Step.bytes, Nat.zero_add]
  have hempty : left.live.size = 0 := by
    refine Nat.eq_zero_of_not_pos fun hpos => ?_
    rw [Array.getElem?_eq_getElem (Nat.mod_lt index hpos)] at hentry
    cases hentry
  constructor
  · rw [hcalls]
    exact hrest.lawful
  · rw [hplay, hcalls]
    exact hrest.own
  · rw [hplay, hcalls]
    exact hrest.ambient
  · rw [hplay, hcalls]
    exact hrest.tracks
  · rw [hplay]
    intro left' hleft
    have hcount := hrest.count left' hleft
    rw [hempty] at hcount ⊢
    simpa only [releases, List.countP_cons, Step.isAlloc, Bool.false_eq_true, if_false,
      Nat.add_zero] using hcount
  · rw [hcalls, hdemand]
    exact hrest.grows
  · rw [hplay, hdemand]
    exact hrest.returns

/-- Playing a script keeps track of what is left, whatever the script asks for. -/
theorem Tracks.plays (ht : Tracks s held left) (script : Script) : Plays script s held left := by
  induction script generalizing s held left with
  | nil => exact plays_nil ht
  | cons step rest ih =>
      obtain ⟨p, hm⟩ := ht.mirrors
      cases step with
      | alloc size =>
          rcases hact : Heap.allocate size s.heap s.ambient with ⟨fault | a, h', m'⟩
          · exact plays_of_fault ht hact
          · refine Plays.cons (play_alloc_of_ok rest left hact) trivial (hm.grows_allocate hact) ?_
              (ih (ht.alloc hact))
            intro n hn
            simp only [Array.size_push, releases, List.countP_cons, Step.isAlloc, if_true] at hn ⊢
            omega
      | free index =>
          rcases hentry : left.live[index % left.live.size]? with _ | ⟨a, n⟩
          · exact (ih ht).skip hentry
          · obtain ⟨⟨h', m', hact⟩, hgrows⟩ := hm.exists_free (ht.mem_live hentry)
            refine Plays.cons (play_free_of_some rest left hentry hact) (ht.mem_live hentry)
              hgrows ?_ (ih (ht.free hentry))
            intro n hn
            obtain ⟨hlt, -⟩ := Array.getElem?_eq_some_iff.1 hentry
            rw [size_swapRemove, if_pos hlt] at hn
            rw [releases_free_of_pos (by omega), List.countP_cons_of_neg (by simp [Step.isAlloc])]
            omega

end Play

/-! ### Profiles -/

theorem size_drawAfter (n : Nat) (state : UInt64) (sizes : Array Word) :
    (drawAfter n state sizes).size = sizes.size + n := by
  induction n generalizing state sizes with
  | zero => rfl
  | succ n ih =>
      rw [drawAfter, ih, Array.size_push]
      omega

theorem toNat_le_of_mem_drawAfter {n : Nat} {state : UInt64} {sizes : Array Word} {size : Word}
    (h : size ∈ drawAfter n state sizes) : size ∈ sizes ∨ size.toNat ≤ 512 := by
  induction n generalizing state sizes with
  | zero => exact Or.inl h
  | succ n ih =>
      rcases ih h with hpushed | hsmall
      · rcases Array.mem_push.1 hpushed with hold | rfl
        · exact Or.inl hold
        · exact Or.inr (sizeOfState_bounds _).2
      · exact Or.inr hsmall

theorem demand_le {script : Script} {bound : Nat} (h : ∀ step ∈ script, step.bytes ≤ bound) :
    script.demand ≤ script.length * bound := by
  induction script with
  | nil => exact Nat.zero_le _
  | cons step rest ih =>
      have hrest := ih fun step hstep => h step (List.mem_cons_of_mem _ hstep)
      have hstep := h step List.mem_cons_self
      simp only [demand, List.map_cons, List.sum_cons, List.length_cons, Nat.succ_mul] at hrest ⊢
      omega

/-- A profile asks for 516 bytes at each step at most, headers included. -/
theorem demand_profile_le (n : Nat) (seed : UInt64) : (profile n seed).demand ≤ n * 516 := by
  have hcount : (profile n seed).length = n := by
    simp only [profile, List.length_map, List.length_zipIdx, drawSizes, Array.length_toList,
      size_drawAfter, List.size_toArray, List.length_nil, Nat.zero_add]
  have hstep : ∀ step ∈ profile n seed, step.bytes ≤ 516 := by
    intro step hstep
    obtain ⟨⟨size, i⟩, hdrawn, rfl⟩ := List.mem_map.1 hstep
    have hsize : size ∈ drawAfter n seed #[] :=
      Array.mem_toList_iff.1 (List.fst_mem_of_mem_zipIdx hdrawn)
    have hsmall : size.toNat ≤ 512 :=
      (toNat_le_of_mem_drawAfter hsize).resolve_left (Array.not_mem_empty size)
    by_cases hi : i % 3 = 2
    · simp only [profileStep, if_pos hi, Step.bytes]
      exact Nat.zero_le 516
    · simp only [profileStep, if_neg hi, Step.bytes, Inventory.padded]
      omega
  have hle := demand_le hstep
  rwa [hcount] at hle

/-! ### Every script -/

/-- What a script is sure of on a heap with nothing in it. -/
structure WellBehaved (script : Script) (h : Heap) (m : Ambient) : Prop where
  /-- Each call is allowed when it is made: what is freed is out at that moment. -/
  lawful : (Tenancy.opened h m).Lawful (script.calls ⟨#[], h.frontier⟩ (.opened h m))
  /-- The calls are all that the script does. -/
  own : (script.run h m).own =
    ((Tenancy.opened h m).run (script.calls ⟨#[], h.frontier⟩ (.opened h m))).heap
  ambient : (script.run h m).ambient =
    ((Tenancy.opened h m).run (script.calls ⟨#[], h.frontier⟩ (.opened h m))).ambient
  /-- What is left at the end is what is out, with the sizes it was asked for, and each of its
      addresses is left once. -/
  held : ∀ left, (script.run h m).result = .ok left →
    left.entries.Perm ((Tenancy.opened h m).holdings []
      (script.calls ⟨#[], h.frontier⟩ (.opened h m)))
  live : ∀ left, (script.run h m).result = .ok left →
    ∃ tiles chains, (script.run h m).own.WellFormed (script.run h m).ambient.memory
      (left.live.toList.map Prod.fst) tiles chains
  count : ∀ left, (script.run h m).result = .ok left →
    left.live.size + script.releases 0 = script.countP Step.isAlloc
  peak : ∀ left, (script.run h m).result = .ok left → left.peak = (script.run h m).own.frontier
  growth : (script.run h m).own.frontier.toNat ≤ h.start.toNat + script.demand
  returns : h.start.toNat + script.demand ≤ m.memory.size →
    h.start.toNat + script.demand < Word.bound → ∃ left, (script.run h m).result = .ok left

theorem Tracks.opened {h : Heap} {m : Ambient} (hempty : h = Heap.empty h.start)
    (haligned : h.start.toNat % 4 = 0) : Tracks (.opened h m) [] ⟨#[], h.frontier⟩ where
  mirrors := ⟨_, .opened hempty haligned⟩
  out := rfl
  entries := List.Perm.refl []
  peak := rfl

/-- The addresses that are left are those that are out, so the heap is well-formed with them. -/
theorem Tracks.exists_wellFormed {s : Tenancy} {held : List (Addr × Nat)} {left : Remains}
    (ht : Tracks s held left) :
    ∃ tiles chains, s.heap.WellFormed s.memory (left.live.toList.map Prod.fst) tiles chains := by
  obtain ⟨p, hm⟩ := ht.mirrors
  obtain ⟨tiles, chains, hw⟩ := hm.exists_wellFormed
  have hperm : (left.live.toList.map Prod.fst).Perm s.live := by
    have hkeys := ht.entries.map Prod.fst
    rw [ht.out, Remains.entries, List.map_map] at hkeys
    exact hkeys
  exact ⟨tiles, chains, hw.of_mem_iff (hperm.nodup_iff.2 hw.nodup) fun a => hperm.mem_iff⟩

theorem wellBehaved_of_tracks {script : Script} {h : Heap} {m : Ambient}
    (hstart : h.frontier = h.start) (ht : Tracks (.opened h m) [] ⟨#[], h.frontier⟩) :
    script.WellBehaved h m := by
  have hp := ht.plays script
  have hrun : script.run h m = script.play ⟨#[], h.frontier⟩ h m :=
    Act.bind_of_ok (x := Act.own) rfl
  have hbound := hp.grows.bound
  refine ⟨hp.lawful, ?_, ?_, ?_, ?_, ?_, ?_, ?_, ?_⟩ <;> rw [hrun]
  · exact hp.own
  · exact hp.ambient
  · exact fun left hleft => (hp.tracks left hleft).entries
  · intro left hleft
    have hw := (hp.tracks left hleft).exists_wellFormed
    rw [← hp.own, Tenancy.memory, ← hp.ambient] at hw
    exact hw
  · intro left hleft
    have hcount : left.live.size + script.releases 0 = 0 + script.countP Step.isAlloc :=
      hp.count left hleft
    rwa [Nat.zero_add] at hcount
  · intro left hleft
    exact (hp.tracks left hleft).peak.trans (congrArg Heap.frontier hp.own.symm)
  · rw [← hp.own] at hbound
    rw [← hstart]
    exact hbound
  · intro hmemory hspace
    apply hp.returns
    show h.frontier.toNat + _ ≤ min (Word.bound - 1) m.memory.size
    rw [hstart]
    omega

/-- On a new heap every script is well behaved, whatever its sizes and indices; and on a heap that
    starts at zero, in ample memory, the short profile of every seed comes to its end. -/
theorem scripts_well_behaved {requested : Addr} {m m' : Ambient} {h : Heap}
    (hc : Heap.create requested () m = ⟨.ok (.ok h), (), m'⟩) :
    (∀ script : Script, script.WellBehaved h m') ∧
      (requested = 0 → ampleMemory ≤ m.memory.size → ∀ seed, ∃ left,
        ((shortProfile seed).run h m').result = .ok left ∧ left.peak.toNat ≤ ampleMemory) := by
  obtain ⟨hempty, haligned, hmemory⟩ := Heap.create_eq_ok hc
  have hstart : h.frontier = h.start := by
    rw [hempty]
    rfl
  have hall : ∀ script : Script, script.WellBehaved h m' := fun script =>
    wellBehaved_of_tracks hstart (.opened hempty haligned)
  refine ⟨hall, ?_⟩
  rintro rfl hample seed
  have hzero : h.start.toNat = 0 := by
    cases hc
    rfl
  have hdemand : (shortProfile seed).demand ≤ 10000 * 516 := demand_profile_le 10000 seed
  have hprofile := hall (shortProfile seed)
  have hfits : 10000 * 516 ≤ ampleMemory := by decide
  have hspace : 10000 * 516 < Word.bound := by decide
  obtain ⟨left, hleft⟩ := hprofile.returns (by rw [hmemory]; omega) (by omega)
  have hgrowth := hprofile.growth
  refine ⟨left, hleft, ?_⟩
  rw [hprofile.peak left hleft]
  omega

/-- Frees with nothing live, frees out of order, and blocks of both kinds that are used again. -/
theorem scripts_well_behaved_of_mixed_script :
    let m : Ambient := { memory := .zeros ampleMemory, journal := #[.heapCreated 0 0] }
    let script : Script := [.free 3, .alloc 60, .alloc 5, .free 4, .alloc 16, .alloc 0, .free 8]
    script.WellBehaved (.empty 0) m ∧ script.releases 0 = 2 ∧ script.demand = 104 ∧
      ∃ left, ((shortProfile 42).run (.empty 0) m).result = .ok left ∧
        left.peak.toNat ≤ ampleMemory := by
  intro m script
  have hcreate : Heap.create 0 () { memory := .zeros ampleMemory } =
      ⟨.ok (.ok (.empty 0)), (), m⟩ := rfl
  obtain ⟨hscripts, hprofiles⟩ := scripts_well_behaved hcreate
  have hsize : (Memory.zeros ampleMemory).size = ampleMemory := Array.size_replicate
  exact ⟨hscripts script, by decide, by decide, hprofiles rfl (Nat.le_of_eq hsize.symm) 42⟩

end Script

end LinearHeap
