/-
  LinearHeap/Proofs/Histories.lean
  ================================
  **A ledger knows what became of an address.**  Whatever was entered and struck,
  in any order, with repeats, and with strikes of what was not there: an address
  is out if the last thing told about it was its entry, gone if it was struck
  since, and new otherwise.  A ledger is two collections, and vetting tells the
  three apart by looking into both.

  What one entry or one strike does to the standing of an address
  (`out_concat_iff`, `gone_concat_iff`, `never_concat_iff`) is what it does to the
  ledger (`Keeps.move`).
-/
import LinearHeap.Proofs.Ledgers
import Mathlib.Data.List.Induction

namespace LinearHeap

namespace Ledger

/-! ### Histories -/

/-- What a ledger is told. -/
inductive Move where
  | enter (a : Addr) (size : Word)
  | strike (a : Addr)
  deriving DecidableEq, Repr

/-- The address that it is told about. -/
def Move.addr : Move → Addr
  | .enter a _ => a
  | .strike a => a

def move (l : Ledger) : Move → Ledger
  | .enter a size => l.enter a size
  | .strike a => l.strike a

/-- The ledger that was told this, beginning with an empty one. -/
def ofMoves (ms : List Move) : Ledger := ms.foldl move {}

theorem ofMoves_concat (ms : List Move) (x : Move) : ofMoves (ms ++ [x]) = (ofMoves ms).move x := by
  rw [ofMoves, List.foldl_append]
  rfl

variable {ms : List Move} {x : Move} {a b : Addr} {size : Word}

/-- The last that was told about the address is its entry, with this size. -/
def Out (ms : List Move) (a : Addr) (size : Word) : Prop :=
  ∃ before after, ms = before ++ .enter a size :: after ∧ ∀ y ∈ after, y.addr ≠ a

/-- The address was struck when it was out, and has not been entered since. -/
def Gone (ms : List Move) (a : Addr) : Prop :=
  ∃ before after, ms = before ++ .strike a :: after ∧
    (∃ size, Out before a size) ∧ ∀ size, .enter a size ∉ after

/-- The address was never entered. -/
def Never (ms : List Move) (a : Addr) : Prop := ∀ size, .enter a size ∉ ms

/-! ### What one more move does to the standing of an address -/

/-- A member of a list with one more at its end is the last, or lies before it. -/
theorem exists_concat_iff {α : Type} {xs : List α} {x y : α} {P : List α → List α → Prop} :
    (∃ before after, xs ++ [x] = before ++ y :: after ∧ P before after) ↔
      (x = y ∧ P xs []) ∨ ∃ before after, xs = before ++ y :: after ∧ P before (after ++ [x]) := by
  constructor
  · rintro ⟨before, after, h, hp⟩
    rcases List.eq_nil_or_concat after with rfl | ⟨rest, z, rfl⟩
    · obtain ⟨rfl, hxy⟩ := List.append_inj' h rfl
      exact Or.inl ⟨List.singleton_inj.1 hxy, hp⟩
    · have hsplit : xs ++ [x] = (before ++ y :: rest) ++ [z] := by
        rw [h, List.concat_eq_append, List.append_assoc, List.cons_append]
      obtain ⟨rfl, hxz⟩ := List.append_inj' hsplit rfl
      obtain rfl := List.singleton_inj.1 hxz
      exact Or.inr ⟨before, rest, rfl, by rwa [List.concat_eq_append] at hp⟩
  · rintro (⟨rfl, hp⟩ | ⟨before, after, rfl, hp⟩)
    · exact ⟨xs, [], rfl, hp⟩
    · exact ⟨before, after ++ [x], by rw [List.append_assoc, List.cons_append], hp⟩

theorem out_concat_iff :
    Out (ms ++ [x]) a size ↔ x = .enter a size ∨ x.addr ≠ a ∧ Out ms a size := by
  unfold Out
  rw [exists_concat_iff]
  constructor
  · rintro (⟨hx, -⟩ | ⟨before, after, hms, hafter⟩)
    · exact Or.inl hx
    · have hlast := hafter x (List.mem_append_right _ (List.mem_singleton_self x))
      exact Or.inr ⟨hlast, before, after, hms, fun y hy => hafter y (List.mem_append_left _ hy)⟩
  · rintro (hx | ⟨hlast, before, after, hms, hafter⟩)
    · exact Or.inl ⟨hx, fun y hy => absurd hy List.not_mem_nil⟩
    · refine Or.inr ⟨before, after, hms, fun y hy => ?_⟩
      rcases List.mem_append.1 hy with hy | hy
      · exact hafter y hy
      · exact List.mem_singleton.1 hy ▸ hlast

theorem gone_concat_iff :
    Gone (ms ++ [x]) a ↔
      (x = .strike a ∧ ∃ size, Out ms a size) ∨ (∀ size, x ≠ .enter a size) ∧ Gone ms a := by
  unfold Gone
  rw [exists_concat_iff]
  constructor
  · rintro (⟨hx, hout, -⟩ | ⟨before, after, hms, hout, hafter⟩)
    · exact Or.inl ⟨hx, hout⟩
    · simp only [List.mem_append, List.mem_singleton, not_or] at hafter
      exact Or.inr ⟨fun n => Ne.symm (hafter n).2, before, after, hms, hout, fun n => (hafter n).1⟩
  · rintro (⟨hx, hout⟩ | ⟨hx, before, after, hms, hout, hafter⟩)
    · exact Or.inl ⟨hx, hout, fun _ => List.not_mem_nil⟩
    · refine Or.inr ⟨before, after, hms, hout, fun n => ?_⟩
      rw [List.mem_append, List.mem_singleton, not_or]
      exact ⟨hafter n, Ne.symm (hx n)⟩

theorem never_concat_iff :
    Never (ms ++ [x]) a ↔ (∀ size, x ≠ .enter a size) ∧ Never ms a := by
  simp only [Never, List.mem_append, List.mem_singleton, not_or, ne_eq, forall_and, eq_comm,
    and_comm]

/-- An address has one standing. -/
inductive Standing (ms : List Move) (a : Addr) : Prop where
  | out (size : Word) (hout : Out ms a size) (honly : ∀ n, Out ms a n → n = size)
      (hgone : ¬ Gone ms a) (hnever : ¬ Never ms a)
  | gone (hout : ∀ n, ¬ Out ms a n) (hgone : Gone ms a) (hnever : ¬ Never ms a)
  | never (hout : ∀ n, ¬ Out ms a n) (hgone : ¬ Gone ms a) (hnever : Never ms a)

/-- What is told about another address changes nothing. -/
theorem Standing.concat_of_ne (h : Standing ms a) (hne : x.addr ≠ a) : Standing (ms ++ [x]) a := by
  have hout (n : Word) : Out (ms ++ [x]) a n ↔ Out ms a n := by
    rw [out_concat_iff]
    refine ⟨fun hx => hx.elim ?_ And.right, fun hx => Or.inr ⟨hne, hx⟩⟩
    rintro rfl
    exact absurd rfl hne
  have henter (n : Word) : x ≠ .enter a n := by
    rintro rfl
    exact hne rfl
  have hgone : Gone (ms ++ [x]) a ↔ Gone ms a := by
    rw [gone_concat_iff]
    refine ⟨fun hx => hx.elim ?_ And.right, fun hx => Or.inr ⟨henter, hx⟩⟩
    rintro ⟨rfl, -⟩
    exact absurd rfl hne
  have hnever : Never (ms ++ [x]) a ↔ Never ms a := by
    rw [never_concat_iff]
    exact and_iff_right henter
  cases h with
  | out size h honly hg hn =>
      refine .out size ((hout size).2 h) (fun n hx => honly n ((hout n).1 hx)) ?_ ?_
      · rwa [hgone]
      · rwa [hnever]
  | gone h hg hn => exact .gone (fun n => (hout n).not.2 (h n)) (hgone.2 hg) (hnever.not.2 hn)
  | never h hg hn => exact .never (fun n => (hout n).not.2 (h n)) (hgone.not.2 hg) (hnever.2 hn)

/-- An entry makes the address out, whatever it was. -/
theorem standing_enter : Standing (ms ++ [.enter a size]) a := by
  refine .out size (out_concat_iff.2 (Or.inl rfl)) ?_ ?_ ?_
  · intro n hn
    obtain heq | ⟨hne, -⟩ := out_concat_iff.1 hn
    · injection heq with _ hsize
      exact hsize.symm
    · exact absurd rfl hne
  · intro hg
    obtain ⟨heq, -⟩ | ⟨hne, -⟩ := gone_concat_iff.1 hg
    · cases heq
    · exact hne size rfl
  · exact fun hn => (never_concat_iff.1 hn).1 size rfl

/-- A strike makes what was out gone, and leaves the rest. -/
theorem Standing.strike (h : Standing ms a) : Standing (ms ++ [.strike a]) a := by
  have hout (n : Word) : ¬ Out (ms ++ [.strike a]) a n := by
    intro hn
    obtain heq | ⟨hne, -⟩ := out_concat_iff.1 hn
    · cases heq
    · exact hne rfl
  have henter (n : Word) : Move.strike a ≠ .enter a n := Move.noConfusion
  cases h with
  | out size h _ _ hn =>
      refine .gone hout (gone_concat_iff.2 (Or.inl ⟨rfl, size, h⟩)) ?_
      rw [never_concat_iff]
      exact fun hx => hn hx.2
  | gone h hg hn =>
      refine .gone hout (gone_concat_iff.2 (Or.inr ⟨henter, hg⟩)) ?_
      rw [never_concat_iff]
      exact fun hx => hn hx.2
  | never h hg hn =>
      refine .never hout ?_ (never_concat_iff.2 ⟨henter, hn⟩)
      rintro hx
      obtain ⟨-, n, hx⟩ | ⟨-, hx⟩ := gone_concat_iff.1 hx
      · exact h n hx
      · exact hg hx

theorem not_out_nil (a : Addr) (size : Word) : ¬ Out [] a size := by
  rintro ⟨before, after, h, -⟩
  exact absurd h.symm (List.append_ne_nil_of_right_ne_nil _ (List.cons_ne_nil _ _))

theorem not_gone_nil (a : Addr) : ¬ Gone [] a := by
  rintro ⟨before, after, h, -⟩
  exact absurd h.symm (List.append_ne_nil_of_right_ne_nil _ (List.cons_ne_nil _ _))

theorem standing (ms : List Move) (a : Addr) : Standing ms a := by
  induction ms using List.reverseRecOn with
  | nil => exact .never (not_out_nil a) (not_gone_nil a) fun _ => List.not_mem_nil
  | append_singleton ms x ih =>
      by_cases hne : x.addr = a
      · subst hne
        cases x with
        | enter b size => exact standing_enter
        | strike b => exact ih.strike
      · exact ih.concat_of_ne hne

/-! ### What one more move does to the ledger -/

/-- The ledger keeps what it was told: who is out, and who is gone. -/
structure Keeps (l : Ledger) (ms : List Move) : Prop where
  once : l.keys.Nodup
  live : ∀ a size, (a, size) ∈ l.live.toList ↔ Out ms a size
  freed : ∀ a, a ∈ l.freed ↔ Gone ms a

namespace Keeps

variable {l : Ledger}

theorem size?_of_out (h : l.Keeps ms) (hout : Out ms a size) : l.size? a = some size :=
  size?_of_mem h.once ((h.live a size).2 hout)

theorem size?_eq_none (h : l.Keeps ms) (hout : ∀ n, ¬ Out ms a n) : l.size? a = none := by
  cases hs : l.size? a with
  | none => rfl
  | some n =>
      have hmem := Array.mem_toList_iff.2 (exists_mem_of_size? hs)
      exact absurd ((h.live a n).1 hmem) (hout n)

theorem mem_keys_iff (h : l.Keeps ms) : a ∈ l.keys ↔ ∃ n, Out ms a n := by
  simp only [keys, List.mem_map, Prod.exists, h.live]
  constructor
  · rintro ⟨b, n, hout, rfl⟩
    exact ⟨n, hout⟩
  · rintro ⟨n, hout⟩
    exact ⟨a, n, hout, rfl⟩

theorem empty : ({} : Ledger).Keeps [] where
  once := List.nodup_nil
  live := fun a size => iff_of_false List.not_mem_nil (not_out_nil a size)
  freed := fun a => iff_of_false List.not_mem_nil (not_gone_nil a)

theorem enter (h : l.Keeps ms) (a : Addr) (size : Word) :
    (l.enter a size).Keeps (ms ++ [.enter a size]) where
  once := nodup_keys_enter h.once
  live := by
    intro b n
    rw [mem_enter_iff h.once, h.live, out_concat_iff]
    constructor
    · rintro (heq | ⟨hout, hne⟩)
      · cases heq
        exact Or.inl rfl
      · exact Or.inr ⟨Ne.symm hne, hout⟩
    · rintro (heq | ⟨hne, hout⟩)
      · cases heq
        exact Or.inl rfl
      · exact Or.inr ⟨hout, Ne.symm hne⟩
  freed := by
    intro b
    have hother : (∀ n, Move.enter a size ≠ .enter b n) ↔ b ≠ a := by
      constructor
      · rintro hne rfl
        exact hne size rfl
      · rintro hne n heq
        cases heq
        exact hne rfl
    simp only [mem_freed_enter_iff, gone_concat_iff, h.freed, hother, reduceCtorEq, false_and,
      false_or, and_comm]

theorem strike (h : l.Keeps ms) (a : Addr) : (l.strike a).Keeps (ms ++ [.strike a]) where
  once := nodup_keys_strike h.once
  live := by
    intro b n
    rw [mem_strike_iff h.once, h.live, out_concat_iff]
    constructor
    · rintro ⟨hout, hne⟩
      exact Or.inr ⟨Ne.symm hne, hout⟩
    · rintro (heq | ⟨hne, hout⟩)
      · cases heq
      · exact ⟨hout, Ne.symm hne⟩
  freed := by
    intro b
    rw [mem_freed_strike_iff, h.freed, h.mem_keys_iff, gone_concat_iff]
    constructor
    · rintro (⟨rfl, hout⟩ | hgone)
      · exact Or.inl ⟨rfl, hout⟩
      · exact Or.inr ⟨fun _ => Move.noConfusion, hgone⟩
    · rintro (⟨heq, hout⟩ | ⟨-, hgone⟩)
      · cases heq
        exact Or.inl ⟨rfl, hout⟩
      · exact Or.inr hgone

theorem move (h : l.Keeps ms) (x : Move) : (l.move x).Keeps (ms ++ [x]) := by
  cases x with
  | enter a size => exact h.enter a size
  | strike a => exact h.strike a

/-- What is not out, a strike leaves as it is. -/
theorem strike_eq_self (h : l.Keeps ms) (hout : ∀ n, ¬ Out ms a n) : l.strike a = l := by
  apply strike_of_position?_eq_none
  rw [position?_eq_none_iff, h.mem_keys_iff]
  exact fun ⟨n, hn⟩ => hout n hn

end Keeps

theorem keeps_ofMoves (ms : List Move) : (ofMoves ms).Keeps ms := by
  induction ms using List.reverseRecOn with
  | nil => exact .empty
  | append_singleton ms x ih =>
      rw [ofMoves_concat]
      exact ih.move x

/-! ### Vetting by history -/

theorem vet_of_not_holds {l : Ledger} {h : Heap} {declared : Option Word} (hh : h.holds a = false) :
    l.vet h a declared = .error (.outsideHeap a h.start h.frontier) := by
  rw [vet, hh]
  rfl

namespace Keeps

variable {l : Ledger} {h : Heap}

theorem vet_of_out (hk : l.Keeps ms) (hh : h.holds a = true) (hout : Out ms a size)
    (declared : Option Word) :
    l.vet h a declared =
      match declared with
      | some d => if size < d then .error (.sizeMismatch a d size) else .ok size
      | none => .ok size := by
  rw [vet, hh, hk.size?_of_out hout]
  rfl

theorem vet_of_gone (hk : l.Keeps ms) (hh : h.holds a = true) (hgone : Gone ms a)
    (declared : Option Word) : l.vet h a declared = .error (.doubleFree a) := by
  have hsize : l.size? a = none := by
    apply hk.size?_eq_none
    cases standing ms a with
    | out _ _ _ hnot _ => exact absurd hgone hnot
    | gone hout _ _ => exact hout
    | never hout _ _ => exact hout
  have hfreed : l.freed.contains a = true := List.contains_iff_mem.2 ((hk.freed a).2 hgone)
  rw [vet, hh, hsize, hfreed]
  rfl

theorem vet_of_never (hk : l.Keeps ms) (hh : h.holds a = true) (hnever : Never ms a)
    (declared : Option Word) : l.vet h a declared = .error (.unknownAddress a) := by
  cases standing ms a with
  | out _ _ _ _ hnot => exact absurd hnever hnot
  | gone _ _ hnot => exact absurd hnever hnot
  | never hout hgone _ =>
      have hfreed : l.freed.contains a = false := by
        rw [List.contains_eq_mem, decide_eq_false_iff_not, hk.freed]
        exact hgone
      rw [vet, hh, hk.size?_eq_none hout, hfreed]
      rfl

end Keeps

/-- What a ledger answers, and what it lists and counts, in terms of what it was told. -/
structure Recalls (l : Ledger) (ms : List Move) : Prop where
  outside_iff : ∀ h a declared,
    (∃ b start frontier, l.vet h a declared = .error (.outsideHeap b start frontier)) ↔
      h.holds a = false
  outside : ∀ h a declared, h.holds a = false →
    l.vet h a declared = .error (.outsideHeap a h.start h.frontier)
  /-- An address has one standing, and it decides the rest. -/
  standing : ∀ a, Standing ms a
  out : ∀ h a size declared, h.holds a = true → Out ms a size →
    l.vet h a declared =
      match declared with
      | some d => if size < d then .error (.sizeMismatch a d size) else .ok size
      | none => .ok size
  gone : ∀ h a declared, h.holds a = true → Gone ms a →
    l.vet h a declared = .error (.doubleFree a)
  never : ∀ h a declared, h.holds a = true → Never ms a →
    l.vet h a declared = .error (.unknownAddress a)
  /-- A strike of what is not out is without effect. -/
  idle : ∀ a, (∀ size, ¬ Out ms a size) → l.strike a = l
  freed_iff : ∀ a, a ∈ l.freed ↔ Gone ms a
  holds_iff : ∀ a, l.holds a = true ↔ ∃ size, Out ms a size
  disjoint : ∀ a ∈ l.freed, l.holds a = false
  /-- The entries are those of the addresses that are out, with the size that was told last. -/
  entries : ∀ a size, (a, size) ∈ l.live.toList ↔ Out ms a size
  once : ∀ a, (l.live.toList.map Prod.fst).count a = if l.holds a then 1 else 0
  /-- Count and bytes are those of any list of what is out. -/
  totals : ∀ xs : List (Addr × Word), xs.Nodup → (∀ a size, (a, size) ∈ xs ↔ Out ms a size) →
    l.count = xs.length ∧ l.bytes = (xs.map fun x => x.2.toNat).sum
  bounded : l.count ≤ Word.bound ∧ l.bytes < Word.countBound

namespace Keeps

variable {l : Ledger} {h : Heap}

theorem holds_iff (hk : l.Keeps ms) : l.holds a = true ↔ ∃ n, Out ms a n := by
  rw [holds]
  constructor
  · intro hs
    obtain ⟨n, hn⟩ := Option.isSome_iff_exists.1 hs
    exact ⟨n, (hk.live a n).1 (Array.mem_toList_iff.2 (exists_mem_of_size? hn))⟩
  · rintro ⟨n, hout⟩
    rw [hk.size?_of_out hout]
    rfl

/-- Inside the carved region no address is called outside. -/
theorem holds_of_outside (hk : l.Keeps ms) {declared : Option Word} {start frontier : Addr}
    (hv : l.vet h a declared = .error (.outsideHeap b start frontier)) : h.holds a = false := by
  rw [← Bool.not_eq_true]
  intro hh
  cases standing ms a with
  | out size hout _ _ _ =>
      rw [hk.vet_of_out hh hout] at hv
      split at hv
      · split at hv <;> cases hv
      · cases hv
  | gone _ hgone _ =>
      rw [hk.vet_of_gone hh hgone] at hv
      cases hv
  | never _ _ hnever =>
      rw [hk.vet_of_never hh hnever] at hv
      cases hv

theorem disjoint (hk : l.Keeps ms) (ha : a ∈ l.freed) : l.holds a = false := by
  rw [← Bool.not_eq_true, hk.holds_iff]
  rintro ⟨n, hout⟩
  cases standing ms a with
  | out _ _ _ hnot _ => exact hnot ((hk.freed a).1 ha)
  | gone hnot _ _ => exact hnot n hout
  | never hnot _ _ => exact hnot n hout

theorem perm_of_lists (hk : l.Keeps ms) {xs : List (Addr × Word)} (hn : xs.Nodup)
    (hxs : ∀ a size, (a, size) ∈ xs ↔ Out ms a size) : l.live.toList.Perm xs := by
  apply (List.perm_ext_iff_of_nodup hk.once.of_map hn).2
  rintro ⟨a, size⟩
  rw [hk.live, hxs]

theorem count_keys (hk : l.Keeps ms) (a : Addr) :
    (l.live.toList.map Prod.fst).count a = if l.holds a then 1 else 0 := by
  have hkeys : a ∈ l.live.toList.map Prod.fst ↔ l.holds a = true := by
    rw [hk.holds_iff]
    exact hk.mem_keys_iff
  have hcount : (l.live.toList.map Prod.fst).count a =
      if a ∈ l.live.toList.map Prod.fst then 1 else 0 := List.Nodup.count hk.once
  rw [hcount]
  simp only [hkeys]

end Keeps

end Ledger

/-- Whatever a ledger was told, it vets every free in every heap by what became of the address,
    its entries are what is out, each once, and its sums are exact. -/
theorem recalls_of_moves (ms : List Ledger.Move) : (Ledger.ofMoves ms).Recalls ms where
  outside_iff := by
    intro h a declared
    constructor
    · rintro ⟨b, start, frontier, hv⟩
      exact (Ledger.keeps_ofMoves ms).holds_of_outside hv
    · intro hh
      exact ⟨a, h.start, h.frontier, Ledger.vet_of_not_holds hh⟩
  outside := fun _ _ _ hh => Ledger.vet_of_not_holds hh
  standing := Ledger.standing ms
  out := fun _ _ _ declared hh hout => (Ledger.keeps_ofMoves ms).vet_of_out hh hout declared
  gone := fun _ _ declared hh hgone => (Ledger.keeps_ofMoves ms).vet_of_gone hh hgone declared
  never := fun _ _ declared hh hnever => (Ledger.keeps_ofMoves ms).vet_of_never hh hnever declared
  idle := fun _ hout => (Ledger.keeps_ofMoves ms).strike_eq_self hout
  freed_iff := (Ledger.keeps_ofMoves ms).freed
  holds_iff := fun _ => (Ledger.keeps_ofMoves ms).holds_iff
  disjoint := fun _ ha => (Ledger.keeps_ofMoves ms).disjoint ha
  entries := (Ledger.keeps_ofMoves ms).live
  once := (Ledger.keeps_ofMoves ms).count_keys
  totals := by
    intro xs hn hxs
    have hperm := (Ledger.keeps_ofMoves ms).perm_of_lists hn hxs
    refine ⟨hperm.length_eq, ?_⟩
    rw [Ledger.bytes_eq_sum]
    exact (hperm.map fun x => x.2.toNat).sum_eq
  bounded := by
    have hn := (Ledger.keeps_ofMoves ms).once
    exact ⟨Ledger.count_le_bound hn, Ledger.bytes_lt_countBound hn⟩

/-- Two addresses are entered and struck; one of them is entered twice more, and the other is
    struck once more. -/
example :
    let l := Ledger.ofMoves [.strike 4, .enter 4 8, .enter 16 8, .strike 4, .strike 16,
      .enter 16 40, .enter 16 24, .strike 4]
    let h : Heap := { region := ⟨0, 64⟩ }
    (l.vet h 4 none, l.vet h 8 none, l.vet h 16 (some 24), l.vet h 16 (some 25), l.vet h 64 none) =
        (.error (.doubleFree 4), .error (.unknownAddress 8), .ok 24,
          .error (.sizeMismatch 16 25 24), .error (.outsideHeap 64 0 64)) ∧
      l.live = #[(16, 24)] ∧ l.freed = [4] := by
  decide +kernel

end LinearHeap
