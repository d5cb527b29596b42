/-
  LinearHeap/FreeList/Linked.lean
  ===============================
  **What a free chain is.**  `Linked m l bs` says that the link `l` leads, through
  the links stored in memory `m`, along exactly the blocks `bs` and then to an
  end.  A memory links at most one list from a link, and a walk lists it and reads
  one word for each block.

  A block of a chain has its eight bytes in memory, and a chain that ends passes
  no block twice, so it has no more blocks than the memory has bytes
  (`length_le_size`): this is why a walk that goes on longer has met a circle, and
  why a walk without a limit lists every chain that ends (`walkAll_of_linked`).
-/
import LinearHeap.FreeList.Walk

namespace LinearHeap

namespace FreeChain

variable {σ : Type}

/-- The link leads along exactly these blocks. -/
def Linked (m : Memory) : Link → List Block → Prop
  | l, [] => l = none
  | l, b :: bs => l = some b ∧ ∃ next, b.link? m = some next ∧ Linked m next bs

theorem linked_nil_iff {m : Memory} {l : Link} : Linked m l [] ↔ l = none := Iff.rfl

theorem linked_none_iff {m : Memory} {bs : List Block} : Linked m none bs ↔ bs = [] := by
  cases bs with
  | nil => simp [Linked]
  | cons b bs => simp [Linked]

/-- From one link a memory leads along one list only. -/
theorem linked_unique {m : Memory} {l : Link} {bs cs : List Block} (hb : Linked m l bs)
    (hc : Linked m l cs) : bs = cs := by
  induction bs generalizing l cs with
  | nil =>
      rw [linked_nil_iff] at hb
      subst hb
      exact (linked_none_iff.1 hc).symm
  | cons b bs ih =>
      obtain ⟨rfl, next, hnext, htail⟩ := hb
      cases cs with
      | nil => cases hc
      | cons c cs =>
          obtain ⟨hbc, next', hnext', htail'⟩ := hc
          cases hbc
          rw [hnext] at hnext'
          cases hnext'
          rw [ih htail htail']

/-- The part of a chain behind one of its blocks is the chain of that block's link. -/
theorem linked_of_append {m : Memory} {l : Link} {bs cs : List Block}
    (h : Linked m l (bs ++ cs)) : ∃ l', Linked m l' cs := by
  induction bs generalizing l with
  | nil => exact ⟨l, h⟩
  | cons b bs ih =>
      obtain ⟨-, next, -, htail⟩ := h
      exact ih htail

/-- A chain that ends passes no block twice. -/
theorem nodup_of_linked {m : Memory} {l : Link} {bs : List Block} (h : Linked m l bs) :
    bs.Nodup := by
  induction bs generalizing l with
  | nil => exact List.nodup_nil
  | cons b bs ih =>
      obtain ⟨rfl, next, hnext, htail⟩ := h
      refine List.nodup_cons.2 ⟨fun hmem => ?_, ih htail⟩
      obtain ⟨before, after, rfl⟩ := List.append_of_mem hmem
      obtain ⟨l', hl'⟩ := linked_of_append htail
      have hl := hl'
      obtain ⟨rfl, next', hnext', hafter⟩ := hl'
      rw [hnext] at hnext'
      cases hnext'
      have hlen := congrArg List.length (linked_unique htail hafter)
      simp only [List.length_append, List.length_cons] at hlen
      omega

/-- Every block of a chain has header and link in memory. -/
theorem header_le_of_mem {m : Memory} {l : Link} {bs : List Block} (h : Linked m l bs)
    {b : Block} (hb : b ∈ bs) : b.header.toNat + 8 ≤ m.size := by
  induction bs generalizing l with
  | nil => cases hb
  | cons c bs ih =>
      obtain ⟨-, next, hnext, htail⟩ := h
      rcases List.mem_cons.1 hb with rfl | hb
      · exact Block.header_le_of_link? hnext
      · exact ih htail hb

/-- A list without repetition whose members lie below a bound is no longer than the bound. -/
theorem length_le_of_nodup {n : Nat} {xs : List Nat} (hn : xs.Nodup) (hx : ∀ x ∈ xs, x < n) :
    xs.length ≤ n := by
  induction n generalizing xs with
  | zero =>
      cases xs with
      | nil => exact Nat.le_refl 0
      | cons x xs => exact absurd (hx x List.mem_cons_self) (Nat.not_lt_zero x)
  | succ n ih =>
      by_cases hmem : n ∈ xs
      · have hlt : ∀ x ∈ xs.erase n, x < n := by
          intro x hm
          have hne := (hn.mem_erase_iff.1 hm).1
          have := hx x (List.mem_of_mem_erase hm)
          omega
        have := ih (hn.erase n) hlt
        rw [List.length_erase_of_mem hmem] at this
        omega
      · have hlt : ∀ x ∈ xs, x < n := by
          intro x hm
          have hne : x ≠ n := fun he => hmem (he ▸ hm)
          have := hx x hm
          omega
        have := ih hn hlt
        omega

/-- A chain that ends has at most as many blocks as the memory has bytes. -/
theorem length_le_size {m : Memory} {l : Link} {bs : List Block} (h : Linked m l bs) :
    bs.length ≤ m.size := by
  have hnodup : (bs.map fun b => b.header.toNat).Nodup := by
    refine List.Pairwise.map _ ?_ (nodup_of_linked h)
    rintro ⟨a⟩ ⟨b⟩ hne heq
    exact hne (congrArg Block.mk (UInt32.toNat_inj.1 heq))
  have hlt : ∀ x ∈ bs.map fun b => b.header.toNat, x < m.size := by
    intro x hx
    obtain ⟨b, hb, rfl⟩ := List.mem_map.1 hx
    have := header_le_of_mem h hb
    omega
  simpa using length_le_of_nodup hnodup hlt

/-! ### Walks -/

/-- A walk lists a chain and reads one word for each of its blocks. -/
theorem walk_of_linked {l : Link} {bs : List Block} {s : σ} {m : Ambient} {limit : Nat}
    (h : Linked m.memory l bs) (hlimit : bs.length ≤ limit) :
    walk limit l s m = ⟨.ok bs, s, m.countReads bs.length⟩ := by
  induction bs generalizing l m limit with
  | nil =>
      rw [linked_nil_iff] at h
      subst h
      cases limit <;> rfl
  | cons b bs ih =>
      obtain ⟨rfl, next, hnext, htail⟩ := h
      cases limit with
      | zero => cases hlimit
      | succ limit =>
          have hrest := ih (m := m.countRead) htail (Nat.le_of_succ_le_succ hlimit)
          exact (Act.bind_of_ok (Block.readLink_of_link? hnext)).trans (Act.bind_of_ok hrest)

theorem walkAll_of_linked {l : Link} {bs : List Block} {s : σ} {m : Ambient}
    (h : Linked m.memory l bs) : walkAll l s m = ⟨.ok bs, s, m.countReads bs.length⟩ := by
  have hle := length_le_size h
  have hwalk := walk_of_linked (s := s) h (Nat.le_succ_of_le hle)
  refine (Act.bind_of_ok (x := Act.memorySize) rfl).trans ((Act.bind_of_ok hwalk).trans ?_)
  rw [if_neg (by omega)]
  rfl

/-! ### Stores -/

/-- A store that misses the link of a block leaves the link as it is. -/
theorem link?_store_of_disjoint {b : Block} {m : Memory} {a : Addr} {w : Word} (ha : m.HasWord a)
    (hd : a.toNat + 4 ≤ b.header.toNat + 4 ∨ b.header.toNat + 8 ≤ a.toNat) :
    b.link? (m.store a w) = b.link? m := by
  cases hs : b.linkSlot with
  | error e => simp [Block.link?, hs]
  | ok slot =>
      have hslot := Block.payload_eq_ok_iff.1 hs
      have hload : (m.store a w).load? slot = m.load? slot :=
        Memory.load?_store_of_disjoint ha (by omega)
      simp [Block.link?, hs, hload]

end FreeChain

end LinearHeap
