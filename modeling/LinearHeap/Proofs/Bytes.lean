/-
  LinearHeap/Proofs/Bytes.lean
  ============================
  **Memory seen through plain offsets.**  The heap computes with 32-bit words;
  arguments about what lies where are easier with unbounded offsets.  `Holds`
  says which word lies at an offset, `ChangesOnly` which bytes two memories may
  differ in.  Every store changes the four bytes of its word only, so what an
  operation touches is the union of what its stores touch.
-/
import LinearHeap.FreeList.Linked

namespace LinearHeap

theorem toNat_ofNat_of_lt {n : Nat} (h : n < Word.bound) : (UInt32.ofNat n).toNat = n := by
  simp only [Word.bound] at h
  rw [UInt32.toNat_ofNat']
  omega

namespace Memory

variable {m m' m'' : Memory}

def Holds (m : Memory) (i : Nat) (w : Word) : Prop :=
  ∀ k < 4, m.byte? (i + k) = some (Word.byte w k)

theorem load?_eq_some_iff_holds {a : Addr} {w : Word} :
    m.load? a = some w ↔ m.Holds a.toNat w := load?_eq_some_iff

theorem holds_store {a : Addr} {w : Word} (h : m.HasWord a) : (m.store a w).Holds a.toNat w :=
  load?_eq_some_iff_holds.1 (load?_store h)

theorem byte?_store_of_off {a : Addr} {w : Word} {i : Nat} (h : m.HasWord a)
    (hi : i < a.toNat ∨ a.toNat + 4 ≤ i) : (m.store a w).byte? i = m.byte? i := by
  rw [byte?_store h, if_neg (by omega)]

theorem Holds.congr {i : Nat} {w : Word} (h : m.Holds i w)
    (hb : ∀ j, i ≤ j → j < i + 4 → m'.byte? j = m.byte? j) : m'.Holds i w := by
  intro k hk
  rw [hb (i + k) (by omega) (by omega)]
  exact h k hk

theorem Holds.unique {i : Nat} {v w : Word} (hv : m.Holds i v) (hw : m.Holds i w) : v = w := by
  have hbyte : ∀ k < 4, Word.byte v k = Word.byte w k := by
    intro k hk
    exact Option.some.inj ((hv k hk).symm.trans (hw k hk))
  rw [← Word.ofBytes_byte v, ← Word.ofBytes_byte w, hbyte 0 (by decide), hbyte 1 (by decide),
    hbyte 2 (by decide), hbyte 3 (by decide)]

/-- A write moves no end of a memory. -/
theorem hasWord_store {a b : Addr} {w : Word} : (m.store a w).HasWord b ↔ m.HasWord b := by
  rw [hasWord_iff, size_store, ← hasWord_iff]

theorem ext_byte? (h : ∀ i, m'.byte? i = m.byte? i) : m' = m := by
  rcases m with ⟨⟨data⟩⟩
  rcases m' with ⟨⟨data'⟩⟩
  have hdata : data' = data := by
    apply Array.ext_getElem?
    intro i
    have hi := h i
    rwa [byte?_eq, byte?_eq] at hi
  rw [hdata]

theorem store_comm {a b : Addr} {v w : Word} (ha : m.HasWord a) (hb : m.HasWord b)
    (hapart : a.toNat + 4 ≤ b.toNat ∨ b.toNat + 4 ≤ a.toNat) :
    (m.store a v).store b w = (m.store b w).store a v := by
  have hb' : (m.store a v).HasWord b := hasWord_store.2 hb
  have ha' : (m.store b w).HasWord a := hasWord_store.2 ha
  apply ext_byte?
  intro i
  rw [byte?_store hb', byte?_store ha, byte?_store ha', byte?_store hb]
  by_cases hia : a.toNat ≤ i ∧ i < a.toNat + 4
  · have hib : ¬ (b.toNat ≤ i ∧ i < b.toNat + 4) := by omega
    simp only [if_pos hia, if_neg hib]
  · simp only [if_neg hia]

/-- `after` has the size of `before` and differs from it in the given bytes at most. -/
structure ChangesOnly (touched : Nat → Prop) (before after : Memory) : Prop where
  size : after.size = before.size
  byte : ∀ i, ¬ touched i → after.byte? i = before.byte? i

namespace ChangesOnly

variable {P Q : Nat → Prop}

theorem refl (P : Nat → Prop) (m : Memory) : ChangesOnly P m m := ⟨rfl, fun _ _ => rfl⟩

theorem mono (h : ChangesOnly P m m') (hPQ : ∀ i, P i → Q i) : ChangesOnly Q m m' :=
  ⟨h.size, fun i hi => h.byte i fun hp => hi (hPQ i hp)⟩

theorem trans (h : ChangesOnly P m m') (h' : ChangesOnly P m' m'') : ChangesOnly P m m'' :=
  ⟨h'.size.trans h.size, fun i hi => (h'.byte i hi).trans (h.byte i hi)⟩

theorem store {a : Addr} {w : Word} (h : m.HasWord a)
    (hP : ∀ i, a.toNat ≤ i → i < a.toNat + 4 → P i) : ChangesOnly P m (m.store a w) := by
  refine ⟨size_store m a w, fun i hi => ?_⟩
  apply byte?_store_of_off h
  by_cases hlow : a.toNat ≤ i
  · by_cases hhigh : i < a.toNat + 4
    · exact absurd (hP i hlow hhigh) hi
    · omega
  · omega

end ChangesOnly

end Memory

/-! ### Links -/

namespace FreeChain

/-- A chain stands in every memory that keeps the links of its blocks. -/
theorem linked_congr {m m' : Memory} {l : Link} {bs : List Block} (h : Linked m l bs)
    (hlink : ∀ b ∈ bs, b.link? m' = b.link? m) : Linked m' l bs := by
  induction bs generalizing l with
  | nil => exact h
  | cons b bs ih =>
      obtain ⟨rfl, next, hnext, htail⟩ := h
      refine ⟨rfl, next, ?_, ih htail fun c hc => hlink c (List.mem_cons_of_mem b hc)⟩
      rw [hlink b List.mem_cons_self, hnext]

/-- No chain leads from a block that is linked to itself to an end. -/
theorem not_linked_of_self_link {m : Memory} {b : Block} (h : b.link? m = some (some b))
    (bs : List Block) : ¬ Linked m (some b) bs := by
  intro hl
  cases bs with
  | nil => cases hl
  | cons c cs =>
      have hwhole := hl
      obtain ⟨hbc, next, hnext, htail⟩ := hl
      cases hbc
      rw [h] at hnext
      cases hnext
      have hlength := congrArg List.length (linked_unique hwhole htail)
      simp only [List.length_cons] at hlength
      omega

end FreeChain

namespace Block

theorem link?_eq_some_iff {b : Block} {m : Memory} {next : Link}
    (hb : b.header.toNat + 4 < Word.bound) :
    b.link? m = some next ↔ ∃ w, m.Holds (b.header.toNat + 4) w ∧ Link.ofWord w = next := by
  obtain ⟨slot, hslot, hs⟩ : ∃ slot : Addr, b.linkSlot = .ok slot ∧
      slot.toNat = b.header.toNat + 4 := by
    refine ⟨UInt32.ofNat (b.header.toNat + 4), ?_, toNat_ofNat_of_lt hb⟩
    exact payload_eq_ok_iff.2 (toNat_ofNat_of_lt hb)
  simp only [link?, hslot, Option.map_eq_some_iff, Memory.load?_eq_some_iff_holds, hs]

/-- The link of a block is kept where the four bytes behind its header are. -/
theorem link?_congr {b : Block} {m m' : Memory} {next : Link} (h : b.link? m = some next)
    (hb : ∀ j, b.header.toNat + 4 ≤ j → j < b.header.toNat + 8 → m'.byte? j = m.byte? j) :
    b.link? m' = some next := by
  cases hs : b.linkSlot with
  | error e => simp [link?, hs] at h
  | ok slot =>
      have hslot := payload_eq_ok_iff.1 hs
      have hlt : b.header.toNat + 4 < Word.bound := by
        have := slot.toNat_lt
        simp only [Word.bound]
        omega
      obtain ⟨w, hw, rfl⟩ := (link?_eq_some_iff hlt).1 h
      exact (link?_eq_some_iff hlt).2 ⟨w, hw.congr fun j hl hu => hb j hl (by omega), rfl⟩

end Block

end LinearHeap
