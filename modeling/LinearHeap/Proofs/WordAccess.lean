/-
  LinearHeap/Proofs/WordAccess.lean
  =================================
  **The laws of word access.**  A word may lie at any address, so two words may
  share some of their bytes.  A write changes the four bytes of its word, and all
  that is read after it follows from that: the word itself, a word apart from it,
  and a word that overlaps it, which is then made of bytes of both
  (`Word.patched`).

  `Ambient.KeepsWords` says so about acts, faults included, over every memory.
  The records of slices, headers, and links are written and read a word at a time,
  so each of them is read back as it was written.
-/
import LinearHeap.Proofs.Acts

namespace LinearHeap

/-! ### Words that overlap -/

namespace Word

/-- The `k`-th byte of the word at `b` after `w` was written at `a`. -/
def patch (old : Word) (b a : Addr) (w : Word) (k : Nat) : UInt8 :=
  if a.toNat ≤ b.toNat + k ∧ b.toNat + k < a.toNat + 4 then byte w (b.toNat + k - a.toNat)
  else byte old k

/-- The word at `b` after `w` was written at `a`, if it was `old` before. -/
def patched (old : Word) (b a : Addr) (w : Word) : Word :=
  ofBytes (patch old b a w 0) (patch old b a w 1) (patch old b a w 2) (patch old b a w 3)

theorem byte_patched (old : Word) (b a : Addr) (w : Word) {k : Nat} (hk : k < 4) :
    byte (patched old b a w) k = patch old b a w k := by
  obtain ⟨h₀, h₁, h₂, h₃⟩ := byte_ofBytes (patch old b a w 0) (patch old b a w 1)
    (patch old b a w 2) (patch old b a w 3)
  match k, hk with
  | 0, _ => exact h₀
  | 1, _ => exact h₁
  | 2, _ => exact h₂
  | 3, _ => exact h₃

end Word

/-- After a write every word that was in memory reads as its old bytes, patched. -/
theorem Memory.load?_store_of_some {m : Memory} {a b : Addr} {old w : Word} (ha : m.HasWord a)
    (hb : m.load? b = some old) : (m.store a w).load? b = some (old.patched b a w) := by
  rw [load?_eq_some_iff] at hb ⊢
  intro k hk
  rw [byte?_store ha, Word.byte_patched old b a w hk, Word.patch]
  split
  · rfl
  · exact hb k hk

/-- A word reads across two others: its low half is the high half of what was written below it. -/
example : ((((Memory.zeros 12).store 1 0x44332211).store 5 0x88776655).load? 3) =
    some 0x66554433 := by decide +kernel

namespace Act

variable {σ : Type} {s : σ} {m m' : Ambient} {a b : Addr} {v w : Word}

theorem store_of_lt (h : m.memory.size < a.toNat + 4) :
    (store a w : Act σ Unit) s m =
      ⟨.error (.wordOutside a m.memory.size), s, m.countWrite⟩ := by
  apply store_of_not_hasWord
  rw [Memory.hasWord_iff]
  omega

theorem store_faults_iff :
    (∃ e, ((store a w : Act σ Unit) s m).result = .error e) ↔ m.memory.size < a.toNat + 4 := by
  constructor
  · rintro ⟨e, he⟩
    rcases Nat.lt_or_ge m.memory.size (a.toNat + 4) with hlt | hle
    · exact hlt
    · rw [store_storing (Memory.hasWord_iff.2 hle)] at he
      cases he
  · intro hlt
    exact ⟨_, congrArg Outcome.result (store_of_lt hlt)⟩

/-- What a read gives depends on the word in memory, or on its absence. -/
theorem load_result (a : Addr) (s : σ) (m : Ambient) :
    ((load a : Act σ Word) s m).result =
      match m.memory.load? a with
      | some w => .ok w
      | none => .error (.wordOutside a m.memory.size) := by
  cases hw : m.memory.load? a with
  | none => rw [load_of_none hw]
  | some w => rw [load_of_some hw]

theorem load_result_congr (hword : m'.memory.load? b = m.memory.load? b)
    (hsize : m'.memory.size = m.memory.size) :
    ((load b : Act σ Word) s m').result = ((load b : Act σ Word) s m).result := by
  rw [load_result, load_result, hword, hsize]

/-- Two writes into words apart may be done in either order; if one of them is outside memory,
    neither order gets through. -/
theorem store_store_iff (hapart : a.toNat + 4 ≤ b.toNat ∨ b.toNat + 4 ≤ a.toNat) :
    ((store a v >>= fun _ => store b w : Act σ Unit) s m = ⟨.ok (), s, m'⟩) ↔
      ((store b w >>= fun _ => store a v : Act σ Unit) s m = ⟨.ok (), s, m'⟩) := by
  by_cases ha : m.memory.HasWord a
  · by_cases hb : m.memory.HasWord b
    · rw [bind_of_ok (store_storing ha), store_storing (Ambient.hasWord_storing hb),
        bind_of_ok (store_storing hb), store_storing (Ambient.hasWord_storing ha),
        Ambient.storing_storing, Ambient.storing_storing, Memory.store_comm ha hb hapart]
    · have hb' : ¬ (m.storing a v).memory.HasWord b := mt Memory.hasWord_store.1 hb
      rw [bind_of_ok (store_storing ha), store_of_not_hasWord hb',
        bind_of_error (store_of_not_hasWord hb)]
      exact iff_of_false nofun nofun
  · rw [bind_of_error (store_of_not_hasWord ha)]
    refine iff_of_false nofun ?_
    by_cases hb : m.memory.HasWord b
    · have ha' : ¬ (m.storing b w).memory.HasWord a := mt Memory.hasWord_store.1 ha
      rw [bind_of_ok (store_storing hb), store_of_not_hasWord ha']
      nofun
    · rw [bind_of_error (store_of_not_hasWord hb)]
      nofun

end Act

/-! ### One write -/

namespace Ambient

/-- A word was written at `a`, and this is all there is to see of it. -/
structure Writes (m : Ambient) (a : Addr) (w : Word) (m' : Ambient) : Prop where
  /-- The length of memory and the bytes outside the word are the same. -/
  only : m.memory.ChangesOnly (fun i => a.toNat ≤ i ∧ i < a.toNat + 4) m'.memory
  journal : m'.journal = m.journal
  again : ∀ (σ : Type) (s : σ), (Act.load a s m').result = .ok w
  apart : ∀ (σ : Type) (s : σ) b, a.toNat + 4 ≤ b.toNat ∨ b.toNat + 4 ≤ a.toNat →
    (Act.load b s m').result = (Act.load b s m).result
  /-- A word that overlaps it is read with the new bytes where they are shared, and with its old
      bytes elsewhere. -/
  overlapping : ∀ (σ : Type) (s : σ) b old, (Act.load b s m).result = .ok old →
    ∃ new, (Act.load b s m').result = .ok new ∧ ∀ k < 4, Word.byte new k =
      if a.toNat ≤ b.toNat + k ∧ b.toNat + k < a.toNat + 4 then Word.byte w (b.toNat + k - a.toNat)
      else Word.byte old k
  /-- A word outside memory stays outside. -/
  outside : ∀ (σ : Type) (s : σ) b e, (Act.load b s m).result = .error e →
    (Act.load b s m').result = .error e

theorem writes_storing {m : Ambient} {a : Addr} (w : Word) (ha : m.memory.HasWord a) :
    m.Writes a w (m.storing a w) where
  only := by
    apply Memory.ChangesOnly.store ha
    intro i hl hu
    exact ⟨hl, hu⟩
  journal := rfl
  again := by
    intro σ s
    rw [Act.load_result, memory_storing, Memory.load?_store ha]
  apart := by
    intro σ s b hapart
    exact Act.load_result_congr (Memory.load?_store_of_disjoint ha hapart)
      (Memory.size_store m.memory a w)
  overlapping := by
    intro σ s b old hold
    refine ⟨old.patched b a w, ?_, ?_⟩
    · rw [Act.load_result] at hold
      split at hold
      · rename_i word hword
        cases hold
        rw [Act.load_result, memory_storing, Memory.load?_store_of_some ha hword]
      · cases hold
    · intro k hk
      exact Word.byte_patched old b a w hk
  outside := by
    intro σ s b e he
    rw [Act.load_result] at he
    split at he
    · cases he
    · rename_i hnone
      cases he
      have hnone' : (m.storing a w).memory.load? b = none := by
        rwa [Memory.load?_eq_none_iff, memory_storing, Memory.hasWord_store,
          ← Memory.load?_eq_none_iff]
      rw [Act.load_result, hnone', memory_storing, Memory.size_store]

end Ambient

/-! ### What is made of words -/

theorem SliceRecord.exists_write {σ : Type} {handle : Addr} {m : Ambient} (r : SliceRecord) (s : σ)
    (hspace : handle.toNat + 4 < Word.bound) (hmemory : handle.toNat + 8 ≤ m.memory.size) :
    ∃ m', r.write handle s m = ⟨.ok (), s, m'⟩ ∧
      read handle s m' = ⟨.ok r, s, m'.countRead.countRead⟩ := by
  have hat : (UInt32.ofNat (handle.toNat + 4)).toNat = handle.toNat + 4 :=
    toNat_ofNat_of_lt hspace
  have hdata : m.memory.HasWord handle := by
    rw [Memory.hasWord_iff]
    omega
  have hlength : m.memory.HasWord (UInt32.ofNat (handle.toNat + 4)) := by
    rw [Memory.hasWord_iff]
    omega
  refine ⟨_, write_of_hasWord hat hdata hlength, ?_⟩
  have hlength' := Ambient.hasWord_storing (a := handle) (w := r.data) hlength
  apply read_of_load? hat
  · exact (Memory.load?_store_of_disjoint hlength' (Or.inr (by omega))).trans
      (Memory.load?_store hdata)
  · exact Memory.load?_store hlength'

namespace Block

variable {σ : Type} {b : Block} {m : Ambient} {next : Link}

theorem writeSize_storing (size : Word) (s : σ) (hheader : m.memory.HasWord b.header) :
    b.writeSize size s m = ⟨.ok (), s, m.storing b.header size⟩ := Act.store_storing hheader

theorem exists_writeSize (b : Block) (size : Word) (s : σ)
    (hmemory : b.header.toNat + 4 ≤ m.memory.size) :
    ∃ m', b.writeSize size s m = ⟨.ok (), s, m'⟩ ∧
      b.readSize s m' = ⟨.ok size, s, m'.countRead⟩ := by
  have hheader : m.memory.HasWord b.header := Memory.hasWord_iff.2 hmemory
  exact ⟨_, writeSize_storing size s hheader, Act.load_of_some (Memory.load?_store hheader)⟩

theorem link?_storing (hspace : b.header.toNat + 4 < Word.bound)
    (hmemory : b.header.toNat + 8 ≤ m.memory.size) (hnext : next ≠ some ⟨Link.endMark⟩) :
    b.link? (m.storing b.slot (Link.toWord next)).memory = some next := by
  have hload := Memory.load?_store (w := Link.toWord next) (hasWord_slot hspace hmemory)
  simp only [link?, linkSlot, payload_of_lt hspace, Ambient.memory_storing, hload,
    Option.map_some, Link.ofWord_toWord hnext]

theorem writeLink_storing (next : Link) (s : σ) (hspace : b.header.toNat + 4 < Word.bound)
    (hmemory : b.header.toNat + 8 ≤ m.memory.size) :
    b.writeLink next s m = ⟨.ok (), s, m.storing b.slot (Link.toWord next)⟩ :=
  writeLink_of_hasWord (payload_of_lt hspace) (hasWord_slot hspace hmemory)

theorem exists_writeLink (s : σ) (hspace : b.header.toNat + 4 < Word.bound)
    (hmemory : b.header.toNat + 8 ≤ m.memory.size) (hnext : next ≠ some ⟨Link.endMark⟩) :
    ∃ m', b.writeLink next s m = ⟨.ok (), s, m'⟩ ∧
      b.readLink s m' = ⟨.ok next, s, m'.countRead⟩ :=
  ⟨_, writeLink_storing next s hspace hmemory,
    readLink_of_link? (link?_storing hspace hmemory hnext)⟩

/-- Header and link are two words; it makes no difference which of them is written first. -/
theorem exists_writeBoth (size : Word) (s : σ) (hspace : b.header.toNat + 4 < Word.bound)
    (hmemory : b.header.toNat + 8 ≤ m.memory.size) (hnext : next ≠ some ⟨Link.endMark⟩) :
    ∃ m', (b.writeSize size >>= fun _ => b.writeLink next : Act σ Unit) s m = ⟨.ok (), s, m'⟩ ∧
      (b.writeLink next >>= fun _ => b.writeSize size : Act σ Unit) s m = ⟨.ok (), s, m'⟩ ∧
      b.readSize s m' = ⟨.ok size, s, m'.countRead⟩ ∧
      b.readLink s m' = ⟨.ok next, s, m'.countRead⟩ := by
  have hslot := toNat_slot hspace
  have hheader : m.memory.HasWord b.header := by
    rw [Memory.hasWord_iff]
    omega
  have hmemory' : b.header.toNat + 8 ≤ (m.storing b.header size).memory.size := by
    rwa [Ambient.memory_storing, Memory.size_store]
  have hapart : b.header.toNat + 4 ≤ b.slot.toNat ∨ b.slot.toNat + 4 ≤ b.header.toNat :=
    Or.inl (Nat.le_of_eq hslot.symm)
  have hheader' : (m.storing b.slot (Link.toWord next)).memory.HasWord b.header :=
    Ambient.hasWord_storing hheader
  refine ⟨_, (Act.bind_of_ok (writeSize_storing size s hheader)).trans
    (writeLink_storing next s hspace hmemory'), ?_, ?_, ?_⟩
  · rw [Act.bind_of_ok (writeLink_storing next s hspace hmemory),
      writeSize_storing size s hheader', Ambient.storing_storing, Ambient.storing_storing,
      Memory.store_comm hheader (hasWord_slot hspace hmemory) hapart]
  · apply readSize_of_size?
    exact (Memory.load?_store_of_disjoint (hasWord_slot hspace hmemory') hapart.symm).trans
      (Memory.load?_store hheader)
  · exact readLink_of_link? (link?_storing hspace hmemory' hnext)

end Block

/-! ### All of it -/

/-- What is written can be read, and nothing else has changed. -/
structure Ambient.KeepsWords (m : Ambient) : Prop where
  /-- The end of a word is computed without wrapping. -/
  faults_iff : ∀ (σ : Type) (s : σ) a w,
    (∃ e, (Act.store a w s m).result = .error e) ↔ m.memory.size < a.toNat + 4
  /-- A write that faults has moved the meter only. -/
  faults : ∀ (σ : Type) (s : σ) a w, m.memory.size < a.toNat + 4 →
    Act.store a w s m = ⟨.error (.wordOutside a m.memory.size), s, m.countWrite⟩
  writes : ∀ (σ : Type) (s : σ) a w, a.toNat + 4 ≤ m.memory.size →
    ∃ m', Act.store a w s m = ⟨.ok (), s, m'⟩ ∧ m.Writes a w m'
  commutes : ∀ (σ : Type) (s : σ) a b v w m',
    a.toNat + 4 ≤ b.toNat ∨ b.toNat + 4 ≤ a.toNat →
    ((do Act.store a v; Act.store b w : Act σ Unit) s m = ⟨.ok (), s, m'⟩ ↔
      (do Act.store b w; Act.store a v : Act σ Unit) s m = ⟨.ok (), s, m'⟩)
  record : ∀ (σ : Type) (s : σ) (r : SliceRecord) handle, handle.toNat + 4 < Word.bound →
    handle.toNat + 8 ≤ m.memory.size →
    ∃ m', r.write handle s m = ⟨.ok (), s, m'⟩ ∧
      SliceRecord.read handle s m' = ⟨.ok r, s, m'.countRead.countRead⟩
  header : ∀ (σ : Type) (s : σ) (b : Block) size, b.header.toNat + 4 ≤ m.memory.size →
    ∃ m', b.writeSize size s m = ⟨.ok (), s, m'⟩ ∧
      b.readSize s m' = ⟨.ok size, s, m'.countRead⟩
  /-- Only the word that ends chains is no link to a block. -/
  link : ∀ (σ : Type) (s : σ) (b : Block) next, b.header.toNat + 4 < Word.bound →
    b.header.toNat + 8 ≤ m.memory.size → next ≠ some ⟨Link.endMark⟩ →
    ∃ m', b.writeLink next s m = ⟨.ok (), s, m'⟩ ∧
      b.readLink s m' = ⟨.ok next, s, m'.countRead⟩
  both : ∀ (σ : Type) (s : σ) (b : Block) size next, b.header.toNat + 4 < Word.bound →
    b.header.toNat + 8 ≤ m.memory.size → next ≠ some ⟨Link.endMark⟩ →
    ∃ m', (do b.writeSize size; b.writeLink next : Act σ Unit) s m = ⟨.ok (), s, m'⟩ ∧
      (do b.writeLink next; b.writeSize size : Act σ Unit) s m = ⟨.ok (), s, m'⟩ ∧
      b.readSize s m' = ⟨.ok size, s, m'.countRead⟩ ∧
      b.readLink s m' = ⟨.ok next, s, m'.countRead⟩

/-- Over every memory, a write faults exactly if its word does not lie inside, and otherwise is seen
    by every later read in the bytes that the two share and in no others; so records, headers and
    links are read back as they were written. -/
theorem words_read_back (m : Ambient) : m.KeepsWords where
  faults_iff := fun _ _ _ _ => Act.store_faults_iff
  faults := fun _ _ _ _ hlt => Act.store_of_lt hlt
  writes := by
    intro σ s a w hle
    have ha : m.memory.HasWord a := Memory.hasWord_iff.2 hle
    exact ⟨_, Act.store_storing ha, Ambient.writes_storing w ha⟩
  commutes := fun _ _ _ _ _ _ _ hapart => Act.store_store_iff hapart
  record := fun _ s r _ hspace hmemory => r.exists_write s hspace hmemory
  header := fun _ s b size hmemory => b.exists_writeSize size s hmemory
  link := fun _ s _ _ hspace hmemory hnext => Block.exists_writeLink s hspace hmemory hnext
  both := fun _ s _ size _ hspace hmemory hnext =>
    Block.exists_writeBoth size s hspace hmemory hnext

end LinearHeap
