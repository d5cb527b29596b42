/-
  LinearHeap/Block.lean
  =====================
  **Blocks.**  A block is a four-byte header that holds its payload size, and the
  payload after it.  A block is named by the address of its header; guests only
  ever see payload addresses.  While a block is free, the first word of its
  payload links it to the next block of its chain, so no payload is smaller than
  one word.

      header            payload
      │                 │
      ┌─────────────────┬───────────────────────────────┐
      │ size            │ `size` bytes                  │
      └─────────────────┴───────────────────────────────┘
                        └ link, while the block is free

  The word `0xffffffff` is the link that ends a chain; every other word links to
  the block at that address.
-/
import LinearHeap.Act

namespace LinearHeap

/-- A block, named by the address of its header. -/
structure Block where
  header : Addr
  deriving DecidableEq, Repr

/-- The next block of a chain, or its end. -/
abbrev Link := Option Block

/-! ### Addresses of a block -/

namespace Block

def headerBytes : Word := 4

/-- The smallest payload: one word, so that a free block can hold its link. -/
def leastPayload : Word := 4

def payload (b : Block) : Except Fault Addr := Word.sum b.header headerBytes

/-- The address of the link of a free block: the first word of the payload. -/
def linkSlot (b : Block) : Except Fault Addr := b.payload

def ofPayload (a : Addr) : Except Fault Block :=
  if a.toNat < headerBytes.toNat then .error (.belowHeaders a) else .ok ⟨a - headerBytes⟩

/-- The text of a block: its address in hexadecimal. -/
def text (b : Block) : String := Word.hex b.header

theorem ofPayload_eq_ok_iff {a : Addr} {b : Block} :
    ofPayload a = .ok b ↔ a.toNat = b.header.toNat + 4 := by
  have ha := a.toNat_lt
  have h4 : headerBytes.toNat = 4 := rfl
  rcases b with ⟨h⟩
  by_cases hlt : a.toNat < headerBytes.toNat
  · simp only [ofPayload, hlt, if_true, reduceCtorEq, false_iff]
    omega
  · have hle : headerBytes ≤ a := by
      rw [UInt32.le_iff_toNat_le]
      omega
    simp only [ofPayload, hlt, if_false, Except.ok.injEq, Block.mk.injEq, ← UInt32.toNat_inj,
      UInt32.toNat_sub_of_le _ _ hle]
    omega

theorem payload_eq_ok_iff {b : Block} {a : Addr} :
    b.payload = .ok a ↔ a.toNat = b.header.toNat + 4 := Word.sum_eq_ok_iff

end Block

/-! ### Links as words -/

namespace Link

def endMark : Word := 4294967295

def ofWord (w : Word) : Link := if w = endMark then none else some ⟨w⟩

def toWord : Link → Word
  | none => endMark
  | some b => b.header

/-- A link is read back from its word, unless it is to a block at the end mark. -/
theorem ofWord_toWord {l : Link} (h : l ≠ some ⟨endMark⟩) : ofWord (toWord l) = l := by
  rcases l with _ | ⟨⟨a⟩⟩
  · simp [ofWord, toWord]
  · have ha : a ≠ endMark := fun he => h (by rw [he])
    simp [ofWord, toWord, ha]

end Link

/-! ### Header and link in memory -/

namespace Block

/-- The payload size in the header of a block, if the header lies in memory. -/
def size? (b : Block) (m : Memory) : Option Word := m.load? b.header

/-- What a free block links to, if its link lies in memory. -/
def link? (b : Block) (m : Memory) : Option Link :=
  match b.linkSlot with
  | .ok slot => (m.load? slot).map Link.ofWord
  | .error _ => none

variable {σ : Type}

def readSize (b : Block) : Act σ Word := Act.load b.header

def writeSize (b : Block) (size : Word) : Act σ Unit := Act.store b.header size

def readLink (b : Block) : Act σ Link := do
  let slot ← b.linkSlot
  let word ← Act.load slot
  return Link.ofWord word

def writeLink (b : Block) (next : Link) : Act σ Unit := do
  let slot ← b.linkSlot
  Act.store slot (Link.toWord next)

def sizeAt (a : Addr) : Act σ Word := do
  let b ← ofPayload a
  b.readSize

/-! ### Laws -/

theorem readSize_of_size? {b : Block} {s : σ} {m : Ambient} {size : Word}
    (h : b.size? m.memory = some size) : b.readSize s m = ⟨.ok size, s, m.countRead⟩ :=
  Act.load_of_some h

theorem readLink_of_link? {b : Block} {s : σ} {m : Ambient} {next : Link}
    (h : b.link? m.memory = some next) : b.readLink s m = ⟨.ok next, s, m.countRead⟩ := by
  cases hs : b.linkSlot with
  | error e => simp [link?, hs] at h
  | ok slot =>
      obtain ⟨w, hw, rfl⟩ := Option.map_eq_some_iff.1 (by simpa [link?, hs] using h)
      have hl : (Act.check b.linkSlot : Act σ Addr) s m = ⟨.ok slot, s, m⟩ := by
        rw [hs]
        rfl
      exact (Act.bind_of_ok hl).trans (Act.bind_of_ok (Act.load_of_some hw))

theorem writeLink_of_hasWord {b : Block} {slot : Addr} {s : σ} {m : Ambient} {next : Link}
    (hs : b.linkSlot = .ok slot) (h : m.memory.HasWord slot) :
    b.writeLink next s m =
      ⟨.ok (), s, { m.countWrite with memory := m.memory.store slot (Link.toWord next) }⟩ := by
  have hl : (Act.check b.linkSlot : Act σ Addr) s m = ⟨.ok slot, s, m⟩ := by
    rw [hs]
    rfl
  exact (Act.bind_of_ok hl).trans (Act.store_of_hasWord h)

/-- A block whose link can be read has header and link in memory. -/
theorem header_le_of_link? {b : Block} {m : Memory} {next : Link} (h : b.link? m = some next) :
    b.header.toNat + 8 ≤ m.size := by
  cases hs : b.linkSlot with
  | error e => simp [link?, hs] at h
  | ok slot =>
      obtain ⟨w, hw, rfl⟩ := Option.map_eq_some_iff.1 (by simpa [link?, hs] using h)
      have hslot := payload_eq_ok_iff.1 hs
      have hin : m.HasWord slot := by
        refine Decidable.byContradiction fun hn => ?_
        rw [Memory.load?_eq_none_iff.2 hn] at hw
        cases hw
      rw [Memory.hasWord_iff] at hin
      omega

end Block

end LinearHeap
