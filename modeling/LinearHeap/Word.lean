/-
  LinearHeap/Word.lean
  ====================
  **Words of a 32-bit address space.**  Addresses, sizes and memory contents are
  all 32-bit words.  The heap computes with them in unbounded arithmetic and
  treats a result that leaves the space as a fault, so nothing here wraps.  For
  sums this is an assumption about how a heap is built; `Fault.lean` says which.

  A word is stored as four bytes, least significant first: `byte w k` is the
  `k`-th of them and `ofBytes` puts four bytes back together.
-/

namespace LinearHeap

abbrev Word := UInt32

/-- An address of a byte in a 32-bit address space. -/
abbrev Addr := Word

namespace Word

/-- The number of words; a sum or product that reaches it has left the address space. -/
def bound : Nat := 4294967296

/-- The number of 64-bit counts; a total that reaches it cannot be reported. -/
def countBound : Nat := 18446744073709551616

/-- Hexadecimal text of a word: `0x` and its lower-case digits. -/
def hex (w : Word) : String := "0x" ++ String.ofList (Nat.toDigits 16 w.toNat)

/-! ### Bytes of a word -/

/-- The `k`-th byte of a word, the least significant first; zero from the fifth on. -/
def byte (w : Word) (k : Nat) : UInt8 := UInt8.ofNat (w.toNat >>> (8 * k))

def ofBytes (b₀ b₁ b₂ b₃ : UInt8) : Word :=
  UInt32.ofNat (b₀.toNat + 256 * b₁.toNat + 65536 * b₂.toNat + 16777216 * b₃.toNat)

theorem toNat_ofBytes (b₀ b₁ b₂ b₃ : UInt8) :
    (ofBytes b₀ b₁ b₂ b₃).toNat =
      b₀.toNat + 256 * b₁.toNat + 65536 * b₂.toNat + 16777216 * b₃.toNat := by
  have h₀ := b₀.toNat_lt
  have h₁ := b₁.toNat_lt
  have h₂ := b₂.toNat_lt
  have h₃ := b₃.toNat_lt
  rw [ofBytes, UInt32.toNat_ofNat']
  omega

theorem toNat_byte (w : Word) (k : Nat) : (byte w k).toNat = w.toNat >>> (8 * k) % 256 := by
  rw [byte, UInt8.toNat_ofNat']

theorem ofBytes_byte (w : Word) : ofBytes (byte w 0) (byte w 1) (byte w 2) (byte w 3) = w := by
  apply UInt32.toNat_inj.1
  have h := w.toNat_lt
  simp only [toNat_ofBytes, toNat_byte, Nat.shiftRight_eq_div_pow]
  omega

/-- The bytes of a word put together are the bytes it was put together from. -/
theorem byte_ofBytes (b₀ b₁ b₂ b₃ : UInt8) :
    byte (ofBytes b₀ b₁ b₂ b₃) 0 = b₀ ∧ byte (ofBytes b₀ b₁ b₂ b₃) 1 = b₁ ∧
      byte (ofBytes b₀ b₁ b₂ b₃) 2 = b₂ ∧ byte (ofBytes b₀ b₁ b₂ b₃) 3 = b₃ := by
  have h₀ := b₀.toNat_lt
  have h₁ := b₁.toNat_lt
  have h₂ := b₂.toNat_lt
  have h₃ := b₃.toNat_lt
  simp only [← UInt8.toNat_inj, toNat_byte, toNat_ofBytes, Nat.shiftRight_eq_div_pow]
  omega

end Word

end LinearHeap
