/-
  LinearHeap/SizeClass.lean
  =========================
  **Padded sizes and their classes.**  Payload sizes are multiples of four, so a
  request is padded to the next one; a request for nothing still gets one word.
  Eight small sizes, 4 to 32 in steps of four, make up the classes that have a
  free chain of their own.
-/
import LinearHeap.Fault

namespace LinearHeap

/-- The payload size that serves a request: the next multiple of four, and at least one
    word. -/
def paddedSize (request : Word) : Except Fault Word :=
  if request.toNat + 3 < Word.bound then
    .ok (UInt32.ofNat (max ((request.toNat + 3) / 4 * 4) 4))
  else .error (.requestTooLarge request)

/-- One of the eight small sizes, by its position. -/
abbrev SizeClass := Fin 8

namespace SizeClass

def bytes (c : SizeClass) : Word := UInt32.ofNat (4 * (c.val + 1))

def ofSize? (size : Word) : Option SizeClass :=
  if h : size.toNat ≠ 0 ∧ size.toNat % 4 = 0 ∧ size.toNat ≤ 32 then
    some ⟨size.toNat / 4 - 1, by omega⟩
  else none

def ofIndex (i : Nat) : Except Fault SizeClass :=
  if h : i < 8 then .ok ⟨i, h⟩ else .error (.noSuchIndex 8 i)

def all : List SizeClass := List.finRange 8

end SizeClass

/-- A padded size is the least multiple of four that holds the request and one word. -/
theorem paddedSize_eq_ok {request size : Word} (h : paddedSize request = .ok size) :
    size.toNat % 4 = 0 ∧ 4 ≤ size.toNat ∧ request.toNat ≤ size.toNat ∧
      (size.toNat < request.toNat + 4 ∨ size.toNat = 4) := by
  by_cases hb : request.toNat + 3 < Word.bound
  · simp only [paddedSize, hb, if_true, Except.ok.injEq] at h
    subst h
    simp only [Word.bound] at hb
    rw [UInt32.toNat_ofNat']
    omega
  · simp [paddedSize, hb] at h

end LinearHeap
