/-
  LinearHeap/Heap/Slice.lean
  ==========================
  **Slices: a record of two words and the block it points at.**  A guest holds a
  slice by the payload address of its record.

      handle ─ ┌────────────────┬────────────────┐
               │ data           │ length         │
               └───────┬────────┴────────────────┘
                       └─ payload of `length * element` bytes

  Record and content are ordinary blocks.  The record is allocated first; a slice
  whose content cannot be allocated leaves the record behind.  Freeing reads the
  record, frees the content and then the record; how large the content is says
  its own header.
-/
import LinearHeap.Heap.Basic

namespace LinearHeap

structure SliceRecord where
  /-- Payload address of the content. -/
  data : Addr
  length : Word
  deriving DecidableEq, Repr

namespace SliceRecord

variable {σ : Type}

def bytes : Word := 8

def read (handle : Addr) : Act σ SliceRecord := do
  let data ← Act.load handle
  let lengthAt ← Word.sum handle 4
  let length ← Act.load lengthAt
  return ⟨data, length⟩

def write (r : SliceRecord) (handle : Addr) : Act σ Unit := do
  Act.store handle r.data
  let lengthAt ← Word.sum handle 4
  Act.store lengthAt r.length

end SliceRecord

namespace Heap

/-- The bytes of `length` elements of `element` bytes, inside the address space. -/
def contentSize (length element : Word) : Except Fault Word :=
  if length.toNat * element.toNat < Word.bound then .ok (length * element)
  else .error (.sliceTooLarge length element)

/-- Allocates a slice and returns the address of its record. -/
def allocateSlice (length element : Word) : Act Heap Addr := do
  let bytes ← contentSize length element
  let handle ← allocate SliceRecord.bytes
  let data ← allocate bytes
  SliceRecord.write ⟨data, length⟩ handle
  return handle

def freeSlice (handle : Addr) : Act Heap Unit := do
  let record ← SliceRecord.read handle
  free record.data
  free handle

end Heap

end LinearHeap
