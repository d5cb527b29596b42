/-
  LinearHeap/Registry/SlotTable.lean
  ==================================
  **Handles that are never valid twice.**  A value is stored in a slot, and its
  handle names the slot and the slot's generation.  Removing the value moves the
  slot to its next generation, so a handle kept after that finds nothing, whoever
  uses the slot next.

  Generations are words.  A slot whose generation comes round to zero again would
  reissue its first handle, so it is retired: it stays empty for good.
-/
import LinearHeap.Fault

namespace LinearHeap

structure Handle where
  slot : Word
  generation : Word
  deriving DecidableEq, Repr

namespace Handle

/-- The number of a handle: the slot in the high half, the generation in the low half. -/
def number (h : Handle) : UInt64 :=
  UInt64.ofNat (h.slot.toNat * Word.bound + h.generation.toNat)

def ofNumber (n : UInt64) : Handle :=
  ⟨UInt32.ofNat (n.toNat / Word.bound), UInt32.ofNat (n.toNat % Word.bound)⟩

theorem ofNumber_number (h : Handle) : ofNumber h.number = h := by
  rcases h with ⟨s, g⟩
  have hs := s.toNat_lt
  have hg := g.toNat_lt
  simp only [ofNumber, number, Word.bound, Handle.mk.injEq, ← UInt32.toNat_inj,
    UInt32.toNat_ofNat', UInt64.toNat_ofNat']
  omega

theorem number_ofNumber (n : UInt64) : (ofNumber n).number = n := by
  have hn := n.toNat_lt
  simp only [ofNumber, number, Word.bound, ← UInt64.toNat_inj,
    UInt32.toNat_ofNat', UInt64.toNat_ofNat']
  omega

end Handle

/-- One slot: its generation, and the value if it holds one. -/
structure Slot (α : Type) where
  generation : Word
  value : Option α
  deriving DecidableEq

structure SlotTable (α : Type) where
  /-- All slots there have been. -/
  slots : Array (Slot α) := #[]
  /-- Empty slots that may be used again, the one emptied last first. -/
  reusable : List Word := []
  occupied : Nat := 0
  deriving DecidableEq

namespace SlotTable

variable {α : Type}

/-- The slot of a handle, if its generation is still the handle's. -/
def slot? (t : SlotTable α) (h : Handle) : Option (Slot α) :=
  match t.slots[h.slot.toNat]? with
  | some s => if s.generation = h.generation then some s else none
  | none => none

def get? (t : SlotTable α) (h : Handle) : Option α :=
  match t.slot? h with
  | some s => s.value
  | none => none

/-- Stores a value, in the slot emptied last if there is one, and returns its handle. -/
def insert (t : SlotTable α) (a : α) : Handle × SlotTable α :=
  match t.reusable with
  | i :: rest =>
      let generation := match t.slots[i.toNat]? with
        | some s => s.generation
        | none => 0
      (⟨i, generation⟩,
        { slots := t.slots.setIfInBounds i.toNat ⟨generation, some a⟩
          reusable := rest
          occupied := t.occupied + 1 })
  | [] =>
      (⟨UInt32.ofNat t.slots.size, 0⟩,
        { t with slots := t.slots.push ⟨0, some a⟩, occupied := t.occupied + 1 })

/-- Takes the value of a handle out and ends the handle. -/
def remove (t : SlotTable α) (h : Handle) : Option α × SlotTable α :=
  match t.get? h with
  | some a =>
      let generation := h.generation + 1
      (some a,
        { slots := t.slots.setIfInBounds h.slot.toNat ⟨generation, none⟩
          reusable := if generation = 0 then t.reusable else h.slot :: t.reusable
          occupied := t.occupied - 1 })
  | none => (none, t)

def replace (t : SlotTable α) (h : Handle) (a : α) : SlotTable α :=
  match t.get? h with
  | some _ => { t with slots := t.slots.setIfInBounds h.slot.toNat ⟨h.generation, some a⟩ }
  | none => t

/-- Overwrites the generation of a slot, as if it had been used that often. -/
def setGeneration (t : SlotTable α) (i : Nat) (generation : Word) : Except Fault (SlotTable α) :=
  match t.slots[i]? with
  | some s => .ok { t with slots := t.slots.setIfInBounds i { s with generation := generation } }
  | none => .error (.noSuchIndex t.slots.size i)

def count (t : SlotTable α) : Nat := t.occupied

/-- A handle that has no value cannot be removed, and trying changes nothing. -/
theorem remove_of_get?_eq_none {t : SlotTable α} {h : Handle} (hn : t.get? h = none) :
    t.remove h = (none, t) := by
  simp [remove, hn]

end SlotTable

end LinearHeap
