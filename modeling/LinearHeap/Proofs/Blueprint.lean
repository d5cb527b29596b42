/-
  LinearHeap/Proofs/Blueprint.lean
  ================================
  **A run of the list allocator.**  A blueprint goes through the same actions as a
  tenancy without a byte of memory: an inventory, the length that memory would
  have, and the slices.  What a guest writes does not reach it at all.

  `Touches` is the blueprint's bound on what an action may change in memory.
-/
import LinearHeap.Proofs.Tenancy

namespace LinearHeap

structure Blueprint where
  inventory : Inventory
  /-- The length of the memory. -/
  room : Nat
  /-- Record and content of each slice. -/
  slices : List (Nat × Nat) := []

namespace Blueprint

def fresh (start room : Nat) : Blueprint := { inventory := .fresh start, room := room }

/-- What the action hands out, the latest first, and the inventory it leaves. -/
def effect (p : Blueprint) : Action → List Extent × Inventory
  | .allocate request =>
      match p.inventory.allocate p.room request.toNat with
      | some (e, left) => ([e], left)
      | none => ([], p.inventory)
  | .allocateSlice length element =>
      p.inventory.allocateSlice p.room length.toNat element.toNat
  | .free a => ([], p.inventory.free a.toNat)
  | .freeSlice handle =>
      match p.slices.lookup handle.toNat with
      | some data => ([], (p.inventory.free data).free handle.toNat)
      | none => ([], p.inventory)
  | .write _ | .grow _ => ([], p.inventory)

/-- The address that answers the action, if it is an allocation; `none` for a fault. -/
def answer (p : Blueprint) : Action → Option (Option Nat)
  | .allocate request =>
      match (p.effect (.allocate request)).1 with
      | [e] => some (some e.payload)
      | _ => none
  | .allocateSlice length element =>
      match (p.effect (.allocateSlice length element)).1 with
      | [_, record] => some (some record.payload)
      | _ => none
  | .free _ | .freeSlice _ | .write _ | .grow _ => some none

theorem answer_allocateSlice_of_ne {p : Blueprint} {length element : Word}
    (h : (p.effect (.allocateSlice length element)).1.length ≠ 2) :
    p.answer (.allocateSlice length element) = none := by
  generalize hlent : (p.effect (.allocateSlice length element)).1 = lent at h
  simp only [answer, hlent]
  match lent, h with
  | [], _ => rfl
  | [_], _ => rfl
  | [_, _], h => exact absurd rfl h
  | _ :: _ :: _ :: _, _ => rfl

/-- Payload addresses that the action gives back. -/
def released (p : Blueprint) : Action → List Nat
  | .free a => [a.toNat]
  | .freeSlice handle =>
      match p.slices.lookup handle.toNat with
      | some data => [data, handle.toNat]
      | none => []
  | _ => []

/-- What stays out. -/
def kept (p : Blueprint) (a : Action) : List Extent :=
  p.inventory.live.filter fun e => e.payload ∉ p.released a

theorem kept_of_released_eq_nil {p : Blueprint} {a : Action} (h : p.released a = []) :
    p.kept a = p.inventory.live := by
  simp only [kept, h, List.not_mem_nil, not_false_eq_true, decide_true, List.filter_true]

theorem mem_kept_iff {p : Blueprint} {a : Action} {e : Extent} :
    e ∈ p.kept a ↔ e ∈ p.inventory.live ∧ e.payload ∉ p.released a := by
  simp only [kept, List.mem_filter, decide_eq_true_eq]

def formed (p : Blueprint) (a : Action) : List (Nat × Nat) :=
  match (p.effect a).1 with
  | [content, record] => [(record.payload, content.payload)]
  | _ => []

def step (p : Blueprint) (a : Action) : Blueprint where
  inventory := (p.effect a).2
  room :=
    match a with
    | .write after | .grow after => after.size
    | _ => p.room
  slices := p.formed a ++ p.slices.filter fun x => x.1 ∉ p.released a ∧ x.2 ∉ p.released a

def run (p : Blueprint) (as : List Action) : Blueprint := as.foldl step p

def answers (p : Blueprint) : List Action → List (Option (Option Nat))
  | [] => []
  | a :: as => p.answer a :: (p.step a).answers as

/-- The bytes that the action may change: an allocation those that nothing handed out owns, a
    release the links of what comes back, a guest those of its payloads, records apart. -/
def Touches (p : Blueprint) (a : Action) (i : Nat) : Prop :=
  match a with
  | .allocate _ | .allocateSlice .. => p.inventory.Vacant (p.effect a).2.frontier i
  | .free _ | .freeSlice _ => ∃ q ∈ p.released a, q ≤ i ∧ i < q + 4
  | .write _ => ∃ e ∈ p.inventory.live, e.payload ∉ p.slices.map Prod.fst ∧ e.payload ≤ i ∧
      i < e.stop
  | .grow _ => p.room ≤ i

/-- The record of the slice is where it should be, and names the content. -/
def Keeps (p : Blueprint) (m : Memory) (x : Nat × Nat) : Prop :=
  ∃ record ∈ p.inventory.live, ∃ content ∈ p.inventory.live, record ≠ content ∧
    record.payload = x.1 ∧ content.payload = x.2 ∧ 8 ≤ record.size ∧
    m.Holds x.1 (UInt32.ofNat x.2)

end Blueprint

end LinearHeap
