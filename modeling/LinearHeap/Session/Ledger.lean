/-
  LinearHeap/Session/Ledger.lean
  ==============================
  **The ledger of a heap: which addresses are handed out.**  A heap trusts its
  caller; a ledger beside it remembers every payload address handed out, with the
  size its header held then, and every address freed since, so that a bad free
  can be refused before it reaches the heap.  A heap does not know whether there
  is a ledger.

  A free is vetted in this order: an address outside the carved region, an
  address that is not handed out (a double free if it once was), a declared size
  above the recorded one.
-/
import LinearHeap.Heap.Basic
import LinearHeap.SwapRemove

namespace LinearHeap

inductive Refusal where
  | unknownAddress (addr : Addr)
  /-- The address was handed out once and has been freed since. -/
  | doubleFree (addr : Addr)
  /-- The address lies outside the carved region `[start, frontier)`. -/
  | outsideHeap (addr start frontier : Addr)
  /-- The size declared exceeds the size of the block. -/
  | sizeMismatch (addr : Addr) (declared actual : Word)
  deriving DecidableEq, Repr

def Refusal.message : Refusal → String
  | .unknownAddress addr => s!"free of unknown address {Word.hex addr}"
  | .doubleFree addr => s!"double free of {Word.hex addr}"
  | .outsideHeap addr start frontier =>
      s!"address {Word.hex addr} is outside the heap [{Word.hex start}, {Word.hex frontier})"
  | .sizeMismatch addr declared actual =>
      s!"object at {Word.hex addr} dropped as {declared.toNat} bytes but holds {actual.toNat}"

structure Ledger where
  /-- Each address handed out and not freed, with its recorded size, in the order of being
      handed out except that removal moves the last entry into the hole. -/
  live : Array (Addr × Word) := #[]
  /-- Addresses handed out once and freed since. -/
  freed : List Addr := []
  deriving DecidableEq, Repr

namespace Ledger

def position? (l : Ledger) (a : Addr) : Option Nat := l.live.findIdx? fun e => e.1 == a

def size? (l : Ledger) (a : Addr) : Option Word :=
  (l.live.find? fun e => e.1 == a).map Prod.snd

def holds (l : Ledger) (a : Addr) : Bool := (l.size? a).isSome

/-- Enters an address that was handed out.  One that is live already keeps its place. -/
def enter (l : Ledger) (a : Addr) (size : Word) : Ledger where
  live := match l.position? a with
    | some i => l.live.setIfInBounds i (a, size)
    | none => l.live.push (a, size)
  freed := l.freed.filter (· != a)

/-- Strikes an address that was freed.  One that is not live stays as it is. -/
def strike (l : Ledger) (a : Addr) : Ledger :=
  match l.position? a with
  | some i => { live := swapRemove l.live i, freed := a :: l.freed.filter (· != a) }
  | none => l

/-- Vets the free of an address of a heap, with the size the caller declared if there is one,
    and returns the recorded size. -/
def vet (l : Ledger) (h : Heap) (a : Addr) (declared : Option Word) : Except Refusal Word :=
  if !h.holds a then .error (.outsideHeap a h.start h.frontier)
  else match l.size? a with
    | none => .error (if l.freed.contains a then .doubleFree a else .unknownAddress a)
    | some actual =>
        match declared with
        | some declared =>
            if actual < declared then .error (.sizeMismatch a declared actual) else .ok actual
        | none => .ok actual

def count (l : Ledger) : Nat := l.live.size

def bytes (l : Ledger) : Nat := l.live.foldl (fun n e => n + e.2.toNat) 0

/-! ### Laws -/

theorem exists_mem_of_size? {l : Ledger} {a : Addr} {size : Word} (h : l.size? a = some size) :
    (a, size) ∈ l.live := by
  obtain ⟨⟨b, n⟩, hf, rfl⟩ := Option.map_eq_some_iff.1 h
  have hb : b = a := by simpa using Array.find?_some hf
  subst hb
  exact Array.mem_of_find?_eq_some hf

/-- What passes is live and lies in the carved region. -/
theorem size?_of_vet {l : Ledger} {h : Heap} {a : Addr} {declared : Option Word} {size : Word}
    (hv : l.vet h a declared = .ok size) : h.holds a = true ∧ l.size? a = some size := by
  unfold vet at hv
  split at hv
  · cases hv
  · rename_i hin
    split at hv
    · cases hv
    · rename_i actual hs
      split at hv
      · split at hv
        · cases hv
        · cases hv
          exact ⟨by simpa using hin, hs⟩
      · cases hv
        exact ⟨by simpa using hin, hs⟩

theorem strike_of_position?_eq_none {l : Ledger} {a : Addr} (h : l.position? a = none) :
    l.strike a = l := by
  simp [strike, h]

end Ledger

end LinearHeap
