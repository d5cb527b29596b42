/-
  LinearHeap/Session/Basic.lean
  =============================
  **A session: one guest's heap as the guest sees it.**  It answers the four
  functions of `Import`, counts the calls, and may keep a ledger.

  With a ledger, a drop is vetted before it reaches the heap, and a refused drop
  changes nothing but the counts.  A slice is vetted as a whole: its record must
  be live and of the size of a record, and the content it points at must be live
  and hold `length * element` bytes.  Without a ledger every call goes straight
  to the heap.
-/
import LinearHeap.Heap.Slice
import LinearHeap.Session.Tally

namespace LinearHeap

/-- One guest's heap, with a ledger if drops are vetted, and the call counts. -/
structure Session where
  heap : Heap
  ledger : Option Ledger := none
  tally : Tally := {}
  deriving DecidableEq

namespace Session

def heapPart : Act.Part Session Heap := ⟨heap, fun s h => { s with heap := h }⟩

def isTracking (s : Session) : Bool := s.ledger.isSome

/-! ### Opening -/

/-- What a session is opened with: the first byte past the guest's static data, and whether
    drops are vetted.  Guests are trusted unless a ledger is asked for. -/
structure Config where
  start : Addr := 0
  tracking : Bool := false
  deriving DecidableEq, Repr

/-- A session over a heap, with nothing called yet. -/
def startedOn {σ : Type} (h : Heap) (tracking : Bool) : Act σ Session := do
  Act.note (.sessionOpened h.start tracking)
  return { heap := h, ledger := if tracking then some {} else none }

/-- Opens a session on a new heap, whatever the memory. -/
def create {σ : Type} (config : Config) : Act σ (Except PlacementError Session) := do
  match ← Heap.create config.start with
  | .error e => return .error e
  | .ok h => return .ok (← startedOn h config.tracking)

/-- Opens a session on a new heap whose start lies inside the memory. -/
def createInside {σ : Type} (config : Config) : Act σ (Except PlacementError Session) := do
  match ← Heap.createInside config.start with
  | .error e => return .error e
  | .ok h => return .ok (← startedOn h config.tracking)

/-! ### Keeping the ledger -/

def record (f : Import) : Act Session Unit :=
  Act.update fun s => { s with tally := s.tally.record f }

/-- Enters an address that the heap has just handed out, with the size in its header. -/
def enter (a : Addr) : Act Session Unit := do
  if (← Act.own).isTracking then
    let size ← Block.sizeAt a
    Act.update fun s => { s with ledger := s.ledger.map (·.enter a size) }

/-- Strikes an address that the heap has just taken back. -/
def strike (a : Addr) : Act Session Unit :=
  Act.update fun s => { s with ledger := s.ledger.map (·.strike a) }

/-- Vets a free with a declared size; without a ledger every free passes. -/
def vetFree (s : Session) (a : Addr) (declared : Word) : Except Refusal Unit :=
  match s.ledger with
  | none => .ok ()
  | some l =>
      match l.vet s.heap a (some declared) with
      | .error cause => .error cause
      | .ok _ => .ok ()

/-- The product of two words, or the largest word where it leaves the address space. -/
def saturatingProduct (a b : Word) : Word :=
  UInt32.ofNat (min (a.toNat * b.toNat) (Word.bound - 1))

/-- Vets the free of a slice: its record, and then the content the record points at. -/
def vetSlice (handle : Addr) (element : Word) : Act Session (Except Refusal Unit) := do
  let s ← Act.own
  if !s.isTracking then return .ok ()
  else match s.vetFree handle SliceRecord.bytes with
    | .error cause => return .error cause
    | .ok () =>
        let slice ← SliceRecord.read handle
        return s.vetFree slice.data (saturatingProduct slice.length element)

/-- Refuses a call: it is counted and noted. -/
def refuse {α : Type} (f : Import) (cause : Refusal) : Act Session (Except Refusal α) := do
  Act.update fun s => { s with tally := s.tally.recordRefusal }
  Act.note (.callRefused f.name cause.message)
  return .error cause

/-! ### The four functions -/

def newObject (size : Word) : Act Session Addr := do
  record .newObject
  let a ← Act.within heapPart (Heap.allocate size)
  enter a
  return a

/-- Frees an object.  The declared size matters only to a ledger. -/
def dropObject (a : Addr) (size : Word) : Act Session (Except Refusal Unit) := do
  record .dropObject
  match (← Act.own).vetFree a size with
  | .error cause => refuse .dropObject cause
  | .ok () =>
      Act.within heapPart (Heap.free a)
      strike a
      return .ok ()

/-- Allocates a slice and returns the address of its record. -/
def newSlice (length element : Word) : Act Session Addr := do
  record .newSlice
  let handle ← Act.within heapPart (Heap.allocateSlice length element)
  if (← Act.own).isTracking then
    let slice ← SliceRecord.read handle
    enter handle
    enter slice.data
  return handle

/-- Frees a slice.  The element size matters only to a ledger. -/
def dropSlice (handle : Addr) (element : Word) : Act Session (Except Refusal Unit) := do
  record .dropSlice
  match ← vetSlice handle element with
  | .error cause => refuse .dropSlice cause
  | .ok () =>
      if (← Act.own).isTracking then
        let slice ← SliceRecord.read handle
        Act.within heapPart (Heap.freeSlice handle)
        strike slice.data
        strike handle
      else Act.within heapPart (Heap.freeSlice handle)
      return .ok ()

/-! ### Calls -/

/-- The answer to a drop, as the answer to a call. -/
def dropAnswer : Except Refusal Unit → Except CallError (Option Addr)
  | .ok () => .ok none
  | .error cause => .error (.refused cause)

/-- Answers a call: with an address, with nothing, or with the reason it was refused. -/
def answer : Call → Act Session (Except CallError (Option Addr))
  | .newObject size => do return .ok (some (← newObject size))
  | .dropObject a size => do return dropAnswer (← dropObject a size)
  | .newSlice length element => do return .ok (some (← newSlice length element))
  | .dropSlice handle element => do return dropAnswer (← dropSlice handle element)

/-- Executes an invocation, with its arguments looked up in their order. -/
def dispatch (v : Invocation) : Act Session (Except CallError (Option Addr)) :=
  match v.func with
  | .newObject => do
      let size ← v.arg 0
      return .ok (some (← newObject size))
  | .dropObject => do
      let a ← v.arg 0
      let size ← v.arg 1
      return dropAnswer (← dropObject a size)
  | .newSlice => do
      let length ← v.arg 0
      let element ← v.arg 1
      return .ok (some (← newSlice length element))
  | .dropSlice => do
      let handle ← v.arg 0
      let element ← v.arg 1
      return dropAnswer (← dropSlice handle element)

def call (name : String) (args : List Word) : Act Session (Except CallError (Option Addr)) :=
  match Call.ofName name args with
  | .error e => return .error e
  | .ok c => answer c

end Session

end LinearHeap
