/-
  LinearHeap/Registry/Basic.lean
  ==============================
  **The boundary: sessions behind handles.**  Callers that cannot hold a session
  hold a handle to it; each call brings the handle, the guest's memory, and
  variables for its answers.  Memory and variables may be missing (null
  pointers), and handles may be anything.

  The checks of a call come in this order: a missing variable, a handle without a
  session, a missing memory, a session poisoned by an earlier fault.  A call that
  fails a check has no effect.  A call that faults keeps what it has done to
  memory, answers nothing, and poisons its session: from then on the session can
  only be closed.  The text of the last fault stopped here can be asked for until
  the next one.
-/
import LinearHeap.Session.Basic
import LinearHeap.Registry.SlotTable
import LinearHeap.Registry.Status

namespace LinearHeap

/-- A session behind a handle. -/
structure Seat where
  session : Session
  /-- A call on the session has faulted. -/
  poisoned : Bool := false
  deriving DecidableEq

/-- All sessions behind handles, and the text of the last fault stopped. -/
structure Registry where
  seats : SlotTable Seat := {}
  lastFault : String := ""
  deriving DecidableEq

/-- What a call over the boundary leaves behind.  A variable or memory that was missing stays
    missing. -/
structure Reply (α : Type) where
  status : Status
  out : α
  memory : Option Memory := none
  registry : Registry
  journal : Array Event := #[]

structure Snapshot where
  counters : Counters := {}
  tally : Tally := {}
  start : Addr := 0
  frontier : Addr := 0
  deriving DecidableEq, Repr

def Session.snapshot (s : Session) : Snapshot where
  counters := s.heap.counters
  tally := s.tally
  start := s.heap.start
  frontier := s.heap.frontier

namespace Registry

/-! ### Opening and closing -/

/-- Opens a session on a new heap and writes its handle to the caller's variable. -/
def openSession (r : Registry) (config : Session.Config) (out : Option Handle) :
    Reply (Option Handle) :=
  match out with
  | none => { status := .badArgument, out := none, registry := r }
  | some old =>
      let opened := (Session.create config : Act Unit _).runOn () (.zeros 0)
      match opened.result with
      | .ok (.ok session) =>
          let (handle, seats) := r.seats.insert { session := session }
          { status := .ok, out := some handle, registry := { r with seats := seats }
            journal := opened.ambient.journal }
      | .ok (.error e) =>
          { status := .ofPlacementError e, out := some old, registry := r
            journal := opened.ambient.journal }
      | .error e =>
          { status := .faulted, out := some old, registry := { r with lastFault := e.message }
            journal := opened.ambient.journal.push (.faultCaught e.message) }

/-- Closes the session of a handle, poisoned or not. -/
def closeSession (r : Registry) (handle : Handle) : Reply Unit :=
  match r.seats.remove handle with
  | (some _, seats) => { status := .ok, out := (), registry := { r with seats := seats } }
  | (none, _) => { status := .noSession, out := (), registry := r }

def sessionCount (r : Registry) : Nat := r.seats.count

/-! ### Calls on a session -/

/-- Runs an act on the session of a handle and the caller's memory.  The answer is the act's
    value, or the status that says why there is none. -/
def serve {α : Type} (r : Registry) (handle : Handle) (memory : Option Memory)
    (act : Act Session α) : Reply (Except Status α) :=
  match r.seats.get? handle with
  | none =>
      { status := .noSession, out := .error .noSession, memory := memory, registry := r }
  | some seat =>
      match memory with
      | none => { status := .badArgument, out := .error .badArgument, registry := r }
      | some m =>
          if seat.poisoned then
            { status := .poisoned, out := .error .poisoned, memory := some m
              registry := r }
          else
            match act.runOn seat.session m with
            | ⟨.ok a, session, ambient⟩ =>
                { status := .ok, out := .ok a, memory := some ambient.memory
                  registry := { r with seats := r.seats.replace handle { session := session } }
                  journal := ambient.journal }
            | ⟨.error e, session, ambient⟩ =>
                { status := .faulted, out := .error .faulted, memory := some ambient.memory
                  registry :=
                    { seats := r.seats.replace handle { session := session, poisoned := true }
                      lastFault := e.message }
                  journal := ambient.journal.push (.faultCaught e.message) }

/-- Runs an act that returns an address, and writes the address to the caller's variable. -/
def serveAddress (r : Registry) (handle : Handle) (memory : Option Memory)
    (act : Act Session Addr) (out : Option Addr) : Reply (Option Addr) :=
  match out with
  | none => { status := .badArgument, out := none, memory := memory, registry := r }
  | some old =>
      let reply := r.serve handle memory act
      match reply.out with
      | .ok a => { reply with status := .ok, out := some a }
      | .error status => { reply with status := status, out := some old }

def serveDrop (r : Registry) (handle : Handle) (memory : Option Memory)
    (act : Act Session (Except Refusal Unit)) : Reply Unit :=
  let reply := r.serve handle memory act
  match reply.out with
  | .ok answer => { reply with status := .ofDrop answer, out := () }
  | .error status => { reply with status := status, out := () }

def newObject (r : Registry) (handle : Handle) (memory : Option Memory) (size : Word)
    (out : Option Addr) : Reply (Option Addr) :=
  r.serveAddress handle memory (Session.newObject size) out

def dropObject (r : Registry) (handle : Handle) (memory : Option Memory) (a : Addr)
    (size : Word) : Reply Unit :=
  r.serveDrop handle memory (Session.dropObject a size)

def newSlice (r : Registry) (handle : Handle) (memory : Option Memory) (length element : Word)
    (out : Option Addr) : Reply (Option Addr) :=
  r.serveAddress handle memory (Session.newSlice length element) out

def dropSlice (r : Registry) (handle : Handle) (memory : Option Memory) (a : Addr)
    (element : Word) : Reply Unit :=
  r.serveDrop handle memory (Session.dropSlice a element)

/-! ### Looking at a session -/

/-- The session of a handle, unless it is poisoned. -/
def session? (r : Registry) (handle : Handle) : Except Status Session :=
  match r.seats.get? handle with
  | none => .error .noSession
  | some seat => if seat.poisoned then .error .poisoned else .ok seat.session

def readBounds (r : Registry) (handle : Handle) (start frontier : Option Addr) :
    Reply (Option Addr × Option Addr) :=
  match start, frontier with
  | some _, some _ =>
      match r.session? handle with
      | .ok s =>
          { status := .ok, out := (some s.heap.start, some s.heap.frontier), registry := r }
      | .error status => { status := status, out := (start, frontier), registry := r }
  | _, _ => { status := .badArgument, out := (start, frontier), registry := r }

def readCounters (r : Registry) (handle : Handle) (out : Option Snapshot) : Reply (Option Snapshot) :=
  match out with
  | none => { status := .badArgument, out := none, registry := r }
  | some old =>
      match r.session? handle with
      | .ok s => { status := .ok, out := some s.snapshot, registry := r }
      | .error status => { status := status, out := some old, registry := r }

/-! ### The last fault -/

/-- The largest length that the boundary can report. -/
def lengthLimit : Nat := 2147483647

/-- The length in bytes of the text of the last fault, zero if there was none. -/
def lastFaultLength (r : Registry) : Nat := min r.lastFault.utf8ByteSize lengthLimit

/-- A buffer after the text of the last fault was copied into its first `capacity` bytes: as
    much of the text as leaves room for a zero byte, then that zero byte.  A missing buffer
    and a capacity of zero take nothing. -/
def lastFaultInto (r : Registry) (buffer : Option (List UInt8)) (capacity : Nat) :
    Option (List UInt8) :=
  match buffer, capacity with
  | some old, room + 1 =>
      let copied := r.lastFault.toUTF8.toList.take room ++ [0]
      some (copied ++ old.drop copied.length)
  | _, _ => buffer

end Registry

end LinearHeap
