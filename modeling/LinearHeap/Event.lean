/-
  LinearHeap/Event.lean
  =====================
  **The journal of a heap.**  Every change of the heap's shape, every session
  opened, every refused call and every fault caught at the boundary is noted as
  an event.  An event has a severity, a message and named fields; numbers stay
  numbers and everything else is text.
-/
import LinearHeap.Word

namespace LinearHeap

/-- How loud an event is. -/
inductive Severity where
  | trace
  | debug
  | warn
  | error
  deriving DecidableEq, Repr

def Severity.name : Severity → String
  | .trace => "TRACE"
  | .debug => "DEBUG"
  | .warn => "WARN"
  | .error => "ERROR"

inductive FieldValue where
  | number (n : Nat)
  | text (s : String)
  deriving DecidableEq, Repr

inductive Event where
  /-- A heap was created at `start` for the start that was requested. -/
  | heapCreated (requested start : Addr)
  /-- The block at `block` was carved out of the wilderness, which now ends at `frontier`. -/
  | blockCarved (block : Addr) (size : Word) (frontier : Addr)
  /-- The free block at `block` was cut down to `size`; the rest is a block at `remainder`. -/
  | blockSplit (block : Addr) (size : Word) (remainder : Addr) (remainderSize : Word)
  /-- The block at `block` joined a free chain. -/
  | blockFreed (block : Addr) (size : Word)
  /-- A session was opened over a heap at `start`, with or without a ledger. -/
  | sessionOpened (start : Addr) (tracking : Bool)
  /-- A call of the named import was refused for the reason given. -/
  | callRefused (name : String) (reason : String)
  /-- A fault with this text was stopped at the boundary. -/
  | faultCaught (text : String)
  deriving DecidableEq, Repr

namespace Event

def severity : Event → Severity
  | .heapCreated .. | .sessionOpened .. => .debug
  | .blockCarved .. | .blockSplit .. | .blockFreed .. => .trace
  | .callRefused .. => .warn
  | .faultCaught .. => .error

def message : Event → String
  | .heapCreated .. => "guest heap created"
  | .blockCarved .. => "wilderness grown"
  | .blockSplit .. => "split free block"
  | .blockFreed .. => "block freed"
  | .sessionOpened .. => "host context created"
  | .callRefused .. => "import call rejected"
  | .faultCaught .. => "panic caught at C boundary"

/-- The fields of an event besides its message.  A caught fault brings its own text as a
    second field named `message`. -/
def details : Event → List (String × FieldValue)
  | .heapCreated requested start =>
      [("requested", .number requested.toNat), ("heap_start", .number start.toNat)]
  | .blockCarved block size frontier =>
      [("block", .number block.toNat), ("size", .number size.toNat),
        ("heap_end", .number frontier.toNat)]
  | .blockSplit block size remainder remainderSize =>
      [("block", .number block.toNat), ("size", .number size.toNat),
        ("remainder", .number remainder.toNat), ("remainder_size", .number remainderSize.toNat)]
  | .blockFreed block size => [("block", .number block.toNat), ("size", .number size.toNat)]
  | .sessionOpened start tracking =>
      [("heap_start", .number start.toNat),
        ("validation", .text (if tracking then "Track" else "Off"))]
  | .callRefused name reason => [("import", .text name), ("error", .text reason)]
  | .faultCaught text => [("message", .text text)]

/-- All fields of an event: its message, then its details. -/
def fields (e : Event) : List (String × FieldValue) :=
  ("message", .text e.message) :: e.details

end Event

end LinearHeap
