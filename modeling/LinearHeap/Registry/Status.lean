/-
  LinearHeap/Registry/Status.lean
  ===============================
  **Status codes of the boundary.**  Zero is success and every failure is
  negative.  The codes are fixed: callers of other languages compare them.
-/
import LinearHeap.Session.Call

namespace LinearHeap

inductive Status where
  | ok
  /-- The handle was never issued, or its session has been closed. -/
  | noSession
  /-- A pointer is null, or the call could not be made out. -/
  | badArgument
  | badPlacement
  | unknownAddress
  | doubleFree
  | outsideHeap
  | sizeMismatch
  /-- The session was poisoned by an earlier fault. -/
  | poisoned
  | faulted
  deriving DecidableEq, Repr

namespace Status

def code : Status → Int
  | .ok => 0
  | .noSession => -1
  | .badArgument => -2
  | .badPlacement => -3
  | .unknownAddress => -4
  | .doubleFree => -5
  | .outsideHeap => -6
  | .sizeMismatch => -7
  | .poisoned => -20
  | .faulted => -128

def ofPlacementError : PlacementError → Status
  | .startOverflow .. | .startOutside .. => .badPlacement

def ofRefusal : Refusal → Status
  | .unknownAddress .. => .unknownAddress
  | .doubleFree .. => .doubleFree
  | .outsideHeap .. => .outsideHeap
  | .sizeMismatch .. => .sizeMismatch

def ofCallError : CallError → Status
  | .noSuchImport .. | .wrongArity .. => .badArgument
  | .refused cause => ofRefusal cause

def ofDrop : Except Refusal Unit → Status
  | .ok () => .ok
  | .error cause => ofRefusal cause

theorem code_injective {a b : Status} (h : a.code = b.code) : a = b := by
  cases a <;> cases b <;> first | rfl | exact absurd h (by decide)

/-- Whatever a call is refused for, its code is not that of a fault. -/
theorem ofCallError_ne_faulted (err : CallError) : ofCallError err ≠ .faulted := by
  rcases err with name | ⟨name, expected, got⟩ | cause
  · simp [ofCallError]
  · simp [ofCallError]
  · cases cause <;> simp [ofCallError, ofRefusal]

end Status

end LinearHeap
