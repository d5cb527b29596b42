/-
  LinearHeap/Session/Tally.lean
  =============================
  **Call counts of a session.**  Each call counts for its function, whether it is
  answered, refused or stopped by a fault; refusals are counted once more on
  their own.

  The counts, and their total, are unbounded.  A session that keeps them in 64
  bits has the same ones until one of them reaches `Word.countBound`.
-/
import LinearHeap.Session.Call

namespace LinearHeap

/-- How often each function was called, and how often a call was refused. -/
structure Tally where
  newObject : Nat := 0
  dropObject : Nat := 0
  newSlice : Nat := 0
  dropSlice : Nat := 0
  refused : Nat := 0
  deriving DecidableEq, Repr

namespace Tally

def record (t : Tally) : Import → Tally
  | .newObject => { t with newObject := t.newObject + 1 }
  | .dropObject => { t with dropObject := t.dropObject + 1 }
  | .newSlice => { t with newSlice := t.newSlice + 1 }
  | .dropSlice => { t with dropSlice := t.dropSlice + 1 }

def recordRefusal (t : Tally) : Tally := { t with refused := t.refused + 1 }

def calls (t : Tally) : Import → Nat
  | .newObject => t.newObject
  | .dropObject => t.dropObject
  | .newSlice => t.newSlice
  | .dropSlice => t.dropSlice

def total (t : Tally) : Nat := (Import.all.map t.calls).foldr (· + ·) 0

/-- A call counts for its own function only. -/
theorem calls_record (t : Tally) (f g : Import) :
    (t.record f).calls g = t.calls g + if f = g then 1 else 0 := by
  cases f <;> cases g <;> rfl

theorem total_record (t : Tally) (f : Import) : (t.record f).total = t.total + 1 := by
  cases f <;> simp [total, Import.all, calls, record] <;> omega

end Tally

end LinearHeap
