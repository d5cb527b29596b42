/-
  LinearHeap/Session/Call.lean
  ============================
  **What a guest may ask for.**  Four functions in one namespace, all of 32-bit
  words:

      new_object    size               payload address
      drop_object   addr, size         nothing
      new_slice     length, element    record address
      drop_slice    handle, element    nothing

  A guest calls by name with a list of words; the name is resolved first and the
  words are counted second.  An `Invocation` keeps them as the list that they
  came in, to be looked up by position; a `Call` is a function with its arguments
  told apart.
-/
import LinearHeap.Session.Ledger

namespace LinearHeap

inductive Import where
  | newObject
  | dropObject
  | newSlice
  | dropSlice
  deriving DecidableEq, Repr

namespace Import

def namespaceName : String := "core"

/-- All functions, in the order in which they are registered. -/
def all : List Import := [.newObject, .dropObject, .newSlice, .dropSlice]

def name : Import → String
  | .newObject => "new_object"
  | .dropObject => "drop_object"
  | .newSlice => "new_slice"
  | .dropSlice => "drop_slice"

def ofName? (name : String) : Option Import := all.find? fun f => f.name == name

def qualifiedName (f : Import) : String := namespaceName ++ "." ++ f.name

def arity : Import → Nat
  | .newObject => 1
  | .dropObject | .newSlice | .dropSlice => 2

def returnsAddress : Import → Bool
  | .newObject | .newSlice => true
  | .dropObject | .dropSlice => false

def position : Import → Nat
  | .newObject => 0
  | .dropObject => 1
  | .newSlice => 2
  | .dropSlice => 3

theorem ofName?_name (f : Import) : ofName? f.name = some f := by
  cases f <;> decide

theorem name_of_ofName? {name : String} {f : Import} (h : ofName? name = some f) :
    f.name = name := by
  simpa using List.find?_some h

theorem getElem?_position (f : Import) : all[f.position]? = some f := by
  cases f <;> rfl

end Import

inductive CallError where
  | noSuchImport (name : String)
  | wrongArity (name : String) (expected got : Nat)
  | refused (cause : Refusal)
  deriving DecidableEq, Repr

namespace CallError

def message : CallError → String
  | .noSuchImport name => s!"unknown import 'core.{name}'"
  | .wrongArity name expected got =>
      s!"import 'core.{name}' takes {expected} arguments, got {got}"
  | .refused cause => s!"rejected: {cause.message}"

def cause? : CallError → Option Refusal
  | .refused cause => some cause
  | _ => none

end CallError

/-- A function with a list of words. -/
structure Invocation where
  func : Import
  args : List Word
  deriving DecidableEq, Repr

namespace Invocation

/-- Counts the words. -/
def new (f : Import) (args : List Word) : Except CallError Invocation :=
  if args.length = f.arity then .ok ⟨f, args⟩
  else .error (.wrongArity f.name f.arity args.length)

/-- Resolves a name, and then counts the words. -/
def parse (name : String) (args : List Word) : Except CallError Invocation :=
  match Import.ofName? name with
  | some f => new f args
  | none => .error (.noSuchImport name)

/-- The argument at a position. -/
def arg (v : Invocation) (i : Nat) : Except Fault Word :=
  match v.args[i]? with
  | some w => .ok w
  | none => .error (.noSuchIndex v.args.length i)

end Invocation

inductive Call where
  | newObject (size : Word)
  | dropObject (addr : Addr) (size : Word)
  | newSlice (length element : Word)
  | dropSlice (handle : Addr) (element : Word)
  deriving DecidableEq, Repr

namespace Call

def func : Call → Import
  | .newObject .. => .newObject
  | .dropObject .. => .dropObject
  | .newSlice .. => .newSlice
  | .dropSlice .. => .dropSlice

def args : Call → List Word
  | .newObject size => [size]
  | .dropObject addr size => [addr, size]
  | .newSlice length element => [length, element]
  | .dropSlice handle element => [handle, element]

/-- The call of a function with a list of arguments, if their number is right. -/
def ofArgs : Import → List Word → Except CallError Call
  | .newObject, [size] => .ok (.newObject size)
  | .dropObject, [addr, size] => .ok (.dropObject addr size)
  | .newSlice, [length, element] => .ok (.newSlice length element)
  | .dropSlice, [handle, element] => .ok (.dropSlice handle element)
  | f, args => .error (.wrongArity f.name f.arity args.length)

/-- The call of a name with a list of arguments. -/
def ofName (name : String) (args : List Word) : Except CallError Call :=
  match Import.ofName? name with
  | some f => ofArgs f args
  | none => .error (.noSuchImport name)

/-- A call is made from its own function and arguments, and from no others. -/
theorem ofArgs_eq_ok_iff {f : Import} {args : List Word} {c : Call} :
    ofArgs f args = .ok c ↔ c.func = f ∧ c.args = args := by
  constructor
  · intro h
    unfold ofArgs at h
    split at h <;> cases h <;> exact ⟨rfl, rfl⟩
  · rintro ⟨rfl, rfl⟩
    cases c <;> rfl

/-- A name and arguments make a call exactly if they are the call's own. -/
theorem ofName_eq_ok_iff {name : String} {args : List Word} {c : Call} :
    ofName name args = .ok c ↔ c.func.name = name ∧ c.args = args := by
  unfold ofName
  constructor
  · intro h
    cases hf : Import.ofName? name with
    | none => rw [hf] at h; cases h
    | some f =>
        rw [hf] at h
        obtain ⟨rfl, ha⟩ := ofArgs_eq_ok_iff.1 h
        exact ⟨Import.name_of_ofName? hf, ha⟩
  · rintro ⟨rfl, ha⟩
    rw [Import.ofName?_name]
    exact ofArgs_eq_ok_iff.2 ⟨rfl, ha⟩

end Call

end LinearHeap
