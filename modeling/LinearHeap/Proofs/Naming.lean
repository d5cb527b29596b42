/-
  LinearHeap/Proofs/Naming.lean
  =============================
  **Calling by name is calling by method.**  A guest that calls by name with a
  list of words comes to the very outcome of the method that the name stands for,
  on the words in their order: the same value, refusal or fault, the same session,
  memory and journal.  A name that stands for nothing, or a wrong number of words,
  is declined before anything is touched.

  A name and its words reach the session by two ways: as an invocation, whose
  words are looked up by position when it is executed, and as a typed call.  They
  agree on what they decline (`Invocation.parse_eq`) and on what they execute
  (`Session.dispatch_eq_answer`), so that a session that is driven by name, or by
  invocations, and the same session driven by its methods are one.
-/
import LinearHeap.Proofs.Refusals

namespace LinearHeap

/-! ### Methods -/

/-- The outcome with another value; its fault and the states it leaves stay. -/
def Outcome.map {σ α β : Type} (f : α → β) (o : Outcome σ α) : Outcome σ β :=
  ⟨o.result.map f, o.own, o.ambient⟩

theorem Act.bind_pure_eq {σ α β : Type} (x : Act σ α) (f : α → β) (s : σ) (m : Ambient) :
    (x >>= fun a => pure (f a)) s m = (x s m).map f := by
  rw [bind_eq]
  rcases x s m with ⟨result, s', m'⟩
  cases result <;> rfl

/-- The method that a typed call stands for: allocations give an address, and drops nothing or
    the cause of a refusal. -/
def Session.method (c : Call) (s : Session) (m : Ambient) :
    Outcome Session (Except CallError (Option Addr)) :=
  match c with
  | .newObject size => (newObject size s m).map fun a => .ok (some a)
  | .dropObject a size => (dropObject a size s m).map dropAnswer
  | .newSlice length element => (newSlice length element s m).map fun handle => .ok (some handle)
  | .dropSlice handle element => (dropSlice handle element s m).map dropAnswer

theorem Session.answer_eq_method (c : Call) (s : Session) (m : Ambient) :
    answer c s m = method c s m := by
  cases c with
  | newObject size => exact Act.bind_pure_eq (newObject size) _ s m
  | dropObject a size => exact Act.bind_pure_eq (dropObject a size) _ s m
  | newSlice length element => exact Act.bind_pure_eq (newSlice length element) _ s m
  | dropSlice handle element => exact Act.bind_pure_eq (dropSlice handle element) _ s m

/-- A method that declines does so with a refusal. -/
theorem Session.exists_cause_of_method {c : Call} {s : Session} {m : Ambient} {err : CallError}
    (h : (method c s m).result = .ok (.error err)) : ∃ cause, err = .refused cause := by
  rw [← answer_eq_method] at h
  exact (answer_refused h).1

/-! ### Names -/

namespace Call

/-- How a call is made by name. -/
def spelling : Call → String × List Word
  | .newObject size => ("new_object", [size])
  | .dropObject a size => ("drop_object", [a, size])
  | .newSlice length element => ("new_slice", [length, element])
  | .dropSlice handle element => ("drop_slice", [handle, element])

theorem spelling_eq (c : Call) : c.spelling = (c.func.name, c.args) := by cases c <;> rfl

theorem length_args (c : Call) : c.args.length = c.func.arity := by cases c <;> rfl

theorem ofName_eq_ok_iff_spelling {name : String} {args : List Word} {c : Call} :
    ofName name args = .ok c ↔ c.spelling = (name, args) := by
  rw [ofName_eq_ok_iff, spelling_eq, Prod.mk.injEq]

theorem ofArgs_of_length_ne {f : Import} {args : List Word} (h : args.length ≠ f.arity) :
    ofArgs f args = .error (.wrongArity f.name f.arity args.length) := by
  unfold ofArgs
  split
  · exact absurd rfl h
  · exact absurd rfl h
  · exact absurd rfl h
  · exact absurd rfl h
  · rfl

theorem exists_ofArgs {f : Import} {args : List Word} (h : args.length = f.arity) :
    ∃ c, ofArgs f args = .ok c := by
  cases f with
  | newObject =>
      obtain ⟨size, rfl⟩ := List.length_eq_one_iff.1 h
      exact ⟨_, rfl⟩
  | dropObject =>
      obtain ⟨a, size, rfl⟩ := List.length_eq_two.1 h
      exact ⟨_, rfl⟩
  | newSlice =>
      obtain ⟨length, element, rfl⟩ := List.length_eq_two.1 h
      exact ⟨_, rfl⟩
  | dropSlice =>
      obtain ⟨handle, element, rfl⟩ := List.length_eq_two.1 h
      exact ⟨_, rfl⟩

end Call

theorem Import.name_injective : Function.Injective name := by
  intro f g h
  have hg := ofName?_name g
  rw [← h, ofName?_name] at hg
  exact Option.some.inj hg

theorem Import.ofName?_eq_none_iff {name : String} :
    ofName? name = none ↔ ∀ f : Import, f.name ≠ name := by
  constructor
  · rintro h f rfl
    rw [ofName?_name] at h
    cases h
  · intro h
    cases hf : ofName? name with
    | none => rfl
    | some f => exact absurd (name_of_ofName? hf) (h f)

/-! ### Invocations -/

namespace Invocation

theorem new_eq (f : Import) (args : List Word) :
    new f args = (Call.ofArgs f args).map fun c => ⟨c.func, c.args⟩ := by
  unfold new
  split
  · rename_i hcount
    obtain ⟨c, hc⟩ := Call.exists_ofArgs hcount
    obtain ⟨hfunc, hargs⟩ := Call.ofArgs_eq_ok_iff.1 hc
    rw [hc, Except.map, hfunc, hargs]
  · rename_i hcount
    rw [Call.ofArgs_of_length_ne hcount]
    rfl

/-- An invocation and a typed call are made of the same names and words, and declined alike. -/
theorem parse_eq (name : String) (args : List Word) :
    parse name args = (Call.ofName name args).map fun c => ⟨c.func, c.args⟩ := by
  unfold parse Call.ofName
  cases Import.ofName? name with
  | none => rfl
  | some f => exact new_eq f args

theorem exists_of_parse {name : String} {args : List Word} {v : Invocation}
    (h : parse name args = .ok v) :
    ∃ c, Call.ofName name args = .ok c ∧ v = ⟨c.func, c.args⟩ := by
  rw [parse_eq] at h
  cases hc : Call.ofName name args with
  | error err =>
      rw [hc] at h
      cases h
  | ok c =>
      rw [hc] at h
      cases h
      exact ⟨c, rfl, rfl⟩

/-- Once the words were counted, every argument of the function is among them, in their order. -/
theorem arg_of_parse {name : String} {args : List Word} {v : Invocation}
    (h : parse name args = .ok v) :
    ∀ i < v.func.arity, ∃ w, args[i]? = some w ∧ v.arg i = .ok w := by
  obtain ⟨c, hc, rfl⟩ := exists_of_parse h
  obtain ⟨-, rfl⟩ := Call.ofName_eq_ok_iff.1 hc
  intro i hi
  have hword : c.args[i]? = some _ := List.getElem?_eq_getElem (c.length_args ▸ hi)
  refine ⟨_, hword, ?_⟩
  simp only [arg, hword]

end Invocation

namespace Session

variable {s : Session} {m : Ambient} {name : String} {args : List Word}

/-- The words of a call, looked up by position, are its arguments. -/
theorem dispatch_eq_answer (c : Call) : dispatch ⟨c.func, c.args⟩ = answer c := by
  cases c <;> rfl

theorem dispatch_of_ofArgs {v : Invocation} {c : Call} (h : Call.ofArgs v.func v.args = .ok c) :
    dispatch v = answer c := by
  obtain ⟨hfunc, hargs⟩ := Call.ofArgs_eq_ok_iff.1 h
  rw [← dispatch_eq_answer, hfunc, hargs]

/-- Without its words an invocation faults. -/
example : (dispatch ⟨.dropObject, [4]⟩ { heap := .empty 0 } { memory := .zeros 64 }).result =
    .error (.noSuchIndex 1 1) := rfl

/-- What a name and its words come to: they are declined, or are those of a typed call. -/
theorem call_eq (name : String) (args : List Word) (s : Session) (m : Ambient) :
    call name args s m =
      match Call.ofName name args with
      | .error err => ⟨.ok (.error err), s, m⟩
      | .ok c => method c s m := by
  unfold call
  cases Call.ofName name args with
  | error err => rfl
  | ok c => exact answer_eq_method c s m

theorem call_eq_of_parse (name : String) (args : List Word) (s : Session) (m : Ambient) :
    call name args s m =
      match Invocation.parse name args with
      | .error err => ⟨.ok (.error err), s, m⟩
      | .ok v => dispatch v s m := by
  rw [call_eq, Invocation.parse_eq]
  cases Call.ofName name args with
  | error err => rfl
  | ok c =>
      show method c s m = dispatch ⟨c.func, c.args⟩ s m
      rw [dispatch_eq_answer, answer_eq_method]

end Session

/-- A name and its words are declined because no function has the name, or because the function
    that has it takes another number of words, or they spell a call. -/
theorem Call.ofName_cases (name : String) (args : List Word) :
    (ofName name args = .error (.noSuchImport name) ∧ ∀ f : Import, f.name ≠ name) ∨
    (∃ f : Import, f.name = name ∧ args.length ≠ f.arity ∧
      ofName name args = .error (.wrongArity name f.arity args.length)) ∨
    ∃ f : Import, f.name = name ∧ args.length = f.arity ∧ ∃ c, ofName name args = .ok c := by
  cases hf : Import.ofName? name with
  | none =>
      refine Or.inl ⟨?_, Import.ofName?_eq_none_iff.1 hf⟩
      rw [ofName, hf]
  | some f =>
      have hofName : ofName name args = ofArgs f args := by rw [ofName, hf]
      obtain rfl := Import.name_of_ofName? hf
      rw [hofName]
      by_cases hcount : args.length = f.arity
      · exact Or.inr (Or.inr ⟨f, rfl, hcount, exists_ofArgs hcount⟩)
      · exact Or.inr (Or.inl ⟨f, rfl, hcount, ofArgs_of_length_ne hcount⟩)

theorem Call.exists_spelling_iff {name : String} {args : List Word} :
    (∃ f : Import, f.name = name ∧ args.length = f.arity) ↔
      ∃ c : Call, c.spelling = (name, args) := by
  constructor
  · rintro ⟨f, rfl, hcount⟩
    obtain ⟨c, hc⟩ := exists_ofArgs hcount
    obtain ⟨rfl, rfl⟩ := ofArgs_eq_ok_iff.1 hc
    exact ⟨c, c.spelling_eq⟩
  · rintro ⟨c, hc⟩
    rw [spelling_eq, Prod.mk.injEq] at hc
    obtain ⟨rfl, rfl⟩ := hc
    exact ⟨c.func, rfl, c.length_args⟩

namespace Session

variable {s : Session} {m : Ambient} {name : String} {args : List Word}

theorem call_of_unknown (h : ∀ f : Import, f.name ≠ name) :
    call name args s m = ⟨.ok (.error (.noSuchImport name)), s, m⟩ := by
  rw [call_eq, Call.ofName, Import.ofName?_eq_none_iff.2 h]

theorem call_of_length_ne {f : Import} (h : args.length ≠ f.arity) :
    call f.name args s m = ⟨.ok (.error (.wrongArity f.name f.arity args.length)), s, m⟩ := by
  have hc : Call.ofName f.name args = .error (.wrongArity f.name f.arity args.length) := by
    rw [Call.ofName, Import.ofName?_name]
    exact Call.ofArgs_of_length_ne h
  rw [call_eq, hc]

theorem call_of_spelling (c : Call) (s : Session) (m : Ambient) :
    call c.spelling.1 c.spelling.2 s m = method c s m := by
  have hc : Call.ofName c.spelling.1 c.spelling.2 = .ok c := Call.ofName_eq_ok_iff_spelling.2 rfl
  rw [call_eq, hc]

theorem call_unknown_iff :
    (∃ n, (call name args s m).result = .ok (.error (.noSuchImport n))) ↔
      ∀ f : Import, f.name ≠ name := by
  rw [call_eq]
  obtain ⟨hc, hnone⟩ | ⟨f, hf, -, hc⟩ | ⟨f, hf, -, c, hc⟩ := Call.ofName_cases name args
  · rw [hc]
    exact iff_of_true ⟨name, rfl⟩ hnone
  · rw [hc]
    refine iff_of_false ?_ fun hnone => hnone f hf
    rintro ⟨n, hn⟩
    cases hn
  · rw [hc]
    refine iff_of_false ?_ fun hnone => hnone f hf
    rintro ⟨n, hn⟩
    obtain ⟨cause, hcause⟩ := exists_cause_of_method hn
    cases hcause

theorem call_arity_iff :
    (∃ n k j, (call name args s m).result = .ok (.error (.wrongArity n k j))) ↔
      ∃ f : Import, f.name = name ∧ args.length ≠ f.arity := by
  rw [call_eq]
  obtain ⟨hc, hnone⟩ | ⟨f, hf, hcount, hc⟩ | ⟨f, hf, hcount, c, hc⟩ := Call.ofName_cases name args
  · rw [hc]
    refine iff_of_false ?_ fun ⟨f, hf, _⟩ => hnone f hf
    rintro ⟨n, k, j, hn⟩
    cases hn
  · rw [hc]
    exact iff_of_true ⟨name, f.arity, args.length, rfl⟩ ⟨f, hf, hcount⟩
  · rw [hc]
    refine iff_of_false ?_ fun ⟨g, hg, hne⟩ => ?_
    · rintro ⟨n, k, j, hn⟩
      obtain ⟨cause, hcause⟩ := exists_cause_of_method hn
      cases hcause
    · obtain rfl := Import.name_injective (hg.trans hf.symm)
      exact hne hcount

theorem dispatch_of_parse {v : Invocation} (h : Invocation.parse name args = .ok v) :
    ∃ c : Call, c.spelling = (name, args) ∧ dispatch v s m = method c s m := by
  obtain ⟨c, hc, rfl⟩ := Invocation.exists_of_parse h
  refine ⟨c, Call.ofName_eq_ok_iff_spelling.1 hc, ?_⟩
  rw [dispatch_eq_answer, answer_eq_method]

end Session

/-! ### Sessions driven by name -/

/-- The call was not made at all. -/
def CallError.isUnmade : CallError → Bool
  | .noSuchImport _ | .wrongArity .. => true
  | .refused _ => false

/-- The typed call in the place of a call by name or of an invocation, if there is one. -/
def Inquiry.typed? : Inquiry → Option Incident
  | .named name args => (Call.ofName name args).toOption.map .call
  | .invoked v _ => (Call.ofArgs v.func v.args).toOption.map .call
  | .incident i => some i

namespace Exposed

variable {e : Exposed} {r : Inquiry}

theorem declines_incident (i : Incident) :
    CallError.declines CallError.isUnmade (e.response? (.incident i)) = false := by
  cases i with
  | edit f => rfl
  | call c =>
      show CallError.declines _ (some (Session.answer c e.session e.ambient).result) = false
      rw [Session.answer_eq_method]
      rcases hr : (Session.method c e.session e.ambient).result with fault | err | a
      · rfl
      · obtain ⟨cause, rfl⟩ := Session.exists_cause_of_method hr
        rfl
      · rfl

/-- A call by name, or an invocation, does what its typed call does. -/
theorem asked_of_typed? {i : Incident} (h : r.typed? = some i) :
    e.asked r = e.asked (.incident i) ∧ e.response? r = e.response? (.incident i) := by
  cases r with
  | incident j =>
      obtain rfl := Option.some.inj h
      exact ⟨rfl, rfl⟩
  | named name args =>
      cases hc : Call.ofName name args with
      | error err =>
          simp only [Inquiry.typed?, hc, Except.toOption, Option.map_none, reduceCtorEq] at h
      | ok c =>
          simp only [Inquiry.typed?, hc, Except.toOption, Option.map_some,
            Option.some.injEq] at h
          subst h
          have hcall : Session.call name args = Session.answer c := by rw [Session.call, hc]
          simp only [asked, response?, step, reply?, hcall, and_self]
  | invoked v counted =>
      obtain ⟨c, hc⟩ := Call.exists_ofArgs counted
      simp only [Inquiry.typed?, hc, Except.toOption, Option.map_some, Option.some.injEq] at h
      subst h
      have hdispatch := Session.dispatch_of_ofArgs hc
      simp only [asked, response?, step, reply?, hdispatch, and_self]

/-- What has no typed call in its place is a call by name that spells none, and does nothing. -/
theorem asked_of_typed?_eq_none (h : r.typed? = none) :
    e.asked r = e ∧ CallError.declines CallError.isUnmade (e.response? r) = true := by
  cases r with
  | incident i => cases h
  | invoked v counted =>
      obtain ⟨c, hc⟩ := Call.exists_ofArgs counted
      simp only [Inquiry.typed?, hc, Except.toOption, Option.map_some, reduceCtorEq] at h
  | named name args =>
      have hcall := Session.call_eq name args e.session e.ambient
      have hunmade : ∃ err, Call.ofName name args = .error err ∧ err.isUnmade = true := by
        obtain ⟨hc, -⟩ | ⟨f, -, -, hc⟩ | ⟨f, -, -, c, hc⟩ := Call.ofName_cases name args
        · exact ⟨_, hc, rfl⟩
        · exact ⟨_, hc, rfl⟩
        · simp only [Inquiry.typed?, hc, Except.toOption, Option.map_some, reduceCtorEq] at h
      obtain ⟨err, hc, herr⟩ := hunmade
      rw [hc] at hcall
      simp only [asked, response?, hcall]
      exact ⟨trivial, herr⟩

/-- A session that is driven by name and by invocations ends as the session that is driven by the
    typed calls in their place, which are answered as they are. -/
theorem askedAll_typed (e : Exposed) (rs : List Inquiry) :
    let typed := (rs.filterMap Inquiry.typed?).map Inquiry.incident
    e.askedAll rs = e.askedAll typed ∧
      (e.responses rs).filter (fun x => !CallError.declines CallError.isUnmade x) =
        e.responses typed := by
  induction rs generalizing e with
  | nil => exact ⟨rfl, rfl⟩
  | cons r rs ih =>
      cases hr : r.typed? with
      | none =>
          obtain ⟨hasked, hdeclines⟩ := asked_of_typed?_eq_none (e := e) hr
          obtain ⟨hstate, hresponses⟩ := ih e
          have hrest : e.askedAll (r :: rs) = e.askedAll rs := by
            show (e.asked r).askedAll rs = e.askedAll rs
            rw [hasked]
          simp only [List.filterMap_cons, hr, responses, List.filter_cons, hdeclines, hasked,
            Bool.not_true, Bool.false_eq_true, if_false]
          exact ⟨hrest.trans hstate, hresponses⟩
      | some i =>
          obtain ⟨hasked, hresponse⟩ := asked_of_typed? (e := e) hr
          obtain ⟨hstate, hresponses⟩ := ih (e.asked (.incident i))
          have hrest : e.askedAll (r :: rs) = (e.asked (.incident i)).askedAll rs := by
            show (e.asked r).askedAll rs = _
            rw [hasked]
          simp only [List.filterMap_cons, hr, responses, List.filter_cons, hresponse, hasked,
            declines_incident, Bool.not_false, if_true, List.map_cons]
          exact ⟨hrest.trans hstate, congrArg _ hresponses⟩

end Exposed

/-- What calling by name comes to, in a session over a memory. -/
structure Exposed.NamesMethods (e : Exposed) : Prop where
  /-- A call is declined for its name if and only if no function has the name. -/
  unknown_iff : ∀ name args,
    (∃ n, (Session.call name args e.session e.ambient).result = .ok (.error (.noSuchImport n))) ↔
      ∀ f : Import, f.name ≠ name
  unknown : ∀ name args, (∀ f : Import, f.name ≠ name) →
    Session.call name args e.session e.ambient =
      ⟨.ok (.error (.noSuchImport name)), e.session, e.ambient⟩
  /-- It is declined for the number of its words if and only if its function takes another one. -/
  arity_iff : ∀ name args,
    (∃ n k j, (Session.call name args e.session e.ambient).result =
        .ok (.error (.wrongArity n k j))) ↔
      ∃ f : Import, f.name = name ∧ args.length ≠ f.arity
  arity : ∀ (f : Import) args, args.length ≠ f.arity →
    Session.call f.name args e.session e.ambient =
      ⟨.ok (.error (.wrongArity f.name f.arity args.length)), e.session, e.ambient⟩
  /-- Otherwise it spells a typed call, and comes to what the method comes to. -/
  spelling : ∀ name args, (∃ f : Import, f.name = name ∧ args.length = f.arity) ↔
    ∃ c : Call, c.spelling = (name, args)
  method : ∀ c : Call, Session.call c.spelling.1 c.spelling.2 e.session e.ambient =
    Session.method c e.session e.ambient
  answered : ∀ c, Session.answer c e.session e.ambient = Session.method c e.session e.ambient
  /-- To make an invocation and then to execute it is to call. -/
  parsed : ∀ name args, Session.call name args e.session e.ambient =
    match Invocation.parse name args with
    | .error err => ⟨.ok (.error err), e.session, e.ambient⟩
    | .ok v => Session.dispatch v e.session e.ambient
  dispatched : ∀ name args v, Invocation.parse name args = .ok v →
    ∃ c : Call, c.spelling = (name, args) ∧
      Session.dispatch v e.session e.ambient = Session.method c e.session e.ambient
  /-- An invocation that was made has every argument that its function reads. -/
  arguments : ∀ name args v, Invocation.parse name args = .ok v →
    ∀ i < v.func.arity, ∃ w, args[i]? = some w ∧ v.arg i = .ok w
  sessions : ∀ rs : List Inquiry,
    let typed := (rs.filterMap Inquiry.typed?).map Inquiry.incident
    e.askedAll rs = e.askedAll typed ∧
      (e.responses rs).filter (fun x => !CallError.declines CallError.isUnmade x) =
        e.responses typed

/-- In every session over every memory, calls by name are the calls of the methods that they name,
    word for word, and no other call by name does anything. -/
theorem namesMethods_of_exposed (e : Exposed) : e.NamesMethods where
  unknown_iff := fun _ _ => Session.call_unknown_iff
  unknown := fun _ _ hnone => Session.call_of_unknown hnone
  arity_iff := fun _ _ => Session.call_arity_iff
  arity := fun _ _ hcount => Session.call_of_length_ne hcount
  spelling := fun _ _ => Call.exists_spelling_iff
  method := fun c => Session.call_of_spelling c e.session e.ambient
  answered := fun c => Session.answer_eq_method c e.session e.ambient
  parsed := fun name args => Session.call_eq_of_parse name args e.session e.ambient
  dispatched := fun _ _ _ hv => Session.dispatch_of_parse hv
  arguments := fun _ _ _ hv => Invocation.arg_of_parse hv
  sessions := e.askedAll_typed

end LinearHeap
