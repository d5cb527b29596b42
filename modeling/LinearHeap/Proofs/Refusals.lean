/-
  LinearHeap/Proofs/Refusals.lean
  ===============================
  **A refused call leaves no trace.**  A call that is refused for what it asks for
  leaves heap, ledger and memory as they were and moves two counts; a call that
  names no function, or has the wrong number of arguments, moves nothing at all.
  So it is on every way into a session: a call by name, an invocation, a typed
  call, and a drop by its method.  Nothing is assumed about the session or its
  memory, and it may have a ledger or not.

  What a session does depends on heap, ledger and bytes, and not on what it has
  counted (`Act.IgnoresCounts`, with one rule for each way to build an act).  So a
  run without its refused calls is answered as the run with them.
-/
import LinearHeap.Proofs.Transparency

namespace LinearHeap

/-! ### What a refusal changes -/

namespace Session

variable {s : Session} {m : Ambient}

/-- The session after a call of the function was refused. -/
def refusing (s : Session) (f : Import) : Session :=
  { s with tally := (s.tally.record f).recordRefusal }

theorem dropObject_refused {a : Addr} {size : Word} {cause : Refusal}
    (hr : (dropObject a size s m).result = .ok (.error cause)) :
    (dropObject a size s m).own = s.refusing .dropObject ∧
      (dropObject a size s m).ambient.memory = m.memory := by
  cases hv : s.vetFree a size with
  | error cause' =>
      rw [dropObject_eq_of_error hv, refuse_eq]
      exact ⟨rfl, rfl⟩
  | ok u =>
      rcases hd : dropObject a size s m with ⟨result, s', m'⟩
      rw [hd] at hr
      cases hr
      rw [dropObject_eq_of_ok hv] at hd
      obtain ⟨u₁, s₁, m₁, -, hd⟩ := Act.exists_of_bind_ok hd
      obtain ⟨u₂, s₂, m₂, -, hd⟩ := Act.exists_of_bind_ok hd
      cases hd

/-- Vetting reads and changes nothing. -/
theorem vetSlice_leaves (handle : Addr) (element : Word) (s : Session) (m : Ambient) :
    (vetSlice handle element s m).own = s ∧
      (vetSlice handle element s m).ambient.memory = m.memory := by
  cases hl : s.ledger with
  | none =>
      have htracking : s.isTracking = false := by rw [isTracking, hl, Option.isSome_none]
      rw [vetSlice_of_not_tracking htracking]
      exact ⟨rfl, rfl⟩
  | some l =>
      obtain ⟨m', hm', ⟨cause, hvet⟩ | ⟨e, -, hvet⟩ | ⟨r, -, hvet⟩⟩ :=
        vetSlice_cases hl handle element m
      all_goals
        rw [hvet]
        exact ⟨rfl, hm'⟩

theorem dropSlice_refused {handle : Addr} {element : Word} {cause : Refusal}
    (hr : (dropSlice handle element s m).result = .ok (.error cause)) :
    (dropSlice handle element s m).own = s.refusing .dropSlice ∧
      (dropSlice handle element s m).ambient.memory = m.memory := by
  rcases hd : dropSlice handle element s m with ⟨result, s', m'⟩
  rw [hd] at hr
  cases hr
  obtain ⟨u, s₁, m₁, hrecord, hd⟩ := Act.exists_of_bind_ok hd
  cases hrecord
  obtain ⟨vetted, s₂, m₂, hvet, hd⟩ := Act.exists_of_bind_ok hd
  obtain ⟨hown, hmemory⟩ := vetSlice_leaves handle element (s.counted .dropSlice) m
  have hvet' : vetSlice handle element (s.counted .dropSlice) m = ⟨.ok vetted, s₂, m₂⟩ := hvet
  rw [hvet'] at hown hmemory
  subst hown
  cases vetted with
  | error cause' =>
      cases hd
      exact ⟨rfl, hmemory⟩
  | ok _ =>
      obtain ⟨s₃, s₄, m₃, -, hd⟩ := Act.exists_of_bind_ok hd
      cases htracking : s₃.isTracking with
      | false =>
          rw [htracking] at hd
          obtain ⟨u₁, s₅, m₄, -, hd⟩ := Act.exists_of_bind_ok hd
          cases hd
      | true =>
          rw [htracking] at hd
          obtain ⟨slice, s₅, m₄, -, hd⟩ := Act.exists_of_bind_ok hd
          obtain ⟨u₁, s₆, m₅, -, hd⟩ := Act.exists_of_bind_ok hd
          obtain ⟨u₂, s₇, m₆, -, hd⟩ := Act.exists_of_bind_ok hd
          obtain ⟨u₃, s₈, m₇, -, hd⟩ := Act.exists_of_bind_ok hd
          cases hd

theorem answer_refused {c : Call} {e : CallError}
    (hr : (answer c s m).result = .ok (.error e)) :
    (∃ cause, e = .refused cause) ∧ (answer c s m).own = s.refusing c.func ∧
      (answer c s m).ambient.memory = m.memory := by
  rcases ha : answer c s m with ⟨result, s', m'⟩
  rw [ha] at hr
  cases hr
  cases c with
  | newObject size =>
      obtain ⟨a, s₁, m₁, -, ha⟩ := Act.exists_of_bind_ok ha
      cases ha
  | newSlice length element =>
      obtain ⟨a, s₁, m₁, -, ha⟩ := Act.exists_of_bind_ok ha
      cases ha
  | dropObject a size =>
      obtain ⟨dropped, s₁, m₁, hdrop, ha⟩ := Act.exists_of_bind_ok ha
      cases dropped with
      | ok _ => cases ha
      | error cause =>
          cases ha
          have hleft := dropObject_refused (s := s) (m := m) (by rw [hdrop])
          rw [hdrop] at hleft
          exact ⟨⟨cause, rfl⟩, hleft⟩
  | dropSlice handle element =>
      obtain ⟨dropped, s₁, m₁, hdrop, ha⟩ := Act.exists_of_bind_ok ha
      cases dropped with
      | ok _ => cases ha
      | error cause =>
          cases ha
          have hleft := dropSlice_refused (s := s) (m := m) (by rw [hdrop])
          rw [hdrop] at hleft
          exact ⟨⟨cause, rfl⟩, hleft⟩

/-- An invocation is executed as the typed call of its words, or faults for want of a word before it
    is counted. -/
theorem dispatch_cases (v : Invocation) :
    (∃ fault, dispatch v = Act.fault fault) ∨
      ∃ c : Call, c.func = v.func ∧ dispatch v = answer c := by
  rcases v with ⟨f, args⟩
  cases f with
  | newObject =>
      rcases args with _ | ⟨size, rest⟩
      · exact Or.inl ⟨_, rfl⟩
      · exact Or.inr ⟨.newObject size, rfl, rfl⟩
  | dropObject =>
      rcases args with _ | ⟨a, _ | ⟨size, rest⟩⟩
      · exact Or.inl ⟨_, rfl⟩
      · exact Or.inl ⟨_, rfl⟩
      · exact Or.inr ⟨.dropObject a size, rfl, rfl⟩
  | newSlice =>
      rcases args with _ | ⟨length, _ | ⟨element, rest⟩⟩
      · exact Or.inl ⟨_, rfl⟩
      · exact Or.inl ⟨_, rfl⟩
      · exact Or.inr ⟨.newSlice length element, rfl, rfl⟩
  | dropSlice =>
      rcases args with _ | ⟨handle, _ | ⟨element, rest⟩⟩
      · exact Or.inl ⟨_, rfl⟩
      · exact Or.inl ⟨_, rfl⟩
      · exact Or.inr ⟨.dropSlice handle element, rfl, rfl⟩

/-- An invocation that is refused stands for a typed call that is. -/
theorem exists_answer_of_dispatch {v : Invocation} {err : CallError}
    (hr : (dispatch v s m).result = .ok (.error err)) :
    ∃ c : Call, c.func = v.func ∧ dispatch v = answer c := by
  rcases dispatch_cases v with ⟨fault, hfault⟩ | hc
  · rw [hfault] at hr
    cases hr
  · exact hc

/-- A call by name is answered as the call it names, or not at all. -/
theorem call_cases (name : String) (args : List Word) :
    (∃ e, (∀ cause, e ≠ .refused cause) ∧ ∀ s m, call name args s m = ⟨.ok (.error e), s, m⟩) ∨
      ∃ c, Import.ofName? name = some c.func ∧ call name args = answer c := by
  cases hc : Call.ofName name args with
  | ok c =>
      refine Or.inr ⟨c, ?_, by rw [call, hc]⟩
      obtain ⟨rfl, -⟩ := Call.ofName_eq_ok_iff.1 hc
      exact Import.ofName?_name c.func
  | error e =>
      refine Or.inl ⟨e, ?_, fun s m => by rw [call, hc]; rfl⟩
      rintro cause rfl
      unfold Call.ofName at hc
      split at hc
      · unfold Call.ofArgs at hc
        split at hc <;> cases hc
      · cases hc

/-! ### What a session does depends on no count -/

/-- Nothing but the counts is different. -/
structure Matches (s s' : Session) : Prop where
  heap : s'.heap = s.heap
  ledger : s'.ledger = s.ledger

theorem Matches.refl (s : Session) : s.Matches s := ⟨rfl, rfl⟩

theorem Matches.isTracking {s s' : Session} (h : s.Matches s') : s'.isTracking = s.isTracking := by
  rw [Session.isTracking, h.ledger, Session.isTracking]

theorem Matches.vetFree {s s' : Session} (h : s.Matches s') (a : Addr) (declared : Word) :
    s'.vetFree a declared = s.vetFree a declared := by
  rw [Session.vetFree, h.ledger, h.heap, Session.vetFree]

end Session

/-- Two outcomes that differ in counts, meter and journal at most. -/
structure Outcome.Matches {α : Type} (o o' : Outcome Session α) : Prop where
  result : o'.result = o.result
  own : o.own.Matches o'.own
  memory : o'.ambient.memory = o.ambient.memory

namespace Act

variable {α β : Type}

def IgnoresCounts (x : Act Session α) : Prop :=
  ∀ s s' m m', s.Matches s' → m'.memory = m.memory → (x s m).Matches (x s' m')

theorem ignoresCounts_pure (a : α) : (pure a : Act Session α).IgnoresCounts :=
  fun _ _ _ _ hs hm => ⟨rfl, hs, hm⟩

theorem IgnoresCounts.bind {x : Act Session α} {f : α → Act Session β} (hx : x.IgnoresCounts)
    (hf : ∀ a, (f a).IgnoresCounts) : (x >>= f).IgnoresCounts := by
  intro s s' m m' hs hm
  have hboth := hx s s' m m' hs hm
  rcases hxs : x s m with ⟨result, s₁, m₁⟩
  rcases hxs' : x s' m' with ⟨result', s₂, m₂⟩
  rw [hxs, hxs'] at hboth
  obtain ⟨hresult, hown, hmemory⟩ := hboth
  cases hresult
  cases result with
  | error e =>
      rw [bind_of_error hxs, bind_of_error hxs']
      exact ⟨rfl, hown, hmemory⟩
  | ok a =>
      rw [bind_of_ok hxs, bind_of_ok hxs']
      exact hf a s₁ s₂ m₁ m₂ hown hmemory

/-- An act may look at the session, as long as it does not look at the counts. -/
theorem ignoresCounts_own {f : Session → Act Session α} (hf : ∀ s, (f s).IgnoresCounts)
    (heq : ∀ s s', s.Matches s' → f s' = f s) : (own >>= f).IgnoresCounts := by
  intro s s' m m' hs hm
  show (f s s m).Matches (f s' s' m')
  rw [heq s s' hs]
  exact hf s s s' m m' hs hm

theorem ignoresCounts_update {f : Session → Session}
    (hf : ∀ s s', s.Matches s' → (f s).Matches (f s')) : (update f).IgnoresCounts :=
  fun s s' _ _ hs hm => ⟨rfl, hf s s' hs, hm⟩

theorem ignoresCounts_note (e : Event) : (note e : Act Session Unit).IgnoresCounts :=
  fun _ _ _ _ hs hm => ⟨rfl, hs, hm⟩

theorem ignoresCounts_check (x : Except Fault α) : (check x : Act Session α).IgnoresCounts := by
  intro s s' m m' hs hm
  cases x <;> exact ⟨rfl, hs, hm⟩

theorem ignoresCounts_load (a : Addr) : (load a : Act Session Word).IgnoresCounts := by
  intro s s' m m' hs hm
  cases hw : m.memory.load? a with
  | none =>
      rw [load_of_none hw, load_of_none (hm ▸ hw)]
      exact ⟨by rw [hm], hs, hm⟩
  | some w =>
      rw [load_of_some hw, load_of_some (hm ▸ hw)]
      exact ⟨rfl, hs, hm⟩

theorem ignoresCounts_within {x : Act Heap α} {Q : Nat → α → Prop}
    (hx : ∀ n, x.Steady n (Q n)) : (within Session.heapPart x).IgnoresCounts := by
  intro s s' m m' hs hm
  obtain ⟨hresult, hown, hmemory⟩ := (hx m.memory.size).same s.heap m m' rfl hm
  rw [← hs.heap] at hresult hown hmemory
  refine ⟨?_, ⟨?_, hs.ledger⟩, ?_⟩
  · exact hresult.trans (by rw [hs.heap]; rfl)
  · exact hown.trans (by rw [hs.heap]; rfl)
  · exact hmemory.trans (by rw [hs.heap]; rfl)

end Act

namespace Session

open Act

theorem ignoresCounts_record (f : Import) : (record f).IgnoresCounts :=
  ignoresCounts_update fun _ _ hs => ⟨hs.heap, hs.ledger⟩

theorem ignoresCounts_strike (a : Addr) : (strike a).IgnoresCounts :=
  ignoresCounts_update fun _ _ hs => ⟨hs.heap, congrArg (Option.map (·.strike a)) hs.ledger⟩

theorem ignoresCounts_refuse {α : Type} (f : Import) (cause : Refusal) :
    (refuse f cause : Act Session (Except Refusal α)).IgnoresCounts :=
  .bind (ignoresCounts_update fun _ _ hs => ⟨hs.heap, hs.ledger⟩) fun _ =>
    .bind (ignoresCounts_note _) fun _ => ignoresCounts_pure _

theorem ignoresCounts_sizeAt (a : Addr) : (Block.sizeAt a : Act Session Word).IgnoresCounts :=
  .bind (ignoresCounts_check (Block.ofPayload a)) fun b => ignoresCounts_load b.header

theorem ignoresCounts_read (handle : Addr) :
    (SliceRecord.read handle : Act Session SliceRecord).IgnoresCounts :=
  .bind (ignoresCounts_load handle) fun _ =>
    .bind (ignoresCounts_check (Word.sum handle 4)) fun _ =>
      .bind (ignoresCounts_load _) fun _ => ignoresCounts_pure _

theorem ignoresCounts_enter (a : Addr) : (enter a).IgnoresCounts := by
  refine ignoresCounts_own (fun s => ?_) fun s s' hs => by rw [hs.isTracking]
  split
  · refine .bind (ignoresCounts_sizeAt a) fun size => ?_
    exact ignoresCounts_update fun _ _ hs =>
      ⟨hs.heap, congrArg (Option.map (·.enter a size)) hs.ledger⟩
  · exact ignoresCounts_pure ()

theorem ignoresCounts_vetSlice (handle : Addr) (element : Word) :
    (vetSlice handle element).IgnoresCounts := by
  refine ignoresCounts_own (fun s => ?_) fun s s' hs => ?_
  · split
    · exact ignoresCounts_pure _
    · split
      · exact ignoresCounts_pure _
      · exact .bind (ignoresCounts_read handle) fun _ => ignoresCounts_pure _
  · have hvet : s'.vetFree = s.vetFree := funext fun a => funext (hs.vetFree a)
    simp only [hs.isTracking, hvet]

theorem ignoresCounts_newObject (size : Word) : (newObject size).IgnoresCounts :=
  .bind (ignoresCounts_record _) fun _ =>
    .bind (ignoresCounts_within fun _ => Heap.steady_allocate size) fun a =>
      .bind (ignoresCounts_enter a) fun _ => ignoresCounts_pure a

theorem ignoresCounts_dropObject (a : Addr) (size : Word) :
    (dropObject a size).IgnoresCounts := by
  refine .bind (ignoresCounts_record _) fun _ => ?_
  refine ignoresCounts_own (fun s => ?_) fun s s' hs => by rw [hs.vetFree]
  split
  · exact ignoresCounts_refuse _ _
  · refine .bind (ignoresCounts_within fun _ => Heap.steady_free a) fun _ => ?_
    exact .bind (ignoresCounts_strike a) fun _ => ignoresCounts_pure _

theorem ignoresCounts_newSlice (length element : Word) :
    (newSlice length element).IgnoresCounts := by
  refine .bind (ignoresCounts_record _) fun _ => ?_
  refine .bind (ignoresCounts_within fun _ => Heap.steady_allocateSlice length element)
    fun handle => ?_
  refine ignoresCounts_own (fun s => ?_) fun s s' hs => by rw [hs.isTracking]
  split
  · refine .bind (ignoresCounts_read handle) fun slice => ?_
    refine .bind (ignoresCounts_enter handle) fun _ => ?_
    exact .bind (ignoresCounts_enter slice.data) fun _ => ignoresCounts_pure handle
  · exact ignoresCounts_pure handle

theorem ignoresCounts_dropSlice (handle : Addr) (element : Word) :
    (dropSlice handle element).IgnoresCounts := by
  refine .bind (ignoresCounts_record _) fun _ => ?_
  refine .bind (ignoresCounts_vetSlice handle element) fun vetted => ?_
  cases vetted with
  | error cause => exact ignoresCounts_refuse _ cause
  | ok _ =>
      have hfree := ignoresCounts_within fun n => Heap.steady_freeSlice (n := n) handle
      refine ignoresCounts_own (fun s => ?_) fun s s' hs => by simp only [hs.isTracking]
      dsimp only
      split
      · refine .bind (ignoresCounts_read handle) fun slice => ?_
        refine .bind hfree fun _ => ?_
        refine .bind (ignoresCounts_strike slice.data) fun _ => ?_
        exact .bind (ignoresCounts_strike handle) fun _ => ignoresCounts_pure _
      · exact .bind hfree fun _ => ignoresCounts_pure _

theorem ignoresCounts_answer (c : Call) : (answer c).IgnoresCounts := by
  cases c with
  | newObject size => exact .bind (ignoresCounts_newObject size) fun _ => ignoresCounts_pure _
  | dropObject a size =>
      exact .bind (ignoresCounts_dropObject a size) fun _ => ignoresCounts_pure _
  | newSlice length element =>
      exact .bind (ignoresCounts_newSlice length element) fun _ => ignoresCounts_pure _
  | dropSlice handle element =>
      exact .bind (ignoresCounts_dropSlice handle element) fun _ => ignoresCounts_pure _

theorem ignoresCounts_dispatch (v : Invocation) : (dispatch v).IgnoresCounts := by
  rcases dispatch_cases v with ⟨fault, hfault⟩ | ⟨c, -, hc⟩
  · rw [hfault]
    exact ignoresCounts_check (.error fault)
  · rw [hc]
    exact ignoresCounts_answer c

theorem ignoresCounts_call (name : String) (args : List Word) :
    (call name args).IgnoresCounts := by
  unfold call
  split
  · exact ignoresCounts_pure _
  · exact ignoresCounts_answer _

end Session

/-! ### Runs without their refused calls -/

/-- What a session can be asked: a call by name, an invocation, or an incident. -/
inductive Inquiry where
  | named (name : String) (args : List Word)
  /-- The words of an invocation are counted when it is made. -/
  | invoked (v : Invocation) (counted : v.args.length = v.func.arity)
  | incident (i : Incident)

namespace Exposed

/-- The session and its memory after an inquiry. -/
def asked (e : Exposed) : Inquiry → Exposed
  | .named name args =>
      let left := Session.call name args e.session e.ambient
      ⟨left.own, left.ambient⟩
  | .invoked v _ =>
      let left := Session.dispatch v e.session e.ambient
      ⟨left.own, left.ambient⟩
  | .incident i => e.step i

def response? (e : Exposed) : Inquiry → Option (Except Fault (Except CallError (Option Addr)))
  | .named name args => some (Session.call name args e.session e.ambient).result
  | .invoked v _ => some (Session.dispatch v e.session e.ambient).result
  | .incident i => e.reply? i

def askedAll (e : Exposed) (rs : List Inquiry) : Exposed := rs.foldl asked e

def responses (e : Exposed) :
    List Inquiry → List (Option (Except Fault (Except CallError (Option Addr))))
  | [] => []
  | r :: rs => e.response? r :: (e.asked r).responses rs

end Exposed

/-- The response declines a call, with one of these errors. -/
def CallError.declines (errors : CallError → Bool) :
    Option (Except Fault (Except CallError (Option Addr))) → Bool
  | some (.ok (.error e)) => errors e
  | _ => false

namespace Exposed

/-- The run without the calls that are declined in it. -/
def pruned (errors : CallError → Bool) (e : Exposed) : List Inquiry → List Inquiry
  | [] => []
  | r :: rs =>
      if CallError.declines errors (e.response? r) then (e.asked r).pruned errors rs
      else r :: (e.asked r).pruned errors rs

/-- Nothing but counts, meter and journal is different. -/
structure Matches (e e' : Exposed) : Prop where
  session : e.session.Matches e'.session
  memory : e'.ambient.memory = e.ambient.memory

variable {e e' : Exposed} {r : Inquiry} {errors : CallError → Bool}

theorem Matches.asked (h : e.Matches e') :
    e'.response? r = e.response? r ∧ (e.asked r).Matches (e'.asked r) := by
  cases r with
  | named name args =>
      obtain ⟨hresult, hown, hmemory⟩ :=
        Session.ignoresCounts_call name args _ _ _ _ h.session h.memory
      exact ⟨congrArg some hresult, hown, hmemory⟩
  | invoked v =>
      obtain ⟨hresult, hown, hmemory⟩ :=
        Session.ignoresCounts_dispatch v _ _ _ _ h.session h.memory
      exact ⟨congrArg some hresult, hown, hmemory⟩
  | incident i =>
      cases i with
      | call c =>
          obtain ⟨hresult, hown, hmemory⟩ :=
            Session.ignoresCounts_answer c _ _ _ _ h.session h.memory
          exact ⟨congrArg some hresult, hown, hmemory⟩
      | edit f => exact ⟨rfl, h.session, congrArg f h.memory⟩

theorem matches_of_answer {c : Call} {err : CallError}
    (hr : (Session.answer c e.session e.ambient).result = .ok (.error err)) :
    e.Matches (e.asked (.incident (.call c))) := by
  obtain ⟨-, hown, hmemory⟩ := Session.answer_refused hr
  refine ⟨?_, hmemory⟩
  show e.session.Matches (Session.answer c e.session e.ambient).own
  rw [hown]
  exact ⟨rfl, rfl⟩

/-- A call that is declined leaves heap, ledger and memory. -/
theorem matches_of_declines (hd : CallError.declines errors (e.response? r) = true) :
    e.Matches (e.asked r) := by
  have herror : ∃ err, e.response? r = some (.ok (.error err)) := by
    unfold CallError.declines at hd
    split at hd
    · rename_i err hr
      exact ⟨err, hr⟩
    · cases hd
  obtain ⟨err, hr⟩ := herror
  cases r with
  | named name args =>
      rcases Session.call_cases name args with ⟨err', -, hcall⟩ | ⟨c, -, hcall⟩
      · have hasked : e.asked (.named name args) = e := by
          simp only [asked, hcall]
        rw [hasked]
        exact ⟨Session.Matches.refl _, rfl⟩
      · have hasked : e.asked (.named name args) = e.asked (.incident (.call c)) := by
          simp only [asked, step, hcall]
        rw [hasked]
        simp only [response?, hcall, Option.some.injEq] at hr
        exact matches_of_answer hr
  | invoked v counted =>
      have hresult := Option.some.inj hr
      obtain ⟨c, -, hc⟩ := Session.exists_answer_of_dispatch hresult
      have hasked : e.asked (.invoked v counted) = e.asked (.incident (.call c)) := by
        simp only [asked, step, hc]
      rw [hc] at hresult
      rw [hasked]
      exact matches_of_answer hresult
  | incident i =>
      cases i with
      | call c => exact matches_of_answer (Option.some.inj hr)
      | edit f => cases hr

/-- The run without its declined calls goes along with the whole run. -/
theorem Matches.pruned {rs : List Inquiry} (h : e.Matches e') :
    e'.responses (e.pruned errors rs) =
        (e.responses rs).filter (fun x => !CallError.declines errors x) ∧
      (e.askedAll rs).Matches (e'.askedAll (e.pruned errors rs)) := by
  induction rs generalizing e e' with
  | nil => exact ⟨rfl, h⟩
  | cons r rs ih =>
      cases hd : CallError.declines errors (e.response? r) with
      | true =>
          have hleft := matches_of_declines hd
          have hnext : (e.asked r).Matches e' :=
            ⟨⟨h.session.heap.trans hleft.session.heap.symm,
              h.session.ledger.trans hleft.session.ledger.symm⟩, h.memory.trans hleft.memory.symm⟩
          simp only [Exposed.pruned, hd, if_true, responses, List.filter_cons, Bool.not_true,
            Bool.false_eq_true, if_false]
          exact ih hnext
      | false =>
          obtain ⟨hresponse, hnext⟩ := h.asked (r := r)
          simp only [Exposed.pruned, hd, Bool.false_eq_true, if_false, responses, List.filter_cons,
            Bool.not_false, if_true, hresponse]
          obtain ⟨hrest, hfinal⟩ := ih hnext
          exact ⟨congrArg _ hrest, hfinal⟩

end Exposed

/-- A double drop by name and by invocation, an unknown name and a missing argument, all declined;
    the other calls are answered as they are without them. -/
example :
    let e : Exposed := ⟨{ heap := .empty 0, ledger := some {} }, { memory := .zeros 64 }⟩
    let rs : List Inquiry := [.named "new_object" [8], .named "drop_object" [4, 8],
      .named "drop_object" [4, 8], .invoked ⟨.dropObject, [4, 8]⟩ rfl, .named "grow" [],
      .incident (.call (.dropSlice 4 1)), .named "new_slice" [2], .named "new_object" [5]]
    (e.responses rs).map (CallError.declines fun _ => true) =
        [false, false, true, true, true, true, true, false] ∧
      (e.askedAll rs).session.tally = ⟨2, 3, 0, 1, 3⟩ := by
  decide +kernel

end LinearHeap
