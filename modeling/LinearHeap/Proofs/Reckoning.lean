/-
  LinearHeap/Proofs/Reckoning.lean
  ================================
  **Two sets of counts, one story.**  A session counts the calls that reach it, and
  its heap counts where blocks come from and where they go.  Neither looks at the
  other.

      calls of new_object + 2 * calls of new_slice      = allocations
      drops of objects + 2 * drops of slices, accepted  = frees - splits
      splits                                           <= first-fit reuses

  Nothing is assumed about the memory, so none of it can come from the chains being
  sound: it comes from how the acts are built.  An act of the heap that returns has
  taken so many blocks and given back so many, wherever it found them
  (`Act.Advances`, with one rule for each way to build an act).  The remainder of a
  split is a block given back without having been taken, so a split gives one back
  less than it counts.
-/
import LinearHeap.Proofs.Naming

namespace LinearHeap

/-! ### Counters that were moved on -/

/-- The counters were moved on by so many blocks taken, and so many given back. -/
structure Counters.Advance (n n' : Counters) (taken given : Int) : Prop where
  allocations : (n'.allocations : Int) = n.allocations + taken
  frees : (n'.binFrees + n'.fitFrees : Int) - n'.splits =
    n.binFrees + n.fitFrees - n.splits + given
  splits : (n'.splits : Int) - n.splits ≤ n'.fitReuses - n.fitReuses

namespace Counters

variable {n n' n'' : Counters} {taken taken' given given' : Int}

theorem Advance.refl (n : Counters) : n.Advance n 0 0 := by
  constructor <;> simp

theorem Advance.of_eq (h : n.Advance n' taken given) (htaken : taken = taken')
    (hgiven : given = given') : n.Advance n' taken' given' := by
  rwa [← htaken, ← hgiven]

theorem Advance.trans (h : n.Advance n' taken given) (h' : n'.Advance n'' taken' given') :
    n.Advance n'' (taken + taken') (given + given') := by
  obtain ⟨hallocations, hfrees, hsplits⟩ := h
  obtain ⟨hallocations', hfrees', hsplits'⟩ := h'
  constructor <;> omega

theorem reportedAllocations_of_lt (h : n.allocations < Word.countBound) :
    n.reportedAllocations = .ok n.allocations := by
  unfold allocations at h
  have hfirst : countSum n.carved n.binReuses = .ok (n.carved + n.binReuses) :=
    if_pos (Nat.lt_of_le_of_lt (Nat.le_add_right _ _) h)
  have hsecond : countSum (n.carved + n.binReuses) n.fitReuses = .ok n.allocations := if_pos h
  simp only [reportedAllocations, hfirst]
  exact hsecond

end Counters

namespace Act

variable {α β τ : Type}

/-- An act that returns has taken so many blocks and given back so many. -/
def Advances (x : Act Heap α) (taken given : Int) : Prop :=
  ∀ h m a h' m', x h m = ⟨.ok a, h', m'⟩ → h.counters.Advance h'.counters taken given

variable {x : Act Heap α} {taken taken' given given' : Int}

/-! ### Rules -/

theorem Advances.bind {f : α → Act Heap β} (hx : x.Advances taken given)
    (hf : ∀ a, (f a).Advances taken' given') :
    (x >>= f).Advances (taken + taken') (given + given') := by
  intro h m b h' m' hact
  obtain ⟨a, h₁, m₁, hfirst, hrest⟩ := exists_of_bind_ok hact
  exact (hx h m a h₁ m₁ hfirst).trans (hf a h₁ m₁ b h' m' hrest)

/-- Acts before and after that take and give nothing make no difference. -/
theorem Advances.late {f : α → Act Heap β} (hx : x.Advances 0 0)
    (hf : ∀ a, (f a).Advances taken given) : (x >>= f).Advances taken given := by
  have hboth := hx.bind hf
  rwa [Int.zero_add, Int.zero_add] at hboth

theorem Advances.early {f : α → Act Heap β} (hx : x.Advances taken given)
    (hf : ∀ a, (f a).Advances 0 0) : (x >>= f).Advances taken given := by
  have hboth := hx.bind hf
  rwa [Int.add_zero, Int.add_zero] at hboth

/-- An act that keeps the counters, whether it returns or not. -/
theorem advances_of_counters (hx : ∀ h m, (x h m).own.counters = h.counters) :
    x.Advances 0 0 := by
  intro h m a h' m' hact
  have hsame := hx h m
  rw [hact] at hsame
  rw [hsame]
  exact .refl h.counters

theorem advances_pure (a : α) : (pure a : Act Heap α).Advances 0 0 :=
  advances_of_counters fun _ _ => rfl

theorem advances_check (r : Except Fault α) : (check r : Act Heap α).Advances 0 0 :=
  advances_of_counters fun _ _ => by cases r <;> rfl

theorem advances_note (e : Event) : (note e : Act Heap Unit).Advances 0 0 :=
  advances_of_counters fun _ _ => rfl

theorem advances_load (a : Addr) : (load a : Act Heap Word).Advances 0 0 := by
  refine advances_of_counters fun h m => ?_
  cases hw : m.memory.load? a with
  | none => rw [load_of_none hw]
  | some w => rw [load_of_some hw]

theorem advances_store (a : Addr) (w : Word) : (store a w : Act Heap Unit).Advances 0 0 := by
  refine advances_of_counters fun h m => ?_
  by_cases hw : m.memory.HasWord a
  · rw [store_of_hasWord hw]
  · rw [store_of_not_hasWord hw]

/-- The parts of a heap are its chains and its region, and not its counters. -/
theorem advances_within (p : Part Heap τ) (hp : ∀ h t, (p.set h t).counters = h.counters)
    (x : Act τ α) : (within p x).Advances 0 0 :=
  advances_of_counters fun h m => hp h (x (p.get h) m).own

theorem advances_count {f : Counters → Counters}
    (hf : ∀ n : Counters, n.Advance (f n) taken given) : (Heap.count f).Advances taken given := by
  intro h m a h' m' hact
  cases hact
  exact hf h.counters

end Act

/-! ### Acts of the heap -/

namespace Heap

open Act

theorem advances_shelve (b : Block) : (shelve b).Advances 0 1 := by
  refine (advances_load b.header).late fun size => ?_
  dsimp only
  split
  · rename_i c _
    refine (advances_within binsPart (fun _ _ => rfl) (Bins.push c b)).late fun _ => ?_
    refine Advances.early (advances_count fun n => ?_) fun _ => advances_note _
    constructor <;> simp only [Counters.allocations] <;> omega
  · refine (advances_within fitsPart (fun _ _ => rfl) (FitList.push b)).late fun _ => ?_
    refine Advances.early (advances_count fun n => ?_) fun _ => advances_note _
    constructor <;> simp only [Counters.allocations] <;> omega

theorem advances_free (a : Addr) : (free a).Advances 0 1 :=
  (advances_check (Block.ofPayload a)).late fun b => advances_shelve b

theorem advances_fromWilderness (size : Word) : (fromWilderness size).Advances 1 0 := by
  refine (advances_within regionPart (fun _ _ => rfl) (Region.carve size)).late fun b => ?_
  refine Advances.early (advances_count fun n => ?_) fun _ => advances_pure b
  constructor <;> simp only [Counters.allocations] <;> omega

theorem advances_fromBin (c : SizeClass) (size : Word) : (fromBin c size).Advances 1 0 := by
  refine (advances_within binsPart (fun _ _ => rfl) (Bins.pop c)).late fun found => ?_
  cases found with
  | none => exact advances_fromWilderness size
  | some b =>
      refine Advances.early (advances_count fun n => ?_) fun _ => advances_pure b
      constructor <;> simp only [Counters.allocations] <;> omega

/-- A split counts a block that it has not given back yet, and shelving the remainder makes up for
    it. -/
theorem advances_fromFits (size : Word) : (fromFits size).Advances 1 0 := by
  refine (advances_within fitsPart (fun _ _ => rfl) (FitList.take size)).late fun found => ?_
  rcases found with _ | b | ⟨b, remainder⟩
  · exact advances_fromWilderness size
  · refine Advances.early (advances_count fun n => ?_) fun _ => advances_pure b
    constructor <;> simp only [Counters.allocations] <;> omega
  · have hsplit : (count fun n => { n with
        fitReuses := n.fitReuses + 1, splits := n.splits + 1 }).Advances 1 (-1) := by
      refine advances_count fun n => ?_
      constructor <;> simp only [Counters.allocations] <;> omega
    exact hsplit.bind fun _ => (advances_shelve remainder).early fun _ => advances_pure b

theorem advances_serve (size : Word) : (serve size).Advances 1 0 := by
  unfold serve
  split
  · exact advances_fromBin _ size
  · exact advances_fromFits size

theorem advances_allocate (request : Word) : (allocate request).Advances 1 0 :=
  (advances_check (paddedSize request)).late fun size =>
    (advances_serve size).early fun b => advances_check b.payload

theorem advances_read (handle : Addr) :
    (SliceRecord.read handle : Act Heap SliceRecord).Advances 0 0 :=
  (advances_load handle).late fun _ =>
    (advances_check (Word.sum handle 4)).late fun lengthAt =>
      (advances_load lengthAt).late fun _ => advances_pure _

theorem advances_write (r : SliceRecord) (handle : Addr) :
    (r.write handle : Act Heap Unit).Advances 0 0 :=
  (advances_store handle r.data).late fun _ =>
    (advances_check (Word.sum handle 4)).late fun lengthAt => advances_store lengthAt r.length

theorem advances_allocateSlice (length element : Word) :
    (allocateSlice length element).Advances 2 0 := by
  refine (advances_check (contentSize length element)).late fun bytes => ?_
  show Advances (allocate SliceRecord.bytes >>= _) (1 + 1) (0 + 0)
  refine (advances_allocate SliceRecord.bytes).bind fun handle => ?_
  refine (advances_allocate bytes).early fun data => ?_
  exact (advances_write ⟨data, length⟩ handle).late fun _ => advances_pure handle

theorem advances_freeSlice (handle : Addr) : (freeSlice handle).Advances 0 2 :=
  (advances_read handle).late fun record =>
    (advances_free record.data).bind fun _ => advances_free handle

end Heap

namespace Import

/-- The blocks that a call of the function takes. -/
def takes : Import → Nat
  | .newObject => 1
  | .newSlice => 2
  | .dropObject | .dropSlice => 0

/-- The blocks that a call of the function gives back, if it is not refused. -/
def gives : Import → Nat
  | .dropObject => 1
  | .dropSlice => 2
  | .newObject | .newSlice => 0

end Import

theorem Call.advances_onHeap (c : Call) : c.onHeap.Advances c.func.takes c.func.gives := by
  cases c with
  | newObject size => exact (Heap.advances_allocate size).early fun _ => Act.advances_pure _
  | dropObject a size => exact (Heap.advances_free a).early fun _ => Act.advances_pure _
  | newSlice length element =>
      exact (Heap.advances_allocateSlice length element).early fun _ => Act.advances_pure _
  | dropSlice handle element =>
      exact (Heap.advances_freeSlice handle).early fun _ => Act.advances_pure _

/-! ### Calls that reach a session -/

/-- The function that an inquiry calls, if it reaches the session: the name has to be known, and
    the number of words right, which of an invocation it is. -/
def Inquiry.func? : Inquiry → Option Import
  | .named name args => (Import.ofName? name).filter fun f => args.length == f.arity
  | .invoked v _ => some v.func
  | .incident (.call c) => some c.func
  | .incident (.edit _) => none

/-- What an inquiry calls is what the typed call in its place calls. -/
theorem Inquiry.func?_eq (r : Inquiry) :
    r.func? = r.typed?.bind fun i => (Inquiry.incident i).func? := by
  cases r with
  | incident i => rfl
  | invoked v counted =>
      obtain ⟨c, hc⟩ := Call.exists_ofArgs counted
      obtain ⟨hfunc, -⟩ := Call.ofArgs_eq_ok_iff.1 hc
      simp [func?, typed?, hc, hfunc, Except.toOption]
  | named name args =>
      obtain ⟨hc, hnone⟩ | ⟨f, rfl, hcount, hc⟩ | ⟨f, rfl, hcount, c, hc⟩ :=
        Call.ofName_cases name args
      · have hname := Import.ofName?_eq_none_iff.2 hnone
        simp [func?, typed?, hc, hname, Except.toOption]
      · simp [func?, typed?, hc, Import.ofName?_name, hcount, Except.toOption]
      · obtain ⟨hfunc, -⟩ := Call.ofName_eq_ok_iff.1 hc
        obtain rfl := Import.name_injective hfunc
        simp [func?, typed?, hc, Import.ofName?_name, hcount, Except.toOption]

/-- What an inquiry comes to: an edit to nothing, and a call to its answer or the fault that
    stopped it. -/
abbrev Response : Type := Option (Except Fault (Except CallError (Option Addr)))

namespace Response

/-- A call, if it was one, was not stopped by a fault. -/
def returns : Response → Bool
  | some (.error _) => false
  | _ => true

def answers : Response → Bool
  | some (.ok (.ok _)) => true
  | _ => false

/-- The call reached the session, and was refused for what it asked for. -/
def refuses : Response → Bool := CallError.declines fun err => err.cause?.isSome

/-- A call that is not made at all is not refused. -/
theorem refuses_of_unmade {x : Response} (h : CallError.declines CallError.isUnmade x = true) :
    refuses x = false := by
  rcases x with _ | fault | (name | ⟨name, expected, got⟩ | cause) | a
  all_goals first | rfl | cases h

end Response

theorem Session.returnsAddress_of_refused {c : Call} {s : Session} {m : Ambient} {err : CallError}
    (hr : (answer c s m).result = .ok (.error err)) : c.func.returnsAddress = false := by
  rw [answer_eq_method] at hr
  cases c with
  | newObject size =>
      rcases hact : (newObject size s m).result with fault | a <;>
        simp [method, Outcome.map, hact, Except.map] at hr
  | newSlice length element =>
      rcases hact : (newSlice length element s m).result with fault | a <;>
        simp [method, Outcome.map, hact, Except.map] at hr
  | dropObject a size => rfl
  | dropSlice handle element => rfl

namespace Tally

theorem calls_recordRefusal (t : Tally) (f : Import) : t.recordRefusal.calls f = t.calls f := by
  cases f <;> rfl

theorem total_recordRefusal (t : Tally) : t.recordRefusal.total = t.total := rfl

theorem refused_recordRefusal (t : Tally) : t.recordRefusal.refused = t.refused + 1 := rfl

theorem refused_record (t : Tally) (f : Import) : (t.record f).refused = t.refused := by
  cases f <;> rfl

end Tally

namespace Inquiry

/-- How many inquiries call the function. -/
def callsOf (f : Import) (rs : List Inquiry) : Nat := rs.countP fun r => r.func? == some f

/-- How many inquiries reach the session. -/
def reaching (rs : List Inquiry) : Nat := rs.countP fun r => r.func?.isSome

theorem callsOf_cons (f : Import) (r : Inquiry) (rs : List Inquiry) :
    callsOf f (r :: rs) = callsOf f [r] + callsOf f rs := by
  show callsOf f ([r] ++ rs) = _
  exact List.countP_append

theorem reaching_cons (r : Inquiry) (rs : List Inquiry) :
    reaching (r :: rs) = reaching [r] + reaching rs := by
  show reaching ([r] ++ rs) = _
  exact List.countP_append

end Inquiry

namespace Exposed

/-- How many calls of the function are answered. -/
def answered (e : Exposed) (f : Import) (rs : List Inquiry) : Nat :=
  (rs.zip (e.responses rs)).countP fun x => x.1.func? == some f && Response.answers x.2

/-- How many calls are refused. -/
def refused (e : Exposed) (rs : List Inquiry) : Nat := (e.responses rs).countP Response.refuses

theorem answered_cons (e : Exposed) (f : Import) (r : Inquiry) (rs : List Inquiry) :
    e.answered f (r :: rs) = e.answered f [r] + (e.asked r).answered f rs := by
  show List.countP _ ([(r, e.response? r)] ++ rs.zip ((e.asked r).responses rs)) = _
  exact List.countP_append

theorem refused_cons (e : Exposed) (r : Inquiry) (rs : List Inquiry) :
    e.refused (r :: rs) = e.refused [r] + (e.asked r).refused rs := by
  show List.countP _ ([e.response? r] ++ (e.asked r).responses rs) = _
  exact List.countP_append

open Inquiry

/-- What a session has counted in a run, and what its heap has. -/
structure Counts (e : Exposed) (rs : List Inquiry) : Prop where
  calls : ∀ f, (e.askedAll rs).session.tally.calls f = e.session.tally.calls f + callsOf f rs
  total : (e.askedAll rs).session.tally.total = e.session.tally.total + reaching rs
  refused : (e.askedAll rs).session.tally.refused = e.session.tally.refused + e.refused rs
  heap : e.session.heap.counters.Advance (e.askedAll rs).session.heap.counters
    (callsOf .newObject rs + 2 * callsOf .newSlice rs)
    (e.answered .dropObject rs + 2 * e.answered .dropSlice rs)

variable {e : Exposed} {r : Inquiry} {rs : List Inquiry} {c : Call}

theorem counts_nil (e : Exposed) : e.Counts [] where
  calls _ := rfl
  total := rfl
  refused := rfl
  heap := .refl _

/-- The counts of a run are those of its first inquiry and of the rest. -/
theorem Counts.cons (h : e.Counts [r]) (hs : (e.asked r).Counts rs) : e.Counts (r :: rs) where
  calls := by
    intro f
    rw [callsOf_cons, ← Nat.add_assoc, ← h.calls f]
    exact hs.calls f
  total := by
    rw [reaching_cons, ← Nat.add_assoc, ← h.total]
    exact hs.total
  refused := by
    rw [refused_cons, ← Nat.add_assoc, ← h.refused]
    exact hs.refused
  heap := by
    rw [callsOf_cons .newObject r rs, callsOf_cons .newSlice r rs,
      answered_cons e .dropObject r rs, answered_cons e .dropSlice r rs]
    refine (h.heap.trans hs.heap).of_eq ?_ ?_ <;> push_cast <;> omega

/-- An inquiry that does not reach the session counts nothing. -/
theorem counts_of_unreached (hasked : (e.asked r).session = e.session) (hfunc : r.func? = none)
    (hrefuses : Response.refuses (e.response? r) = false) : e.Counts [r] := by
  have hsame : (e.askedAll [r]).session = e.session := hasked
  constructor
  · intro f
    simp [hsame, callsOf, hfunc]
  · simp [hsame, reaching, hfunc]
  · simp [hsame, Exposed.refused, responses, hrefuses]
  · rw [hsame]
    exact (Counters.Advance.refl _).of_eq (by simp [callsOf, hfunc])
      (by simp [answered, responses, hfunc])

/-- A call that is refused is a drop: it has taken nothing, and gives nothing back. -/
theorem counts_of_refused {err : CallError} (hasked : e.asked r = e.step (.call c))
    (hfunc : r.func? = some c.func)
    (hresult : (Session.answer c e.session e.ambient).result = .ok (.error err))
    (hresponse : e.response? r = some (.ok (.error err))) : e.Counts [r] := by
  obtain ⟨⟨cause, rfl⟩, hown, -⟩ := Session.answer_refused hresult
  have hdrop := Session.returnsAddress_of_refused hresult
  have hafter : (e.askedAll [r]).session = e.session.refusing c.func := by
    show (e.asked r).session = _
    rw [hasked]
    exact hown
  constructor
  · intro f
    rw [hafter, Session.refusing, Tally.calls_recordRefusal, Tally.calls_record]
    simp [callsOf, hfunc]
  · rw [hafter, Session.refusing, Tally.total_recordRefusal, Tally.total_record]
    simp [reaching, hfunc]
  · rw [hafter, Session.refusing, Tally.refused_recordRefusal, Tally.refused_record]
    simp [Exposed.refused, responses, hresponse, Response.refuses, CallError.declines,
      CallError.cause?]
  · rw [hafter]
    refine (Counters.Advance.refl _).of_eq ?_ ?_
    · cases c with
      | newObject size => cases hdrop
      | newSlice length element => cases hdrop
      | dropObject a size => simp [callsOf, hfunc, Call.func]
      | dropSlice handle element => simp [callsOf, hfunc, Call.func]
    · simp [answered, responses, hresponse, Response.answers]

/-- A call that is answered does what it asks of the heap. -/
theorem counts_of_answered {a : Option Addr} (hasked : e.asked r = e.step (.call c))
    (hfunc : r.func? = some c.func)
    (hresult : (Session.answer c e.session e.ambient).result = .ok (.ok a))
    (hresponse : e.response? r = some (.ok (.ok a))) : e.Counts [r] := by
  have hf : e.session.Follows c.func (Session.answer c e.session e.ambient)
      (c.onHeap e.session.heap e.ambient) := by
    refine Session.follows_of_not_refused (.inr fun cause => ?_)
    rw [hresult]
    nofun
  have hafter : (e.askedAll [r]).session = (Session.answer c e.session e.ambient).own := by
    show (e.asked r).session = _
    rw [hasked]
    rfl
  have hheap : e.session.heap.counters.Advance (e.askedAll [r]).session.heap.counters
      c.func.takes c.func.gives := by
    rw [hafter, hf.heap]
    rcases hact : c.onHeap e.session.heap e.ambient with ⟨e' | b, h', m'⟩
    · have hfault := hf.result
      rw [hresult, hact] at hfault
      cases hfault
    · exact c.advances_onHeap _ _ _ _ _ hact
  constructor
  · intro f
    rw [hafter, hf.tally, Tally.calls_record]
    simp [callsOf, hfunc]
  · rw [hafter, hf.tally, Tally.total_record]
    simp [reaching, hfunc]
  · rw [hafter, hf.tally, Tally.refused_record]
    simp [Exposed.refused, responses, hresponse, Response.refuses, CallError.declines]
  · refine hheap.of_eq ?_ ?_
    · cases c <;> simp [callsOf, hfunc, Call.func, Import.takes]
    · cases c <;> simp [answered, responses, hfunc, hresponse, Response.answers, Call.func,
        Import.gives]

theorem counts_asked (e : Exposed) (r : Inquiry)
    (hr : Response.returns (e.response? r) = true) : e.Counts [r] := by
  cases htyped : r.typed? with
  | none =>
      obtain ⟨hasked, hdeclines⟩ := asked_of_typed?_eq_none (e := e) htyped
      refine counts_of_unreached (congrArg session hasked) ?_ ?_
      · rw [r.func?_eq, htyped]
        rfl
      · exact Response.refuses_of_unmade hdeclines
  | some i =>
      obtain ⟨hasked, hresponse⟩ := asked_of_typed? (e := e) htyped
      have hfunc : r.func? = (Inquiry.incident i).func? := by
        rw [r.func?_eq, htyped]
        rfl
      cases i with
      | edit f =>
          have hsession : (e.asked r).session = e.session := by
            rw [hasked]
            rfl
          refine counts_of_unreached hsession hfunc ?_
          rw [hresponse]
          rfl
      | call c =>
          rcases hresult : (Session.answer c e.session e.ambient).result with fault | err | a
          · rw [hresponse, response?, reply?, hresult] at hr
            cases hr
          · refine counts_of_refused hasked hfunc hresult (hresponse.trans ?_)
            rw [response?, reply?, hresult]
          · refine counts_of_answered hasked hfunc hresult (hresponse.trans ?_)
            rw [response?, reply?, hresult]

/-- A run whose calls all return counts what it asks for. -/
theorem counts_askedAll (e : Exposed) (rs : List Inquiry)
    (hr : ∀ x ∈ e.responses rs, Response.returns x = true) : e.Counts rs := by
  induction rs generalizing e with
  | nil => exact counts_nil e
  | cons r rs ih =>
      have hfirst := counts_asked e r (hr _ List.mem_cons_self)
      exact hfirst.cons (ih (e.asked r) fun x hx => hr x (List.mem_cons_of_mem _ hx))

/-- The counts of a session and those of its heap after a run that began with the session. -/
structure Reckons (e : Exposed) (rs : List Inquiry) : Prop where
  /-- Each function was called as often as it was asked for by its name, with its number of words,
      by an invocation, or by its method. -/
  calls : ∀ f, (e.askedAll rs).session.tally.calls f = callsOf f rs
  total : (e.askedAll rs).session.tally.total = reaching rs
  refused : (e.askedAll rs).session.tally.refused = e.refused rs
  allocations : (e.askedAll rs).session.heap.counters.allocations =
    (e.askedAll rs).session.tally.calls .newObject +
      2 * (e.askedAll rs).session.tally.calls .newSlice
  /-- The total is the one that is reported, unless it leaves the range of a count. -/
  reported : (e.askedAll rs).session.heap.counters.allocations < Word.countBound →
    (e.askedAll rs).session.heap.counters.reportedAllocations =
      .ok ((e.askedAll rs).session.tally.calls .newObject +
        2 * (e.askedAll rs).session.tally.calls .newSlice)
  /-- Of what joined the chains, all but the remainders of splits was given back by a call. -/
  frees : (e.askedAll rs).session.heap.counters.binFrees +
      (e.askedAll rs).session.heap.counters.fitFrees =
    (e.askedAll rs).session.heap.counters.splits +
      (e.answered .dropObject rs + 2 * e.answered .dropSlice rs)
  splits : (e.askedAll rs).session.heap.counters.splits ≤
    (e.askedAll rs).session.heap.counters.fitReuses

theorem Counts.reckons (h : e.Counts rs) (htally : e.session.tally = {})
    (hcounters : e.session.heap.counters = {}) : e.Reckons rs := by
  obtain ⟨hcalls, htotal, hrefused, hallocations, hfrees, hsplits⟩ := h
  rw [hcounters] at hallocations hfrees hsplits
  have hzero : ∀ f, e.session.tally.calls f = 0 := by
    intro f
    rw [htally]
    cases f <;> rfl
  have hcalls : ∀ f, (e.askedAll rs).session.tally.calls f = callsOf f rs := by
    intro f
    rw [hcalls, hzero, Nat.zero_add]
  have hallocations : (e.askedAll rs).session.heap.counters.allocations =
      (e.askedAll rs).session.tally.calls .newObject +
        2 * (e.askedAll rs).session.tally.calls .newSlice := by
    rw [hcalls, hcalls]
    simp only [Counters.allocations] at hallocations ⊢
    omega
  refine ⟨hcalls, ?_, ?_, hallocations, ?_, ?_, ?_⟩
  · rw [htotal, htally]
    exact Nat.zero_add _
  · rw [hrefused, htally]
    exact Nat.zero_add _
  · intro hlt
    rw [← hallocations]
    exact Counters.reportedAllocations_of_lt hlt
  · dsimp only at hfrees
    omega
  · dsimp only at hsplits
    omega

end Exposed

theorem Session.tally_of_create {σ : Type} {config : Config} {s s' : σ} {m m' : Ambient}
    {session : Session} (hc : create config s m = ⟨.ok (.ok session), s', m'⟩) :
    session.tally = {} := by
  rcases hcreate : Heap.create config.start s m with ⟨_ | _ | h, s₁, m₁⟩
  · rw [create, Act.bind_of_error hcreate] at hc
    cases hc
  · rw [create, Act.bind_of_ok hcreate] at hc
    cases hc
  · rw [create, Act.bind_of_ok hcreate] at hc
    cases hc
    rfl

/-- However a session was opened, and whatever is done to its memory, as long as its calls return
    its counts and those of its heap agree with each other, and with what was asked. -/
theorem reckons_of_returns {opens : Session.Config → Act Unit (Except PlacementError Session)}
    (ho : opens = Session.create ∨ opens = Session.createInside) {config : Session.Config}
    {m m₁ : Ambient} {session : Session} {rs : List Inquiry}
    (hc : opens config () m = ⟨.ok (.ok session), (), m₁⟩)
    (hr : ∀ x ∈ (⟨session, m₁⟩ : Exposed).responses rs, Response.returns x = true) :
    (⟨session, m₁⟩ : Exposed).Reckons rs := by
  have hcreate : Session.create config () m = ⟨.ok (.ok session), (), m₁⟩ := by
    rcases ho with rfl | rfl
    · exact hc
    · exact Session.create_of_createInside hc
  refine (Exposed.counts_askedAll _ rs hr).reckons (Session.tally_of_create hcreate) ?_
  show session.heap.counters = {}
  rw [(Session.create_eq_ok hcreate).1]
  rfl

/-- A block is cut in two, a slice is dropped twice, a name is unknown and another has too many
    words; then the header of the remainder is overwritten, and a block is cut out of it again. -/
theorem reckons_of_damage :
    let e : Exposed := ⟨{ heap := .empty 0, ledger := some {} },
      { memory := .zeros 256, journal := #[.heapCreated 0 0, .sessionOpened 0 true] }⟩
    let rs : List Inquiry := [.named "new_object" [100], .named "new_slice" [2, 4],
      .named "drop_object" [4, 100], .incident (.call (.newObject 40)),
      .named "drop_object" [4, 400], .named "drop_slice" [108, 4], .named "drop_slice" [108, 4],
      .named "free" [4], .named "new_object" [4, 4], .incident (.edit (·.store 44 4294967280)),
      .named "new_object" [60]]
    (∀ x ∈ e.responses rs, Response.returns x = true) ∧ e.Reckons rs ∧
      (e.askedAll rs).session.tally =
        { newObject := 3, newSlice := 1, dropObject := 2, dropSlice := 2, refused := 2 } ∧
      (e.askedAll rs).session.heap.counters =
        { carved := 3, fitReuses := 2, splits := 2, binFrees := 2, fitFrees := 3 } := by
  intro e rs
  have hc : Session.create ⟨0, true⟩ () { memory := .zeros 256 } =
      ⟨.ok (.ok e.session), (), e.ambient⟩ := rfl
  have hr : ∀ x ∈ e.responses rs, Response.returns x = true := by decide +kernel
  exact ⟨hr, reckons_of_returns (.inl rfl) hc hr, by decide +kernel, by decide +kernel⟩

end LinearHeap
