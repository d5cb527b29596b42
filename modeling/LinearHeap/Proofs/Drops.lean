/-
  LinearHeap/Proofs/Drops.lean
  ============================
  **A drop that is vetted never faults.**  In an orderly session a drop is answered
  whatever it asks for and whatever the guest has written into its payloads: it is
  done or it is refused (`drops_never_fault`).  Each partial step of a drop stands
  behind a check that makes it total: a record is read only where an entry of eight
  bytes lies, and what is freed is listed, so it has a header in front of it, and
  room for a link.

  Over the boundary this means that no drop poisons the session it is made on
  (`Registry.Withstands`).
-/
import LinearHeap.Proofs.Acceptance
import LinearHeap.Proofs.Boundary

namespace LinearHeap

/-! ### Drops on a session -/

namespace Session.Orderly

variable {s : Session} {m : Ambient} {n n' : Memory} {l : Ledger} {tiles : List Extent}
  {chains : Option SizeClass → List Extent}

/-- A guest that writes into its payloads leaves a session orderly. -/
theorem written (ho : s.Orderly n l tiles chains)
    (hw : n.Written (fun i => ∃ a ∈ l.keys, n.InPayload a i) n') :
    s.Orderly n' l tiles chains :=
  ho.of_subset ho.ledger (ho.heap.written hw) fun _ hx => hx

theorem dropObject_returns (ho : s.Orderly m.memory l tiles chains) (a : Addr) (size : Word) :
    ∃ answer s' m', dropObject a size s m = ⟨.ok answer, s', m'⟩ := by
  cases hv : l.vet s.heap a (some size) with
  | error cause =>
      have hdrop := dropObject_eq_of_error (m := m) (vetFree_of_error ho.ledger hv)
      exact ⟨_, _, _, hdrop.trans (refuse_eq _ _ _ _)⟩
  | ok recorded =>
      have hlisted : a ∈ l.keys :=
        Ledger.mem_keys_of_mem (ho.vet_eq_ok_iff.1 hv).1
      obtain ⟨e, -, -, h', m', hact, -⟩ := ho.heap.free hlisted
      exact ⟨_, _, _, dropObject_eq_of_vetted (vetFree_of_ok ho.ledger hv) hact⟩

theorem dropSlice_returns (ho : s.Orderly m.memory l tiles chains) (handle : Addr)
    (element : Word) :
    ∃ answer s' m', dropSlice handle element s m = ⟨.ok answer, s', m'⟩ := by
  rcases ho.dropSlice_cases handle element with
    ⟨-, cause, -, m', -, hdrop⟩ | ⟨size, bytes, lengthAt, r, hp⟩
  · exact ⟨_, _, _, hdrop.trans (refuse_eq _ _ _ _)⟩
  · obtain ⟨s', m', hdrop⟩ := hp.accepted ho
    exact ⟨_, _, _, hdrop⟩

end Session.Orderly

/-! ### Drops over the boundary -/

theorem Status.ofDrop_ne_faulted (answer : Except Refusal Unit) : ofDrop answer ≠ .faulted := by
  cases answer with
  | error cause => exact ofCallError_ne_faulted (.refused cause)
  | ok u => exact nofun

namespace Registry

variable {r : Registry} {h : Handle} {seat : Seat} {memory : Option Memory}
  {act : Act Session (Except Refusal Unit)}

/-- A reply that reports no fault, keeps the text of the last one, and leaves the seat of its handle
    in place, poisoned only if it was before. -/
structure Withstands (r : Registry) (h : Handle) (seat : Seat) (reply : Reply Unit) : Prop where
  status : reply.status ≠ .faulted
  lastFault : reply.registry.lastFault = r.lastFault
  seated : ∃ session, reply.registry.seats.get? h =
    some { session := session, poisoned := seat.poisoned }

/-- A drop that is turned away at the boundary leaves the registry as it is. -/
theorem withstands_self {reply : Reply Unit} (hseat : r.seats.get? h = some seat)
    (hstatus : reply.status ≠ .faulted) (hregistry : reply.registry = r) :
    r.Withstands h seat reply := by
  refine ⟨hstatus, congrArg lastFault hregistry, seat.session, ?_⟩
  rw [hregistry]
  exact hseat

/-- A drop that returns on the session of a seat, if it gets there, is withstood. -/
theorem withstands_serveDrop (hseat : r.seats.get? h = some seat)
    (hact : ∀ m ∈ memory, ∃ answer s' ambient',
      act.runOn seat.session m = ⟨.ok answer, s', ambient'⟩) :
    r.Withstands h seat (r.serveDrop h memory act) := by
  rcases memory with _ | m
  · apply withstands_self hseat <;> simp [serveDrop, serve, hseat]
  · cases hpoisoned : seat.poisoned with
    | true => apply withstands_self hseat <;> simp [serveDrop, serve, hseat, hpoisoned]
    | false =>
        obtain ⟨answer, s', ambient', hrun⟩ := hact m rfl
        have hserve := serve_of_ok hseat hpoisoned hrun
        rw [serveDrop, hserve]
        refine ⟨Status.ofDrop_ne_faulted answer, rfl, s', ?_⟩
        rw [hpoisoned]
        exact (SlotTable.get?_replace hseat).trans (if_pos rfl)

end Registry

/-- In an orderly session, and whatever the guest has written into what is out, every drop is done
    or refused; over the boundary, with the session's memory or with none, no drop reports a fault
    or poisons the session. -/
theorem drops_never_fault {s : Session} {m m' : Memory} {l : Ledger} {tiles : List Extent}
    {chains : Option SizeClass → List Extent} (ho : s.Orderly m l tiles chains)
    (hw : m.Written (fun i => ∃ a ∈ l.keys, m.InPayload a i) m') :
    (∀ ambient : Ambient, ambient.memory = m' →
      (∀ a size, ∃ answer s' ambient',
        Session.dropObject a size s ambient = ⟨.ok answer, s', ambient'⟩) ∧
      ∀ handle element, ∃ answer s' ambient',
        Session.dropSlice handle element s ambient = ⟨.ok answer, s', ambient'⟩) ∧
    ∀ (r : Registry) (h : Handle) (seat : Seat), r.seats.get? h = some seat → seat.session = s →
      ∀ memory : Option Memory, (memory = none ∨ memory = some m') →
        (∀ a size, r.Withstands h seat (r.dropObject h memory a size)) ∧
        ∀ handle element, r.Withstands h seat (r.dropSlice h memory handle element) := by
  have ho' := ho.written hw
  constructor
  · rintro ambient rfl
    exact ⟨ho'.dropObject_returns, ho'.dropSlice_returns⟩
  · rintro r h seat hseat rfl memory hmemory
    have horderly : ∀ n ∈ memory, seat.session.Orderly n l tiles chains := by
      intro n hn
      rcases hmemory with rfl | rfl
      · cases hn
      · cases hn
        exact ho'
    constructor
    · intro a size
      apply Registry.withstands_serveDrop hseat
      intro n hn
      exact (horderly n hn).dropObject_returns (m := { memory := n }) a size
    · intro handle element
      apply Registry.withstands_serveDrop hseat
      intro n hn
      exact (horderly n hn).dropSlice_returns (m := { memory := n }) handle element

/-- The guest makes the record of a slice name itself; the drop of that slice is answered, and its
    session is not poisoned. -/
theorem drops_never_fault_of_self_record :
    let v := Visit.furnished
    let after := v.memory.store 68 68
    let seat : Seat := { session := v.session }
    let r : Registry := { seats := (({} : SlotTable Seat).insert seat).2 }
    (∃ answer s' ambient', Session.dropSlice 68 4 v.session { memory := after } =
      ⟨.ok answer, s', ambient'⟩) ∧
    r.Withstands ⟨0, 0⟩ seat (r.dropSlice ⟨0, 0⟩ (some after) 68 4) := by
  intro v after seat r
  obtain ⟨tiles, chains, ho⟩ : ∃ tiles chains, v.session.Orderly v.memory
      ⟨#[(4, 60), (68, 8), (80, 8)], []⟩ tiles chains := Visit.orderly_furnished
  have hwritten : v.memory.Written
      (fun i => ∃ a ∈ Ledger.keys ⟨#[(4, 60), (68, 8), (80, 8)], []⟩, v.memory.InPayload a i)
      after := by
    decide +kernel
  -- all that is needed of the run is known; it is not computed again
  clear_value v
  obtain ⟨hsession, hboundary⟩ := drops_never_fault ho hwritten
  exact ⟨(hsession { memory := after } rfl).2 68 4,
    (hboundary r ⟨0, 0⟩ seat rfl rfl (some after) (Or.inr rfl)).2 68 4⟩

end LinearHeap
