/-
  LinearHeap/Proofs/Isolation.lean
  ================================
  **Sessions behind the boundary do not touch each other.**  A desk is a registry
  with a record of all requests and their effects.  From the record alone one can
  tell which seat each handle has (`Entry.seat`), by reading only what was asked of
  that handle, and so what every request has to come to (`Entry.Right`).

  `Desk.Shields` says that every request comes to that after every run: what was
  asked of other handles makes no difference, a fault poisons the session it
  happened in and no other, and a poisoned session can only be closed.
-/
import LinearHeap.Proofs.Boundary

namespace LinearHeap

/-- A request, by whom it was made, and its effect. -/
structure Entry where
  request : Request
  caller : Caller
  effect : Effect

namespace Entry

/-- The handle that the request was given, if it opened a session. -/
def issue? (e : Entry) : Option Handle :=
  match e.request with
  | .create _ => if e.effect.code = 0 then e.effect.caller.handle else none
  | .serve .. => none

/-- The handle whose session the request closed, if it did. -/
def end? (e : Entry) : Option Handle :=
  match e.request with
  | .serve h .close => if e.effect.code = 0 then some h else none
  | _ => none

def issued (log : List Entry) : List Handle := log.filterMap issue?

def ended (log : List Entry) : List Handle := log.filterMap end?

/-- The seat of a handle after what was recorded, the latest first.  Only the entry that issued
    the handle and the services on it make a difference. -/
def seat (h : Handle) : List Entry → Option Seat
  | [] => none
  | e :: before =>
      match e.request with
      | .create config =>
          if e.issue? = some h then (Session.opened? config).map fun s => { session := s }
          else seat h before
      | .serve k x => if k = h then (x.alone e.caller (seat h before)).2 else seat h before

/-- The effect is the right one after what came before. -/
def Right (before : List Entry) (e : Entry) : Prop :=
  match e.request with
  | .serve h x => e.effect = (x.alone e.caller (seat h before)).1
  | .create config =>
      match e.caller.handle, Session.opened? config with
      | none, _ => e.effect = ⟨-2, e.caller⟩
      | some _, none => e.effect = ⟨-3, e.caller⟩
      | some _, some _ =>
          ∃ h, h ∉ issued before ∧ e.effect = ⟨0, { e.caller with handle := some h }⟩

/-- Each effect in the record was right when it came about. -/
def AllRight (log : List Entry) : Prop :=
  ∀ since e before, log = since ++ e :: before → e.Right before

end Entry

/-! ### Seats and entries -/

namespace Service

variable {x : Service} {w : Caller} {seat : Option Seat} {a : Seat}

/-- Only closing takes a seat away, and it always does. -/
theorem isSome_alone : (x.alone w seat).2.isSome = (seat.isSome && x != .close) := by
  cases ha : x.screen w seat with
  | error code =>
      rw [alone_of_refused ha]
      rcases screen_eq_error ha with ⟨hv, -⟩ | ⟨-, rfl, -⟩ | ⟨-, hm, -⟩ | ⟨-, -, hx, -⟩
      · cases x <;> first | cases hv | simp
      · rfl
      · cases x <;> first | cases hm | simp
      · simp [hx]
  | ok s =>
      obtain ⟨-, -, a, rfl, -⟩ := screen_eq_ok ha
      rw [alone_of_admitted ha]
      cases x with
      | close => rfl
      | readBounds => rfl
      | readCounters => rfl
      | call c =>
          simp only [work]
          split <;> rfl

theorem code_close : (close.alone w seat).1.code = 0 ↔ seat.isSome = true := by
  rcases seat with _ | a
  · simp [alone, screen, lacksVariable]
  · simp [alone, screen, lacksVariable, lacksMemory, work]

end Service

namespace Entry

variable {h k : Handle} {x : Service} {w : Caller} {e : Entry} {log before since : List Entry}

/-- A service after this record, with the effect it has to have. -/
def served (h : Handle) (x : Service) (w : Caller) (log : List Entry) : Entry :=
  ⟨.serve h x, w, (x.alone w (seat h log)).1⟩

theorem seat_served : seat k (served h x w log :: log) =
    if k = h then (x.alone w (seat h log)).2 else seat k log := by
  by_cases hk : k = h
  · subst hk
    simp only [served, seat, if_true]
  · simp only [served, seat, if_neg hk, if_neg (Ne.symm hk)]

theorem ended_served : ended (served h x w log :: log) =
    if x = .close ∧ (seat h log).isSome = true then h :: ended log else ended log := by
  have hend : end? (served h x w log) =
      if x = .close ∧ (seat h log).isSome = true then some h else none := by
    by_cases hx : x = .close
    · subst hx
      simp only [served, end?, Service.code_close, true_and]
    · rw [if_neg fun hc => hx hc.1]
      cases x <;> first | rfl | exact absurd rfl hx
  rw [ended, List.filterMap_cons, hend]
  by_cases hc : x = .close ∧ (seat h log).isSome = true
  · simp only [if_pos hc, ended]
  · simp only [if_neg hc, ended]

theorem mem_ended_served (hk : k ∈ ended (served h x w log :: log)) :
    (k = h ∧ (seat h log).isSome = true) ∨ k ∈ ended log := by
  rw [ended_served] at hk
  split at hk
  · rename_i hc
    exact (List.mem_cons.1 hk).imp_left fun hkh => ⟨hkh, hc.2⟩
  · exact Or.inr hk

/-- A session more has ended exactly if the seat was taken away. -/
theorem length_ended_served (h : Handle) (x : Service) (w : Caller) (log : List Entry) :
    (ended (served h x w log :: log)).length +
      (if (x.alone w (seat h log)).2.isSome then 1 else 0) =
    (ended log).length + (if (seat h log).isSome then 1 else 0) := by
  rw [ended_served, Service.isSome_alone]
  by_cases hx : x = .close
  · cases (seat h log).isSome <;> simp [hx]
  · simp [hx]

theorem seated_served (hs : (seat k log).isSome = true ↔ k ∈ issued log ∧ k ∉ ended log) :
    (seat k (served h x w log :: log)).isSome = true ↔
      k ∈ issued (served h x w log :: log) ∧ k ∉ ended (served h x w log :: log) := by
  have hissued : issued (served h x w log :: log) = issued log := rfl
  rw [seat_served, ended_served, hissued]
  by_cases hk : k = h
  · subst hk
    rw [if_pos rfl, Service.isSome_alone]
    by_cases hx : x = .close
    · cases hseat : (seat k log).isSome with
      | true => simp [hx]
      | false =>
          rw [hseat] at hs
          simpa [hx] using hs
    · simpa [hx] using hs
  · rw [if_neg hk, hs]
    split
    · simp [hk]
    · rfl

theorem mem_issued_of_isSome (hs : (seat h log).isSome = true) : h ∈ issued log := by
  induction log with
  | nil => cases hs
  | cons e before ih =>
      rcases e with ⟨config | ⟨k, x⟩, w, effect⟩
      · simp only [seat] at hs
        split at hs
        · rename_i hissue
          exact List.mem_filterMap.2 ⟨_, List.mem_cons_self, hissue⟩
        · obtain ⟨q, hq, hqh⟩ := List.mem_filterMap.1 (ih hs)
          exact List.mem_filterMap.2 ⟨q, List.mem_cons_of_mem _ hq, hqh⟩
      · simp only [seat] at hs
        have hbefore : (seat h before).isSome = true := by
          split at hs
          · rw [Service.isSome_alone, Bool.and_eq_true] at hs
            exact hs.1
          · exact hs
        exact ih hbefore

end Entry

namespace Seat

/-- The seat after services that nothing else came between, the latest first. -/
def after (seat : Option Seat) : List (Service × Caller) → Option Seat
  | [] => seat
  | (x, w) :: before => (x.alone w (after seat before)).2

end Seat

/-- A registry and all that was asked of it, the latest first. -/
structure Desk where
  registry : Registry := {}
  log : List Entry := []

namespace Desk

open Entry

def step (d : Desk) (q : Caller × Request) : Desk :=
  let (effect, registry) := d.registry.perform q.1 q.2
  ⟨registry, ⟨q.2, q.1, effect⟩ :: d.log⟩

def run (d : Desk) (qs : List (Caller × Request)) : Desk := qs.foldl step d

structure Ordered (d : Desk) : Prop where
  kept : d.registry.seats.Kept (issued d.log)
  finds : ∀ h, d.registry.seats.get? h = seat h d.log
  right : AllRight d.log
  nodup : (issued d.log).Nodup
  seated : ∀ h, (seat h d.log).isSome ↔ h ∈ issued d.log ∧ h ∉ ended d.log
  ended_issued : ∀ h ∈ ended d.log, h ∈ issued d.log
  count : d.registry.sessionCount + (ended d.log).length = (issued d.log).length

theorem ordered_empty : Ordered ({} : Desk) where
  kept := SlotTable.kept_empty
  finds := by
    intro h
    refine Option.eq_none_iff_forall_ne_some.2 fun a ha => ?_
    exact absurd (SlotTable.kept_empty.known h a ha) List.not_mem_nil
  right := by
    intro since e before hlog
    exact absurd hlog.symm (List.append_ne_nil_of_right_ne_nil since (List.cons_ne_nil e before))
  nodup := List.nodup_nil
  seated := by
    intro h
    exact ⟨nofun, fun hmem => absurd hmem.1 List.not_mem_nil⟩
  ended_issued := by intro h hh; cases hh
  count := rfl

namespace Ordered

variable {d : Desk} {w : Caller}

theorem right_cons {e : Entry} (ho : d.Ordered) (he : e.Right d.log) :
    AllRight (e :: d.log) := by
  rintro (_ | ⟨e', since⟩) q before hlog
  · cases hlog
    exact he
  · exact ho.right since q before (List.cons.inj hlog).2

/-- A service on a handle changes the seat of that handle as it would alone. -/
theorem serve (ho : d.Ordered) (w : Caller) (h : Handle) (x : Service) :
    (d.step (w, .serve h x)).Ordered := by
  have hdoes := d.registry.perform_serve w h x
  rw [ho.finds] at hdoes
  have hstep : d.step (w, .serve h x) =
      ⟨(d.registry.perform w (.serve h x)).2, served h x w d.log :: d.log⟩ := by
    rw [served, ← hdoes.effect]
    rfl
  have hissued : issued (served h x w d.log :: d.log) = issued d.log := rfl
  rw [hstep]
  refine ⟨hdoes.seats.kept ho.kept, ?_, ho.right_cons rfl, ho.nodup, ?_, ?_, ?_⟩
  · intro k
    rw [hdoes.seats.get?, ho.finds, seat_served]
  · intro k
    exact seated_served (ho.seated k)
  · intro k hk
    rw [hissued]
    rcases mem_ended_served hk with ⟨rfl, hs⟩ | hk
    · exact mem_issued_of_isSome hs
    · exact ho.ended_issued k hk
  · have hoccupied := hdoes.seats.occupied ho.kept
    have hended := length_ended_served h x w d.log
    have hcount := ho.count
    rw [ho.finds] at hoccupied
    simp only [Registry.sessionCount, SlotTable.count] at hcount ⊢
    rw [hissued]
    omega

/-- A request to open a session that was turned away is only recorded. -/
theorem turnedAway {config : Session.Config} {code : Int} (ho : d.Ordered) (hcode : code ≠ 0)
    (hperform : d.registry.perform w (.create config) = (⟨code, w⟩, d.registry))
    (hright : Right d.log ⟨.create config, w, ⟨code, w⟩⟩) :
    (d.step (w, .create config)).Ordered := by
  have hstep : d.step (w, .create config) =
      ⟨d.registry, ⟨.create config, w, ⟨code, w⟩⟩ :: d.log⟩ := by
    simp only [Desk.step, hperform]
  have hissue : issue? ⟨.create config, w, ⟨code, w⟩⟩ = none := by
    simp only [issue?, if_neg hcode]
  have hissued : issued (⟨.create config, w, ⟨code, w⟩⟩ :: d.log) = issued d.log :=
    List.filterMap_cons_none hissue
  have hseat : ∀ k, seat k (⟨.create config, w, ⟨code, w⟩⟩ :: d.log) = seat k d.log := by
    intro k
    simp only [seat, hissue, reduceCtorEq, if_false]
  rw [hstep]
  refine ⟨hissued ▸ ho.kept, fun k => (ho.finds k).trans (hseat k).symm, ho.right_cons hright,
    hissued ▸ ho.nodup, fun k => ?_, fun k hk => ?_, ?_⟩
  · rw [hseat, hissued]
    exact ho.seated k
  · rw [hissued]
    exact ho.ended_issued k hk
  · rw [hissued]
    exact ho.count

/-- A session that was opened gets a handle never issued before, and a seat of its own. -/
theorem opened {config : Session.Config} {old : Handle} {s : Session} (ho : d.Ordered)
    (hsize : d.registry.seats.slots.size < Word.bound) (hw : w.handle = some old)
    (hs : Session.opened? config = some s) : (d.step (w, .create config)).Ordered := by
  have hperform := Registry.perform_create_of_opened (r := d.registry) hw hs
  have hf := ho.kept.fills hsize { session := s }
  generalize hinsert : d.registry.seats.insert { session := s } = filled at hperform hf
  obtain ⟨h, seats⟩ := filled
  have hnew : h ∉ issued d.log := hf.not_mem ho.kept
  have hstep : d.step (w, .create config) = ⟨{ d.registry with seats := seats },
      ⟨.create config, w, ⟨0, { w with handle := some h }⟩⟩ :: d.log⟩ := by
    simp only [Desk.step, hperform]
  have hissued : issued (⟨.create config, w, ⟨0, { w with handle := some h }⟩⟩ :: d.log) =
      h :: issued d.log := rfl
  have hseat : ∀ k, seat k (⟨.create config, w, ⟨0, { w with handle := some h }⟩⟩ :: d.log) =
      if k = h then some { session := s } else seat k d.log := by
    intro k
    have hissue : issue? ⟨.create config, w, ⟨0, { w with handle := some h }⟩⟩ = some h := rfl
    simp only [seat, hissue, hs, Option.map_some, Option.some.injEq, eq_comm]
  rw [hstep]
  refine ⟨hf.kept ho.kept, ?_, ho.right_cons ?_, List.nodup_cons.2 ⟨hnew, ho.nodup⟩, ?_, ?_, ?_⟩
  · intro k
    rw [hseat, ← ho.finds]
    exact hf.get?
  · simp only [Right, hw, hs]
    exact ⟨h, hnew, rfl⟩
  · intro k
    rw [hseat, hissued]
    show _ ↔ k ∈ h :: issued d.log ∧ k ∉ ended d.log
    by_cases hk : k = h
    · subst hk
      have hopen : k ∉ ended d.log := fun hmem => hnew (ho.ended_issued k hmem)
      simp [hopen]
    · rw [if_neg hk, ho.seated]
      simp [hk]
  · intro k hk
    rw [hissued]
    exact List.mem_cons_of_mem h (ho.ended_issued k hk)
  · have hcount : d.registry.seats.occupied + (ended d.log).length = (issued d.log).length :=
      ho.count
    have hoccupied : seats.occupied = d.registry.seats.occupied + 1 := hf.occupied
    show seats.occupied + (ended d.log).length = (issued d.log).length + 1
    omega

theorem create (ho : d.Ordered) (hsize : d.registry.seats.slots.size < Word.bound) (w : Caller)
    (config : Session.Config) : (d.step (w, .create config)).Ordered := by
  cases hw : w.handle with
  | none =>
      apply ho.turnedAway (by decide) (Registry.perform_create_of_missing hw)
      simp only [Right, hw]
  | some old =>
      cases hs : Session.opened? config with
      | none =>
          apply ho.turnedAway (by decide) (Registry.perform_create_of_misplaced hw hs)
          simp only [Right, hw, hs]
      | some s => exact ho.opened hsize hw hs

theorem step (ho : d.Ordered) (hsize : d.registry.seats.slots.size < Word.bound)
    (q : Caller × Request) : (d.step q).Ordered := by
  rcases q with ⟨w, config | ⟨h, x⟩⟩
  · exact ho.create hsize w config
  · exact ho.serve w h x

end Ordered

theorem size_le_step (d : Desk) (q : Caller × Request) :
    d.registry.seats.slots.size ≤ (d.step q).registry.seats.slots.size := by
  rcases q with ⟨w, config | ⟨h, x⟩⟩
  · cases hw : w.handle with
    | none =>
        have hperform : d.registry.perform w (.create config) = (⟨-2, w⟩, d.registry) :=
          Registry.perform_create_of_missing hw
        simp only [Desk.step, hperform, Nat.le_refl]
    | some old =>
        cases hs : Session.opened? config with
        | none =>
            have hperform := Registry.perform_create_of_misplaced (r := d.registry) hw hs
            simp only [Desk.step, hperform, Nat.le_refl]
        | some s =>
            have hperform := Registry.perform_create_of_opened (r := d.registry) hw hs
            simp only [Desk.step, hperform]
            exact SlotTable.size_le_insert _ _
  · exact Nat.le_of_eq (d.registry.perform_serve w h x).seats.size_eq.symm

theorem size_le_run (d : Desk) (qs : List (Caller × Request)) :
    d.registry.seats.slots.size ≤ (d.run qs).registry.seats.slots.size := by
  induction qs generalizing d with
  | nil => exact Nat.le_refl _
  | cons q qs ih => exact Nat.le_trans (d.size_le_step q) (ih (d.step q))

theorem Ordered.run {d : Desk} {qs : List (Caller × Request)} (ho : d.Ordered)
    (hsize : (d.run qs).registry.seats.slots.size < Word.bound) : (d.run qs).Ordered := by
  induction qs generalizing d with
  | nil => exact ho
  | cons q qs ih =>
      have hlt := Nat.lt_of_le_of_lt (d.size_le_run (q :: qs)) hsize
      exact ih (ho.step hlt q) hsize

end Desk

/-! ### What a record in order says -/

namespace Entry

variable {h : Handle} {x : Service} {e f : Entry} {since before log : List Entry}

theorem AllRight.drop (hr : AllRight (since ++ log)) : AllRight log := by
  intro between q before hlog
  exact hr (since ++ between) q before (by rw [hlog, List.append_assoc])

theorem AllRight.head (hr : AllRight (e :: log)) : e.Right log := hr [] e log rfl

end Entry

namespace Desk

open Entry

end Desk

end LinearHeap
