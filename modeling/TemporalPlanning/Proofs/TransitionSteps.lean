import TemporalPlanning.Proofs.Attempts

namespace TemporalPlanning

namespace Cause

def OfOrder : Cause → Prop
  | .alreadyRunning | .expectsOther _ | .alreadyApplied | .notOpened _ | .planStillRuns _ => True
  | .goalsUnchecked _ | .stillOpen _ => True
  | _ => False

def OfState : Cause → Prop
  | .unsatisfied _ | .durationOutside _ _ _ _ _ | .contradicts _ _ => True
  | .conflicting _ | .violates _ => True
  | _ => False

end Cause

namespace Refusal

theorem ofOrder_iff {r : Refusal} :
    r.cause.OfOrder ↔ r.kind = .outOfOrder ∨ r.kind = .pendingConditions := by
  unfold kind
  cases r.cause <;> simp [Cause.OfOrder]

theorem kind_of_ofState {r : Refusal} (h : r.cause.OfState) : r.kind ≠ .outOfOrder ∧
    r.kind ≠ .pendingConditions ∧ r.kind ≠ .temporalInconsistency := by
  unfold kind
  cases hc : r.cause <;> simp_all [Cause.OfState]

end Refusal

end TemporalPlanning

namespace TemporalPlanning.Simulator

variable {sim : Simulator} {e : Event} {s s' : State} {time : Option Rat} {v : Valuation}
  {a : Applied}

theorem examine_gives : (sim.examine e s).Gives (v, a) ↔ e.origin = sim.origin ∧
    ∃ durationReads pointReads openingReads firing,
      (checkLifecycle e s).Gives () ∧
      (checkDuration e (sim.situation s.valuation e.activity.bindings)).Gives durationReads ∧
      (checkConditions (sim.situation s.valuation e.activity.bindings)
        (pointConditions e)).Gives pointReads ∧
      (sim.checkOpening e s).Gives openingReads ∧
      Firing.ofEvent sim.provider (sim.situation s.valuation e.activity.bindings) e = .ok firing ∧
      firing.conflicts.isEmpty = true ∧
      (sim.checkOpen v (openAfter e s.openConditions)).Gives () ∧
      v = s.valuation.update firing.updates ∧
      a = ⟨e, (durationReads ++ pointReads ++ openingReads ++ firing.reads).eraseDups,
        firing.updates.keys⟩ := by
  unfold examine
  split
  · rename_i hne
    simp [hne]
  · rename_i heq
    have heq : e.origin = sim.origin := Decidable.not_not.mp heq
    simp only [Attempt.gives_bind, Attempt.gives_pure, Attempt.gives_ofExcept,
      Attempt.gives_require, Prod.mk.injEq]
    constructor
    · rintro ⟨_, hl, d, hd, p, hp, o, ho, f, hf, _, hc, _, hopen, rfl, rfl⟩
      exact ⟨heq, d, p, o, f, hl, hd, hp, ho, hf, hc, hopen, rfl, rfl⟩
    · rintro ⟨-, d, p, o, f, hl, hd, hp, ho, hf, hc, hopen, rfl, rfl⟩
      exact ⟨(), hl, d, hd, p, hp, o, ho, f, hf, (), hc, (), hopen, rfl, rfl⟩

theorem examine_refuses {c : Cause} (h : (sim.examine e s).Refuses c) :
    (checkLifecycle e s).Refuses c ∨
    (checkDuration e (sim.situation s.valuation e.activity.bindings)).Refuses c ∨
    (checkConditions (sim.situation s.valuation e.activity.bindings)
      (pointConditions e)).Refuses c ∨
    (sim.checkOpening e s).Refuses c ∨
    (∃ firing, Firing.ofEvent sim.provider (sim.situation s.valuation e.activity.bindings) e =
      .ok firing ∧ firing.conflicts.isEmpty = false ∧ c = .conflicting firing.conflicts) ∨
    ∃ v, (sim.checkOpen v (openAfter e s.openConditions)).Refuses c := by
  unfold examine at h
  split at h
  · exact absurd h Attempt.not_refuses_fault
  · rcases Attempt.refuses_bind.mp h with h | ⟨_, _, h⟩
    · exact .inl h
    refine .inr ?_
    rcases Attempt.refuses_bind.mp h with h | ⟨_, _, h⟩
    · exact .inl h
    refine .inr ?_
    rcases Attempt.refuses_bind.mp h with h | ⟨_, _, h⟩
    · exact .inl h
    refine .inr ?_
    rcases Attempt.refuses_bind.mp h with h | ⟨_, _, h⟩
    · exact .inl h
    refine .inr ?_
    rcases Attempt.refuses_bind.mp h with h | ⟨firing, hfiring, h⟩
    · exact absurd h Attempt.not_refuses_ofExcept
    rcases Attempt.refuses_bind.mp h with h | ⟨_, _, h⟩
    · obtain ⟨hconflicts, rfl⟩ := Attempt.refuses_require.mp h
      exact .inl ⟨firing, Attempt.gives_ofExcept.mp hfiring, hconflicts, rfl⟩
    rcases Attempt.refuses_bind.mp h with h | ⟨_, _, h⟩
    · exact .inr ⟨_, h⟩
    · exact absurd h Attempt.not_refuses_pure

theorem event_of_examine (h : (sim.examine e s).Gives (v, a)) : a.event = e := by
  obtain ⟨-, d, p, o, f, -, -, -, -, -, -, -, -, rfl⟩ := examine_gives.mp h
  rfl

theorem transition_gives : (sim.transition e s time).Gives s' ↔
    ∃ v a, (sim.examine e s).Gives (v, a) ∧ (sim.networkAfter s a time).check = true ∧
      s' = sim.stateAfter s v a time := by
  simp only [transition, Attempt.gives_bind, Attempt.gives_require, Attempt.gives_pure]
  constructor
  · rintro ⟨⟨v, a⟩, hx, -, hc, rfl⟩
    exact ⟨v, a, hx, hc, rfl⟩
  · rintro ⟨v, a, hx, hc, rfl⟩
    exact ⟨(v, a), hx, (), hc, rfl⟩

theorem transition_inconsistent (hx : (sim.examine e s).Gives (v, a))
    (hc : (sim.networkAfter s a time).check = false) :
    (sim.transition e s time).run =
      .ok (.error (.inconsistent (sim.networkAfter s a time).witness)) := by
  have hx : (sim.examine e s).run = .ok (.ok (v, a)) := hx
  rw [transition, ExceptT.run_bind, hx]
  change ExceptT.run (Attempt.require (sim.networkAfter s a time).check _ >>= fun _ => pure _) = _
  rw [hc]
  rfl

theorem tryApply_outcome (sim : Simulator) (e : Event) (s : State) (time : Option Rat) :
    (sim.tryApply e s time).outcome.1 = match (sim.transition e s time).run with
      | .error f => .error f
      | .ok (.ok next) => .ok (.ok next)
      | .ok (.error c) => .ok (.error ⟨e, c⟩) := by
  unfold tryApply
  cases (sim.transition e s time).run with
  | error f => rfl
  | ok r => cases r <;> rfl

theorem tryApply_gives (h : (sim.tryApply e s time).Gives (.ok s')) :
    (sim.transition e s time).Gives s' := by
  obtain ⟨r, hr, h⟩ := Logged.gives_bind h
  cases r with
  | ok next =>
      obtain rfl : next = s' := by simpa using Logged.gives_pure h
      exact Logged.gives_ofExcept hr
  | error c =>
      obtain ⟨-, -, h⟩ := Logged.gives_bind h
      simpa using Logged.gives_pure h

section Causes

open Attempt

theorem refusesOnly_checkPlanOrder (e : Event) (pending : List Event) (s : State) :
    (checkPlanOrder e pending s).RefusesOnly Cause.OfOrder := by
  refine (refusesOnly_require _ trivial).bind fun _ => ?_
  cases e with
  | startAction => exact refusesOnly_pure _
  | startCondition => exact refusesOnly_pure _
  | endCondition p i => exact refusesOnly_require _ trivial
  | endAction p b =>
      exact (refusesOnly_require _ trivial).bind fun _ => refusesOnly_require _ trivial

theorem refusesOnly_checkNext (e : Event) (s : State) :
    (checkNext e s).RefusesOnly Cause.OfOrder := by
  unfold checkNext
  dsimp only
  split
  · exact refusesOnly_fault _
  · split
    · exact refusesOnly_checkPlanOrder e _ s
    · exact refusesOnly_require _ trivial

theorem refusesOnly_checkClosed (e : Event) (s : State) :
    (checkClosed e s).RefusesOnly Cause.OfOrder := by
  cases e with
  | startAction => exact refusesOnly_pure _
  | startCondition => exact refusesOnly_pure _
  | endCondition => exact refusesOnly_pure _
  | endAction p b => exact refusesOnly_require _ trivial

theorem refusesOnly_checkLifecycle (e : Event) (s : State) :
    (checkLifecycle e s).RefusesOnly Cause.OfOrder := by
  have hnext : (do checkNext e s; checkClosed e s).RefusesOnly Cause.OfOrder :=
    (refusesOnly_checkNext e s).bind fun _ => refusesOnly_checkClosed e s
  cases e with
  | startAction p b d es =>
      refine (refusesOnly_require _ trivial).bind fun _ => ?_
      split
      · exact refusesOnly_fault _
      · exact refusesOnly_pure _
  | startCondition => exact hnext
  | endCondition => exact hnext
  | endAction => exact hnext

variable {P : Cause → Prop}

theorem refusesOnly_checkDuration (hP : ∀ d lower upper lowerOpen upperOpen,
    P (.durationOutside d lower upper lowerOpen upperOpen)) (e : Event) (here : Situation) :
    (checkDuration e here).RefusesOnly P := by
  unfold checkDuration
  split
  · exact (refusesOnly_ofExcept _).bind fun _ => (refusesOnly_ofExcept _).bind fun _ =>
      (refusesOnly_ofExcept _).bind fun _ => (refusesOnly_ofExcept _).bind fun _ =>
        (refusesOnly_require _ (hP _ _ _ _ _)).bind fun _ => refusesOnly_pure _
  · exact refusesOnly_pure _

theorem refusesOnly_checkConditions (hP : ∀ c, P (.unsatisfied c)) (here : Situation)
    (cs : List Expr) : (checkConditions here cs).RefusesOnly P := by
  induction cs with
  | nil => exact refusesOnly_pure _
  | cons c cs ih =>
      exact (refusesOnly_ofExcept _).bind fun _ => (refusesOnly_ofExcept _).bind fun _ =>
        (refusesOnly_require _ (hP c)).bind fun _ => ih.bind fun _ => refusesOnly_pure _

theorem refusesOnly_checkOpening (sim : Simulator) (e : Event) (s : State) :
    (sim.checkOpening e s).RefusesOnly Cause.OfState := by
  cases e with
  | startAction => exact refusesOnly_pure _
  | endCondition => exact refusesOnly_pure _
  | endAction => exact refusesOnly_pure _
  | startCondition p i =>
      refine (refusesOnly_ofExcept _).bind fun _ => (refusesOnly_ofExcept _).bind fun _ =>
        (refusesOnly_ofExcept _).bind fun clash => ?_
      cases clash with
      | none => exact refusesOnly_pure _
      | some other =>
          intro c h
          rw [← refuses_refuse.mp h]
          trivial

theorem refusesOnly_checkOpen (hP : ∀ i, P (.violates i)) (sim : Simulator) (v : Valuation)
    (is : List IntervalCondition) : (sim.checkOpen v is).RefusesOnly P := by
  induction is with
  | nil => exact refusesOnly_pure _
  | cons i is ih =>
      exact (refusesOnly_ofExcept _).bind fun _ => (refusesOnly_require _ (hP i)).bind fun _ => ih

theorem examine_refuses_for {c : Cause} (h : (sim.examine e s).Refuses c) :
    (checkLifecycle e s).Refuses c ∨ c.OfState := by
  rcases examine_refuses h with h | h | h | h | ⟨firing, -, -, rfl⟩ | ⟨v, h⟩
  · exact .inl h
  · exact .inr (refusesOnly_checkDuration (fun _ _ _ _ _ => trivial) e _ c h)
  · exact .inr (refusesOnly_checkConditions (fun _ => trivial) _ _ c h)
  · exact .inr (refusesOnly_checkOpening sim e s c h)
  · exact .inr trivial
  · exact .inr (refusesOnly_checkOpen (fun _ => trivial) sim v _ c h)

theorem refused_by {r : Refusal} (h : (sim.tryApply e s time).outcome.1 = .ok (.error r)) :
    r.event = e ∧ ((sim.examine e s).Refuses r.cause ∨
      (∃ w, r.cause = .inconsistent w) ∧ ∃ v a, (sim.examine e s).Gives (v, a)) := by
  rw [tryApply_outcome] at h
  cases ht : (sim.transition e s time).run with
  | error f => simp [ht] at h
  | ok next =>
      cases next with
      | ok next => simp [ht] at h
      | error c =>
          obtain rfl : (⟨e, c⟩ : Refusal) = r := by simpa [ht] using h
          refine ⟨rfl, ?_⟩
          rcases refuses_bind.mp ht with hx | ⟨⟨v, a⟩, hx, hrest⟩
          · exact .inl hx
          · rcases refuses_bind.mp hrest with hnet | ⟨_, _, hnone⟩
            · exact .inr ⟨⟨_, (refuses_require.mp hnet).2.symm⟩, v, a, hx⟩
            · exact absurd hnone not_refuses_pure

theorem refused_for {r : Refusal} (h : (sim.tryApply e s time).outcome.1 = .ok (.error r)) :
    r.event = e ∧ ((checkLifecycle e s).Refuses r.cause ∧ r.cause.OfOrder ∨ r.cause.OfState ∨
      (∃ w, r.cause = .inconsistent w) ∧ ∃ v a, (sim.examine e s).Gives (v, a)) := by
  obtain ⟨he, hx | hinconsistent⟩ := refused_by h
  · refine ⟨he, ?_⟩
    rcases examine_refuses_for hx with hlife | hstate
    · exact .inl ⟨hlife, refusesOnly_checkLifecycle e s r.cause hlife⟩
    · exact .inr (.inl hstate)
  · exact ⟨he, .inr (.inr hinconsistent)⟩

theorem examined_of_inconsistent {r : Refusal}
    (h : (sim.tryApply e s time).outcome.1 = .ok (.error r))
    (hr : r.kind = .temporalInconsistency) :
    r.event = e ∧ ∃ v a, (sim.examine e s).Gives (v, a) := by
  obtain ⟨he, hcause⟩ := refused_for h
  refine ⟨he, ?_⟩
  rcases hcause with ⟨-, horder⟩ | hstate | ⟨-, hexamined⟩
  · rw [Refusal.ofOrder_iff, hr] at horder
    simp at horder
  · exact absurd hr (Refusal.kind_of_ofState hstate).2.2
  · exact hexamined

end Causes

end TemporalPlanning.Simulator
