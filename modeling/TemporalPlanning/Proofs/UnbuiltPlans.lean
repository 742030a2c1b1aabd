import TemporalPlanning.Proofs.ExecutionFaults
import TemporalPlanning.Proofs.ScheduleEvents

namespace TemporalPlanning

variable {sim : Simulator} {f : Fault} {steps : List TimedStep} {a : Action} {d : Rat}
  {duration : Option Rat}

def Fault.OfTiming (f : Fault) : Prop := f.kind = .unsupportedTiming

theorem Fault.OfTiming.kind_ne (h : f.OfTiming) : f.kind ≠ .invalidDuration := by
  intro hkind
  cases h.symm.trans hkind

section Timings

variable (b : DurativeAction) (d : Rat)

open FaultsOnly Timeline

theorem faultsOnly_offset (t : Timing) : FaultsOnly Fault.OfTiming (b.offset d t) := by
  have hwithin (q : Rat) : FaultsOnly Fault.OfTiming
      (if q < 0 ∨ d < q then .error (.outsideDuration b.name t d) else .ok q :
        Except Fault Rat) := by
    split
    · exact error rfl
    · exact ok q
  unfold DurativeAction.offset
  split
  · exact hwithin _
  · exact hwithin _
  · exact error rfl

theorem faultsOnly_span (i : Interval) : FaultsOnly Fault.OfTiming (span b d i) :=
  (faultsOnly_offset b d _).bind fun _ _ => (faultsOnly_offset b d _).bind fun _ _ => pure _

theorem faultsOnly_addCondition (t : Timeline) (c : TimedCondition) :
    FaultsOnly Fault.OfTiming (addCondition b d t c) := by
  refine (faultsOnly_span b d _).bind fun s _ => ?_
  split
  · exact pure _
  · split
    · split <;> exact pure _
    · exact pure _

theorem faultsOnly_addEffect (t : Timeline) (e : TimedEffect) :
    FaultsOnly Fault.OfTiming (addEffect b d t e) := by
  refine (faultsOnly_offset b d _).bind fun q _ => ?_
  split <;> exact pure _

theorem faultsOnly_addSimulated (t : Timeline) (e : SimulatedEffect) :
    FaultsOnly Fault.OfTiming (addSimulated b d t e) := by
  refine (faultsOnly_offset b d _).bind fun q _ => ?_
  dsimp only
  split
  · exact error rfl
  · exact pure _

theorem faultsOnly_addContinuous (t : Timeline) (e : ContinuousEffect) :
    FaultsOnly Fault.OfTiming (addContinuous b d t e) := by
  refine (faultsOnly_span b d _).bind fun s _ => ?_
  split <;> exact pure _

theorem faultsOnly_ofAction : FaultsOnly Fault.OfTiming (ofAction b d) :=
  (foldlM (fun t c _ => faultsOnly_addCondition b d t c) _).bind fun t _ =>
    (foldlM (fun t e _ => faultsOnly_addEffect b d t e) t).bind fun t _ =>
    (foldlM (fun t e _ => faultsOnly_addSimulated b d t e) t).bind fun t _ =>
    foldlM (fun t e _ => faultsOnly_addContinuous b d t e) t

theorem faultsOnly_planOffset (t : Timing) :
    FaultsOnly Fault.OfTiming (PlanOffset.ofTiming t) := by
  unfold PlanOffset.ofTiming
  split
  · exact ok _
  · exact ok _
  · exact error rfl

theorem faultsOnly_goalEvents (c : Clock) (plan : Activity) (n : Nat) (goal : TimedCondition) :
    FaultsOnly Fault.OfTiming (goalEvents c plan n goal) := by
  refine (faultsOnly_planOffset _).bind fun lower _ =>
    (faultsOnly_planOffset _).bind fun upper _ => ?_
  split <;> exact pure _

theorem faultsOnly_goalsEvents (c : Clock) (plan : Activity) (n : Nat)
    (goals : List TimedCondition) : FaultsOnly Fault.OfTiming (goalsEvents c plan n goals) := by
  induction goals generalizing n with
  | nil => exact ok _
  | cons goal goals ih =>
      exact (faultsOnly_goalEvents c plan n goal).bind fun es _ => (ih _).bind fun _ _ => pure _

theorem faultsOnly_new (origin : Nat) (problem : Problem) (epsilon : Rat)
    (provider : Option EffectProvider) (component : String) :
    FaultsOnly Fault.OfTiming (Simulator.new origin problem epsilon provider component) :=
  ((faultsOnly_goalsEvents _ _ _ _).bind fun _ _ => pure _).bind fun _ _ => pure _

theorem faultsOnly_effectsByTime (es : List TimedEffect) (m : OrderedMap Rat (List Effect)) :
    FaultsOnly Fault.OfTiming (Simulator.effectsByTime es m) := by
  induction es generalizing m with
  | nil => exact ok _
  | cons e es ih =>
      unfold Simulator.effectsByTime
      split
      · exact ih _
      · exact error rfl

theorem faultsOnly_timedActivities (sim : Simulator) :
    FaultsOnly Fault.OfTiming sim.timedActivities.2 := by
  unfold Simulator.timedActivities
  split
  · exact ok _
  · split
    · rename_i f hf
      exact error (faultsOnly_effectsByTime _ _ f hf)
    · rename_i m _
      obtain ⟨next, ts, ht⟩ := exists_executeTimed sim (m.entries.mergeSort fun a b => a.1 ≤ b.1)
      rw [ht]
      exact ok ts

end Timings

section Steps

theorem Action.nonneg_of_events {c : Clock} {activity : Activity} {es : List Event}
    (h : a.events c activity duration = .ok es) (hd : d ∈ duration) : 0 ≤ d := by
  obtain rfl : duration = some d := hd
  cases a with
  | instantaneous i =>
      simp only [Action.events] at h
      split at h
      · rename_i hzero
        exact hzero.ge
      · cases h
  | durative b =>
      simp only [Action.events] at h
      split at h
      · cases h
      · rename_i hnonneg
        exact not_lt.mp hnonneg

def Fault.Denies (f : Fault) (a : Action) (duration : Option Rat) : Prop :=
  ∃ d ∈ duration, d < 0 ∧ f = .negativeDuration a.name d

theorem faultsOnly_events (c : Clock) (activity : Activity)
    (hkind : duration.isSome = a.isDurative) :
    FaultsOnly (fun f => f.OfTiming ∨ f.Denies a duration) (a.events c activity duration) := by
  cases a with
  | instantaneous i =>
      obtain rfl : duration = none := by simpa [Action.isDurative] using hkind
      exact .ok _
  | durative b =>
      obtain ⟨d, rfl⟩ := Option.isSome_iff_exists.mp (hkind.trans rfl)
      unfold Action.events
      dsimp only
      split
      · rename_i hnegative
        exact .error (.inr ⟨d, rfl, hnegative, rfl⟩)
      · exact ((faultsOnly_ofAction b d).mono fun _ => .inl).bind fun t _ => .pure _

theorem faultsOnly_eventsOf (sim : Simulator) {g : GroundAction}
    (hkind : duration.isSome = g.action.isDurative) :
    FaultsOnly (fun f => f.kind ≠ .invalidDuration ∨ f.Denies g.action duration)
      (sim.eventsOf g duration).2 := by
  have hevents := faultsOnly_events sim.clock ⟨sim.origin, sim.nextActivity, some g⟩ hkind
  unfold Simulator.eventsOf Simulator.execute
  dsimp only
  split
  · split
    · exact .ok _
    · rename_i f hf
      exact .error ((hevents f hf).imp_left Fault.OfTiming.kind_ne)
  · exact .error (.inl (by simp [Fault.kind]))

theorem faultsOnly_stepEvents {P : Fault → Prop} (sim : Simulator) (n : Nat)
    (h : ∀ s ∈ steps, ∀ sim' : Simulator,
      FaultsOnly P (sim'.eventsOf s.step.ground s.duration).2) :
    FaultsOnly P (stepEvents sim n steps).2 := by
  induction steps generalizing sim n with
  | nil => exact .ok _
  | cons s rest ih =>
      obtain ⟨hs, hrest⟩ := List.forall_mem_cons.mp h
      unfold stepEvents
      split
      · rename_i next f he
        exact .error (hs sim f (by rw [he]))
      · rename_i next es he
        split
        · rename_i last f hothers
          exact .error (ih next (n + 1) hrest f (by rw [hothers]))
        · exact .ok _

end Steps

namespace Validator

open Logged

variable {v : Validator} {problem : Problem} {sched : Schedule} {g : Fault}

theorem faultsOnly_schedule (hkind : ∀ s ∈ steps, s.duration.isSome = s.step.action.isDurative) :
    FaultsOnly (fun f => f.kind ≠ .invalidDuration ∨
      ∃ s ∈ steps, f.Denies s.step.action s.duration) (v.schedule problem steps) := by
  have htiming (f : Fault) (hf : f.OfTiming) : f.kind ≠ .invalidDuration ∨
      ∃ s ∈ steps, f.Denies s.step.action s.duration := .inl hf.kind_ne
  refine ((faultsOnly_new _ _ _ _ _).mono htiming).bind fun sim _ => ?_
  refine (faultsOnly_stepEvents sim 0 fun s hs sim' => ?_).bind fun xs _ =>
    ((faultsOnly_timedActivities _).mono htiming).bind fun ts _ => .pure _
  exact (faultsOnly_eventsOf sim' (hkind s hs)).mono fun f =>
    Or.imp_right fun hdenies => ⟨s, hs, hdenies⟩

theorem fault_of_unscheduled (hsched : v.schedule problem steps = .error g)
    (h : (v.dispatch problem (.timed steps)).Faults f) : f = g := by
  rcases faults_bind h with h | ⟨sim, hsim, h⟩
  · rw [schedule, faults_ofExcept h] at hsched
    exact Except.error.inj hsched
  rw [schedule, gives_ofExcept hsim] at hsched
  rcases faults_bind h with h | ⟨sched, hof, -⟩
  · exact Except.error.inj ((faults_ofExcept h).symm.trans hsched)
  · cases (gives_ofExcept hof).symm.trans hsched

theorem kind_of_fails {s : State} {xs : List Scheduled} (h : Fails sim s xs f) :
    f.kind ≠ .invalidDuration ∨ ∃ q ∈ sim.provider, ∃ request, q.values request = .error f := by
  obtain ⟨before, x, after, t, -, -, hx⟩ := h
  refine faultsOnly_transition (P := fun f => f.kind ≠ .invalidDuration ∨
      ∃ q ∈ sim.provider, ∃ request, q.values request = .error f)
    (fun f hf => .inl hf.kind_ne) (fun q hq request f hf => .inr ⟨q, hq, request, hf⟩)
    (fun _ => .inl (by simp [Fault.kind])) ?_ f hx
  exact faultsOnly_checkLifecycle (fun _ _ => .inl (by simp [Fault.kind]))
    (fun _ _ => .inl (by simp [Fault.kind])) x.event t

theorem denies_of_dispatch (hkind : ∀ s ∈ steps, s.duration.isSome = s.step.action.isDurative)
    (h : (v.dispatch problem (.timed steps)).Faults f) (hf : f.kind = .invalidDuration) :
    (∃ s ∈ steps, f.Denies s.step.action s.duration) ∨
      ∃ q ∈ v.provider, ∃ request, q.values request = .error f := by
  cases hsched : v.schedule problem steps with
  | error g =>
      obtain rfl := fault_of_unscheduled hsched h
      exact .inl ((faultsOnly_schedule hkind f hsched).resolve_left fun hne => hne hf)
  | ok sched =>
      obtain ⟨sim, hsim, hof⟩ := except_bind_ok.mp hsched
      have hprovider : sched.sim.provider = v.provider :=
        (laid_ofSteps hsim hof).rules.provider.trans (Simulator.provider_new hsim)
      rcases fault_of_dispatch hsched h with h | h
      · exact absurd hf h.kind_ne
      · rw [← hprovider]
        exact .inr ((kind_of_fails h).resolve_left fun hne => hne hf)

theorem nonneg_of_validate {r : Report} {s : TimedStep}
    (hr : (v.validate problem (.timed steps)).outcome.1 = .ok r) (hs : s ∈ steps)
    (hd : d ∈ s.duration) : 0 ≤ d := by
  obtain ⟨sim, sched, -, -, hsim, hof, -⟩ := execution_of_validate hr
  obtain ⟨k, hk⟩ := List.mem_iff_getElem?.mp hs
  obtain ⟨c, es, -, hes, -⟩ := (laid_ofSteps hsim hof).eachStep k s hk
  exact Action.nonneg_of_events hes hd

end Validator

end TemporalPlanning
