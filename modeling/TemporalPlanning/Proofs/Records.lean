import TemporalPlanning.Proofs.Attempts
import TemporalPlanning.Validation.Validator

namespace TemporalPlanning

variable {α β : Type}

namespace Logged

def result (x : Logged α) : Except Fault α := x.outcome.1

def Steady (x : Logged α) : Prop := ∀ records, ((ExceptT.run x).run records).1 = x.result

theorem steady_pure (a : α) : (pure a : Logged α).Steady := fun _ => rfl

theorem steady_write (r : Record) : (write r).Steady := fun _ => rfl

theorem steady_ofExcept (x : Except Fault α) : (ofExcept x).Steady := fun _ => rfl

@[simp] theorem result_ofExcept (x : Except Fault α) : (ofExcept x).result = x := rfl

theorem run_bind (x : Logged α) (f : α → Logged β) (records : List Record) :
    ((ExceptT.run (x >>= f)).run records).1 = match (ExceptT.run x).run records with
      | (.ok a, later) => ((ExceptT.run (f a)).run later).1
      | (.error e, _) => .error e := by
  simp only [ExceptT.run_bind, StateT.run_bind]
  cases (ExceptT.run x).run records with
  | mk r later => cases r <;> rfl

theorem run_bind_of_steady (x : Logged α) {f : α → Logged β} (hf : ∀ a, (f a).Steady)
    (records : List Record) : ((ExceptT.run (x >>= f)).run records).1 =
      ((ExceptT.run x).run records).1 >>= fun a => (f a).result := by
  rw [run_bind]
  cases (ExceptT.run x).run records with
  | mk r later =>
      cases r with
      | ok a => exact hf a later
      | error e => rfl

theorem result_bind (x : Logged α) {f : α → Logged β} (hf : ∀ a, (f a).Steady) :
    (x >>= f).result = x.result >>= fun a => (f a).result :=
  run_bind_of_steady x hf []

theorem Steady.bind {x : Logged α} {f : α → Logged β} (hx : x.Steady) (hf : ∀ a, (f a).Steady) :
    (x >>= f).Steady := by
  intro records
  rw [run_bind_of_steady x hf, result_bind x hf, hx records]

theorem Steady.gives_iff {x : Logged α} (hx : x.Steady) {a : α} :
    x.Gives a ↔ x.result = .ok a := by
  constructor
  · rintro ⟨records, h⟩
    rwa [hx records] at h
  · exact gives_of_outcome

def Yields (x : Logged α) (a : α) : Prop := ∀ records, ((ExceptT.run x).run records).1 = .ok a

theorem Steady.yields {x : Logged α} (hx : x.Steady) {a : α} (h : x.result = .ok a) :
    x.Yields a := fun records => (hx records).trans h

theorem Yields.bind {x : Logged α} {f : α → Logged β} {a : α} {b : β} (hx : x.Yields a)
    (hf : (f a).Yields b) : (x >>= f).Yields b := by
  intro records
  have hx := hx records
  rw [run_bind]
  cases hrun : (ExceptT.run x).run records with
  | mk r later =>
      rw [hrun] at hx
      obtain rfl : r = .ok a := hx
      exact hf later

theorem unwritten_ok {x : Logged α} {a : α} :
    x.unwritten.result = .ok a ↔ x.outcome = (.ok a, []) := by
  rw [unwritten, result_ofExcept]
  cases x.outcome with
  | mk r records => cases records <;> simp

end Logged

open Logged

section Validation

variable {sim : Simulator} {p : Progress}

theorem steady_tryApply (sim : Simulator) (e : Event) (s : State) (time : Option Rat) :
    (sim.tryApply e s time).Steady := by
  refine (steady_ofExcept _).bind fun r => ?_
  cases r with
  | ok next => exact steady_pure _
  | error c => exact (steady_write _).bind fun _ => steady_pure _

namespace Validator

theorem steady_applyEvents (sim : Simulator) (xs : List Scheduled) (p : Progress) :
    (applyEvents sim xs p).Steady := by
  induction xs generalizing p with
  | nil => exact steady_pure _
  | cons x xs ih =>
      refine (steady_tryApply sim x.event p.state _).bind fun r => ?_
      cases r with
      | error r => exact steady_pure _
      | ok s =>
          refine (steady_write _).bind fun _ => (steady_ofExcept _).bind fun q => ?_
          obtain ⟨q, violation⟩ := q
          cases violation with
          | some violation => exact steady_pure _
          | none => exact ih q

theorem steady_applyInstants (sim : Simulator) (xss : List (List Scheduled)) (p : Progress) :
    (applyInstants sim xss p).Steady := by
  induction xss generalizing p with
  | nil => exact steady_pure _
  | cons xs xss ih =>
      refine (steady_ofExcept _).bind fun clash => ?_
      cases clash with
      | some violation => exact steady_pure _
      | none =>
          refine (steady_applyEvents sim xs p).bind fun q => ?_
          obtain ⟨q, violation⟩ := q
          cases violation with
          | some violation => exact steady_pure _
          | none => exact ih q

theorem steady_applyEnd (sim : Simulator) (makespan : Rat) (p : Progress) :
    (applyEnd sim makespan p).Steady := by
  unfold applyEnd
  cases p.monitor.finish with
  | some violation => exact steady_pure _
  | none =>
      refine (steady_tryApply sim sim.planEnd p.state _).bind fun r => ?_
      cases r with
      | error r => exact steady_pure _
      | ok s => exact steady_pure _

theorem steady_execute (sim : Simulator) (s : Schedule) : (execute sim s).Steady := by
  refine (steady_ofExcept _).bind fun p => ?_
  obtain ⟨p, violation⟩ := p
  cases violation with
  | some violation => exact steady_pure _
  | none =>
      refine (steady_applyInstants sim _ p).bind fun q => ?_
      obtain ⟨q, violation⟩ := q
      cases violation with
      | some violation => exact steady_pure _
      | none => exact steady_applyEnd sim s.makespan q

variable (v : Validator) (problem : Problem)

theorem steady_validateTimed (steps : List TimedStep) : (v.validateTimed problem steps).Steady :=
  (steady_ofExcept _).bind fun _ => (steady_ofExcept _).bind fun _ =>
    (steady_execute _ _).bind fun _ => steady_ofExcept _

theorem result_validateTimed {sim : Simulator} {steps : List TimedStep} {sched : Schedule}
    (hsim : Simulator.new 0 problem v.epsilon v.provider component = .ok sim)
    (hsched : Schedule.ofSteps sim steps = .ok sched) : (v.validateTimed problem steps).result =
      (execute sched.sim sched).result >>= fun x => report sched.sim sched steps x.1 x.2 := by
  have h : v.validateTimed problem steps = execute sched.sim sched >>= fun x =>
      Logged.ofExcept (report sched.sim sched steps x.1 x.2) := by
    rw [validateTimed, hsim]
    change (Logged.ofExcept (Schedule.ofSteps sim steps) >>= _) = _
    rw [hsched]
    rfl
  rw [h]
  exact result_bind _ fun x => steady_ofExcept _

theorem steady_validateSequence (steps : List ActionInstance) :
    (v.validateSequence problem steps).Steady := by
  unfold validateSequence
  split
  · exact steady_ofExcept _
  · exact steady_validateTimed v problem _

theorem steady_checkLinearization (steps : List ActionInstance) (c : Checked) :
    (v.checkLinearization problem steps c).Steady := by
  unfold checkLinearization
  split
  · exact steady_pure _
  · refine (steady_validateSequence v problem steps).bind fun r => ?_
    dsimp only
    split
    · exact steady_pure _
    · exact steady_pure _

theorem outcome_recorded (plan : Plan) : (v.recorded problem plan).outcome =
    match (ExceptT.run (v.dispatch problem plan)).run [] with
      | (.ok r, records) => (.ok r, (reportRecord problem plan r :: records).reverse)
      | (.error f, records) => (.error f, records.reverse) := by
  simp only [recorded, outcome, ExceptT.run_bind, StateT.run_bind]
  cases (ExceptT.run (v.dispatch problem plan)).run [] with
  | mk r records => cases r <;> rfl

theorem result_validate {plan : Plan} (hwritten : v.unwritten = false) :
    (v.validate problem plan).outcome.1 = (v.dispatch problem plan).result := by
  have hrecorded := v.outcome_recorded problem plan
  have hresult : (v.dispatch problem plan).result =
      ((ExceptT.run (v.dispatch problem plan)).run []).1 := rfl
  rw [validate, hwritten, hresult, if_neg Bool.false_ne_true, hrecorded]
  cases (ExceptT.run (v.dispatch problem plan)).run [] with
  | mk q records => cases q <;> rfl

theorem validate_ok {plan : Plan} {r : Report} : (v.validate problem plan).outcome.1 = .ok r ↔
    v.unwritten = false ∧ (v.dispatch problem plan).result = .ok r := by
  have hrecorded := v.outcome_recorded problem plan
  have hresult : (v.dispatch problem plan).result =
      ((ExceptT.run (v.dispatch problem plan)).run []).1 := rfl
  rw [validate, hresult]
  cases hx : (ExceptT.run (v.dispatch problem plan)).run [] with
  | mk q records =>
      rw [hx] at hrecorded
      cases v.unwritten with
      | false => cases q <;> simp [hrecorded]
      | true =>
          have hne : (v.recorded problem plan).unwritten.result ≠ .ok r := by
            rw [ne_eq, unwritten_ok, hrecorded]
            cases q <;> simp
          exact iff_of_false hne (by simp)

theorem exists_report_of {v : Validator} {problem : Problem} {sim : Simulator}
    {steps : List TimedStep} {sched : Schedule} {P : Report → Bool} (hwritten : v.unwritten = false)
    (hsim : Simulator.new 0 problem v.epsilon v.provider component = .ok sim)
    (hsched : Schedule.ofSteps sim steps = .ok sched)
    (h : ((execute sched.sim sched).result >>= fun x =>
      report sched.sim sched steps x.1 x.2).toOption.any P = true) :
    ∃ r, (v.validate problem (.timed steps)).outcome.1 = .ok r ∧ P r = true := by
  rw [← v.result_validateTimed problem hsim hsched] at h
  obtain ⟨r, hr, hP⟩ := (Option.any_eq_true _ _).mp h
  exact ⟨r, (v.validate_ok problem).mpr ⟨hwritten, except_toOption.mp hr⟩, hP⟩

end Validator

end Validation

end TemporalPlanning
