import TemporalPlanning.Proofs.Executions
import TemporalPlanning.Proofs.Faults

namespace TemporalPlanning

variable {α β : Type} {sim : Simulator} {e : Event} {s t : State} {p : Progress}
  {xs ys : List Scheduled} {x : Scheduled} {f : Fault} {time : Option Rat} {now : Rat}

namespace Logged

def Faults (x : Logged α) (f : Fault) : Prop :=
  ∃ records, ((ExceptT.run x).run records).1 = .error f

theorem faults_of_outcome {x : Logged α} (h : x.outcome.1 = .error f) : x.Faults f := ⟨[], h⟩

theorem faults_bind {x : Logged α} {g : α → Logged β} (h : (x >>= g).Faults f) :
    x.Faults f ∨ ∃ a, x.Gives a ∧ (g a).Faults f := by
  obtain ⟨records, h⟩ := h
  rw [run_bind] at h
  cases hx : (ExceptT.run x).run records with
  | mk r later =>
      rw [hx] at h
      cases r with
      | ok a => exact .inr ⟨a, ⟨records, by rw [hx]⟩, later, h⟩
      | error e =>
          have h : (Except.error e : Except Fault β) = .error f := h
          exact .inl ⟨records, by rw [hx, Except.error.inj h]⟩

theorem not_faults_pure {a : α} : ¬ (pure a : Logged α).Faults f := by
  rintro ⟨records, h⟩
  have h : (Except.ok a : Except Fault α) = .error f := h
  simp at h

theorem not_faults_write {r : Record} : ¬ (write r).Faults f := by
  rintro ⟨records, h⟩
  have h : (Except.ok () : Except Fault Unit) = .error f := h
  simp at h

theorem faults_ofExcept {x : Except Fault α} (h : (ofExcept x).Faults f) : x = .error f := by
  obtain ⟨records, h⟩ := h
  exact h

end Logged

open Logged

theorem Simulator.fault_of_tryApply (h : (sim.tryApply e s time).Faults f) :
    (sim.transition e s time).run = .error f := by
  rcases faults_bind h with h | ⟨r, -, h⟩
  · exact faults_ofExcept h
  · cases r with
    | ok next => exact absurd h not_faults_pure
    | error c =>
        rcases faults_bind h with h | ⟨_, -, h⟩
        · exact absurd h not_faults_write
        · exact absurd h not_faults_pure

def Fails (sim : Simulator) (s : State) (xs : List Scheduled) (f : Fault) : Prop :=
  ∃ before x after t, xs = before ++ x :: after ∧ Replays sim s before t ∧
    (sim.transition x.event t (some x.time)).run = .error f

namespace Fails

theorem here (h : (sim.transition x.event s (some x.time)).run = .error f) :
    Fails sim s (x :: xs) f := ⟨[], x, xs, s, rfl, .nil, h⟩

theorem append (hxs : Replays sim s xs t) (h : Fails sim t ys f) : Fails sim s (xs ++ ys) f := by
  obtain ⟨before, x, after, t', rfl, hbefore, hx⟩ := h
  exact ⟨xs ++ before, x, after, t', by simp, Replays.append_iff.mpr ⟨t, hxs, hbefore⟩, hx⟩

theorem extend (h : Fails sim s xs f) (ys : List Scheduled) : Fails sim s (xs ++ ys) f := by
  obtain ⟨before, x, after, t, rfl, hbefore, hx⟩ := h
  exact ⟨before, x, after ++ ys, t, by simp, hbefore, hx⟩

end Fails

namespace Validator

theorem ofExecution_visit (h : visit sim now p = .error f) : f.OfExecution :=
  ((faultsOnly_visit (fun _ hf => hf) _ _ _).bind fun _ _ => .pure _) f h

theorem ofExecution_report {sched : Schedule} {steps : List TimedStep}
    {violation : Option Violation}
    (h : report sched.sim sched steps p violation = .error f) : f.OfExecution := by
  refine ((faultsOnly_unsatisfiedIn (fun _ hf => hf) _ _).bind fun goals _ => ?_) f h
  dsimp only
  split
  · exact .pure _
  · exact (faultsOnly_metricValues (fun _ hf => hf) _ _).bind fun _ _ => .pure _

theorem fault_of_applyEvents (h : (applyEvents sim xs p).Faults f) :
    f.OfExecution ∨ Fails sim p.state xs f := by
  induction xs generalizing p with
  | nil => exact absurd h not_faults_pure
  | cons x xs ih =>
      rcases faults_bind h with h | ⟨r, hr, h⟩
      · exact .inr (.here (Simulator.fault_of_tryApply h))
      cases r with
      | error r => exact absurd h not_faults_pure
      | ok s =>
          have hx : Replays sim p.state [x] s := .cons (step_of_gives hr) .nil
          rcases faults_bind h with h | ⟨_, -, h⟩
          · exact absurd h not_faults_write
          rcases faults_bind h with h | ⟨⟨q, violation⟩, hq, h⟩
          · exact .inl (ofExecution_visit (faults_ofExcept h))
          obtain ⟨hstate, -⟩ := visit_ok (gives_ofExcept hq)
          have hstate : q.state = s := hstate
          cases violation with
          | some violation => exact absurd h not_faults_pure
          | none => exact (ih h).imp_right fun hf => .append hx (hstate ▸ hf)

theorem fault_of_applyInstants {xss : List (List Scheduled)}
    (h : (applyInstants sim xss p).Faults f) : f.OfExecution ∨ Fails sim p.state xss.flatten f := by
  induction xss generalizing p with
  | nil => exact absurd h not_faults_pure
  | cons xs xss ih =>
      rcases faults_bind h with h | ⟨clash, -, h⟩
      · exact .inl (faultsOnly_simultaneousWrites (fun _ hf => hf) _ _ _ _ f (faults_ofExcept h))
      cases clash with
      | some violation => exact absurd h not_faults_pure
      | none =>
          rcases faults_bind h with h | ⟨⟨q, violation⟩, hq, h⟩
          · exact (fault_of_applyEvents h).imp_right (Fails.extend · _)
          cases violation with
          | some violation => exact absurd h not_faults_pure
          | none =>
              have hxs := (halts_of_applyEvents hq).of_none.1
              exact (ih h).imp_right (Fails.append hxs)

theorem fault_of_applyEnd {makespan : Rat} (h : (applyEnd sim makespan p).Faults f) :
    Fails sim p.state [⟨sim.planEnd, makespan, .goal⟩] f := by
  unfold applyEnd at h
  split at h
  · exact absurd h not_faults_pure
  · rcases faults_bind h with h | ⟨r, -, h⟩
    · exact .here (x := ⟨sim.planEnd, makespan, .goal⟩) (Simulator.fault_of_tryApply h)
    · cases r with
      | error r => exact absurd h not_faults_pure
      | ok s => exact absurd h not_faults_pure

theorem fault_of_execute {sched : Schedule} (h : (execute sched.sim sched).Faults f) :
    f.OfExecution ∨ Fails sched.sim sched.sim.initialState sched.whole f := by
  rcases faults_bind h with h | ⟨⟨p, violation⟩, hp, h⟩
  · exact .inl (ofExecution_visit (faults_ofExcept h))
  obtain ⟨hstate, -⟩ := visit_ok (gives_ofExcept hp)
  have hstate : p.state = sched.sim.initialState := hstate
  cases violation with
  | some violation => exact absurd h not_faults_pure
  | none =>
      rcases faults_bind h with h | ⟨⟨q, violation⟩, hq, h⟩
      · have hf := fault_of_applyInstants h
        rw [Scheduled.instants, List.flatten_splitBy, hstate] at hf
        exact hf.imp_right (Fails.extend · _)
      cases violation with
      | some violation => exact absurd h not_faults_pure
      | none =>
          have hevents := (halts_of_applyInstants hq).of_none.1
          rw [Scheduled.instants, List.flatten_splitBy, hstate] at hevents
          exact .inr (.append hevents (fault_of_applyEnd h))

variable {v : Validator} {problem : Problem} {steps : List TimedStep} {sched : Schedule}

theorem fault_of_dispatch (hsched : v.schedule problem steps = .ok sched)
    (h : (v.dispatch problem (.timed steps)).Faults f) :
    f.OfExecution ∨ Fails sched.sim sched.sim.initialState sched.whole f := by
  obtain ⟨sim, hsim, hsched⟩ := except_bind_ok.mp hsched
  rcases faults_bind h with h | ⟨sim', hsim', h⟩
  · have h := faults_ofExcept h
    simp [hsim] at h
  obtain rfl : sim = sim' := Except.ok.inj (hsim.symm.trans (gives_ofExcept hsim'))
  rcases faults_bind h with h | ⟨sched', hsched', h⟩
  · have h := faults_ofExcept h
    simp [hsched] at h
  obtain rfl : sched = sched' := Except.ok.inj (hsched.symm.trans (gives_ofExcept hsched'))
  rcases faults_bind h with h | ⟨⟨p, violation⟩, -, h⟩
  · exact fault_of_execute h
  · exact .inl (ofExecution_report (faults_ofExcept h))

theorem fault_of_recorded {plan : Plan} (h : (v.recorded problem plan).Faults f) :
    (v.dispatch problem plan).Faults f := by
  rcases faults_bind h with h | ⟨r, -, h⟩
  · exact h
  · rcases faults_bind h with h | ⟨_, -, h⟩
    · exact absurd h not_faults_write
    · exact absurd h not_faults_pure

theorem fault_of_plan {plan : Plan} (h : (v.validate problem plan).outcome.1 = .error f) :
    f = .unusableLogger ∨ (v.dispatch problem plan).Faults f := by
  unfold validate at h
  split at h
  · have h := faults_ofExcept (faults_of_outcome h)
    split at h
    · rename_i r hr
      exact .inr (fault_of_recorded (faults_of_outcome (by rw [hr, h])))
    · exact .inl (Except.error.inj h).symm
  · exact .inr (fault_of_recorded (faults_of_outcome h))

theorem fault_of_validate (hsched : v.schedule problem steps = .ok sched)
    (h : (v.validate problem (.timed steps)).outcome.1 = .error f) :
    f.OfExecution ∨ Fails sched.sim sched.sim.initialState sched.whole f := by
  rcases fault_of_plan h with rfl | h
  · exact .inl trivial
  · exact fault_of_dispatch hsched h

end Validator

end TemporalPlanning
