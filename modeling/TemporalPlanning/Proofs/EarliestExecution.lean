import TemporalPlanning.Proofs.ActivityOrder
import TemporalPlanning.Proofs.StepReplacement
import TemporalPlanning.Proofs.TightestDistances

namespace TemporalPlanning

def Timepoint.Placed : Timepoint ActionInstance → Prop
  | .planStart => True
  | .planEnd => False
  | .start _ => True
  | .finish s => s.action.isDurative = true

structure Schedule.Enacts (sched : Schedule) (steps : List TimedStep)
    (p : StnPlan ActionInstance) (t : Timepoint ActionInstance → Rat) : Prop where
  planStart : t .planStart = 0
  planEnd : t .planEnd = sched.makespan
  steps : ∀ s ∈ p.instances, ∃ k x, steps[k]? = some x ∧ x.step = s ∧
    (sched.events.filter fun x => x.turn = .step k ∧ x.event.kind = .startAction).map
      Scheduled.time = [t (.start s)] ∧
    (sched.events.filter fun x => x.turn = .step k ∧ x.event.kind = .endAction).map
      Scheduled.time = [t (.finish s)]

namespace StnPlan

variable {p : StnPlan ActionInstance} {D : Rows (Timepoint ActionInstance)}
  {steps : List TimedStep} {s : ActionInstance} {a b : Timepoint ActionInstance} {w : Rat}

def enacted (p : StnPlan ActionInstance) (D : Rows (Timepoint ActionInstance)) (makespan : Rat) :
    Timepoint ActionInstance → Rat
  | .planStart => 0
  | .planEnd => makespan
  | .start s => (p.earliestStep D s).start
  | .finish s => (p.earliestStep D s).start + (p.earliestStep D s).duration.getD 0

theorem schedule_ok (h : p.schedule = .ok steps) : ∃ D, p.closure = .ok D ∧
    steps.Perm (p.instances.map (p.earliestStep D)) := by
  unfold schedule at h
  split at h
  · obtain ⟨D, hD, h⟩ := except_bind_ok.mp h
    exact ⟨D, hD, except_pure_ok.mp h ▸ List.mergeSort_perm _ _⟩
  · simp at h

theorem schedule_of_sorted
    (h : (p.closure >>= fun D => pure (p.instances.map (p.earliestStep D))) = .ok steps)
    (hsorted : steps.Pairwise fun a b => a.start ≤ b.start) : p.schedule = .ok steps := by
  obtain ⟨D, hD, hsteps⟩ := except_bind_ok.mp h
  rw [except_pure_ok] at hsteps
  have hsort := List.mergeSort_of_pairwise (hsorted.imp decide_eq_true)
  unfold schedule
  rw [if_pos (closure_ok hD).1, hD, ← hsort, ← hsteps]
  rfl

theorem enacted_of_placed {makespan : Rat} (hzero : earliest D .planStart = 0)
    (ha : a ∈ p.nodes) (hplaced : a.Placed) : p.enacted D makespan a = earliest D a := by
  cases a with
  | planStart => exact hzero.symm
  | planEnd => exact hplaced.elim
  | start s => rfl
  | finish s =>
      have hdurative : s.action.isDurative = true := hplaced
      simp only [enacted, earliestStep, hdurative, if_true, if_pos ha, Option.getD_some]
      exact add_sub_cancel _ _

theorem enacts_ofSteps {sim : Simulator} {sched : Schedule}
    (hsteps : steps.Perm (p.instances.map (p.earliestStep D)))
    (h : Schedule.ofSteps sim steps = .ok sched) :
    sched.Enacts steps p (p.enacted D sched.makespan) where
  planStart := rfl
  planEnd := rfl
  steps s hs := by
    have hmem : p.earliestStep D s ∈ steps := hsteps.mem_iff.mpr (List.mem_map_of_mem hs)
    obtain ⟨k, hk⟩ := List.mem_iff_getElem?.mp hmem
    exact ⟨k, _, hk, rfl, times_ofSteps h hk⟩

section Bounds

variable {makespan : Rat}

/-- The times `E` suit the plan, and no time that does is earlier than they are. -/
structure Earliest (p : StnPlan ActionInstance) (E : Timepoint ActionInstance → Rat) : Prop where
  satisfies : p.Satisfies E
  zero : E .planStart = 0
  least : ∀ t, p.Satisfies t → t .planStart = 0 → ∀ a ∈ p.nodes, E a ≤ t a

theorem WellFormed.earliest (h : p.WellFormed) (hD : p.closure = .ok D) :
    p.Earliest (earliest D) := by
  obtain ⟨hsatisfies, hzero, hleast⟩ := (h.tightest hD).earliest h (closure_ok hD).1
  exact ⟨hsatisfies, hzero, hleast⟩

theorem WellFormed.earliest_of_notMem (h : p.WellFormed) (hD : p.closure = .ok D)
    (ha : a ∉ p.nodes) : StnPlan.earliest D a = 0 := by
  have hnone : D.weight? a .planStart = none := by
    refine Option.eq_none_iff_forall_not_mem.mpr fun w hw => ha ?_
    exact (h.tightest hD).known _ _ w (Rows.bounds_of_weight hw)
  simp [StnPlan.earliest, hnone]

theorem WellFormed.makespan_le (h : p.WellFormed) (hD : p.closure = .ok D) {sim : Simulator}
    {sched : Schedule} (hsteps : steps.Perm (p.instances.map (p.earliestStep D)))
    (hsched : Schedule.ofSteps sim steps = .ok sched) (hε : 0 ≤ sim.epsilon)
    (htimed : sim.timed = none) (heffects : sim.problem.timedEffects = [])
    (hgoals : sim.goalEvents = []) : sched.makespan ≤ StnPlan.earliest D .planEnd := by
  have hearliest := h.earliest hD
  have hend {a : Timepoint ActionInstance} (ha : a ∈ p.nodes) :
      StnPlan.earliest D a ≤ StnPlan.earliest D .planEnd := (hearliest.satisfies.between a ha).2
  have hzero : 0 ≤ StnPlan.earliest D .planEnd := hearliest.zero ▸ hend h.planStart
  have hstart (s : ActionInstance) : (p.earliestStep D s).start ≤ StnPlan.earliest D .planEnd := by
    by_cases hs : Timepoint.start s ∈ p.nodes
    · exact hend hs
    · exact (h.earliest_of_notMem hD hs).trans_le hzero
  refine TemporalPlanning.makespan_le hsched hε htimed heffects hgoals hzero fun x hx => ?_
  obtain ⟨s, -, rfl⟩ := List.mem_map.mp (hsteps.mem_iff.mp hx)
  by_cases hdurative : s.action.isDurative = true ∧ Timepoint.finish s ∈ p.nodes
  · have hfinish := hend hdurative.2
    simpa [earliestStep, hdurative.1, hdurative.2] using hfinish
  · have hlength : (p.earliestStep D s).duration.getD 0 = 0 := by
      by_cases hs : s.action.isDurative = true
      · have hn : Timepoint.finish s ∉ p.nodes := fun hn => hdurative ⟨hs, hn⟩
        simp [earliestStep, hs, hn]
      · simp [earliestStep, hs]
    rw [hlength, add_zero]
    exact hstart s

end Bounds

end StnPlan

namespace Validator

variable {v : Validator} {problem : Problem} {p : StnPlan ActionInstance} {r : Report}

theorem dispatch_stn {steps : List TimedStep} (hsteps : p.schedule = .ok steps) :
    v.dispatch problem (.stn p) = v.dispatch problem (.timed steps) := by
  have hc : p.toNetwork.check = true := by
    obtain ⟨D, hD, -⟩ := StnPlan.schedule_ok hsteps
    exact (StnPlan.closure_ok hD).1
  change v.validateStn problem p = v.validateTimed problem steps
  unfold validateStn
  dsimp only
  rw [if_pos hc, hsteps]
  rfl

theorem validate_stn_ok {steps : List TimedStep} (hsteps : p.schedule = .ok steps) :
    (v.validate problem (.stn p)).outcome.1 = .ok r ↔
      (v.validate problem (.timed steps)).outcome.1 = .ok r := by
  rw [validate_ok, validate_ok, dispatch_stn hsteps]

theorem scheduled_of_valid (hr : (v.validate problem (.stn p)).outcome.1 = .ok r)
    (hvalid : r.isValid = true) : ∃ steps, p.schedule = .ok steps := by
  have hgives : (v.validateStn problem p).Gives r :=
    Logged.gives_of_outcome ((validate_ok v problem).mp hr).2
  unfold validateStn at hgives
  dsimp only at hgives
  split at hgives
  · obtain ⟨steps, hsteps, -⟩ := Logged.gives_bind hgives
    exact ⟨steps, Logged.gives_ofExcept hsteps⟩
  · obtain rfl := Logged.gives_pure hgives
    simp [Report.isValid] at hvalid

theorem stn_bounds_hold (h : p.Built) (hr : (v.validate problem (.stn p)).outcome.1 = .ok r)
    (hvalid : r.isValid = true) : ∃ steps sched t E, p.schedule = .ok steps ∧
      v.schedule problem steps = .ok sched ∧ r.trace = sched.whole.map Scheduled.entry ∧
      sched.Enacts steps p t ∧ p.Earliest E ∧ (∀ a ∈ p.nodes, a.Placed → t a = E a) ∧
      (0 ≤ v.epsilon → problem.timedEffects = [] → problem.timedGoals = [] →
        t .planEnd ≤ E .planEnd) ∧
      ∀ a b w, p.rows.weight? a b = some w → (a.Placed ∨ E a ≤ t a) → (b.Placed ∨ t b ≤ E b) →
        t b - t a ≤ w := by
  have hwell := h.wellFormed
  obtain ⟨steps, hsteps⟩ := scheduled_of_valid hr hvalid
  have htimed := (validate_stn_ok hsteps).mp hr
  obtain ⟨D, hD, hperm⟩ := StnPlan.schedule_ok hsteps
  obtain ⟨sim, sched, final, hsim, hsched, -, htrace⟩ := whole_of_valid htimed hvalid
  have hearliest := hwell.earliest hD
  have hplaced (a : Timepoint ActionInstance) (ha : a ∈ p.nodes) (hp : a.Placed) :
      p.enacted D sched.makespan a = StnPlan.earliest D a :=
    StnPlan.enacted_of_placed hearliest.zero ha hp
  refine ⟨steps, sched, p.enacted D sched.makespan, StnPlan.earliest D, hsteps,
    except_bind_ok.mpr ⟨sim, hsim, hsched⟩, htrace, StnPlan.enacts_ofSteps hperm hsched, hearliest,
    hplaced, fun hε heffects hgoals => ?_, fun a b w hw ha hb => ?_⟩
  · rw [← Simulator.epsilon_new hsim] at hε
    rw [← (problem_new hsim).1] at heffects
    exact hwell.makespan_le hD hperm hsched hε (Simulator.new_ok hsim).1 heffects
      (goalEvents_new hsim hgoals)
  · obtain ⟨han, hbn⟩ := hwell.rows.known a b w hw
    have hbound := hearliest.satisfies.admits a b w hw
    have ha : StnPlan.earliest D a ≤ p.enacted D sched.makespan a :=
      ha.elim (fun ha => (hplaced a han ha).ge) id
    have hb : p.enacted D sched.makespan b ≤ StnPlan.earliest D b :=
      hb.elim (fun hb => (hplaced b hbn hb).le) id
    linarith

end Validator

namespace Idle

open Simulator (switch switchAction lampProblem)

def step : ActionInstance := ⟨0, switch⟩

def validator : Validator := ⟨1, none, none, false⟩

section Watch

def watching : ActionInstance := ⟨1, .ofAction (.durative (.ofLength "watch" 2 [] []))⟩

def watchProblem : Problem := { lampProblem with actions := [watching.action, switchAction] }

def watchPlan : StnPlan ActionInstance := .ofConstraints
  [(.start watching, ⟨some 2, some 2, .finish watching⟩),
    (.finish watching, ⟨some 1, none, .start step⟩)]

def watchSteps : List TimedStep := [⟨0, watching, some 2⟩, ⟨3, step, none⟩]

def watchSim : Simulator := .unused 0 watchProblem 1 none Validator.component []

theorem schedule_watchPlan : watchPlan.schedule = .ok watchSteps :=
  StnPlan.schedule_of_sorted (by decide +kernel) (by decide +kernel)

theorem ofSteps_watchSteps : Schedule.ofSteps watchSim watchSteps =
    .ok (.ofStepEvents (stepEvents watchSim 0 watchSteps).1 (stepped watchSim watchSteps)) :=
  ofSteps_of_sorted (by with_unfolding_all rfl) rfl rfl rfl (by decide +kernel)

theorem valid_watchPlan : ∃ r, (validator.validate watchProblem (.stn watchPlan)).outcome.1 =
    .ok r ∧ r.isValid = true := by
  obtain ⟨r, hr, hvalid⟩ := Validator.exists_report_of (v := validator) (P := Report.isValid) rfl
    (Simulator.new_unused rfl) ofSteps_watchSteps (by decide +kernel)
  exact ⟨r, (Validator.validate_stn_ok schedule_watchPlan).mpr hr, hvalid⟩

theorem stn_bounds_hold_watchPlan : watchPlan.Built ∧ ∃ r sched t E,
    (validator.validate watchProblem (.stn watchPlan)).outcome.1 = .ok r ∧ r.isValid = true ∧
    validator.schedule watchProblem watchSteps = .ok sched ∧
    sched.Enacts watchSteps watchPlan t ∧ watchPlan.Earliest E ∧
    t (.finish watching) = E (.finish watching) ∧
    watchPlan.rows.weight? (.start step) (.finish watching) = some (-1) ∧
    t (.finish watching) - t (.start step) ≤ -1 := by
  have hbuilt : watchPlan.Built := .ofConstraints _
  obtain ⟨r, hr, hvalid⟩ := valid_watchPlan
  obtain ⟨steps, sched, t, E, hsteps, hsched, -, henacts, hearliest, hplaced, -, hbounds⟩ :=
    Validator.stn_bounds_hold hbuilt hr hvalid
  obtain rfl := Except.ok.inj (hsteps.symm.trans schedule_watchPlan)
  have hnode : Timepoint.finish watching ∈ watchPlan.nodes := by decide +kernel
  have hweight : watchPlan.rows.weight? (.start step) (.finish watching) = some (-1) := by
    decide +kernel
  exact ⟨hbuilt, r, sched, t, E, hr, hvalid, hsched, henacts, hearliest, hplaced _ hnode rfl,
    hweight, hbounds _ _ _ hweight (.inl trivial) (.inl rfl)⟩

end Watch

def plan : StnPlan ActionInstance := .ofConstraints
  [(.start step, ⟨some 5, none, .finish step⟩), (.planStart, ⟨some 10, none, .planEnd⟩)]

def sim : Simulator := .unused 0 lampProblem 1 none Validator.component []

def sched : Schedule :=
  .ofStepEvents (stepEvents sim 0 [⟨0, step, none⟩]).1 (stepped sim [⟨0, step, none⟩])

theorem schedule_plan : plan.schedule = .ok [⟨0, step, none⟩] :=
  StnPlan.schedule_of_sorted (by decide +kernel) (List.pairwise_singleton _ _)

theorem ofSteps_step : Schedule.ofSteps sim [⟨0, step, none⟩] = .ok sched :=
  ofSteps_of_sorted (by with_unfolding_all rfl) rfl rfl rfl (by decide +kernel)

theorem ends_early : (∃ r, (validator.validate lampProblem (.stn plan)).outcome.1 = .ok r ∧
      r.isValid = true ∧
      r.trace = [(0, "switch#1.start"), (0, "switch#1.end"), (0, "plan.end")]) ∧
    plan.schedule = .ok [⟨0, step, none⟩] ∧
    validator.schedule lampProblem [⟨0, step, none⟩] = .ok sched ∧
    plan.rows.weight? .planEnd .planStart = some (-10) ∧
    plan.rows.weight? (.finish step) (.start step) = some (-5) ∧
    ∀ t, sched.Enacts [⟨0, step, none⟩] plan t →
      ¬ t .planStart - t .planEnd ≤ -10 ∧ ¬ t (.start step) - t (.finish step) ≤ -5 := by
  refine ⟨?_, schedule_plan, except_bind_ok.mpr ⟨sim, Simulator.new_unused rfl, ofSteps_step⟩,
    by decide +kernel, by decide +kernel, fun t ht => ?_⟩
  · obtain ⟨r, hr, hP⟩ := Validator.exists_report_of (v := validator) (P := fun r => r.isValid &&
      decide (r.trace = [(0, "switch#1.start"), (0, "switch#1.end"), (0, "plan.end")]))
      rfl (Simulator.new_unused rfl) ofSteps_step (by decide +kernel)
    rw [Bool.and_eq_true, decide_eq_true_eq] at hP
    exact ⟨r, (Validator.validate_stn_ok schedule_plan).mpr hr, hP⟩
  · have hinstance : step ∈ plan.instances := by decide +kernel
    obtain ⟨k, x, hk, -, hstart, hfinish⟩ := ht.steps step hinstance
    obtain rfl : k = 0 := by
      have hlt := (List.getElem?_eq_some_iff.mp hk).1
      simpa using hlt
    have hboth : ∀ kind ∈ [EventKind.startAction, .endAction],
        (sched.events.filter fun x => x.turn = .step 0 ∧ x.event.kind = kind).map Scheduled.time =
          [0] := by
      decide +kernel
    have hzero := hstart.symm.trans (hboth _ List.mem_cons_self)
    have hzero' := hfinish.symm.trans (hboth _ (List.mem_cons_of_mem _ List.mem_cons_self))
    rw [ht.planStart, ht.planEnd, List.singleton_inj.mp hzero, List.singleton_inj.mp hzero']
    decide +kernel

end Idle

end TemporalPlanning
