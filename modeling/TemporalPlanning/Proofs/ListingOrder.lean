import TemporalPlanning.Proofs.InstantaneousRuns

namespace TemporalPlanning

section Metrics

variable {a b : Achievement} {x : Rat}

structure Achievement.Alike (a b : Achievement) : Prop where
  defaults : b.defaults = a.defaults
  first : b.first = a.first
  last : a.last.Same b.last
  makespan : b.makespan = a.makespan
  steps : a.steps.Perm b.steps

theorem Achievement.sum_of_perm {α : Type} {f : α → Except Fault Rat} {xs ys : List α}
    (h : xs.Perm ys) (hx : sum f xs = .ok x) : sum f ys = .ok x := by
  unfold sum at hx ⊢
  generalize (0 : Rat) = total at hx ⊢
  induction h generalizing total with
  | nil => exact hx
  | cons z _ ih =>
      rw [List.foldlM_cons, except_bind_ok] at hx ⊢
      obtain ⟨next, hnext, hx⟩ := hx
      exact ⟨next, hnext, ih next hx⟩
  | swap y z zs =>
      simp only [List.foldlM_cons, except_bind_ok, except_pure_ok] at hx ⊢
      obtain ⟨_, ⟨u, hu, rfl⟩, _, ⟨w, hw, rfl⟩, hx⟩ := hx
      exact ⟨_, ⟨w, hw, rfl⟩, _, ⟨u, hu, rfl⟩, add_right_comm total u w ▸ hx⟩
  | trans _ _ ih ih' => exact ih' total (ih total hx)

theorem Metric.value_of_alike (h : a.Alike b) {m : Metric} (hx : m.value a = .ok x) :
    m.value b = .ok x := by
  have hlast : Situation.Same ⟨a.defaults, a.last, .empty⟩ ⟨b.defaults, b.last, .empty⟩ :=
    ⟨h.defaults, rfl, h.last⟩
  cases m with
  | makespan => rwa [value, h.makespan]
  | planLength => rwa [value, ← h.steps.length_eq]
  | actionCosts costs default =>
      have hcost : b.stepCost costs default = a.stepCost costs default := by
        funext s
        rw [Achievement.stepCost, Achievement.stepCost, h.defaults, h.first]
      rw [value, hcost]
      exact Achievement.sum_of_perm h.steps hx
  | minimize e => rwa [value, Expr.amount_congr hlast]
  | maximize e => rwa [value, Expr.amount_congr hlast]
  | oversubscription goals =>
      have hgain : b.gain = a.gain := by
        funext g
        rw [Achievement.gain, Achievement.gain, Expr.holds_congr hlast]
      rwa [value, hgain]

theorem Problem.metricValues_of_alike {problem : Problem} {metrics : List (Metric × Rat)}
    (h : a.Alike b) (hmetrics : problem.metricValues a = .ok metrics) :
    problem.metricValues b = .ok metrics := by
  unfold metricValues at hmetrics ⊢
  generalize problem.metrics = ms at hmetrics ⊢
  induction ms generalizing metrics with
  | nil => exact hmetrics
  | cons m ms ih =>
      simp only [List.mapM_cons, except_bind_ok, except_pure_ok] at hmetrics ⊢
      obtain ⟨_, ⟨x, hx, rfl⟩, rest, hrest, rfl⟩ := hmetrics
      exact ⟨_, ⟨x, Metric.value_of_alike h hx, rfl⟩, rest, ih hrest, rfl⟩

end Metrics

section Schedules

variable {sched sched' : Schedule} {ds es : List Deed} {v w : Valuation}

theorem Timely.sorted_deeds (ht : Timely sched)
    (htasks : sched.events.filterMap Scheduled.task? = ds.map Deed.task) :
    ds.Pairwise fun a b => a.time ≤ b.time := by
  have hsorted : (ds.map Deed.task).Pairwise fun a b => a.1 ≤ b.1 := by
    rw [← htasks]
    refine List.pairwise_filterMap.mpr (ht.sorted.imp fun {x y} h t ht t' ht' => ?_)
    rw [Scheduled.time_of_task ht, Scheduled.time_of_task ht']
    exact h
  have hdeeds := List.pairwise_map.mp hsorted
  exact hdeeds

theorem Schedule.Consists.nonneg {os : List Occurrence} (h : sched.Consists os)
    (htasks : ∀ t ∈ sched.events.filterMap Scheduled.task?, 0 ≤ t.1) :
    ∀ x ∈ sched.events, 0 ≤ x.time := by
  have hperm := h.perm.filterMap Scheduled.task?
  rw [filterMap_task_flatMap] at hperm
  intro x hx
  obtain ⟨o, ho, rfl | rfl⟩ := h.mem_events hx
  · exact htasks o.task (hperm.mem_iff.mpr (List.mem_map_of_mem ho))
  · exact htasks o.task (hperm.mem_iff.mpr (List.mem_map_of_mem ho))

theorem exists_course_of_perm {defaults : OrderedMap String Value} {epsilon : Rat}
    (hepsilon : 0 < epsilon) (ht : Timely sched) (ht' : Timely sched')
    (htasks : sched.events.filterMap Scheduled.task? = ds.map Deed.task)
    (hperm : (sched.events.filterMap Scheduled.task?).Perm
      (sched'.events.filterMap Scheduled.task?))
    (hclear : ds.Pairwise (Deed.Clear epsilon)) (h : Course defaults v ds w) :
    ∃ es, sched'.events.filterMap Scheduled.task? = es.map Deed.task ∧
      es.Pairwise (Deed.Clear epsilon) ∧ Course defaults v es w := by
  have hsplit : Relation.Comp (· = List.map Deed.task ·) List.Perm
      (sched'.events.filterMap Scheduled.task?) ds := by
    rw [List.eq_map_comp_perm]
    change List.Perm _ (ds.map Deed.task)
    rw [← htasks]
    exact hperm.symm
  obtain ⟨es, hes, hdeeds⟩ := hsplit
  have hfree : ds.Pairwise fun a b => a.time = b.time → ¬ a.footprint.Interferes b.footprint :=
    hclear.imp fun hab htime => hab.not_interferes hepsilon htime
  refine ⟨es, hes, hdeeds.symm.pairwise hclear fun hab => hab.symm, ?_⟩
  exact h.of_perm hdeeds.symm (ht.sorted_deeds htasks) (ht'.sorted_deeds hes) hfree

end Schedules

theorem Simulator.unsatisfiedIn_congr {here there : Situation} (h : here.Same there)
    (gs : List Expr) : unsatisfiedIn there gs = unsatisfiedIn here gs := by
  induction gs with
  | nil => rfl
  | cons g gs ih => rw [unsatisfiedIn, unsatisfiedIn, Expr.holds_congr h, ih]

theorem Simulator.unsatisfiedGoals_congr (sim : Simulator) {s s' : State}
    (h : s.valuation.Same s'.valuation) : sim.unsatisfiedGoals s' = sim.unsatisfiedGoals s := by
  have hsame : Situation.Same (sim.situation s.valuation .empty)
      (sim.situation s'.valuation .empty) := ⟨rfl, rfl, h⟩
  exact unsatisfiedIn_congr hsame sim.problem.goals

namespace Validator

variable {v : Validator} {problem : Problem} {steps steps' : List TimedStep} {r : Report}
  {sim : Simulator} {sched sched' : Schedule} {p q : Progress}

theorem execute_of_perm
    (hsim : Simulator.new 0 problem v.epsilon v.provider component = .ok sim)
    (hsched : Schedule.ofSteps sim steps = .ok sched)
    (hp : (execute sched.sim sched).Gives (p, none)) (hepsilon : 0 < v.epsilon)
    (htrajectory : problem.trajectory = []) (hgoals : problem.timedGoals = [])
    (hplain : ∀ a, .instantaneous a ∈ problem.actions → a.simulated = none)
    (hinst : ∀ s ∈ steps, s.step.action.isDurative = false) (hperm : steps.Perm steps') :
    ∃ sched' q, Schedule.ofSteps sim steps' = .ok sched' ∧ sched'.sim = sched.sim ∧
      sched'.makespan = sched.makespan ∧ (execute sched'.sim sched').result = .ok (q, none) ∧
      p.state.valuation.Same q.state.valuation := by
  have hdelays : ∀ g ∈ problem.timedGoals,
      0 ≤ g.interval.lower.delay ∧ 0 ≤ g.interval.upper.delay := by simp [hgoals]
  have hl := laid_ofSteps hsim hsched
  have ht := timely_ofSteps hsim hsched hdelays
  have hpositive : 0 < sched.sim.epsilon := by
    rwa [hl.rules.epsilon, Simulator.epsilon_new hsim]
  obtain ⟨os, timed, hos, -⟩ := consists_ofSteps hsim hsched hgoals hplain hinst
  obtain ⟨ds, htasks, hclear, hnonneg, hcourse⟩ :=
    course_of_replays hos ht hl.run (halts_of_execute hp).of_none.1
  -- the other listing has the same tasks, so the same deeds do them in its order
  obtain ⟨sched', hsched', hsame, hmakespan, htasksPerm⟩ :=
    ofSteps_of_perm hsim hsched hgoals hinst hperm
  have hl' := laid_ofSteps hsim hsched'
  have ht' := timely_ofSteps hsim hsched' hdelays
  obtain ⟨os', timed', hos', -⟩ := consists_ofSteps hsim hsched' hgoals hplain
    fun s hs => hinst s (hperm.mem_iff.mpr hs)
  obtain ⟨es, htasks', hclear', hcourse'⟩ :=
    exists_course_of_perm hpositive ht ht' htasks htasksPerm hclear hcourse
  have hs' : sched'.Regular := by
    refine ⟨ht', hos'.nonneg fun t ht => ?_, hos'.not_crosses⟩
    obtain ⟨d, hd, rfl⟩ := List.mem_map.mp (htasks ▸ htasksPerm.mem_iff.mpr ht)
    exact hnonneg d hd
  have htrajectory' : sched'.sim.problem.trajectory = [] := by
    rw [hl'.rules.problem, (problem_new hsim).1, htrajectory]
  rw [← hsame] at hpositive hclear' hcourse'
  obtain ⟨q, hq, hlast⟩ := execute_of_course hos' hs' hl'.run htrajectory' hpositive htasks'
    hclear' hcourse'
  exact ⟨sched', q, hsched', hsame, hmakespan, hq, hlast.symm⟩

theorem report_of_perm (hreport : report sched.sim sched steps p none = .ok r)
    (hvalid : r.isValid = true) (hsim : sched'.sim = sched.sim)
    (hmakespan : sched'.makespan = sched.makespan)
    (hlast : p.state.valuation.Same q.state.valuation) (hperm : steps.Perm steps') :
    ∃ r', report sched'.sim sched' steps' q none = .ok r' ∧ r'.isValid = true ∧
      r'.metrics = r.metrics := by
  obtain ⟨-, hunsatisfied⟩ := (valid_of_report hreport).mp hvalid
  obtain ⟨metrics, hmetrics, rfl⟩ := (report_none hunsatisfied).mp hreport
  rw [← hsim] at hunsatisfied hmetrics
  have hunsatisfied' := (Simulator.unsatisfiedGoals_congr sched'.sim hlast).trans hunsatisfied
  have halike : Achievement.Alike
      ⟨sched'.sim.defaults, .ofMap sched'.sim.problem.initial, p.state.valuation, sched.makespan,
        steps⟩
      ⟨sched'.sim.defaults, .ofMap sched'.sim.problem.initial, q.state.valuation, sched'.makespan,
        steps'⟩ := ⟨rfl, rfl, hlast, hmakespan, hperm⟩
  have hmetrics' := Problem.metricValues_of_alike halike hmetrics
  exact ⟨_, (report_none hunsatisfied').mpr ⟨metrics, hmetrics', rfl⟩, rfl, rfl⟩

theorem listing_irrelevant (hr : (v.validate problem (.timed steps)).outcome.1 = .ok r)
    (hvalid : r.isValid = true) (hepsilon : 0 < v.epsilon) (htrajectory : problem.trajectory = [])
    (hgoals : problem.timedGoals = [])
    (hplain : ∀ a, .instantaneous a ∈ problem.actions → a.simulated = none)
    (hinst : ∀ s ∈ steps, s.step.action.isDurative = false) (hperm : steps.Perm steps') :
    ∃ r', (v.validate problem (.timed steps')).outcome.1 = .ok r' ∧ r'.isValid = true ∧
      r'.metrics = r.metrics := by
  obtain ⟨sim, sched, p, violation, hsim, hsched, hp, hreport⟩ := execution_of_validate hr
  obtain ⟨rfl, -⟩ := (valid_of_report hreport).mp hvalid
  obtain ⟨sched', q, hsched', hsame, hmakespan, hq, hlast⟩ :=
    execute_of_perm hsim hsched hp hepsilon htrajectory hgoals hplain hinst hperm
  obtain ⟨r', hr', hvalid', hmetrics⟩ :=
    report_of_perm hreport hvalid hsame hmakespan hlast hperm
  refine ⟨r', (validate_ok v problem).mpr ⟨((validate_ok v problem).mp hr).1, ?_⟩, hvalid',
    hmetrics⟩
  change (v.validateTimed problem steps').result = .ok r'
  rw [result_validateTimed v problem hsim hsched', hq]
  exact hr'

end Validator

namespace Door

def together : List TimedStep := [⟨0, opening, none⟩, ⟨0, knocking, none⟩, ⟨1, entering, none⟩]

def starting : Schedule :=
  { sched 1 together with events := pick (stepped (sim 1) together) [0, 2, 1, 3, 4, 5] }

theorem ofSteps_together : Schedule.ofSteps (sim 1) together = .ok starting :=
  ofSteps_of_perm_sorted (by with_unfolding_all rfl) rfl rfl rfl (perm_pick (by decide +kernel))
    (by decide +kernel)

theorem valid_together : ∃ r,
    ((validator 1).validate problem (.timed together)).outcome.1 = .ok r ∧ r.isValid = true :=
  Validator.exists_report_of rfl (Simulator.new_unused rfl) ofSteps_together (by decide +kernel)

theorem valid_reversed : ∃ r r',
    ((validator 1).validate problem (.timed together)).outcome.1 = .ok r ∧ r.isValid = true ∧
    ((validator 1).validate problem (.timed together.reverse)).outcome.1 = .ok r' ∧
    r'.isValid = true ∧ r'.metrics = r.metrics := by
  obtain ⟨r, hr, hvalid⟩ := valid_together
  have hinst : ∀ s ∈ together, s.step.action.isDurative = false := fun s hs =>
    instantaneous (List.mem_map_of_mem (f := TimedStep.step) hs)
  have hepsilon : 0 < (validator 1).epsilon := by decide +kernel
  obtain ⟨r', hr', hvalid', hsame⟩ := Validator.listing_irrelevant hr hvalid hepsilon rfl rfl plain
    hinst together.reverse_perm.symm
  exact ⟨r, r', hr, hvalid, hr', hvalid', hsame⟩

end Door

end TemporalPlanning
