import TemporalPlanning.Proofs.EndOfPlan

namespace TemporalPlanning

section Traces

variable {sim : Simulator} {steps : List TimedStep} {sched : Schedule} {made : List (List Event)}
  {xs : List Scheduled}

structure Schedule.Complete (sched : Schedule) (sim : Simulator) (steps : List TimedStep) :
    Prop where
  built : ∃ next xs ts ys, stepEvents sim 0 steps = (next, .ok xs) ∧
    next.timedActivities = (sched.sim, .ok ts) ∧
    ys = ts.flatMap (fun t => t.events.map fun e => ⟨e, t.time + e.offset, .timedEffect⟩) ∧
    sched.events.Perm (xs ++ ys ++ sched.sim.goalEvents.map sched.goal) ∧
    ∀ id ≠ 0, sched.events.filter (fun x => x.event.activity.id = id) =
      (xs ++ ys).filter fun x => x.event.activity.id = id
  once : (sched.whole.map fun x => x.event.id).Nodup
  nonneg : ∀ x ∈ sched.whole, 0 ≤ x.time
  sorted : sched.whole.Pairwise fun x y => x.time ≤ y.time
  within : ∀ x ∈ sched.whole, x.time ≤ sched.makespan
  opened : ∀ p q i, .startCondition p i ∈ sched.sim.goalEvents →
    .endCondition q i ∈ sched.sim.goalEvents → ∀ before after,
      sched.events = before ++ sched.goal (.endCondition q i) :: after →
      sched.goal (.startCondition p i) ∈ before

theorem Schedule.opened_before (ht : Timely sched)
    (hsorted : sched.events.Pairwise fun x y => x.notAfter y = true) (hcrosses : ¬ sched.Crosses)
    {p q : Placement} {i : IntervalCondition} (hp : .startCondition p i ∈ sched.sim.goalEvents)
    (hq : .endCondition q i ∈ sched.sim.goalEvents) {before after : List Scheduled}
    (hsplit : sched.events = before ++ sched.goal (.endCondition q i) :: after) :
    sched.goal (.startCondition p i) ∈ before := by
  have hmem := ht.goals _ hp
  rw [hsplit] at hmem hsorted
  rcases List.mem_append.mp hmem with hmem | hmem
  · exact hmem
  have hlater : sched.goal (.startCondition p i) ∈ after := by
    simpa [Schedule.goal] using hmem
  have hle := (List.pairwise_cons.mp (List.pairwise_append.mp hsorted).2.1).1 _ hlater
  have htime : (sched.goal (.startCondition p i)).time ≤ (sched.goal (.endCondition q i)).time :=
    not_lt.mp fun hlt => hcrosses ⟨p, q, i, hp, hq, hlt⟩
  have hrank := Scheduled.rank_le_of_notAfter hle
    ((Scheduled.time_le_of_notAfter hle).antisymm htime) rfl
  exact absurd hrank (Nat.not_le_of_lt (Nat.lt_succ_self 1))

namespace Validator

variable {v : Validator} {problem : Problem} {r : Report} {f : Fault}

theorem assembled_of_schedule (hε : 0 ≤ v.epsilon) (hsched : v.schedule problem steps = .ok sched) :
    ∃ made xs, Assembled sched made xs ∧ 0 ≤ sched.sim.epsilon ∧
      sched.sim.provider = v.provider := by
  obtain ⟨sim, hsim, hof⟩ := except_bind_ok.mp hsched
  have hl := laid_ofSteps hsim hof
  obtain ⟨made, -, xs, -, ys, -, -, -, h⟩ := assembled_ofSteps hsim hof
  refine ⟨made, xs ++ ys, h, ?_, hl.rules.provider.trans (Simulator.provider_new hsim)⟩
  rwa [hl.rules.epsilon, Simulator.epsilon_new hsim]

theorem fault_of_provider (hε : 0 ≤ v.epsilon) (hsched : v.schedule problem steps = .ok sched)
    (hf : (v.validate problem (.timed steps)).outcome.1 = .error f) :
    f.Ordinary ∨ ∃ p ∈ v.provider, ∃ request, p.values request = .error f := by
  obtain ⟨made, xs, h, hεs, hprovider⟩ := assembled_of_schedule hε hsched
  rcases fault_of_validate hsched hf with hexecution | hfails
  · exact .inl hexecution.ordinary
  · exact hprovider ▸ (h.fault_of_fails hεs hfails).imp_left Fault.OfExecution.ordinary

theorem execution_of_schedule (hsched : v.schedule problem steps = .ok sched)
    (hr : (v.validate problem (.timed steps)).outcome.1 = .ok r) : ∃ p violation,
      (execute sched.sim sched).Gives (p, violation) ∧
      report sched.sim sched steps p violation = .ok r := by
  obtain ⟨sim, sched', p, violation, hsim, hof, hp, hreport⟩ := execution_of_validate hr
  have hsched' : v.schedule problem steps = .ok sched' := except_bind_ok.mpr ⟨sim, hsim, hof⟩
  obtain rfl := Except.ok.inj (hsched.symm.trans hsched')
  exact ⟨p, violation, hp, hreport⟩

theorem refused_in_turn (hε : 0 ≤ v.epsilon) (hsched : v.schedule problem steps = .ok sched)
    (hr : (v.validate problem (.timed steps)).outcome.1 = .ok r) {t : Rat} {q : Refusal}
    (hq : r.violation.bind Violation.refusal? = some (t, q)) (hid : q.event.activity.id ≠ 0) :
    q.kind ≠ .outOfOrder ∧ q.kind ≠ .pendingConditions := by
  obtain ⟨made, xs, h, hεs, -⟩ := assembled_of_schedule hε hsched
  obtain ⟨p, violation, hp, hreport⟩ := execution_of_schedule hsched hr
  obtain ⟨-, -, hviolation⟩ := violation_of_report hreport
  obtain ⟨before, after, hsplit, hbefore, -, -, hrefused⟩ := halts_of_execute hp
  obtain ⟨x, rest, rfl, -, hx⟩ := hrefused t q (hviolation ▸ hq)
  have hevent : q.event = x.event := (Simulator.refused_for hx).1
  exact h.not_ofOrder hεs hsplit hbefore (hevent ▸ hid) hx

theorem can_end (hε : 0 ≤ v.epsilon)
    (hdelays : ∀ g ∈ problem.timedGoals,
      0 ≤ g.interval.lower.delay ∧ 0 ≤ g.interval.upper.delay)
    (hsched : v.schedule problem steps = .ok sched)
    (hr : (v.validate problem (.timed steps)).outcome.1 = .ok r) (t : Rat) (q : Refusal) :
    r.violation ≠ some (.cannotEnd t q) := by
  intro hq
  obtain ⟨made, xs, h, hεs, -⟩ := assembled_of_schedule hε hsched
  obtain ⟨p, violation, hp, hreport⟩ := execution_of_schedule hsched hr
  obtain ⟨sim, hsim, hof⟩ := except_bind_ok.mp hsched
  have hviolation := (violation_of_report hreport).2.2
  cases violation with
  | none => simp [hq, Violation.refusal?] at hviolation
  | some w =>
      obtain rfl := Option.some.inj ((violation_kept hreport).symm.trans hq)
      obtain ⟨s, hevents, hrefused⟩ := refused_of_execute hp
      obtain ⟨next, hstep⟩ := h.ends hεs hevents (timely_ofSteps hsim hof hdelays)
        (laid_ofSteps hsim hof).run
      have hboth := hstep.symm.trans hrefused
      simp at hboth

theorem complete_of_valid (hε : 0 ≤ v.epsilon)
    (hdelays : ∀ g ∈ problem.timedGoals,
      0 ≤ g.interval.lower.delay ∧ 0 ≤ g.interval.upper.delay)
    (hr : (v.validate problem (.timed steps)).outcome.1 = .ok r) (hvalid : r.isValid = true) :
    ∃ sim sched, Simulator.new 0 problem v.epsilon v.provider component = .ok sim ∧
      Schedule.ofSteps sim steps = .ok sched ∧ r.trace = sched.whole.map Scheduled.entry ∧
      sched.Complete sim steps := by
  obtain ⟨sim, sched, final, hsim, hsched, hall, htrace⟩ := whole_of_valid hr hvalid
  have hl := laid_ofSteps hsim hsched
  have ht := timely_ofSteps hsim hsched hdelays
  have hεs : 0 ≤ sched.sim.epsilon := by rwa [hl.rules.epsilon, Simulator.epsilon_new hsim]
  obtain ⟨made, next, xs, ts, ys, hx, hts, hys, h⟩ := assembled_ofSteps hsim hsched
  obtain ⟨s, hevents, -⟩ := Replays.append_iff.mp hall
  obtain ⟨done, hrun, hdone⟩ := hevents.logged hl.run
  rw [List.append_nil] at hrun
  obtain ⟨hnonneg, -, hcrosses⟩ := times_fit ht hrun hdone fun hne => hevents.consistent hne
  refine ⟨sim, sched, hsim, hsched, htrace, ⟨next, xs, ts, ys, hx, hts, hys, h.perm,
    fun id hid => h.filter_eq (h.session.makes hεs) hid⟩,
    (List.nodup_cons.mp ht.nodup_ids).2, ?_, ht.sorted_whole, ?_,
    fun p q i hp hq before after => Schedule.opened_before ht h.sorted hcrosses hp hq⟩
  · exact List.forall_mem_append.mpr ⟨hnonneg, List.forall_mem_singleton.mpr ht.makespan_nonneg⟩
  · exact List.forall_mem_append.mpr ⟨ht.le_makespan, List.forall_mem_singleton.mpr le_rfl⟩

theorem events_in_turn (hε : 0 < v.epsilon)
    (hdelays : ∀ g ∈ problem.timedGoals,
      0 ≤ g.interval.lower.delay ∧ 0 ≤ g.interval.upper.delay)
    (hsched : v.schedule problem steps = .ok sched) :
    (∀ f, (v.validate problem (.timed steps)).outcome.1 = .error f →
      f.kind = .foreignEvent ∨ f.kind = .activityNotStarted ∨ f.kind = .activityEnded →
      ∃ p ∈ v.provider, ∃ request, p.values request = .error f) ∧
    ∀ r, (v.validate problem (.timed steps)).outcome.1 = .ok r →
      (∀ t q, r.violation = some (.inapplicable t q) →
        (∃ x ∈ sched.events, x.turn ≠ .goal ∧ q.event = x.event) →
        q.kind ≠ .outOfOrder ∧ q.kind ≠ .pendingConditions) ∧
      (∀ t q, r.violation ≠ some (.cannotEnd t q)) ∧
      (r.isValid = true → r.trace = sched.whole.map Scheduled.entry ∧ ∃ sim,
        Simulator.new 0 problem v.epsilon v.provider component = .ok sim ∧
        sched.Complete sim steps) := by
  refine ⟨fun f hf hkind => ?_, fun r hr => ⟨fun t q hq hevent => ?_,
    can_end hε.le hdelays hsched hr, fun hvalid => ?_⟩⟩
  · refine (fault_of_provider hε.le hsched hf).resolve_left fun hordinary => ?_
    obtain ⟨hforeign, hstarted, hended⟩ := Fault.ordinary_iff.mp hordinary
    exact hkind.elim hforeign fun hkind => hkind.elim hstarted hended
  · obtain ⟨x, hx, hturn, hevent⟩ := hevent
    obtain ⟨made, xs, h, hεs, -⟩ := assembled_of_schedule hε.le hsched
    have hid : q.event.activity.id ≠ 0 := hevent ▸ h.id_ne (h.session.makes hεs) hx hturn
    exact refused_in_turn hε.le hsched hr (by rw [hq]; rfl) hid
  · obtain ⟨sim, sched', hsim, hof, htrace, hcomplete⟩ := complete_of_valid hε.le hdelays hr hvalid
    have hsched' : v.schedule problem steps = .ok sched' := except_bind_ok.mpr ⟨sim, hsim, hof⟩
    obtain rfl := Except.ok.inj (hsched.symm.trans hsched')
    exact ⟨htrace, sim, hsim, hcomplete⟩

end Validator

end Traces

namespace Shifts

def switchAction : InstantaneousAction :=
  ⟨"switch", [], [], [], some ⟨⟨.start, 0⟩, [⟨"lit", []⟩]⟩⟩

def switch : GroundAction := .ofAction (.instantaneous switchAction)

def lit (lower upper : Rat) : TimedCondition :=
  ⟨⟨⟨.planStart, lower⟩, ⟨.planStart, upper⟩, false, false⟩, .fluent "lit" []⟩

def problem : Problem :=
  { Problem.ofActions "lamp" [.flag "lit" false] [.instantaneous switchAction] with
    goals := [.fluent "lit" []]
    timedGoals := [lit 0 1, lit 1 2] }

def early : IntervalCondition :=
  ⟨2, .plan 0, .fluent "lit" [], 0, 1, false, false, [], [], none, "[start+0..start+1]"⟩

def late : IntervalCondition :=
  ⟨4, .plan 0, .fluent "lit" [], 1, 2, false, false, [], [], none, "[start+1..start+2]"⟩

def opens (i : IntervalCondition) : Event :=
  .startCondition ⟨i.id, .plan 0, i.lower, false, "plan.open" ++ i.label⟩ i

def closes (i : IntervalCondition) : Event :=
  .endCondition ⟨i.id + 1, .plan 0, i.upper, false, "plan.close" ++ i.label⟩ i

def goals : List Event := [opens early, closes early, opens late, closes late]

def sim (device : EffectProvider) : Simulator :=
  .unused 0 problem 1 (some device) Validator.component goals

def steps : List TimedStep := [⟨0, ⟨0, switch⟩, none⟩]

def switching : Activity := ⟨0, 1, some switch⟩

def finish : Event := .endAction ⟨7, switching, 0, false, "switch#1.end"⟩ .empty

def start : Event := .startAction ⟨6, switching, 0, false, "switch#1.start"⟩
  ⟨[], [], switchAction.simulated⟩ 0 [finish]

def ofStep : List Scheduled := [⟨start, 0, .step 0⟩, ⟨finish, 0, .step 0⟩]

def events : List Scheduled := ofStep ++ [⟨opens early, 0, .goal⟩, ⟨opens late, 1, .goal⟩,
  ⟨closes early, 1, .goal⟩, ⟨closes late, 2, .goal⟩]

def sched (device : EffectProvider) : Schedule :=
  ⟨{ sim device with nextActivity := 2, nextEvent := 8, timed := some [] }, events, 2⟩

def validator (device : EffectProvider) : Validator := ⟨1, none, some device, false⟩

def working : EffectProvider := ⟨fun _ => .ok [.bool true]⟩

def broken : EffectProvider := ⟨fun _ => .error (.foreignEvent start.label)⟩

theorem sort_events : Scheduled.sort (ofStep ++ [⟨opens early, 0, .goal⟩, ⟨closes early, 1, .goal⟩,
    ⟨opens late, 1, .goal⟩, ⟨closes late, 2, .goal⟩]) = events := by
  refine Scheduled.eq_of_sorted ((List.mergeSort_perm _ _).trans ?_) (by decide +kernel)
    (Scheduled.sorted_sort _) (by decide +kernel)
  exact .cons _ (.cons _ (.cons _ (.swap _ _ _)))

theorem makespan_events : 2 = ((ofStep ++ []).map Scheduled.time ++
    (goals.filter fun e => !e.fromEnd).map Event.offset).foldl Number.larger 0 := by
  decide +kernel

section Device

variable (device : EffectProvider)

theorem new_problem :
    Simulator.new 0 problem 1 (some device) Validator.component = .ok (sim device) := by
  with_unfolding_all rfl

theorem stepEvents_steps : stepEvents (sim device) 0 steps =
    ({ sim device with nextActivity := 2, nextEvent := 8 }, .ok ofStep) := by
  with_unfolding_all rfl

theorem ofSteps_steps : Schedule.ofSteps (sim device) steps = .ok (sched device) :=
  ofSteps_of_parts (stepEvents_steps device) (timedActivities_nil rfl rfl) rfl makespan_events
    sort_events.symm

theorem schedule_steps : (validator device).schedule problem steps = .ok (sched device) :=
  except_bind_ok.mpr ⟨sim device, new_problem device, ofSteps_steps device⟩

end Device

theorem delays_nonneg : ∀ g ∈ problem.timedGoals,
    0 ≤ g.interval.lower.delay ∧ 0 ≤ g.interval.upper.delay := by
  decide +kernel

theorem valid_steps : ∃ r,
    ((validator working).validate problem (.timed steps)).outcome.1 = .ok r ∧ r.isValid = true :=
  Validator.exists_report_of rfl (new_problem working) (ofSteps_steps working) (by decide +kernel)

theorem events_in_turn_lamp : ∃ r,
    ((validator working).validate problem (.timed steps)).outcome.1 = .ok r ∧ r.isValid = true ∧
    r.trace = (sched working).whole.map Scheduled.entry ∧
    ∃ sim, Simulator.new 0 problem 1 (some working) Validator.component = .ok sim ∧
      (sched working).Complete sim steps := by
  obtain ⟨r, hr, hvalid⟩ := valid_steps
  have hall := (Validator.events_in_turn (by decide +kernel) delays_nonneg
    (schedule_steps working)).2 r hr
  exact ⟨r, hr, hvalid, hall.2.2 hvalid⟩

theorem fault_steps : ((validator broken).validate problem (.timed steps)).outcome.1 =
    .error (.foreignEvent "switch#1.start") := by
  rw [Validator.result_validate _ _ rfl]
  change ((validator broken).validateTimed problem steps).result = _
  rw [Validator.result_validateTimed _ _ (new_problem broken) (ofSteps_steps broken)]
  with_unfolding_all rfl

theorem goals_overlap : (∃ r,
      ((validator working).validate problem (.timed steps)).outcome.1 = .ok r ∧
      r.isValid = true ∧ r.trace = [(0, "switch#1.start"), (0, "switch#1.end"),
        (0, "plan.open[start+0..start+1]"), (1, "plan.open[start+1..start+2]"),
        (1, "plan.close[start+0..start+1]"), (2, "plan.close[start+1..start+2]"),
        (2, "plan.end")]) ∧
    (∀ g ∈ problem.timedGoals, 0 ≤ g.interval.lower.delay ∧ 0 ≤ g.interval.upper.delay) ∧
    (∀ e ∈ goals, e.activity = .plan 0) ∧ goals.map Event.label =
      ["plan.open[start+0..start+1]", "plan.close[start+0..start+1]",
        "plan.open[start+1..start+2]", "plan.close[start+1..start+2]"] ∧
    (∀ device, (validator device).schedule problem steps = .ok (sched device) ∧
      (sched device).sim.goalEvents = goals) ∧
    ((validator broken).validate problem (.timed steps)).outcome.1 =
      .error (.foreignEvent "switch#1.start") := by
  refine ⟨?_, delays_nonneg, by decide +kernel, by decide +kernel,
    fun device => ⟨schedule_steps device, rfl⟩, fault_steps⟩
  obtain ⟨r, hr, hP⟩ := Validator.exists_report_of (v := validator working)
    (P := fun r => r.isValid &&
    decide (r.trace = [(0, "switch#1.start"), (0, "switch#1.end"),
      (0, "plan.open[start+0..start+1]"), (1, "plan.open[start+1..start+2]"),
      (1, "plan.close[start+0..start+1]"), (2, "plan.close[start+1..start+2]"),
      (2, "plan.end")])) rfl (new_problem working) (ofSteps_steps working) (by decide +kernel)
  rw [Bool.and_eq_true, decide_eq_true_eq] at hP
  exact ⟨r, hr, hP⟩

end Shifts

end TemporalPlanning
