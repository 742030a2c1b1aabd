import TemporalPlanning.Proofs.InstantaneousSteps

namespace TemporalPlanning

variable {sim next : Simulator} {s : TimedStep} {steps steps' : List TimedStep}
  {xs : List Scheduled} {x : Scheduled} {o : Occurrence} {os : List Occurrence} {n : Nat}

section Tasks

def TimedStep.task (s : TimedStep) : Rat × GroundAction := (s.start, s.step.ground)

def Occurrence.task (o : Occurrence) : Rat × GroundAction := (o.time, o.ground)

def Scheduled.task? (x : Scheduled) : Option (Rat × GroundAction) :=
  match x.event with
  | .startAction p _ _ _ => p.activity.ground.map fun g => (x.time, g)
  | _ => none

theorem Scheduled.task_of_start (h : x.event = o.start) : x.task? = some (x.time, o.ground) := by
  rw [task?, h]
  rfl

theorem Scheduled.task_of_finish (h : x.event = o.finish) : x.task? = none := by
  rw [task?, h]
  rfl

theorem Scheduled.time_of_task {t : Rat × GroundAction} (h : x.task? = some t) :
    t.1 = x.time := by
  unfold task? at h
  split at h
  · obtain ⟨g, -, rfl⟩ := Option.map_eq_some_iff.mp h
    rfl
  · simp at h

theorem filterMap_task_flatMap (os : List Occurrence) :
    (os.flatMap Occurrence.events).filterMap Scheduled.task? = os.map Occurrence.task := by
  induction os with
  | nil => rfl
  | cons o os ih =>
      have hevents : o.events.filterMap Scheduled.task? = [o.task] := rfl
      rw [List.flatMap_cons, List.filterMap_append, ih, hevents]
      rfl

theorem filter_task_flatMap (os : List Occurrence) :
    (os.flatMap Occurrence.events).filter (·.task?.isSome) = os.map Occurrence.starting := by
  induction os with
  | nil => rfl
  | cons o os ih =>
      rw [List.flatMap_cons, List.filter_append, ih]
      rfl

theorem map_time_flatMap (os : List Occurrence) :
    (os.flatMap Occurrence.events).map Scheduled.time =
      (os.map Occurrence.task).flatMap fun t => [t.1, t.1] := by
  induction os with
  | nil => rfl
  | cons o os ih =>
      rw [List.flatMap_cons, List.map_append, ih]
      rfl

theorem map_task_eq (h : List.Forall₂ (fun s o => o.time = s.start ∧ o.ground = s.step.ground)
    steps os) : os.map Occurrence.task = steps.map TimedStep.task := by
  induction h with
  | nil => rfl
  | cons h _ ih => simp [Occurrence.task, TimedStep.task, h.1, h.2, ih]

end Tasks

def TimedStep.Fits (problem : Problem) (s : TimedStep) : Prop :=
  s.step.ground.action ∈ problem.actions ∧ s.step.action.isDurative = false ∧
    ∀ d ∈ s.duration, d = 0

theorem TimedStep.fits_of_eventsOf {es : List Event}
    (h : sim.eventsOf s.step.ground s.duration = (next, .ok es))
    (hinst : s.step.action.isDurative = false) : s.Fits sim.problem := by
  obtain ⟨hes, -⟩ := Simulator.eventsOf_ok h
  refine ⟨?_, hinst, fun d hd => ?_⟩
  · by_contra hnot
    simp [Simulator.eventsOf, hnot] at h
  · rw [Option.mem_def.mp hd] at hes
    cases ha : s.step.ground.action with
    | durative a => simp [ActionInstance.action, ha, Action.isDurative] at hinst
    | instantaneous a =>
        by_contra hne
        simp [ha, Action.events, hne] at hes

theorem TimedStep.Fits.eventsOf (h : s.Fits sim.problem) : ∃ es,
    sim.eventsOf s.step.ground s.duration =
      ({ sim with nextActivity := sim.nextActivity + 1, nextEvent := sim.nextEvent + 2 },
        .ok es) := by
  obtain ⟨hmem, hinst, hduration⟩ := h
  cases ha : s.step.ground.action with
  | durative a => simp [ActionInstance.action, ha, Action.isDurative] at hinst
  | instantaneous a =>
      have hevents (c : Clock) (activity : Activity) :
          s.step.ground.action.events c activity s.duration = .ok (a.events c activity) := by
        rw [ha]
        cases hd : s.duration with
        | none => rfl
        | some d => simp [Action.events, hduration d hd]
      exact ⟨_, Simulator.eventsOf_of_events hmem (hevents _ _)⟩

theorem fits_of_stepEvents (h : stepEvents sim n steps = (next, .ok xs))
    (hinst : ∀ s ∈ steps, s.step.action.isDurative = false) :
    ∀ s ∈ steps, s.Fits sim.problem := by
  induction steps generalizing sim n xs with
  | nil => simp
  | cons s rest ih =>
      obtain ⟨middle, es, others, he, ho, -⟩ := stepEvents_cons h
      obtain ⟨hs, hrest⟩ := List.forall_mem_cons.mp hinst
      have hothers := ih ho hrest
      rw [(Simulator.eventsOf_ok he).2.rules.problem] at hothers
      exact List.forall_mem_cons.mpr ⟨TimedStep.fits_of_eventsOf he hs, hothers⟩

theorem stepEvents_of_fits (h : ∀ s ∈ steps, s.Fits sim.problem) : ∃ xs,
    stepEvents sim n steps = ({ sim with
      nextActivity := sim.nextActivity + steps.length
      nextEvent := sim.nextEvent + 2 * steps.length }, .ok xs) := by
  induction steps generalizing sim n with
  | nil => exact ⟨[], rfl⟩
  | cons s rest ih =>
      obtain ⟨hs, hrest⟩ := List.forall_mem_cons.mp h
      obtain ⟨es, he⟩ := hs.eventsOf
      have hothers : ∀ s ∈ rest, s.Fits { sim with
        nextActivity := sim.nextActivity + 1
        nextEvent := sim.nextEvent + 2 }.problem := hrest
      obtain ⟨others, ho⟩ := ih (n := n + 1) hothers
      refine ⟨es.map (fun e => ⟨e, s.start + e.offset, .step n⟩) ++ others, ?_⟩
      simp only [stepEvents, he, ho, List.length_cons, Prod.mk.injEq, and_true]
      congr 1 <;> omega

section Schedules

variable {origin : Nat} {problem : Problem} {epsilon : Rat} {provider : Option EffectProvider}
  {component : String} {sched : Schedule}

theorem consists_ofSteps
    (hnew : Simulator.new origin problem epsilon provider component = .ok sim)
    (h : Schedule.ofSteps sim steps = .ok sched) (hgoals : problem.timedGoals = [])
    (hplain : ∀ a, .instantaneous a ∈ problem.actions → a.simulated = none)
    (hinst : ∀ s ∈ steps, s.step.action.isDurative = false) : ∃ os timed : List Occurrence,
      sched.Consists (os ++ timed) ∧
      sched.events = Scheduled.sort ((os ++ timed).flatMap Occurrence.events) ∧
      List.Forall₂ (fun s o => o.time = s.start ∧ o.ground = s.step.ground) steps os ∧
      (problem.timedEffects = [] → timed = []) := by
  obtain ⟨next, xs, ts, ys, hx, ht, rfl, -, hevents⟩ := ofSteps_ok h
  obtain ⟨hnone, hactivity, -, -⟩ := Simulator.new_ok hnew
  have hl := laid_ofSteps hnew h
  have hlaid := laid_stepEvents hx
  have hproblem : next.problem = problem :=
    hlaid.grows.rules.problem.trans (problem_new hnew).1
  have hgoalEvents : sched.sim.goalEvents = [] :=
    hl.rules.goalEvents.trans (goalEvents_new hnew hgoals)
  obtain ⟨m, last, hm, hlast, hsim⟩ := timedActivities_ok (hlaid.grows.timed.trans hnone) ht
  obtain ⟨os, rfl, hos, hids, heach⟩ := stepEvents_occurrences hx hinst
  obtain ⟨timed, hflat, hids', heach'⟩ := executeTimed_occurrences hlast
  rw [hgoalEvents, List.map_nil, List.append_nil, hflat, ← List.flatMap_append] at hevents
  have hrange : ∃ n, (os ++ timed).map Occurrence.id = List.range' 1 n := by
    rw [List.map_append, hids, hids', hlaid.grows.nextActivity, hactivity, List.range'_append_1]
    exact ⟨_, rfl⟩
  obtain ⟨n, hrange⟩ := hrange
  refine ⟨os, timed, ⟨?_, hl.sorted, ?_, fun o ho => ⟨?_, ?_⟩, hgoalEvents⟩, hevents, hos,
    fun hnil => ?_⟩
  · rw [hevents]
    exact List.mergeSort_perm _ _
  · rw [hrange]
    exact List.nodup_range'
  · have hid : o.id ∈ List.range' 1 n := hrange ▸ List.mem_map_of_mem ho
    have hpos := (List.mem_range'_1.mp hid).1
    omega
  · rw [hl.rules.origin]
    rcases List.mem_append.mp ho with ho | ho
    · exact ⟨(heach o ho).1, hplain _ ((problem_new hnew).1 ▸ (heach o ho).2)⟩
    · exact ⟨(heach' o ho).1.trans hlaid.grows.rules.origin, (heach' o ho).2⟩
  · rw [hproblem, hnil] at hm
    obtain rfl := Except.ok.inj hm
    have hentries : (OrderedMap.empty : OrderedMap Rat (List Effect)).entries = [] := rfl
    simpa [hentries] using hids'

theorem ofSteps_of_perm
    (hnew : Simulator.new origin problem epsilon provider component = .ok sim)
    (h : Schedule.ofSteps sim steps = .ok sched) (hgoals : problem.timedGoals = [])
    (hinst : ∀ s ∈ steps, s.step.action.isDurative = false) (hperm : steps.Perm steps') :
    ∃ sched', Schedule.ofSteps sim steps' = .ok sched' ∧ sched'.sim = sched.sim ∧
      sched'.makespan = sched.makespan ∧
      (sched.events.filterMap Scheduled.task?).Perm (sched'.events.filterMap Scheduled.task?) := by
  obtain ⟨next, xs, ts, ys, hx, ht, hys, -, -⟩ := ofSteps_ok h
  have hl := laid_ofSteps hnew h
  have hgoalEvents : sched.sim.goalEvents = [] :=
    hl.rules.goalEvents.trans (goalEvents_new hnew hgoals)
  have hfits := fits_of_stepEvents hx hinst
  obtain ⟨xs', hx'⟩ := stepEvents_of_fits (n := 0) fun s hs => hfits s (hperm.mem_iff.mpr hs)
  obtain ⟨own, hown⟩ := stepEvents_of_fits (n := 0) hfits
  rw [← hperm.length_eq, ← (Prod.mk.inj (hx.symm.trans hown)).1] at hx'
  obtain ⟨os, rfl, hos, -⟩ := stepEvents_occurrences hx hinst
  obtain ⟨os', rfl, hos', -⟩ :=
    stepEvents_occurrences hx' fun s hs => hinst s (hperm.mem_iff.mpr hs)
  have htasks : (os.map Occurrence.task).Perm (os'.map Occurrence.task) := by
    rw [map_task_eq hos, map_task_eq hos']
    exact hperm.map _
  have hsched := Except.ok.inj (h.symm.trans (ofSteps_eq hx ht hgoalEvents hys))
  refine ⟨_, ofSteps_eq hx' ht hgoalEvents hys, rfl, ?_, ?_⟩
  · rw [hsched]
    simp only [List.map_append, map_time_flatMap]
    have htimes := (htasks.flatMap_right fun t => [t.1, t.1]).append_right (ys.map Scheduled.time)
    exact (htimes.foldl_eq' (fun a _ b _ c => by simp [max_right_comm]) 0).symm
  · have hsort (zs : List Scheduled) :
        ((Scheduled.sort zs).filterMap Scheduled.task?).Perm (zs.filterMap Scheduled.task?) :=
      (List.mergeSort_perm zs _).filterMap _
    rw [hsched]
    refine (hsort _).trans (.trans ?_ (hsort _).symm)
    simp only [List.filterMap_append, filterMap_task_flatMap]
    exact htasks.append_right _

end Schedules

section Spaced

variable {l : List ActionInstance}

theorem spaced_apart (l : List ActionInstance) :
    (Validator.spaced l).Pairwise fun a b => a.start + 1 ≤ b.start := by
  have hplaces : (l.zipIdx.map Prod.snd).Pairwise (· < ·) := by
    rw [List.zipIdx_map_snd]
    exact List.pairwise_lt_range'
  rw [List.pairwise_map] at hplaces
  refine List.pairwise_map.mpr (hplaces.imp fun {a b} h => ?_)
  change (a.2 : Rat) + 1 ≤ b.2
  exact_mod_cast Nat.succ_le_of_lt h

theorem spaced_nonneg (l : List ActionInstance) : ∀ s ∈ Validator.spaced l, 0 ≤ s.start := by
  intro s hs
  obtain ⟨x, -, rfl⟩ := List.mem_map.mp hs
  exact Nat.cast_nonneg x.2

theorem map_ground_spaced (l : List ActionInstance) :
    (Validator.spaced l).map (fun s => s.step.ground) = l.map ActionInstance.ground := by
  rw [Validator.spaced, List.map_map]
  exact (List.map_map (f := Prod.fst) (g := ActionInstance.ground)).symm.trans
    (congrArg _ (List.zipIdx_map_fst 0 l))

theorem occurrences_of_spaced (h : List.Forall₂ (fun s o => o.time = s.start ∧
    o.ground = s.step.ground) (Validator.spaced l) os) :
    (os.Pairwise fun a b => a.time + 1 ≤ b.time) ∧ (∀ o ∈ os, 0 ≤ o.time) ∧
      os.map Occurrence.ground = l.map ActionInstance.ground := by
  have htasks := map_task_eq h
  refine ⟨?_, ?_, ?_⟩
  · have hall : ((Validator.spaced l).map TimedStep.task).Pairwise fun a b => a.1 + 1 ≤ b.1 :=
      List.pairwise_map.mpr (spaced_apart l)
    rw [← htasks] at hall
    exact List.pairwise_map.mp hall
  · have hall : ∀ t ∈ (Validator.spaced l).map TimedStep.task, 0 ≤ t.1 :=
      List.forall_mem_map.mpr (spaced_nonneg l)
    rw [← htasks] at hall
    exact fun o ho => hall o.task (List.mem_map_of_mem ho)
  · have hall := congrArg (List.map Prod.snd) htasks
    rw [List.map_map, List.map_map] at hall
    change os.map Occurrence.ground = (Validator.spaced l).map fun s => s.step.ground at hall
    rw [hall, map_ground_spaced]

theorem sorted_flatMap (h : os.Pairwise fun a b => a.time < b.time) :
    (os.flatMap Occurrence.events).Pairwise fun a b => a.notAfter b = true := by
  refine List.pairwise_flatMap.mpr ⟨fun o _ => ?_, h.imp fun {a b} hab x hx y hy => ?_⟩
  · exact List.pairwise_pair.mpr o.starting_notAfter
  · have hlt : x.time < y.time := by
      rcases List.mem_pair.mp hx with rfl | rfl <;> rcases List.mem_pair.mp hy with rfl | rfl <;>
        exact hab
    simp [Scheduled.notAfter, hlt.ne, hlt]

theorem instants_flatMap (h : os.Pairwise fun a b => a.time < b.time) :
    Scheduled.instants (os.flatMap Occurrence.events) = os.map Occurrence.events := by
  rw [List.flatMap_def]
  refine List.splitBy_flatten (by simp [Occurrence.events]) (fun es hes => ?_) ?_
  · obtain ⟨o, -, rfl⟩ := List.mem_map.mp hes
    simp [Occurrence.events, Occurrence.starting, Occurrence.finishing]
  · rw [List.isChain_map]
    exact h.isChain.imp fun a b hab =>
      ⟨by simp [Occurrence.events], by simp [Occurrence.events], decide_eq_false hab.ne⟩

end Spaced

end TemporalPlanning
