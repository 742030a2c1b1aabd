import TemporalPlanning.Proofs.Executions
import TemporalPlanning.Proofs.ScheduleEvents

namespace TemporalPlanning

open Simulator (Run)

variable {sim sim' : Simulator} {steps : List TimedStep} {xs ys : List Scheduled}
  {x y : Scheduled}

section Commitments

def Commits (xs : List Scheduled) : Prop :=
  ∀ x ∈ xs, ∀ c ∈ x.event.committed, ∃ y ∈ xs, y.event = c ∧ y.time = x.time + c.offset

theorem Commits.append (hx : Commits xs) (hy : Commits ys) : Commits (xs ++ ys) := by
  intro z hz c hc
  rcases List.mem_append.mp hz with hz | hz
  · obtain ⟨y, hmem, hy⟩ := hx z hz c hc
    exact ⟨y, List.mem_append_left _ hmem, hy⟩
  · obtain ⟨y, hmem, hy⟩ := hy z hz c hc
    exact ⟨y, List.mem_append_right _ hmem, hy⟩

theorem Commits.of_perm (h : Commits xs) (hp : xs.Perm ys) : Commits ys := by
  intro z hz c hc
  obtain ⟨y, hmem, hy⟩ := h z (hp.mem_iff.mpr hz) c hc
  exact ⟨y, hp.mem_iff.mp hmem, hy⟩

theorem commits_of_nil (h : ∀ x ∈ xs, x.event.committed = []) : Commits xs := by
  intro x hx c hc
  simp [h x hx] at hc

theorem commits_events {c : Clock} {activity : Activity} {duration : Option Rat} {a : Action}
    {es : List Event} (h : a.events c activity duration = .ok es) (start : Rat) (turn : Turn) :
    Commits (es.map fun e => ⟨e, start + e.offset, turn⟩) := by
  intro x hx c hc
  obtain ⟨e, he, rfl⟩ := List.mem_map.mp hx
  rcases Action.committed_events h he with hnil | ⟨hsub, hstart⟩
  · have hc : c ∈ e.committed := hc
    simp [hnil] at hc
  · exact ⟨_, List.mem_map_of_mem (hsub c hc), rfl, by simp [hstart]⟩

theorem commits_stepEvents {n : Nat} (h : stepEvents sim n steps = (sim', .ok xs)) :
    Commits xs := by
  induction steps generalizing sim n xs with
  | nil =>
      simp only [stepEvents, Prod.mk.injEq, Except.ok.injEq] at h
      exact h.2 ▸ commits_of_nil (by simp)
  | cons s rest ih =>
      obtain ⟨next, es, others, he, ho, rfl⟩ := stepEvents_cons h
      exact (commits_events (Simulator.eventsOf_ok he).1 s.start (.step n)).append (ih ho)

theorem commits_executeTimed {byTime : List (Rat × List Effect)} {ts : List TimedActivity}
    (h : sim.executeTimed byTime = (sim', .ok ts)) :
    Commits (ts.flatMap fun t => t.events.map fun e => ⟨e, t.time + e.offset, .timedEffect⟩) := by
  induction byTime generalizing sim ts with
  | nil =>
      simp only [Simulator.executeTimed, Prod.mk.injEq, Except.ok.injEq] at h
      exact h.2 ▸ commits_of_nil (by simp)
  | cons entry rest ih =>
      obtain ⟨next, es, others, he, ho, rfl⟩ := executeTimed_cons h
      rw [List.flatMap_cons]
      exact (commits_events (Simulator.execute_ok he).1 entry.1 .timedEffect).append (ih ho)

end Commitments

theorem Simulator.planEvents_new {origin : Nat} {problem : Problem} {epsilon : Rat}
    {provider : Option EffectProvider} {component : String}
    (h : Simulator.new origin problem epsilon provider component = .ok sim) : ∃ p q,
      sim.planStart = .startAction p .empty 0 [] ∧ p.id = 0 ∧ p.activity = .plan sim.origin ∧
      sim.planEnd = .endAction q .empty ∧ q.id = 1 ∧ q.activity = .plan sim.origin := by
  obtain ⟨goals, -, rfl⟩ := Simulator.new_iff.mp h
  exact ⟨_, _, rfl, rfl, rfl, rfl, rfl, rfl⟩

theorem goalEvents_new {origin : Nat} {problem : Problem} {epsilon : Rat}
    {provider : Option EffectProvider} {component : String}
    (hnew : Simulator.new origin problem epsilon provider component = .ok sim)
    (hgoals : problem.timedGoals = []) : sim.goalEvents = [] := by
  have hevents := Simulator.goalsEvents_new hnew
  rw [hgoals] at hevents
  exact (Except.ok.inj hevents).symm

theorem problem_new {origin : Nat} {problem : Problem} {epsilon : Rat}
    {provider : Option EffectProvider} {component : String}
    (hnew : Simulator.new origin problem epsilon provider component = .ok sim) :
    sim.problem = problem ∧ sim.defaults = problem.defaults := by
  obtain ⟨goals, -, rfl⟩ := Simulator.new_iff.mp hnew
  exact ⟨rfl, rfl⟩

structure Timely (sched : Schedule) : Prop where
  start : sched.sim.planStart.id = 0 ∧ sched.sim.planStart.activity.id = 0
  finish : ∃ q, sched.sim.planEnd = .endAction q .empty ∧ q.id = 1 ∧
    q.activity = .plan sched.sim.origin
  numbered : Numbered 2 (sched.events.map (·.event))
  sorted : sched.events.Pairwise fun a b => a.time ≤ b.time
  committed : Commits sched.events
  goals : ∀ e ∈ sched.sim.goalEvents, sched.goal e ∈ sched.events
  makespan_nonneg : 0 ≤ sched.makespan
  le_makespan : ∀ x ∈ sched.events, x.time ≤ sched.makespan
  fromStart : ∀ x ∈ sched.events, x.event.activity.id ≠ 0 → x.event.fromEnd = false

section Spans

variable {origin : Nat} {problem : Problem} {epsilon : Rat} {provider : Option EffectProvider}
  {component : String} {sched : Schedule}

theorem span_ofSteps
    (hnew : Simulator.new origin problem epsilon provider component = .ok sim)
    (h : Schedule.ofSteps sim steps = .ok sched)
    (hdelays : ∀ g ∈ problem.timedGoals,
      0 ≤ g.interval.lower.delay ∧ 0 ≤ g.interval.upper.delay) :
    ∀ x ∈ sched.events, x.time ≤ sched.makespan := by
  have hrules := (laid_ofSteps hnew h).rules
  obtain ⟨next, xs, ts, ys, -, -, -, hspan, hevents⟩ := ofSteps_ok h
  have hgoals := Simulator.goalsEvents_new hnew
  have hperm : sched.events.Perm (xs ++ ys ++ sched.sim.goalEvents.map sched.goal) :=
    hevents ▸ List.mergeSort_perm _ _
  have hfold := (Number.le_foldl_larger ((xs ++ ys).map (·.time) ++
    (sched.sim.goalEvents.filter fun e => !e.fromEnd).map Event.offset) 0).2
  rw [← hspan] at hfold
  intro z hz
  rcases List.mem_append.mp (hperm.mem_iff.mp hz) with hz | hz
  · exact hfold _ (List.mem_append_left _ (List.mem_map_of_mem hz))
  · obtain ⟨e, he, rfl⟩ := List.mem_map.mp hz
    cases hfrom : e.fromEnd with
    | true =>
        have hoffset := offset_nonneg_of_goalsEvents hgoals hdelays e (hrules.goalEvents ▸ he)
        simp only [Schedule.goal, hfrom, if_true]
        linarith
    | false =>
        simp only [Schedule.goal, hfrom, Bool.false_eq_true, if_false]
        refine hfold _ (List.mem_append_right _ (List.mem_map_of_mem ?_))
        exact List.mem_filter.mpr ⟨he, by simp [hfrom]⟩

theorem timely_of_span
    (hnew : Simulator.new origin problem epsilon provider component = .ok sim)
    (h : Schedule.ofSteps sim steps = .ok sched)
    (hle : ∀ x ∈ sched.events, x.time ≤ sched.makespan) : Timely sched := by
  have hl := laid_ofSteps hnew h
  obtain ⟨next, xs, ts, ys, hx, ht, hys, hspan, hevents⟩ := ofSteps_ok h
  obtain ⟨p, q, hstart, hp, hplan, hend, hq, hactivity⟩ := Simulator.planEvents_new hnew
  have hperm : sched.events.Perm (xs ++ ys ++ sched.sim.goalEvents.map sched.goal) :=
    hevents ▸ List.mergeSort_perm _ _
  have htimed : next.timed = none :=
    (laid_stepEvents hx).grows.timed.trans (Simulator.new_ok hnew).1
  obtain ⟨m, last, -, hlast, -⟩ := timedActivities_ok htimed ht
  have hplaced : Commits (sched.sim.goalEvents.map sched.goal) := by
    refine commits_of_nil fun z hz => ?_
    obtain ⟨e, he, rfl⟩ := List.mem_map.mp hz
    exact ((Simulator.new_ok hnew).2.2.2 e (hl.rules.goalEvents ▸ he)).committed
  have hnonneg : 0 ≤ sched.makespan := by
    rw [hspan]
    exact (Number.le_foldl_larger _ 0).1
  refine ⟨?_, ⟨q, ?_, hq, ?_⟩, hl.numbered, hl.sorted.imp Scheduled.time_le_of_notAfter,
    ?_, fun e he => ?_, hnonneg, hle, hl.fromStart⟩
  · rw [hl.rules.planStart, hstart]
    exact ⟨hp, congrArg Activity.id hplan⟩
  · rw [hl.rules.planEnd, hend]
  · rw [hactivity, hl.rules.origin]
  · refine (Commits.append (.append (commits_stepEvents hx) ?_) hplaced).of_perm hperm.symm
    rw [hys]
    exact commits_executeTimed hlast
  · exact hperm.mem_iff.mpr (List.mem_append_right _ (List.mem_map_of_mem he))

theorem timely_ofSteps
    (hnew : Simulator.new origin problem epsilon provider component = .ok sim)
    (h : Schedule.ofSteps sim steps = .ok sched)
    (hdelays : ∀ g ∈ problem.timedGoals,
      0 ≤ g.interval.lower.delay ∧ 0 ≤ g.interval.upper.delay) : Timely sched :=
  timely_of_span hnew h (span_ofSteps hnew h hdelays)

end Spans

section Times

variable {sched : Schedule}

def Schedule.all (sched : Schedule) : List Scheduled :=
  ⟨sched.sim.planStart, 0, .goal⟩ :: sched.whole

def Schedule.timeOf (sched : Schedule) (r : EventRef) : Rat :=
  ((sched.all.find? fun x => x.event.ref = r).map Scheduled.time).getD 0

namespace Timely

theorem nodup_ids (h : Timely sched) : (sched.all.map fun x => x.event.id).Nodup := by
  obtain ⟨q, hend, hq, -⟩ := h.finish
  have hid : sched.sim.planEnd.id = 1 := by rw [hend]; exact hq
  have hids := h.numbered.ids
  rw [List.map_map] at hids
  have hperm : (sched.all.map fun x => x.event.id).Perm
      (0 :: 1 :: List.range' 2 (sched.events.map (·.event)).length) := by
    have hall : (sched.all.map fun x => x.event.id) =
        0 :: (sched.events.map (Event.id ∘ Scheduled.event) ++ [1]) := by
      simp [Schedule.all, Schedule.whole, h.start.1, hid]
    rw [hall]
    exact ((List.perm_append_comm.trans (.refl _)).trans (hids.cons 1)).cons 0
  refine hperm.nodup_iff.mpr ?_
  simp [List.nodup_range']

theorem timeOf_ref (h : Timely sched) (hx : x ∈ sched.all) : sched.timeOf x.event.ref = x.time := by
  unfold Schedule.timeOf
  cases hfind : sched.all.find? fun y => y.event.ref = x.event.ref with
  | none =>
      have hnone := List.find?_eq_none.mp hfind x hx
      simp at hnone
  | some y =>
      have hmem := List.mem_of_find?_eq_some hfind
      have href : y.event.ref = x.event.ref := by simpa using List.find?_some hfind
      rw [List.inj_on_of_nodup_map h.nodup_ids hmem hx (congrArg EventRef.id href)]
      rfl

theorem timeOf_start (h : Timely sched) : sched.timeOf sched.sim.planStart.ref = 0 :=
  h.timeOf_ref (x := ⟨sched.sim.planStart, 0, .goal⟩) List.mem_cons_self

theorem timeOf_finish (h : Timely sched) : sched.timeOf sched.sim.planEnd.ref = sched.makespan :=
  h.timeOf_ref (x := ⟨sched.sim.planEnd, sched.makespan, .goal⟩)
    (by simp [Schedule.all, Schedule.whole])

theorem timeOf_goal (h : Timely sched) {e : Event} (he : e ∈ sched.sim.goalEvents) :
    sched.timeOf e.ref = (sched.goal e).time :=
  h.timeOf_ref (x := sched.goal e)
    (List.mem_cons_of_mem _ (List.mem_append_left _ (h.goals e he)))

theorem sorted_whole (h : Timely sched) : sched.whole.Pairwise fun a b => a.time ≤ b.time := by
  refine List.pairwise_append.mpr ⟨h.sorted, List.pairwise_singleton _ _, fun x hx y hy => ?_⟩
  rw [List.mem_singleton.mp hy]
  exact h.le_makespan x hx

theorem plan_finish (h : Timely sched) : sched.sim.planEnd.activity.id = 0 := by
  obtain ⟨q, hend, -, hactivity⟩ := h.finish
  rw [hend]
  exact congrArg Activity.id hactivity

theorem committed_whole (h : Timely sched) : Commits sched.whole := by
  refine h.committed.append (commits_of_nil fun x hx => ?_)
  obtain ⟨q, hend, -⟩ := h.finish
  rw [List.mem_singleton.mp hx]
  change sched.sim.planEnd.committed = []
  rw [hend]
  rfl

theorem fromStart_whole (h : Timely sched) (hx : x ∈ sched.whole)
    (hid : x.event.activity.id ≠ 0) : x.event.fromEnd = false := by
  rcases List.mem_append.mp hx with hx | hx
  · exact h.fromStart x hx hid
  · rw [List.mem_singleton.mp hx] at hid
    exact absurd h.plan_finish hid

end Timely

def Schedule.Follows (sched : Schedule) (done : List (Applied × Rat)) (rest : List Scheduled) :
    Prop :=
  ∃ xs, sched.whole = xs ++ rest ∧
    done.map (fun a => (a.1.event, a.2)) = xs.reverse.map fun x => (x.event, x.time)

namespace Schedule.Follows

variable {done : List (Applied × Rat)} {rest : List Scheduled} {a : Applied × Rat}

theorem mem (h : sched.Follows done rest) (ha : a ∈ done) :
    ∃ x ∈ sched.whole, x.event = a.1.event ∧ x.time = a.2 := by
  obtain ⟨xs, hwhole, hdone⟩ := h
  have hmem := List.mem_map_of_mem (f := fun a => (a.1.event, a.2)) ha
  rw [hdone] at hmem
  obtain ⟨x, hx, hxa⟩ := List.mem_map.mp hmem
  obtain ⟨hevent, htime⟩ := Prod.mk.inj hxa
  exact ⟨x, hwhole ▸ List.mem_append_left _ (List.mem_reverse.mp hx), hevent, htime⟩

theorem descending (h : sched.Follows done rest) (ht : Timely sched) :
    done.Pairwise fun a b => b.2 ≤ a.2 := by
  obtain ⟨xs, hwhole, hdone⟩ := h
  have hxs : xs.Pairwise fun a b => a.time ≤ b.time :=
    (List.pairwise_append.mp (hwhole ▸ ht.sorted_whole)).1
  have htimes : done.map Prod.snd = xs.reverse.map Scheduled.time := by
    have hall := congrArg (List.map Prod.snd) hdone
    simpa [Function.comp_def] using hall
  have hsorted : (xs.reverse.map Scheduled.time).Pairwise fun a b => b ≤ a := by
    rw [List.pairwise_map, List.pairwise_reverse]
    exact hxs
  rw [← htimes, List.pairwise_map] at hsorted
  exact hsorted

theorem next (h : sched.Follows done (x :: rest)) {a : Applied} (ha : a.event = x.event) :
    sched.Follows ((a, x.time) :: done) rest := by
  obtain ⟨xs, hwhole, hdone⟩ := h
  exact ⟨xs ++ [x], by rw [hwhole, List.append_assoc]; rfl, by simp [hdone, ha]⟩

theorem nonneg (h : sched.Follows done rest) (ht : Timely sched)
    (hnonneg : ∀ x ∈ sched.events, 0 ≤ x.time) : ∀ a ∈ done, 0 ≤ a.2 := by
  intro a ha
  obtain ⟨x, hx, -, htime⟩ := h.mem ha
  rw [← htime]
  rcases List.mem_append.mp hx with hx | hx
  · exact hnonneg x hx
  · rw [List.mem_singleton.mp hx]
    exact ht.makespan_nonneg

theorem fromStart (h : sched.Follows done rest) (ht : Timely sched) (ha : a ∈ done)
    (hid : a.1.event.activity.id ≠ 0) : a.1.event.fromEnd = false := by
  obtain ⟨x, hx, hevent, -⟩ := h.mem ha
  rw [← hevent] at hid ⊢
  exact ht.fromStart_whole hx hid

theorem timeOf_eq (h : sched.Follows done rest) (ht : Timely sched) (ha : a ∈ done) :
    sched.timeOf a.1.event.ref = a.2 := by
  obtain ⟨x, hx, hevent, htime⟩ := h.mem ha
  rw [← hevent, ← htime]
  exact ht.timeOf_ref (List.mem_cons_of_mem _ hx)

end Schedule.Follows

end Times

end TemporalPlanning
