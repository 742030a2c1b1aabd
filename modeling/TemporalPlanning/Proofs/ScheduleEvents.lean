import Mathlib.Data.Prod.Lex
import TemporalPlanning.Proofs.ActivityEvents
import TemporalPlanning.Proofs.GoalEvents
import TemporalPlanning.Proofs.RunConstraints
import TemporalPlanning.Proofs.Unfoldings
import TemporalPlanning.Validation.Schedule

namespace TemporalPlanning

namespace Scheduled

def key (x : Scheduled) : Rat ×ₗ Bool ×ₗ Nat ×ₗ Nat ×ₗ Nat :=
  toLex (x.time, toLex (x.turn.isGoal, toLex (x.event.kind.rank, toLex (x.turn.rank, x.event.id))))

theorem notAfter_iff {a b : Scheduled} : a.notAfter b = true ↔ a.key ≤ b.key := by
  have hgoal : a.turn.isGoal ≠ b.turn.isGoal →
      (b.turn.isGoal = true ↔ a.turn.isGoal < b.turn.isGoal) := by
    cases a.turn.isGoal <;> cases b.turn.isGoal <;> decide
  simp only [notAfter, key, Prod.Lex.toLex_le_toLex]
  split
  · rename_i h
    simp [h]
  · rename_i h
    rw [not_not] at h
    split
    · rename_i hg
      simp [h, hg, hgoal hg]
    · rename_i hg
      rw [not_not] at hg
      split
      · rename_i hk
        simp [h, hg, hk]
      · rename_i hk
        rw [not_not] at hk
        split
        · rename_i hr
          simp [h, hg, hk, hr]
        · rename_i hr
          rw [not_not] at hr
          simp [h, hg, hk, hr]

theorem sorted_sort (es : List Scheduled) :
    (sort es).Pairwise fun a b => a.notAfter b = true := by
  refine List.pairwise_mergeSort (fun a b c hab hbc => ?_) (fun a b => ?_) es
  · exact notAfter_iff.mpr ((notAfter_iff.mp hab).trans (notAfter_iff.mp hbc))
  · rw [Bool.or_eq_true, notAfter_iff, notAfter_iff]
    exact le_total _ _

theorem eq_of_sorted {xs ys : List Scheduled} (hperm : xs.Perm ys)
    (hids : (ys.map fun x => x.event.id).Nodup) (hx : xs.Pairwise fun x y => x.notAfter y = true)
    (hy : ys.Pairwise fun x y => x.notAfter y = true) : xs = ys := by
  refine hperm.eq_of_pairwise (fun x y hx hy hxy hyx => ?_) hx hy
  have hkey := (notAfter_iff.mp hxy).antisymm (notAfter_iff.mp hyx)
  simp only [key, EmbeddingLike.apply_eq_iff_eq, Prod.mk.injEq] at hkey
  exact List.inj_on_of_nodup_map hids (hperm.mem_iff.mp hx) hy hkey.2.2.2.2

theorem time_le_of_notAfter {a b : Scheduled} (h : a.notAfter b = true) : a.time ≤ b.time := by
  rw [notAfter_iff, key, key, Prod.Lex.toLex_le_toLex] at h
  rcases h with h | h
  · exact h.le
  · exact h.1.le

theorem rank_le_of_notAfter {a b : Scheduled} (h : a.notAfter b = true) (htime : a.time = b.time)
    (hgoal : a.turn.isGoal = b.turn.isGoal) : a.event.kind.rank ≤ b.event.kind.rank := by
  simp only [notAfter_iff, key, Prod.Lex.toLex_le_toLex, htime, hgoal, lt_irrefl, false_or,
    true_and] at h
  rcases h with h | h
  · exact h.le
  · exact h.1.le

theorem split_at {es : List Scheduled} (h : es.Pairwise fun a b => a.time ≤ b.time) (τ : Rat) :
    es = es.filter (fun x => x.time < τ) ++ es.filter (fun x => τ ≤ x.time) := by
  induction es with
  | nil => rfl
  | cons x es ih =>
      obtain ⟨hx, hes⟩ := List.pairwise_cons.mp h
      by_cases hτ : x.time < τ
      · simpa [hτ, not_le.mpr hτ] using ih hes
      · have hlate : ∀ y ∈ x :: es, τ ≤ y.time :=
          List.forall_mem_cons.mpr ⟨not_lt.mp hτ, fun y hy => (not_lt.mp hτ).trans (hx y hy)⟩
        have hnone : (x :: es).filter (fun x => decide (x.time < τ)) = [] :=
          List.filter_eq_nil_iff.mpr fun y hy => by simpa using hlate y hy
        have hall : (x :: es).filter (fun x => decide (τ ≤ x.time)) = x :: es :=
          List.filter_eq_self.mpr fun y hy => by simpa using hlate y hy
        rw [hnone, hall, List.nil_append]

end Scheduled

open Simulator (SameRules Run)

variable {sim sim' : Simulator} {g : GroundAction} {duration : Option Rat} {es : List Event}

structure Simulator.Grows (sim sim' : Simulator) (events activities : Nat) : Prop where
  rules : SameRules sim sim'
  timed : sim'.timed = sim.timed
  nextEvent : sim'.nextEvent = sim.nextEvent + events
  nextActivity : sim'.nextActivity = sim.nextActivity + activities

namespace Simulator

theorem Grows.trans {sim'' : Simulator} {n m k l : Nat} (h : Grows sim sim' n m)
    (h' : Grows sim' sim'' k l) : Grows sim sim'' (n + k) (m + l) where
  rules := h.rules.trans h'.rules
  timed := h'.timed.trans h.timed
  nextEvent := by rw [h'.nextEvent, h.nextEvent, Nat.add_assoc]
  nextActivity := by rw [h'.nextActivity, h.nextActivity, Nat.add_assoc]

theorem execute_ok (h : sim.execute g duration = (sim', .ok es)) :
    g.action.events sim.clock ⟨sim.origin, sim.nextActivity, some g⟩ duration = .ok es ∧
      Grows sim sim' es.length 1 := by
  have hrules := SameRules.execute sim g duration
  rw [h] at hrules
  unfold execute at h
  dsimp only at h
  split at h
  · rename_i es' he
    simp only [Prod.mk.injEq, Except.ok.injEq] at h
    obtain ⟨rfl, rfl⟩ := h
    exact ⟨he, hrules, rfl, rfl, rfl⟩
  · simp at h

theorem eventsOf_ok (h : sim.eventsOf g duration = (sim', .ok es)) :
    g.action.events sim.clock ⟨sim.origin, sim.nextActivity, some g⟩ duration = .ok es ∧
      Grows sim sim' es.length 1 := by
  unfold eventsOf at h
  split at h
  · exact execute_ok h
  · simp at h

def afterMaking (sim : Simulator) (es : List Event) : Simulator :=
  { sim with nextActivity := sim.nextActivity + 1, nextEvent := sim.nextEvent + es.length }

theorem eventsOf_of_events (hmem : g.action ∈ sim.problem.actions)
    (hes : g.action.events sim.clock ⟨sim.origin, sim.nextActivity, some g⟩ duration = .ok es) :
    sim.eventsOf g duration = (sim.afterMaking es, .ok es) := by
  simp only [eventsOf, if_pos hmem, execute, hes, afterMaking]

end Simulator

def Simulator.stepActivity (sim : Simulator) (k : Nat) (s : TimedStep) : Activity :=
  ⟨sim.origin, sim.nextActivity + k, some s.step.ground⟩

theorem Simulator.Grows.stepActivity {n : Nat} (h : Grows sim sim' n 1) (k : Nat)
    (s : TimedStep) : sim'.stepActivity k s = sim.stepActivity (k + 1) s := by
  rw [Simulator.stepActivity, h.rules.origin, h.nextActivity, Simulator.stepActivity, Nat.add_assoc,
    Nat.add_comm 1 k]

structure StepsLaid (sim : Simulator) (n : Nat) (steps : List TimedStep) (sim' : Simulator)
    (xs : List Scheduled) : Prop where
  grows : sim.Grows sim' xs.length steps.length
  numbered : Numbered sim.nextEvent (xs.map (·.event))
  ofStep : ∀ x ∈ xs, ∃ k s, steps[k]? = some s ∧ x.turn = .step (n + k) ∧
    x.time = s.start + x.event.offset ∧ x.event.BelongsTo (sim.stepActivity k s)
  eachStep : ∀ k s, steps[k]? = some s → ∃ c es, c.epsilon = sim.epsilon ∧
    s.step.ground.action.events c (sim.stepActivity k s) s.duration = .ok es ∧
    ∀ e ∈ es, ⟨e, s.start + e.offset, .step (n + k)⟩ ∈ xs
  run : ∀ {log st}, Run sim log st → Run sim' log st

theorem stepEvents_cons {n : Nat} {s : TimedStep} {rest : List TimedStep} {xs : List Scheduled}
    (h : stepEvents sim n (s :: rest) = (sim', .ok xs)) : ∃ next es others,
      sim.eventsOf s.step.ground s.duration = (next, .ok es) ∧
      stepEvents next (n + 1) rest = (sim', .ok others) ∧
      xs = es.map (fun e => ⟨e, s.start + e.offset, .step n⟩) ++ others := by
  simp only [stepEvents] at h
  split at h
  · simp at h
  · rename_i next es he
    split at h
    · simp at h
    · rename_i last others ho
      simp only [Prod.mk.injEq, Except.ok.injEq] at h
      obtain ⟨rfl, rfl⟩ := h
      exact ⟨next, es, others, he, ho, rfl⟩

theorem stepEvents_of_events {n : Nat} {s : TimedStep} {rest : List TimedStep}
    {xs : List Scheduled} (hmem : s.step.ground.action ∈ sim.problem.actions)
    (hes : s.step.ground.action.events sim.clock
      ⟨sim.origin, sim.nextActivity, some s.step.ground⟩ s.duration = .ok es)
    (hrest : stepEvents (sim.afterMaking es) (n + 1) rest = (sim', .ok xs)) :
    stepEvents sim n (s :: rest) =
      (sim', .ok (es.map (fun e => ⟨e, s.start + e.offset, .step n⟩) ++ xs)) := by
  simp only [stepEvents, Simulator.eventsOf_of_events hmem hes, hrest]

theorem laid_stepEvents {n : Nat} {steps : List TimedStep} {xs : List Scheduled}
    (h : stepEvents sim n steps = (sim', .ok xs)) : StepsLaid sim n steps sim' xs := by
  induction steps generalizing sim n xs with
  | nil =>
      simp only [stepEvents, Prod.mk.injEq, Except.ok.injEq] at h
      obtain ⟨rfl, rfl⟩ := h
      exact ⟨⟨.refl _, rfl, rfl, rfl⟩, .nil _, by simp, by simp, id⟩
  | cons s rest ih =>
      obtain ⟨next, es, others, he, ho, rfl⟩ := stepEvents_cons h
      obtain ⟨hes, hgrows⟩ := Simulator.eventsOf_ok he
      have hrest := ih ho
      let mine (e : Event) : Scheduled := ⟨e, s.start + e.offset, .step n⟩
      have hmap : (es.map mine).map (·.event) = es := by simp [mine, Function.comp_def]
      refine ⟨?_, ?_, fun x hx => ?_, fun k s' hk => ?_, fun hrun => ?_⟩
      · have hall := hgrows.trans hrest.grows
        rw [Nat.add_comm 1] at hall
        simpa using hall
      · have hothers := hrest.numbered
        rw [hgrows.nextEvent] at hothers
        rw [List.map_append, hmap]
        exact (Action.numbered_events hes).append hothers
      · rcases List.mem_append.mp hx with hx | hx
        · obtain ⟨e, he, rfl⟩ := List.mem_map.mp hx
          exact ⟨0, s, rfl, rfl, rfl, Action.belongs_events hes he⟩
        · obtain ⟨k, s', hk, hturn, htime, hbelongs⟩ := hrest.ofStep x hx
          refine ⟨k + 1, s', hk, ?_, htime, hgrows.stepActivity k s' ▸ hbelongs⟩
          rw [hturn, Nat.add_right_comm, Nat.add_assoc]
      · cases k with
        | zero =>
            obtain rfl : s = s' := by simpa using hk
            exact ⟨sim.clock, es, rfl, hes, fun e he =>
              List.mem_append_left _ (List.mem_map_of_mem (f := mine) he)⟩
        | succ k =>
            obtain ⟨c, es', hc, hes', hmem⟩ := hrest.eachStep k s' hk
            refine ⟨c, es', hc.trans hgrows.rules.epsilon, hgrows.stepActivity k s' ▸ hes',
              fun e he => List.mem_append_right _ ?_⟩
            have hturn : n + (k + 1) = n + 1 + k := by omega
            rw [hturn]
            exact hmem e he
      · refine hrest.run ?_
        have hnext : next = (sim.eventsOf s.step.ground s.duration).1 := by rw [he]
        rw [hnext]
        exact .request _ _ hrun

section Timed

structure TimedLaid (sim : Simulator) (ts : List TimedActivity) : Prop where
  numbered : Numbered sim.nextEvent (ts.flatMap TimedActivity.events)
  belongs : ∀ e ∈ ts.flatMap TimedActivity.events, ∃ activity,
    e.BelongsTo activity ∧ sim.nextActivity ≤ activity.id

theorem exists_executeTimed (sim : Simulator) (byTime : List (Rat × List Effect)) :
    ∃ last ts, sim.executeTimed byTime = (last, .ok ts) := by
  induction byTime generalizing sim with
  | nil => exact ⟨sim, [], rfl⟩
  | cons x rest ih =>
      obtain ⟨next, es, he⟩ : ∃ next es,
          sim.execute (Simulator.timedGround x.1 x.2) none = (next, .ok es) := ⟨_, _, rfl⟩
      obtain ⟨last, ts, hrest⟩ := ih next
      exact ⟨last, ⟨x.1, es⟩ :: ts, by simp only [Simulator.executeTimed, he, hrest]⟩

theorem executeTimed_cons {time : Rat} {effects : List Effect} {rest : List (Rat × List Effect)}
    {ts : List TimedActivity} (h : sim.executeTimed ((time, effects) :: rest) = (sim', .ok ts)) :
    ∃ next es others, sim.execute (Simulator.timedGround time effects) none = (next, .ok es) ∧
      next.executeTimed rest = (sim', .ok others) ∧ ts = ⟨time, es⟩ :: others := by
  simp only [Simulator.executeTimed] at h
  split at h
  · simp at h
  · rename_i next es he
    split at h
    · simp at h
    · rename_i last others ho
      simp only [Prod.mk.injEq, Except.ok.injEq] at h
      obtain ⟨rfl, rfl⟩ := h
      exact ⟨next, es, others, he, ho, rfl⟩

theorem laid_executeTimed {byTime : List (Rat × List Effect)} {ts : List TimedActivity}
    (h : sim.executeTimed byTime = (sim', .ok ts)) : TimedLaid sim ts := by
  induction byTime generalizing sim ts with
  | nil =>
      simp only [Simulator.executeTimed, Prod.mk.injEq, Except.ok.injEq] at h
      obtain ⟨-, rfl⟩ := h
      exact ⟨.nil _, by simp⟩
  | cons x rest ih =>
      obtain ⟨next, es, others, he, ho, rfl⟩ := executeTimed_cons h
      obtain ⟨hes, hgrows⟩ := Simulator.execute_ok he
      have hrest := ih ho
      have hcons : (⟨x.1, es⟩ :: others : List TimedActivity).flatMap TimedActivity.events =
          es ++ others.flatMap TimedActivity.events := List.flatMap_cons
      refine ⟨?_, fun e hmem => ?_⟩ <;> rw [hcons] at *
      · have hothers := hrest.numbered
        rw [hgrows.nextEvent] at hothers
        exact (Action.numbered_events hes).append hothers
      · rcases List.mem_append.mp hmem with hmem | hmem
        · exact ⟨_, Action.belongs_events hes hmem, le_refl _⟩
        · obtain ⟨activity, hbelongs, hle⟩ := hrest.belongs e hmem
          rw [hgrows.nextActivity] at hle
          exact ⟨activity, hbelongs, (Nat.le_add_right _ _).trans hle⟩

theorem timedActivities_ok {ts : List TimedActivity} (hnone : sim.timed = none)
    (h : sim.timedActivities = (sim', .ok ts)) : ∃ m next,
      Simulator.effectsByTime sim.problem.timedEffects .empty = .ok m ∧
      sim.executeTimed (m.entries.mergeSort fun a b => a.1 ≤ b.1) = (next, .ok ts) ∧
      sim' = { next with timed := some ts } := by
  unfold Simulator.timedActivities at h
  rw [hnone] at h
  dsimp only at h
  split at h
  · simp at h
  · rename_i m hm
    split at h
    · simp at h
    · rename_i next ts' he
      simp only [Prod.mk.injEq, Except.ok.injEq] at h
      obtain ⟨rfl, rfl⟩ := h
      exact ⟨m, next, hm, he, rfl⟩

theorem laid_timedActivities {ts : List TimedActivity} (hnone : sim.timed = none)
    (h : sim.timedActivities = (sim', .ok ts)) : TimedLaid sim ts := by
  obtain ⟨m, next, -, he, -⟩ := timedActivities_ok hnone h
  exact laid_executeTimed he

end Timed

section Whole

structure LaidOut (sim : Simulator) (steps : List TimedStep) (sched : Schedule) : Prop where
  rules : SameRules sim sched.sim
  run : Run sched.sim [] sched.sim.initialState
  firstActivity : sim.nextActivity = 1
  sorted : sched.events.Pairwise fun a b => a.notAfter b = true
  numbered : Numbered 2 (sched.events.map (·.event))
  ofStep : ∀ x ∈ sched.events, ∀ k, x.turn = .step k → ∃ s, steps[k]? = some s ∧
    x.time = s.start + x.event.offset ∧ x.event.BelongsTo (sim.stepActivity k s)
  own : ∀ x ∈ sched.events, ∀ k s, steps[k]? = some s →
    x.event.activity.id = (sim.stepActivity k s).id → x.turn = .step k
  ofPlan : ∀ x ∈ sched.events, x.event.activity.id = 0 → x.event.Observes (.plan sim.origin)
  fromStart : ∀ x ∈ sched.events, x.event.activity.id ≠ 0 → x.event.fromEnd = false
  eachStep : ∀ k s, steps[k]? = some s → ∃ c es, c.epsilon = sim.epsilon ∧
    s.step.ground.action.events c (sim.stepActivity k s) s.duration = .ok es ∧
    ∀ e ∈ es, ⟨e, s.start + e.offset, .step k⟩ ∈ sched.events

theorem Simulator.SameRules.initialState (h : SameRules sim sim') :
    sim'.initialState = sim.initialState := by
  have hplace : sim'.placeGoalEvent = sim.placeGoalEvent := by
    funext net e
    rw [Simulator.placeGoalEvent, h.planStart, h.planEnd, Simulator.placeGoalEvent]
  have horder : sim'.orderGoalEvent = sim.orderGoalEvent := by
    funext net e
    cases e with
    | endCondition p i => rw [Simulator.orderGoalEvent, h.goalEvents, Simulator.orderGoalEvent]
    | startAction => rfl
    | startCondition => rfl
    | endAction => rfl
  simp only [Simulator.initialState, Simulator.initialNetwork, h.planStart, h.planEnd,
    h.goalEvents, h.problem, h.origin, hplace, horder]

def Schedule.goal (sched : Schedule) (e : Event) : Scheduled :=
  ⟨e, if e.fromEnd then sched.makespan - e.offset else e.offset, .goal⟩

theorem ofSteps_ok {steps : List TimedStep} {sched : Schedule}
    (h : Schedule.ofSteps sim steps = .ok sched) : ∃ next xs ts ys,
      stepEvents sim 0 steps = (next, .ok xs) ∧
      next.timedActivities = (sched.sim, .ok ts) ∧
      ys = ts.flatMap (fun t => t.events.map fun e => ⟨e, t.time + e.offset, .timedEffect⟩) ∧
      sched.makespan = List.foldl Number.larger 0 ((xs ++ ys).map (·.time) ++
        (sched.sim.goalEvents.filter fun e => !e.fromEnd).map Event.offset) ∧
      sched.events = Scheduled.sort (xs ++ ys ++ sched.sim.goalEvents.map sched.goal) := by
  simp only [Schedule.ofSteps, except_bind_ok, except_pure_ok] at h
  obtain ⟨xs, hx, ts, ht, rfl⟩ := h
  exact ⟨_, xs, ts, _, Prod.ext rfl hx, Prod.ext rfl ht, rfl, rfl, rfl⟩

theorem ofSteps_of_parts {next : Simulator} {steps : List TimedStep} {sched : Schedule}
    {xs ys : List Scheduled} {ts : List TimedActivity}
    (hx : stepEvents sim 0 steps = (next, .ok xs))
    (ht : next.timedActivities = (sched.sim, .ok ts))
    (hys : ys = ts.flatMap fun t => t.events.map fun e => ⟨e, t.time + e.offset, .timedEffect⟩)
    (hspan : sched.makespan = List.foldl Number.larger 0 ((xs ++ ys).map (·.time) ++
      (sched.sim.goalEvents.filter fun e => !e.fromEnd).map Event.offset))
    (hevents : sched.events = Scheduled.sort (xs ++ ys ++ sched.sim.goalEvents.map sched.goal)) :
    Schedule.ofSteps sim steps = .ok sched := by
  obtain ⟨last, events, makespan⟩ := sched
  dsimp only at ht hspan hevents
  rw [Schedule.ofSteps, hx]
  dsimp only
  rw [ht, hevents, hspan, hys]
  rfl

theorem ofSteps_eq {next last : Simulator} {steps : List TimedStep} {xs : List Scheduled}
    {ts : List TimedActivity} (hx : stepEvents sim 0 steps = (next, .ok xs))
    (ht : next.timedActivities = (last, .ok ts)) (hgoals : last.goalEvents = [])
    {ys : List Scheduled} (hys : ys = ts.flatMap fun t =>
      t.events.map fun e => ⟨e, t.time + e.offset, .timedEffect⟩) : Schedule.ofSteps sim steps =
      .ok ⟨last, Scheduled.sort (xs ++ ys), ((xs ++ ys).map (·.time)).foldl Number.larger 0⟩ :=
  ofSteps_of_parts hx ht hys (by simp [hgoals]) (by simp [hgoals])

theorem timedActivities_nil (htimed : sim.timed = none) (heffects : sim.problem.timedEffects = []) :
    sim.timedActivities = ({ sim with timed := some [] }, .ok []) := by
  have hentries : (OrderedMap.empty : OrderedMap Rat (List Effect)).entries = [] := rfl
  simp only [Simulator.timedActivities, htimed, heffects, Simulator.effectsByTime, hentries,
    List.mergeSort_nil, Simulator.executeTimed]

/-- The schedule of steps with these events, where nothing else happens. -/
def Schedule.ofStepEvents (next : Simulator) (xs : List Scheduled) : Schedule where
  sim := { next with timed := some [] }
  events := xs
  makespan := (xs.map (·.time)).foldl Number.larger 0

theorem ofSteps_of_perm_sorted {next : Simulator} {steps : List TimedStep} {xs ys : List Scheduled}
    (hx : stepEvents sim 0 steps = (next, .ok xs)) (htimed : next.timed = none)
    (heffects : next.problem.timedEffects = []) (hgoals : next.goalEvents = [])
    (hperm : xs.Perm ys) (hsorted : ys.Pairwise fun a b => a.notAfter b = true) :
    Schedule.ofSteps sim steps = .ok { Schedule.ofStepEvents next xs with events := ys } := by
  have hids : (ys.map fun x => x.event.id).Nodup := by
    have hnodup := (laid_stepEvents hx).numbered.nodup
    rw [List.map_map] at hnodup
    exact (hperm.map _).nodup hnodup
  have hsort : Scheduled.sort xs = ys :=
    Scheduled.eq_of_sorted ((List.mergeSort_perm _ _).trans hperm) hids (Scheduled.sorted_sort _)
      hsorted
  rw [ofSteps_eq hx (timedActivities_nil htimed heffects) hgoals rfl, List.flatMap_nil,
    List.append_nil, hsort, Schedule.ofStepEvents]

theorem ofSteps_of_sorted {next : Simulator} {steps : List TimedStep} {xs : List Scheduled}
    (hx : stepEvents sim 0 steps = (next, .ok xs)) (htimed : next.timed = none)
    (heffects : next.problem.timedEffects = []) (hgoals : next.goalEvents = [])
    (hsorted : xs.Pairwise fun a b => a.notAfter b = true) :
    Schedule.ofSteps sim steps = .ok (.ofStepEvents next xs) :=
  ofSteps_of_perm_sorted hx htimed heffects hgoals .rfl hsorted

theorem ofSteps_of_events {s : TimedStep} (hmem : s.step.ground.action ∈ sim.problem.actions)
    (hes : s.step.ground.action.events sim.clock
      ⟨sim.origin, sim.nextActivity, some s.step.ground⟩ s.duration = .ok es)
    (htimed : sim.timed = none) (heffects : sim.problem.timedEffects = [])
    (hgoals : sim.goalEvents = [])
    (hsorted : (es.map fun e => (⟨e, s.start + e.offset, .step 0⟩ : Scheduled)).Pairwise
      fun a b => a.notAfter b = true) :
    Schedule.ofSteps sim [s] = .ok (.ofStepEvents (sim.afterMaking es)
      (es.map fun e => ⟨e, s.start + e.offset, .step 0⟩)) := by
  have hx : stepEvents sim 0 [s] = (sim.afterMaking es,
      .ok (es.map (fun e => ⟨e, s.start + e.offset, .step 0⟩) ++ [])) :=
    stepEvents_of_events hmem hes rfl
  rw [List.append_nil] at hx
  exact ofSteps_of_sorted hx htimed heffects hgoals hsorted

def stepped (sim : Simulator) (steps : List TimedStep) : List Scheduled :=
  (stepEvents sim 0 steps).2.toOption.getD []

def pick (xs : List Scheduled) (places : List Nat) : List Scheduled := places.filterMap (xs[·]?)

theorem perm_pick {xs : List Scheduled} {places : List Nat}
    (h : places.Perm (List.range xs.length)) : xs.Perm (pick xs places) := by
  have hall (ys : List Scheduled) : (List.range ys.length).filterMap (ys[·]?) = ys := by
    induction ys with
    | nil => rfl
    | cons y ys ih =>
        rw [List.length_cons, List.range_succ_eq_map, List.filterMap_cons, List.filterMap_map]
        simpa [Function.comp_def] using ih
  have hperm := h.filterMap (xs[·]?)
  rw [hall] at hperm
  exact hperm.symm

theorem Simulator.new_ok {origin : Nat} {problem : Problem} {epsilon : Rat}
    {provider : Option EffectProvider} {component : String}
    (h : Simulator.new origin problem epsilon provider component = .ok sim) :
    sim.timed = none ∧ sim.nextActivity = 1 ∧ sim.nextEvent = 2 + sim.goalEvents.length ∧
      ∀ e ∈ sim.goalEvents, e.Observes (.plan sim.origin) := by
  obtain ⟨goals, hgoals, rfl⟩ := Simulator.new_iff.mp h
  exact ⟨rfl, rfl, rfl, observes_goalsEvents hgoals⟩

theorem Simulator.epsilon_new {origin : Nat} {problem : Problem} {epsilon : Rat}
    {provider : Option EffectProvider} {component : String}
    (h : Simulator.new origin problem epsilon provider component = .ok sim) :
    sim.epsilon = epsilon := by
  obtain ⟨goals, -, rfl⟩ := Simulator.new_iff.mp h
  rfl

theorem Simulator.provider_new {origin : Nat} {problem : Problem} {epsilon : Rat}
    {provider : Option EffectProvider} {component : String}
    (h : Simulator.new origin problem epsilon provider component = .ok sim) :
    sim.provider = provider := by
  obtain ⟨goals, -, rfl⟩ := Simulator.new_iff.mp h
  rfl

inductive Scheduled.Source (sim : Simulator) (steps : List TimedStep) (x : Scheduled) : Prop
  | ofStep {k : Nat} {s : TimedStep} (step : steps[k]? = some s) (turn : x.turn = .step k)
      (time : x.time = s.start + x.event.offset)
      (belongs : x.event.BelongsTo (sim.stepActivity k s))
  | ofEffects (turn : x.turn = .timedEffect) (fromEnd : x.event.fromEnd = false)
      (later : sim.nextActivity + steps.length ≤ x.event.activity.id)
  | ofGoal (turn : x.turn = .goal) (observes : x.event.Observes (.plan sim.origin))

section Source

variable {steps : List TimedStep} {x : Scheduled} {k : Nat} {s : TimedStep}

namespace Scheduled.Source

theorem of_turn (h : x.Source sim steps) (hk : x.turn = .step k) : ∃ s, steps[k]? = some s ∧
    x.time = s.start + x.event.offset ∧ x.event.BelongsTo (sim.stepActivity k s) := by
  cases h with
  | ofStep hs hturn htime hbelongs =>
      obtain rfl := Turn.step.inj (hturn.symm.trans hk)
      exact ⟨_, hs, htime, hbelongs⟩
  | ofEffects hturn => simp [hturn] at hk
  | ofGoal hturn => simp [hturn] at hk

theorem turn_of_activity (h : x.Source sim steps) (hfirst : sim.nextActivity = 1)
    (hs : steps[k]? = some s) (hid : x.event.activity.id = (sim.stepActivity k s).id) :
    x.turn = .step k := by
  have hid : x.event.activity.id = sim.nextActivity + k := hid
  cases h with
  | @ofStep k' s' _ hturn _ hbelongs =>
      have hid' : x.event.activity.id = sim.nextActivity + k' := congrArg (·.id) hbelongs.activity
      obtain rfl : k' = k := by omega
      exact hturn
  | ofEffects _ _ hlater =>
      have hlt := (List.getElem?_eq_some_iff.mp hs).1
      omega
  | ofGoal _ hobserves =>
      have hid' : x.event.activity.id = 0 := congrArg (·.id) hobserves.activity
      omega

theorem observes_of_plan (h : x.Source sim steps) (hfirst : sim.nextActivity = 1)
    (hid : x.event.activity.id = 0) : x.event.Observes (.plan sim.origin) := by
  cases h with
  | @ofStep k' s' _ _ _ hbelongs =>
      have hid' : x.event.activity.id = sim.nextActivity + k' := congrArg (·.id) hbelongs.activity
      omega
  | ofEffects _ _ hlater => omega
  | ofGoal _ hobserves => exact hobserves

theorem fromStart (h : x.Source sim steps) (hid : x.event.activity.id ≠ 0) :
    x.event.fromEnd = false := by
  cases h with
  | ofStep _ _ _ hbelongs => exact hbelongs.fromEnd
  | ofEffects _ hfrom => exact hfrom
  | ofGoal _ hobserves => exact absurd (congrArg (·.id) hobserves.activity) hid

end Scheduled.Source

structure Parts (sim next : Simulator) (steps : List TimedStep) (sched : Schedule)
    (ts : List TimedActivity) (xs ys zs : List Scheduled) : Prop where
  ofSteps : StepsLaid sim 0 steps next xs
  ofEffects : TimedLaid next ts
  effects : ys = ts.flatMap fun t => t.events.map fun e => ⟨e, t.time + e.offset, .timedEffect⟩
  goals : zs.map Scheduled.event = sim.goalEvents
  goal : ∀ z ∈ zs, z.turn = .goal
  events : sched.events = Scheduled.sort (xs ++ ys ++ zs)

namespace Parts

variable {next : Simulator} {sched : Schedule} {ts : List TimedActivity} {xs ys zs : List Scheduled}

theorem perm (h : Parts sim next steps sched ts xs ys zs) :
    sched.events.Perm (xs ++ ys ++ zs) := h.events ▸ List.mergeSort_perm _ _

theorem map_effects (h : Parts sim next steps sched ts xs ys zs) :
    ys.map (·.event) = ts.flatMap TimedActivity.events := by
  simp [h.effects, List.map_flatMap, Function.comp_def]

theorem source (h : Parts sim next steps sched ts xs ys zs)
    (hplan : ∀ e ∈ sim.goalEvents, e.Observes (.plan sim.origin)) :
    ∀ x ∈ sched.events, x.Source sim steps := by
  intro x hx
  rcases List.mem_append.mp (h.perm.mem_iff.mp hx) with hx | hx
  · rcases List.mem_append.mp hx with hx | hx
    · obtain ⟨k, s, hs, hturn, htime, hbelongs⟩ := h.ofSteps.ofStep x hx
      rw [Nat.zero_add] at hturn
      exact .ofStep hs hturn htime hbelongs
    · have hmem : x.event ∈ ts.flatMap TimedActivity.events :=
        h.map_effects ▸ List.mem_map_of_mem (f := Scheduled.event) hx
      obtain ⟨activity, hbelongs, hle⟩ := h.ofEffects.belongs _ hmem
      rw [h.ofSteps.grows.nextActivity, ← hbelongs.activity] at hle
      rw [h.effects] at hx
      obtain ⟨t, -, hx⟩ := List.mem_flatMap.mp hx
      obtain ⟨e, -, rfl⟩ := List.mem_map.mp hx
      exact .ofEffects rfl hbelongs.fromEnd hle
  · refine .ofGoal (h.goal x hx) (hplan _ ?_)
    rw [← h.goals]
    exact List.mem_map_of_mem (f := Scheduled.event) hx

theorem numbered (h : Parts sim next steps sched ts xs ys zs)
    (hfirst : sim.nextEvent = 2 + sim.goalEvents.length) (hgoals : Numbered 2 sim.goalEvents) :
    Numbered 2 (sched.events.map (·.event)) := by
  have hmine : Numbered (2 + sim.goalEvents.length) (xs.map (·.event)) :=
    hfirst ▸ h.ofSteps.numbered
  have htheirs := h.ofEffects.numbered
  rw [h.ofSteps.grows.nextEvent, hfirst, ← h.map_effects,
    ← List.length_map (f := Scheduled.event)] at htheirs
  have hall : Numbered 2 ((zs ++ (xs ++ ys)).map (·.event)) := by
    rw [List.map_append, List.map_append]
    refine Numbered.append (h.goals ▸ hgoals) ?_
    rw [h.goals]
    exact hmine.append htheirs
  exact hall.of_perm ((List.perm_append_comm.trans h.perm.symm).map _)

end Parts

end Source

theorem laid_ofSteps {origin : Nat} {problem : Problem} {epsilon : Rat}
    {provider : Option EffectProvider} {component : String}
    (hnew : Simulator.new origin problem epsilon provider component = .ok sim)
    {steps : List TimedStep} {sched : Schedule} (h : Schedule.ofSteps sim steps = .ok sched) :
    LaidOut sim steps sched := by
  obtain ⟨next, xs, ts, ys, hx, ht, hys, -, hevents⟩ := ofSteps_ok h
  obtain ⟨htimed, hactivity, hevent, hplan⟩ := Simulator.new_ok hnew
  have hsteps := laid_stepEvents hx
  have hlast : SameRules next sched.sim := by
    have hrules := SameRules.timedActivities next
    rwa [ht] at hrules
  have hrules : SameRules sim sched.sim := hsteps.grows.rules.trans hlast
  have hrun : Run sched.sim [] sched.sim.initialState := by
    have hsim : sched.sim = next.timedActivities.1 := by rw [ht]
    rw [hrules.initialState, hsim]
    exact .timed (hsteps.run (.initial hnew))
  have hgoals : (sched.sim.goalEvents.map sched.goal).map Scheduled.event = sim.goalEvents := by
    rw [hrules.goalEvents, List.map_map]
    exact List.map_id _
  have hparts : Parts sim next steps sched ts xs ys (sched.sim.goalEvents.map sched.goal) :=
    ⟨hsteps, laid_timedActivities (hsteps.grows.timed.trans htimed) ht, hys, hgoals,
      by simp [Schedule.goal], hevents⟩
  have hsource := hparts.source hplan
  refine ⟨hrules, hrun, hactivity, ?_, hparts.numbered hevent (Simulator.numbered_new hnew),
    fun x hx k => (hsource x hx).of_turn, fun x hx k s => (hsource x hx).turn_of_activity hactivity,
    fun x hx => (hsource x hx).observes_of_plan hactivity,
    fun x hx => (hsource x hx).fromStart, fun k s hs => ?_⟩
  · rw [hevents]
    exact Scheduled.sorted_sort _
  · obtain ⟨c, es, hc, hes, hmem⟩ := hsteps.eachStep k s hs
    refine ⟨c, es, hc, hes, fun e he => hparts.perm.mem_iff.mpr ?_⟩
    have hxs := hmem e he
    rw [Nat.zero_add] at hxs
    exact List.mem_append_left _ (List.mem_append_left _ hxs)

end Whole

end TemporalPlanning
