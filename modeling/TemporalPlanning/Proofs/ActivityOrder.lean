import TemporalPlanning.Proofs.KnownEvents
import TemporalPlanning.Proofs.ScheduledTimes

namespace TemporalPlanning

open Simulator (SameRules)

variable {sim sim' : Simulator} {steps : List TimedStep} {xs : List Scheduled} {s : TimedStep}
  {k : Nat}

section Ends

variable {c : Clock} {activity : Activity} {duration : Option Rat} {a : Action} {e : Event}
  {es : List Event}

theorem kind_innerEvents {n : Nat} {spans : List (Span × SpanContent)}
    (he : e ∈ Timeline.innerEvents c activity n spans) :
    e.kind ≠ .startAction ∧ e.kind ≠ .endAction := by
  obtain ⟨m, s, x, -, he, -⟩ := mem_innerEvents he
  have hi := inner_of_spanEvents he
  constructor
  · intro hkind
    simp [Simulator.interval_none (.inl hkind)] at hi
  · intro hkind
    simp [Simulator.interval_none (.inr hkind)] at hi

theorem filter_innerEvents {n : Nat} {spans : List (Span × SpanContent)} {kind : EventKind}
    (hkind : kind = .startAction ∨ kind = .endAction) :
    (Timeline.innerEvents c activity n spans).filter (fun e => e.kind = kind) = [] := by
  refine List.filter_eq_nil_iff.mpr fun e he => ?_
  rcases hkind with rfl | rfl
  · simpa using (kind_innerEvents he).1
  · simpa using (kind_innerEvents he).2

theorem Action.duration_of_instantaneous {i : InstantaneousAction}
    (h : Action.events c activity duration (.instantaneous i) = .ok es) :
    duration.getD 0 = 0 := by
  cases duration with
  | none => rfl
  | some d =>
      simp only [Action.events] at h
      split at h
      · assumption
      · simp at h

theorem Action.ends_events (h : a.events c activity duration = .ok es) :
    (es.filter fun e => e.kind = .startAction).map Event.offset = [0] ∧
      (es.filter fun e => e.kind = .endAction).map Event.offset = [duration.getD 0] := by
  rcases Action.events_ok h with ⟨i, rfl, rfl⟩ | ⟨b, d, t, rfl, rfl, ht, rfl⟩
  · rw [Action.duration_of_instantaneous h]
    exact ⟨rfl, rfl⟩
  · have hends {kind : EventKind} (hkind : kind = .startAction ∨ kind = .endAction) (f : Event) :
        (Event.sort (Timeline.innerEvents c activity 1 t.spans.entries ++ [f])).filter
          (fun e => e.kind = kind) = if f.kind = kind then [f] else [] := by
      have hperm := (List.mergeSort_perm (Timeline.innerEvents c activity 1 t.spans.entries ++ [f])
        fun a b => decide (Event.compare a b ≤ 0)).filter (fun e => e.kind = kind)
      rw [List.filter_append, filter_innerEvents hkind, List.nil_append] at hperm
      split
      · rename_i hf
        rw [List.filter_cons_of_pos (by simpa using hf)] at hperm
        exact List.perm_singleton.mp hperm
      · rename_i hf
        rw [List.filter_cons_of_neg (by simpa using hf)] at hperm
        exact List.perm_nil.mp hperm
    constructor
    · rw [Timeline.events, List.filter_cons_of_pos (by simp [Event.kind]), hends (.inl rfl)]
      rfl
    · rw [Timeline.events, List.filter_cons_of_neg (by simp [Event.kind]), hends (.inr rfl)]
      rfl

end Ends

section Steps

def TimedStep.place (s : TimedStep) (k : Nat) (e : Event) : Scheduled :=
  ⟨e, s.start + e.offset, .step k⟩

theorem own_stepEvents {n : Nat} (h : stepEvents sim n steps = (sim', .ok xs))
    (hs : steps[k]? = some s) : ∃ c es, c.epsilon = sim.epsilon ∧
      s.step.ground.action.events c (sim.stepActivity k s) s.duration = .ok es ∧
      xs.filter (fun x => x.turn = .step (n + k)) = es.map (s.place (n + k)) := by
  induction steps generalizing sim n k xs with
  | nil => simp at hs
  | cons s' rest ih =>
      obtain ⟨next, es, others, he, ho, rfl⟩ := stepEvents_cons h
      obtain ⟨hes, hgrows⟩ := Simulator.eventsOf_ok he
      rw [List.filter_append]
      cases k with
      | zero =>
          obtain rfl : s' = s := by simpa using hs
          refine ⟨sim.clock, es, rfl, hes, ?_⟩
          have hothers : others.filter (fun x => x.turn = .step (n + 0)) = [] := by
            refine List.filter_eq_nil_iff.mpr fun x hx => ?_
            obtain ⟨k, _, -, hturn, -⟩ := (laid_stepEvents ho).ofStep x hx
            rw [hturn]
            simp
            omega
          rw [hothers, List.append_nil, List.filter_eq_self.mpr]
          · rfl
          · simp
      | succ k =>
          obtain ⟨c, es', hc, hes', hmine⟩ := ih ho hs
          rw [Nat.add_assoc, Nat.add_comm 1 k] at hmine
          refine ⟨c, es', hc.trans hgrows.rules.epsilon, hgrows.stepActivity k s ▸ hes', ?_⟩
          rw [hmine, List.filter_eq_nil_iff.mpr]
          · rfl
          · simp

variable {sched : Schedule}

theorem own_ofSteps (h : Schedule.ofSteps sim steps = .ok sched) (hs : steps[k]? = some s) :
    ∃ c es, c.epsilon = sim.epsilon ∧
      s.step.ground.action.events c (sim.stepActivity k s) s.duration = .ok es ∧
      (sched.events.filter fun x => x.turn = .step k).Perm (es.map (s.place k)) := by
  obtain ⟨next, xs, ts, ys, hx, -, hys, -, hevents⟩ := ofSteps_ok h
  obtain ⟨c, es, hc, hes, hmine⟩ := own_stepEvents hx hs
  rw [Nat.zero_add] at hmine
  refine ⟨c, es, hc, hes, ?_⟩
  have hperm : sched.events.Perm (xs ++ ys ++ sched.sim.goalEvents.map sched.goal) :=
    hevents ▸ List.mergeSort_perm _ _
  have hmine' : (xs ++ ys ++ sched.sim.goalEvents.map sched.goal).filter
      (fun x => x.turn = .step k) = es.map (s.place k) := by
    rw [List.filter_append, List.filter_append, hmine, List.append_assoc,
      List.append_right_eq_self, List.append_eq_nil_iff, List.filter_eq_nil_iff,
      List.filter_eq_nil_iff]
    refine ⟨fun y hy => ?_, fun z hz => ?_⟩
    · rw [hys] at hy
      obtain ⟨t, -, hy⟩ := List.mem_flatMap.mp hy
      obtain ⟨e, -, rfl⟩ := List.mem_map.mp hy
      simp
    · obtain ⟨e, -, rfl⟩ := List.mem_map.mp hz
      simp [Schedule.goal]
  exact hmine' ▸ hperm.filter _

theorem times_ofSteps (h : Schedule.ofSteps sim steps = .ok sched) (hs : steps[k]? = some s) :
    (sched.events.filter fun x => x.turn = .step k ∧ x.event.kind = .startAction).map
        Scheduled.time = [s.start] ∧
      (sched.events.filter fun x => x.turn = .step k ∧ x.event.kind = .endAction).map
        Scheduled.time = [s.start + s.duration.getD 0] := by
  obtain ⟨c, es, -, hes, hperm⟩ := own_ofSteps h hs
  obtain ⟨hstart, hend⟩ := Action.ends_events hes
  have htimes (kind : EventKind) : ((sched.events.filter fun x => x.turn = .step k ∧
      x.event.kind = kind).map Scheduled.time).Perm
        (((es.filter fun e => e.kind = kind).map Event.offset).map (s.start + ·)) := by
    have hboth : (sched.events.filter fun x => x.turn = .step k ∧ x.event.kind = kind) =
        (sched.events.filter fun x => x.turn = .step k).filter fun x => x.event.kind = kind := by
      rw [List.filter_filter]
      exact List.filter_congr fun x _ => by simp [Bool.and_comm]
    have hfilter := (hperm.filter fun x => decide (x.event.kind = kind)).map Scheduled.time
    rw [List.filter_map, List.map_map] at hfilter
    rw [hboth, List.map_map]
    exact hfilter
  constructor
  · have hperm := htimes .startAction
    rw [hstart] at hperm
    simpa using hperm
  · have hperm := htimes .endAction
    rw [hend] at hperm
    simpa using hperm

theorem makespan_le {q : Rat} (h : Schedule.ofSteps sim steps = .ok sched) (hε : 0 ≤ sim.epsilon)
    (htimed : sim.timed = none) (heffects : sim.problem.timedEffects = [])
    (hgoals : sim.goalEvents = []) (hq : 0 ≤ q)
    (hsteps : ∀ s ∈ steps, s.start + s.duration.getD 0 ≤ q) : sched.makespan ≤ q := by
  obtain ⟨next, xs, ts, ys, hx, ht, hys, hspan, -⟩ := ofSteps_ok h
  have hlaid := laid_stepEvents hx
  have hnext := timedActivities_nil (hlaid.grows.timed.trans htimed)
    ((congrArg Problem.timedEffects hlaid.grows.rules.problem).trans heffects)
  obtain ⟨hsim, hts⟩ := Prod.mk.inj (hnext.symm.trans ht)
  obtain rfl := Except.ok.inj hts
  have hnone : sched.sim.goalEvents = [] := by
    rw [← hsim]
    exact hlaid.grows.rules.goalEvents.trans hgoals
  rw [hspan, hys, hnone]
  refine Number.foldl_larger_le hq fun q' hq' => ?_
  obtain ⟨x, hxs, rfl⟩ : ∃ x ∈ xs, x.time = q' := by simpa using hq'
  obtain ⟨k, s, hk, hturn, -⟩ := hlaid.ofStep x hxs
  obtain ⟨c, es, hc, hes, hmine⟩ := own_stepEvents hx hk
  have hmem : x ∈ es.map (s.place (0 + k)) := by
    rw [← hmine]
    exact List.mem_filter.mpr ⟨hxs, decide_eq_true hturn⟩
  obtain ⟨e, he, rfl⟩ := List.mem_map.mp hmem
  have hle := ((Action.unfolds hes (hc ▸ hε)).offset_within he).2
  have hstep := hsteps s (List.mem_of_getElem? hk)
  change s.start + e.offset ≤ q
  linarith

end Steps

end TemporalPlanning
