import TemporalPlanning.Proofs.Separations

namespace TemporalPlanning

open Simulator (Run)

structure Occurrence where
  time : Rat
  turn : Turn
  origin : Nat
  id : Nat
  number : Nat
  ground : GroundAction
  action : InstantaneousAction
  instantaneous : ground.action = .instantaneous action

namespace Occurrence

def activity (o : Occurrence) : Activity := ⟨o.origin, o.id, some o.ground⟩

def finish (o : Occurrence) : Event :=
  .endAction ⟨o.number + 1, o.activity, 0, false, o.activity.label ++ "." ++ "end"⟩ .empty

def start (o : Occurrence) : Event :=
  .startAction ⟨o.number, o.activity, 0, false, o.activity.label ++ "." ++ "start"⟩
    ⟨o.action.preconditions, o.action.effects, o.action.simulated⟩ 0 [o.finish]

def starting (o : Occurrence) : Scheduled := ⟨o.start, o.time, o.turn⟩

def finishing (o : Occurrence) : Scheduled := ⟨o.finish, o.time, o.turn⟩

def events (o : Occurrence) : List Scheduled := [o.starting, o.finishing]

end Occurrence

section Events

variable {sim sim' : Simulator} {g : GroundAction} {es : List Event} {duration : Option Rat}
  {n : Nat} {steps : List TimedStep} {xs : List Scheduled}

theorem exists_occurrence {a : InstantaneousAction} (ha : g.action = .instantaneous a)
    (h : g.action.events sim.clock ⟨sim.origin, sim.nextActivity, some g⟩ duration = .ok es)
    (time : Rat) (turn : Turn) : ∃ o : Occurrence,
      es.map (fun e => ⟨e, time + e.offset, turn⟩) = o.events ∧ o.time = time ∧ o.turn = turn ∧
      o.ground = g ∧ o.id = sim.nextActivity ∧ o.origin = sim.origin := by
  rw [ha] at h
  rcases Action.events_ok h with ⟨i, hi, rfl⟩ | ⟨b, d, t, hb, -⟩
  · obtain rfl : a = i := by simpa using hi
    refine ⟨⟨time, turn, sim.origin, sim.nextActivity, sim.nextEvent, g, a, ha⟩, ?_, rfl, rfl, rfl,
      rfl, rfl⟩
    simp [InstantaneousAction.events, Occurrence.events, Occurrence.starting,
      Occurrence.finishing, Occurrence.start, Occurrence.finish, Occurrence.activity, Clock.place,
      Event.offset, Event.place, Simulator.clock]
  · simp at hb

theorem stepEvents_occurrences (h : stepEvents sim n steps = (sim', .ok xs))
    (hinst : ∀ s ∈ steps, s.step.action.isDurative = false) : ∃ os : List Occurrence,
      xs = os.flatMap Occurrence.events ∧
      List.Forall₂ (fun s o => o.time = s.start ∧ o.ground = s.step.ground) steps os ∧
      os.map Occurrence.id = List.range' sim.nextActivity steps.length ∧
      ∀ o ∈ os, o.origin = sim.origin ∧ .instantaneous o.action ∈ sim.problem.actions := by
  induction steps generalizing sim n xs with
  | nil =>
      simp only [stepEvents, Prod.mk.injEq, Except.ok.injEq] at h
      exact ⟨[], h.2.symm, .nil, rfl, by simp⟩
  | cons s rest ih =>
      obtain ⟨next, es, others, he, ho, rfl⟩ := stepEvents_cons h
      obtain ⟨hs, hrest⟩ := List.forall_mem_cons.mp hinst
      obtain ⟨hes, hgrows⟩ := Simulator.eventsOf_ok he
      obtain ⟨a, ha⟩ : ∃ a, s.step.ground.action = .instantaneous a := by
        have hs : s.step.ground.action.isDurative = false := hs
        cases haction : s.step.ground.action with
        | instantaneous a => exact ⟨a, rfl⟩
        | durative a => simp [haction, Action.isDurative] at hs
      have hmem : s.step.ground.action ∈ sim.problem.actions := by
        by_contra hnot
        simp [Simulator.eventsOf, hnot] at he
      obtain ⟨o, hevents, htime, -, hground, hid, horigin⟩ :=
        exists_occurrence ha hes s.start (.step n)
      obtain ⟨os, rfl, hos, hids, hall⟩ := ih ho hrest
      have haction : .instantaneous o.action = s.step.ground.action := by
        rw [← hground, o.instantaneous]
      refine ⟨o :: os, by rw [hevents, List.flatMap_cons], .cons ⟨htime, hground⟩ hos, ?_,
        List.forall_mem_cons.mpr ⟨⟨horigin, haction ▸ hmem⟩, ?_⟩⟩
      · rw [List.map_cons, hids, hid, hgrows.nextActivity, List.length_cons, List.range'_succ]
      · rwa [hgrows.rules.origin, hgrows.rules.problem] at hall

theorem executeTimed_occurrences {byTime : List (Rat × List Effect)} {ts : List TimedActivity}
    (h : sim.executeTimed byTime = (sim', .ok ts)) : ∃ os : List Occurrence,
      ts.flatMap (fun t => t.events.map fun e => ⟨e, t.time + e.offset, .timedEffect⟩) =
        os.flatMap Occurrence.events ∧
      os.map Occurrence.id = List.range' sim.nextActivity byTime.length ∧
      ∀ o ∈ os, o.origin = sim.origin ∧ o.action.simulated = none := by
  induction byTime generalizing sim ts with
  | nil =>
      simp only [Simulator.executeTimed, Prod.mk.injEq, Except.ok.injEq] at h
      exact ⟨[], h.2 ▸ rfl, rfl, by simp⟩
  | cons x rest ih =>
      obtain ⟨next, es, others, he, ho, rfl⟩ := executeTimed_cons h
      obtain ⟨hes, hgrows⟩ := Simulator.execute_ok he
      obtain ⟨o, hevents, -, -, hground, hid, horigin⟩ :=
        exists_occurrence rfl hes x.1 .timedEffect
      obtain ⟨os, hothers, hids, hall⟩ := ih ho
      have haction := o.instantaneous
      rw [hground] at haction
      refine ⟨o :: os, by rw [List.flatMap_cons, hevents, hothers, List.flatMap_cons], ?_,
        List.forall_mem_cons.mpr ⟨⟨horigin, ?_⟩, ?_⟩⟩
      · rw [List.map_cons, hids, hid, hgrows.nextActivity, List.length_cons, List.range'_succ]
      · rw [← Action.instantaneous.inj haction]
      · rwa [hgrows.rules.origin] at hall

end Events

structure Footprint where
  reads : List String
  updates : OrderedMap String Value

def InstantaneousAction.Performs (a : InstantaneousAction) (here : Situation) (fp : Footprint) :
    Prop :=
  ∃ reads firing, (Simulator.checkConditions here a.preconditions).Gives reads ∧
    a.effects.foldlM (Firing.fireEffect here) .empty = .ok firing ∧
    firing.conflicts.isEmpty = true ∧ fp = ⟨(reads ++ firing.reads).eraseDups, firing.updates⟩

section Lifecycle

variable {sim : Simulator} {s s' : State} {rest : List Event} {e : Event} {x : Scheduled}
  {o : Occurrence} {id : Nat}

inductive Awaits (id : Nat) (s : State) : List Event → Prop
  | nothing (idle : s.agenda.get? id = none) : Awaits id s []
  | both (o : Occurrence) (activity : o.id = id) (idle : s.agenda.get? id = none)
      (fresh : s.ended.any (·.id = id) = false) : Awaits id s [o.start, o.finish]
  | finish (o : Occurrence) (activity : o.id = id)
      (running : s.agenda.get? id = some ⟨o.activity, [o.finish]⟩) : Awaits id s [o.finish]

theorem Awaits.transport {es : List Event} (h : Awaits id s es)
    (hagenda : s'.agenda.get? id = s.agenda.get? id)
    (hended : s'.ended.any (·.id = id) = s.ended.any (·.id = id)) : Awaits id s' es := by
  cases h with
  | nothing hidle => exact .nothing (hagenda.trans hidle)
  | both o ho hidle hfresh => exact .both o ho (hagenda.trans hidle) (hended.trans hfresh)
  | finish o ho hrunning => exact .finish o ho (hagenda.trans hrunning)

theorem checkLifecycle_start (hid : o.id ≠ 0) (hidle : s.agenda.get? o.id = none)
    (hfresh : s.ended.any (·.id = o.id) = false) :
    (Simulator.checkLifecycle o.start s).Gives () := by
  have hpending : s.pending? o.activity = none := by
    rw [State.pending?, Occurrence.activity, hidle]
    rfl
  have hactivity : o.start.activity = o.activity := rfl
  have hended : s.hasEnded o.activity = false := hfresh
  change (Simulator.checkStart o.start s).Gives ()
  simp [Simulator.checkStart, hactivity, hpending, hended, show o.activity.id ≠ 0 from hid]

theorem checkLifecycle_finish (hid : o.id ≠ 0) (hclosed : s.openConditions = [])
    (hrunning : s.agenda.get? o.id = some ⟨o.activity, [o.finish]⟩) :
    (Simulator.checkLifecycle o.finish s).Gives () := by
  have hpending : s.pending? o.activity = some [o.finish] := by
    rw [State.pending?, Occurrence.activity, hrunning]
    rfl
  have hactivity : o.finish.activity = o.activity := rfl
  refine Attempt.gives_bind.mpr ⟨(), ?_, ?_⟩
  · simp [Simulator.checkNext, hactivity, hpending, show o.activity.id ≠ 0 from hid]
  · simp [Simulator.checkClosed, Occurrence.finish, hclosed]

theorem ofEvent_start (provider : Option EffectProvider) (here : Situation)
    (hplain : o.action.simulated = none) : Firing.ofEvent provider here o.start =
      o.action.effects.foldlM (Firing.fireEffect here) .empty := by
  have heffects : o.start.effects = o.action.effects := rfl
  have hcontinuous : o.start.continuousEffects = [] := rfl
  have hsimulated : o.start.simulated = none := hplain
  simp only [Firing.ofEvent, heffects, hcontinuous, hsimulated, List.foldlM_nil]
  exact (bind_congr fun _ => pure_bind _ _).trans (bind_pure _)

theorem checkDuration_start (o : Occurrence) (here : Situation) :
    Simulator.checkDuration o.start here = pure [] := by
  simp [Simulator.checkDuration, Occurrence.start, Event.activity, Event.place,
    Occurrence.activity, o.instantaneous]

theorem examine_start (horigin : o.origin = sim.origin) (hplain : o.action.simulated = none)
    (hclosed : s.openConditions = []) (hlife : (Simulator.checkLifecycle o.start s).Gives ())
    {w : Valuation} {a : Applied} : (sim.examine o.start s).Gives (w, a) ↔ ∃ fp,
      o.action.Performs (sim.situation s.valuation o.ground.bindings) fp ∧
      w = s.valuation.update fp.updates ∧ a = ⟨o.start, fp.reads, fp.updates.keys⟩ := by
  have hbindings : o.start.activity.bindings = o.ground.bindings := rfl
  have hopening : sim.checkOpening o.start s = pure [] := rfl
  have hafter : Simulator.openAfter o.start s.openConditions = [] := hclosed
  rw [Simulator.examine_gives, hbindings, hafter, hopening, ofEvent_start _ _ hplain,
    checkDuration_start]
  constructor
  · rintro ⟨-, d, reads, q, firing, -, hd, hreads, hq, hfiring, hconflicts, -, rfl, rfl⟩
    obtain rfl := Attempt.gives_pure.mp hd
    obtain rfl := Attempt.gives_pure.mp hq
    exact ⟨_, ⟨reads, firing, hreads, hfiring, hconflicts, rfl⟩, rfl, by simp⟩
  · rintro ⟨fp, ⟨reads, firing, hreads, hfiring, hconflicts, rfl⟩, rfl, rfl⟩
    exact ⟨horigin, [], reads, [], firing, hlife, Attempt.gives_pure.mpr rfl, hreads,
      Attempt.gives_pure.mpr rfl, hfiring, hconflicts, Attempt.gives_pure.mpr rfl, rfl, by simp⟩

theorem examine_idle {p : Placement} (horigin : p.activity.origin = sim.origin)
    (hclosed : s.openConditions = [])
    (hlife : (Simulator.checkLifecycle (.endAction p .empty) s).Gives ()) :
    (sim.examine (.endAction p .empty) s).Gives (s.valuation, ⟨.endAction p .empty, [], []⟩) := by
  have hafter : Simulator.openAfter (.endAction p .empty) s.openConditions = [] := hclosed
  refine Simulator.examine_gives.mpr ⟨horigin, [], [], [], .empty, hlife, ?_, ?_, ?_, ?_, rfl, ?_,
    rfl, rfl⟩
  · simp [Simulator.checkDuration]
  · exact Attempt.gives_pure.mpr rfl
  · exact Attempt.gives_pure.mpr rfl
  · exact Firing.ofEvent_of_noEffects rfl rfl rfl
  · rw [hafter]
    exact Attempt.gives_pure.mpr rfl

structure Ready (sim : Simulator) (rest : List Event) (s : State) : Prop where
  closed : s.openConditions = []
  plan : s.agenda.get? 0 = some ⟨.plan sim.origin, [sim.planEnd]⟩
  running : ∀ id ≠ 0, Awaits id s (rest.filter fun e => e.activity.id = id)
  origin : ∀ e ∈ rest, e.origin = sim.origin
  plain : ∀ e ∈ rest, e.simulated = none

namespace Ready

theorem head (h : Ready sim (e :: rest) s) (hid : e.activity.id ≠ 0) :
    (∃ o : Occurrence, e = o.start ∧ s.agenda.get? o.id = none ∧
      s.ended.any (·.id = o.id) = false ∧
      rest.filter (fun e => e.activity.id = o.id) = [o.finish]) ∨
    ∃ o : Occurrence, e = o.finish ∧ s.agenda.get? o.id = some ⟨o.activity, [o.finish]⟩ ∧
      rest.filter (fun e => e.activity.id = o.id) = [] := by
  have hrunning := h.running e.activity.id hid
  rw [List.filter_cons_of_pos (by simp)] at hrunning
  generalize hes : e :: rest.filter (fun e' => e'.activity.id = e.activity.id) = es at hrunning
  cases hrunning with
  | nothing => simp at hes
  | both o ho hidle hfresh =>
      obtain ⟨he, hrest⟩ := List.cons.inj hes
      rw [← ho] at hidle hfresh hrest
      exact .inl ⟨o, he, hidle, hfresh, hrest⟩
  | finish o ho hrunning =>
      obtain ⟨he, hrest⟩ := List.cons.inj hes
      rw [← ho] at hrunning hrest
      exact .inr ⟨o, he, hrunning, hrest⟩

theorem advance (h : Ready sim (e :: rest) s) (hid : e.activity.id ≠ 0)
    (hclosed : s'.openConditions = s.openConditions)
    (hagenda : ∀ id ≠ e.activity.id, s'.agenda.get? id = s.agenda.get? id)
    (hended : ∀ id ≠ e.activity.id, s'.ended.any (·.id = id) = s.ended.any (·.id = id))
    (hmine : Awaits e.activity.id s' (rest.filter fun e' => e'.activity.id = e.activity.id)) :
    Ready sim rest s' where
  closed := hclosed.trans h.closed
  plan := (hagenda 0 (Ne.symm hid)).trans h.plan
  running id hne := by
    by_cases hsame : id = e.activity.id
    · rw [hsame]
      exact hmine
    · have hrunning := h.running id hne
      rw [List.filter_cons_of_neg (by simpa using Ne.symm hsame)] at hrunning
      exact hrunning.transport (hagenda id hsame) (hended id hsame)
  origin := (List.forall_mem_cons.mp h.origin).2
  plain := (List.forall_mem_cons.mp h.plain).2

theorem step (h : Ready sim (x.event :: rest) s) (hid : x.event.activity.id ≠ 0)
    (hx : Step sim x s s') : Ready sim rest s' := by
  obtain ⟨w, a, hgives, -, rfl⟩ := hx.examined
  have hevent := Simulator.event_of_examine hgives
  rcases h.head hid with ⟨o, ho, hidle, hfresh, hrest⟩ | ⟨o, ho, hrunning, hrest⟩
  · have hagenda : (sim.stateAfter s w a (some x.time)).agenda =
        s.agenda.put o.id ⟨o.activity, [o.finish]⟩ := by
      rw [Simulator.stateAfter, hevent, ho]
      rfl
    refine h.advance hid ?_ (fun id hne => ?_) (fun id hne => ?_) ?_
    · rw [Simulator.stateAfter, hevent, ho]
      rfl
    · have hne : id ≠ o.id := fun hsame => hne (hsame.trans (ho ▸ rfl))
      rw [hagenda, OrderedMap.get?_put, if_neg hne]
    · rw [Simulator.stateAfter, hevent, ho]
      rfl
    · rw [ho]
      refine hrest ▸ .finish o rfl ?_
      rw [hagenda]
      exact (OrderedMap.get?_put ..).trans (if_pos rfl)
  · have hagenda : (sim.stateAfter s w a (some x.time)).agenda = s.agenda.erase o.id := by
      rw [Simulator.stateAfter, hevent, ho]
      rfl
    have hended : (sim.stateAfter s w a (some x.time)).ended = s.ended ++ [o.activity] := by
      rw [Simulator.stateAfter, hevent, ho]
      rfl
    refine h.advance hid ?_ (fun id hne => ?_) (fun id hne => ?_) ?_
    · rw [Simulator.stateAfter, hevent, ho]
      rfl
    · have hne : id ≠ o.id := fun hsame => hne (hsame.trans (ho ▸ rfl))
      rw [hagenda, OrderedMap.get?_erase, if_neg hne]
    · rw [ho] at hne
      have hactivity : ¬ o.activity.id = id := Ne.symm hne
      simp [hended, hactivity]
    · rw [ho]
      refine hrest ▸ .nothing ?_
      rw [hagenda]
      exact (OrderedMap.get?_erase ..).trans (if_pos rfl)

theorem lifecycle_end (h : Ready sim [sim.planEnd] s) {q : Placement}
    (hend : sim.planEnd = .endAction q .empty) (hq : q.activity = .plan sim.origin) :
    (Simulator.checkLifecycle sim.planEnd s).Gives () := by
  have hid : sim.planEnd.activity.id = 0 := by
    rw [hend]
    exact congrArg Activity.id hq
  have hpending : s.pending? sim.planEnd.activity = some [sim.planEnd] := by
    rw [State.pending?, hid, h.plan]
    rfl
  have hidle : ∀ r ∈ s.agenda.values, r.activity.id = 0 := by
    intro r hr
    obtain ⟨⟨id, r⟩, hmem, rfl⟩ := List.mem_map.mp hr
    have hget := OrderedMap.mem_entries_iff.mp hmem
    by_cases hne : id = 0
    · subst hne
      rw [← Option.some.inj (h.plan.symm.trans hget)]
      rfl
    · have hrun := h.running id hne
      rw [List.filter_cons_of_neg (by simpa [hid] using Ne.symm hne), List.filter_nil] at hrun
      cases hrun with
      | nothing hnone => simp [hnone] at hget
  have hothers : ((s.agenda.values.map (·.activity)).filter fun a => !decide (a.id = 0)) = [] := by
    simpa [List.filter_eq_nil_iff] using hidle
  have horder : (Simulator.checkPlanOrder sim.planEnd [sim.planEnd] s).Gives () := by
    simp [hend, Simulator.checkPlanOrder, Attempt.gives_bind, hothers]
  have hnext : (Simulator.checkNext sim.planEnd s).Gives () := by
    simp [Simulator.checkNext, hpending, hid, horder]
  have hclosed : (Simulator.checkClosed sim.planEnd s).Gives () := by
    simp [hend, Simulator.checkClosed, h.closed]
  rw [hend] at hnext hclosed ⊢
  exact Attempt.gives_bind.mpr ⟨(), hnext, hclosed⟩

end Ready

end Lifecycle

section Instants

variable {sched : Schedule} {os : List Occurrence} {done : List (Applied × Rat)}
  {rest : List Scheduled} {s s' : State} {x : Scheduled}

structure Schedule.Consists (sched : Schedule) (os : List Occurrence) : Prop where
  perm : sched.events.Perm (os.flatMap Occurrence.events)
  sorted : sched.events.Pairwise fun a b => a.notAfter b = true
  nodup : (os.map Occurrence.id).Nodup
  each : ∀ o ∈ os, o.id ≠ 0 ∧ o.origin = sched.sim.origin ∧ o.action.simulated = none
  goals : sched.sim.goalEvents = []

namespace Occurrence

theorem filter_events (o : Occurrence) (id : Nat) :
    o.events.filter (fun x => x.event.activity.id = id) = if o.id = id then o.events else [] := by
  by_cases h : o.id = id
  · rw [if_pos h]
    refine List.filter_eq_self.mpr fun x hx => decide_eq_true ?_
    rcases List.mem_pair.mp hx with rfl | rfl
    · exact h
    · exact h
  · rw [if_neg h]
    refine List.filter_eq_nil_iff.mpr fun x hx hid => h ?_
    rcases List.mem_pair.mp hx with rfl | rfl
    · exact of_decide_eq_true hid
    · exact of_decide_eq_true hid

theorem starting_notAfter (o : Occurrence) : o.starting.notAfter o.finishing = true := by
  simp [Scheduled.notAfter, starting, finishing, start, finish, Event.kind, EventKind.rank]

theorem not_finishing_notAfter (o : Occurrence) : ¬ o.finishing.notAfter o.starting = true := by
  simp [Scheduled.notAfter, starting, finishing, start, finish, Event.kind, EventKind.rank]

theorem filter_flatMap (os : List Occurrence) (id : Nat) :
    (os.flatMap events).filter (fun x => x.event.activity.id = id) =
      (os.filter (·.id = id)).flatMap events := by
  induction os with
  | nil => rfl
  | cons o os ih =>
      rw [List.flatMap_cons, List.filter_append, filter_events, ih]
      by_cases h : o.id = id
      · simp [h]
      · simp [h]

end Occurrence

namespace Schedule.Consists

theorem filter_events (h : sched.Consists os) (id : Nat) :
    sched.events.filter (fun x => x.event.activity.id = id) = [] ∨
    ∃ o ∈ os, o.id = id ∧ sched.events.filter (fun x => x.event.activity.id = id) = o.events := by
  have hperm := h.perm.filter fun x => x.event.activity.id = id
  rw [Occurrence.filter_flatMap] at hperm
  cases hos : os.filter (·.id = id) with
  | nil =>
      rw [hos] at hperm
      exact .inl hperm.eq_nil
  | cons o others =>
      obtain ⟨ho, hid⟩ := List.mem_filter.mp (hos ▸ List.mem_cons_self : o ∈ os.filter (·.id = id))
      have hid : o.id = id := of_decide_eq_true hid
      have hnil : others = [] := by
        refine List.eq_nil_iff_forall_not_mem.mpr fun o' ho' => ?_
        have hmem := List.mem_filter.mp (hos ▸ List.mem_cons_of_mem o ho' :
          o' ∈ os.filter (·.id = id))
        have hnodup : ((o :: others).map Occurrence.id).Nodup :=
          h.nodup.sublist (hos ▸ List.filter_sublist.map _)
        refine (List.nodup_cons.mp hnodup).1 (List.mem_map.mpr ⟨o', ho', ?_⟩)
        rw [hid, of_decide_eq_true hmem.2]
      rw [hos, hnil, List.flatMap_singleton] at hperm
      refine .inr ⟨o, ho, hid, hperm.eq_of_pairwise ?_ (h.sorted.sublist List.filter_sublist) ?_⟩
      · intro a b ha hb hab hba
        rcases List.mem_pair.mp (hperm.mem_iff.mp ha) with rfl | rfl
        · rcases List.mem_pair.mp hb with rfl | rfl
          · rfl
          · exact absurd hba o.not_finishing_notAfter
        · rcases List.mem_pair.mp hb with rfl | rfl
          · exact absurd hab o.not_finishing_notAfter
          · rfl
      · exact List.pairwise_pair.mpr o.starting_notAfter

theorem mem_events (h : sched.Consists os) (hx : x ∈ sched.events) :
    ∃ o ∈ os, x = o.starting ∨ x = o.finishing := by
  obtain ⟨o, ho, hx⟩ := List.mem_flatMap.mp (h.perm.mem_iff.mp hx)
  exact ⟨o, ho, List.mem_pair.mp hx⟩

theorem activity_ne_zero (h : sched.Consists os) (hx : x ∈ sched.events) :
    x.event.activity.id ≠ 0 := by
  obtain ⟨o, ho, rfl | rfl⟩ := h.mem_events hx
  · exact (h.each o ho).1
  · exact (h.each o ho).1

theorem not_crosses (h : sched.Consists os) : ¬ sched.Crosses := by
  rintro ⟨p, q, i, hp, -⟩
  simp [h.goals] at hp

theorem ready (h : sched.Consists os) (ht : Timely sched) :
    Ready sched.sim (sched.whole.map Scheduled.event) sched.sim.initialState where
  closed := rfl
  plan := by simp [Simulator.initialState, h.goals]
  running id hid := by
    have hidle : sched.sim.initialState.agenda.get? id = none := by
      simp [Simulator.initialState, hid]
    have hwhole : (sched.whole.map Scheduled.event).filter (fun e => e.activity.id = id) =
        (sched.events.filter fun x => x.event.activity.id = id).map Scheduled.event := by
      have hend : sched.sim.planEnd.activity.id ≠ id := ht.plan_finish ▸ Ne.symm hid
      simp [Schedule.whole, List.filter_map, Function.comp_def, hend]
    rw [hwhole]
    rcases h.filter_events id with hnil | ⟨o, -, hoid, hevents⟩
    · rw [hnil]
      exact .nothing hidle
    · rw [hevents]
      exact .both o hoid hidle rfl
  origin e he := by
    obtain ⟨q, hend, -, hactivity⟩ := ht.finish
    obtain ⟨x, hx, rfl⟩ := List.mem_map.mp he
    rcases List.mem_append.mp hx with hx | hx
    · obtain ⟨o, ho, rfl | rfl⟩ := h.mem_events hx
      · exact (h.each o ho).2.1
      · exact (h.each o ho).2.1
    · rw [List.mem_singleton.mp hx]
      change sched.sim.planEnd.origin = _
      rw [hend]
      exact congrArg Activity.origin hactivity
  plain e he := by
    obtain ⟨q, hend, -⟩ := ht.finish
    obtain ⟨x, hx, rfl⟩ := List.mem_map.mp he
    rcases List.mem_append.mp hx with hx | hx
    · obtain ⟨o, ho, rfl | rfl⟩ := h.mem_events hx
      · exact (h.each o ho).2.2
      · rfl
    · rw [List.mem_singleton.mp hx]
      change sched.sim.planEnd.simulated = _
      rw [hend]
      rfl

end Schedule.Consists

structure Schedule.Regular (sched : Schedule) : Prop where
  timely : Timely sched
  nonneg : ∀ x ∈ sched.events, 0 ≤ x.time
  uncrossed : ¬ sched.Crosses

structure Poised (sched : Schedule) (done : List (Applied × Rat)) (rest : List Scheduled)
    (s : State) : Prop where
  follows : sched.Follows done rest
  run : Run sched.sim (pinned done) s
  ready : Ready sched.sim (rest.map Scheduled.event) s

inductive Poised.Did (sim : Simulator) (x : Scheduled) (s s' : State) : Prop
  | started (o : Occurrence) (fp : Footprint) (event : x.event = o.start)
      (performs : o.action.Performs (sim.situation s.valuation o.ground.bindings) fp)
      (valuation : s'.valuation = s.valuation.update fp.updates)
      (last : s'.last = ⟨x.event, fp.reads, fp.updates.keys⟩)
  | finished (o : Occurrence) (event : x.event = o.finish) (valuation : s'.valuation = s.valuation)
      (last : s'.last = ⟨x.event, [], []⟩)

namespace Poised

variable {o : Occurrence} {w : Valuation} {a : Applied}

theorem started (h : Poised sched done (x :: rest) s) (hid : x.event.activity.id ≠ 0)
    (ho : x.event = o.start) : o.origin = sched.sim.origin ∧ o.action.simulated = none ∧
      (Simulator.checkLifecycle o.start s).Gives () := by
  refine ⟨(congrArg Event.origin ho).symm.trans (h.ready.origin _ List.mem_cons_self),
    (congrArg Event.simulated ho).symm.trans (h.ready.plain _ List.mem_cons_self), ?_⟩
  rcases h.ready.head hid with ⟨o', ho', hidle, hfresh, -⟩ | ⟨o', ho', -⟩
  · have hid' : o'.id = o.id := congrArg (fun e => e.activity.id) (ho'.symm.trans ho)
    rw [ho] at hid
    exact checkLifecycle_start hid (hid' ▸ hidle) (hid' ▸ hfresh)
  · exact nomatch ho.symm.trans ho'

theorem examine_started (h : Poised sched done (x :: rest) s) (hid : x.event.activity.id ≠ 0)
    (ho : x.event = o.start) : (sched.sim.examine x.event s).Gives (w, a) ↔ ∃ fp,
      o.action.Performs (sched.sim.situation s.valuation o.ground.bindings) fp ∧
      w = s.valuation.update fp.updates ∧ a = ⟨x.event, fp.reads, fp.updates.keys⟩ := by
  obtain ⟨horigin, hplain, hlife⟩ := h.started hid ho
  rw [ho]
  exact examine_start horigin hplain h.ready.closed hlife

theorem examine_finished (h : Poised sched done (x :: rest) s) (hid : x.event.activity.id ≠ 0)
    (ho : x.event = o.finish) :
    (sched.sim.examine x.event s).Gives (s.valuation, ⟨x.event, [], []⟩) := by
  have horigin : o.origin = sched.sim.origin :=
    (congrArg Event.origin ho).symm.trans (h.ready.origin _ List.mem_cons_self)
  rcases h.ready.head hid with ⟨o', ho', -⟩ | ⟨o', ho', hrunning, -⟩
  · exact nomatch ho.symm.trans ho'
  · rw [ho'] at hid ho ⊢
    exact examine_idle ((congrArg Event.origin ho).trans horigin) h.ready.closed
      (checkLifecycle_finish hid h.ready.closed hrunning)

theorem examine_end {p : Placement} (h : Poised sched done [x] s) (hx : x.event = sched.sim.planEnd)
    (hend : sched.sim.planEnd = .endAction p .empty) (hp : p.activity = .plan sched.sim.origin) :
    (sched.sim.examine x.event s).Gives (s.valuation, ⟨x.event, [], []⟩) := by
  have hready := h.ready
  simp only [List.map_cons, List.map_nil, hx] at hready
  have hlife := hready.lifecycle_end hend hp
  rw [hx]
  rw [hend] at hlife ⊢
  exact examine_idle (congrArg Activity.origin hp) hready.closed hlife

theorem step (h : Poised sched done (x :: rest) s) (hid : x.event.activity.id ≠ 0)
    (hx : Step sched.sim x s s') : Poised sched ((s'.last, x.time) :: done) rest s' ∧
      Did sched.sim x s s' := by
  refine ⟨⟨h.follows.next hx.event_eq, h.run.apply hx, h.ready.step hid hx⟩, ?_⟩
  obtain ⟨w, a, hgives, -, rfl⟩ := hx.examined
  rcases h.ready.head hid with ⟨o, ho, -⟩ | ⟨o, ho, -⟩
  · obtain ⟨fp, hperforms, rfl, rfl⟩ := (h.examine_started hid ho).mp hgives
    exact .started o fp ho hperforms rfl rfl
  · have hsame := hgives.symm.trans (h.examine_finished hid ho)
    simp only [Except.ok.injEq, Prod.mk.injEq] at hsame
    obtain ⟨rfl, rfl⟩ := hsame
    exact .finished o ho rfl rfl

theorem accepts (h : Poised sched done (x :: rest) s) (hs : sched.Regular)
    (hgives : (sched.sim.examine x.event s).Gives (w, a))
    (hapart : ((a, x.time) :: done).Pairwise (Apart sched.sim.epsilon)) :
    Step sched.sim x s (sched.sim.stateAfter s w a (some x.time)) := by
  have hallows := (h.follows.next (Simulator.event_of_examine hgives)).allows hs.timely hs.nonneg
    hs.uncrossed hapart
  exact (Simulator.tryApply_of_examine hgives (Simulator.represents_networkAfter h.run.history_eq
    h.run.represents a (some x.time))).1 ⟨_, hallows⟩

theorem refused {r : Refusal} (h : Poised sched done (x :: rest) s) (hs : sched.Regular)
    (hx : Refused sched.sim x s r)
    (hapart : ∀ v a, (sched.sim.examine x.event s).Gives (v, a) →
      ((a, x.time) :: done).Pairwise (Apart sched.sim.epsilon)) :
    ∃ cause, (sched.sim.examine x.event s).Refuses cause := by
  have hout := hx
  rw [Refused, Simulator.tryApply_outcome] at hout
  cases ht : (sched.sim.transition x.event s (some x.time)).run with
  | error f => simp [ht] at hout
  | ok next =>
      cases next with
      | ok next => simp [ht] at hout
      | error cause =>
          rcases Attempt.refuses_bind.mp ht with hrefuses | ⟨⟨v, a⟩, hgives, -⟩
          · exact ⟨cause, hrefuses⟩
          · exact absurd ((h.accepts hs hgives (hapart v a hgives)).symm.trans hx) (by simp)

end Poised

theorem Schedule.Consists.poised (h : sched.Consists os) (ht : Timely sched)
    (hrun : Run sched.sim [] sched.sim.initialState) :
    Poised sched [] sched.whole sched.sim.initialState :=
  ⟨⟨[], rfl, rfl⟩, hrun, h.ready ht⟩

end Instants

end TemporalPlanning
