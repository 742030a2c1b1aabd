import TemporalPlanning.Proofs.UnnumberedEvents

namespace TemporalPlanning

/-- For whom the activities of a plan are, and from which number on their events are counted. -/
structure Numbering where
  owner : Nat → Owner
  base : Nat → Nat

namespace Numbering

def happening (k : Numbering) (x : Scheduled) : Happening :=
  ⟨x.time, k.owner x.event.activity.id, x.event.bare (k.base x.event.activity.id)⟩

def interval (k : Numbering) (i : IntervalCondition) : Owner × IntervalCondition :=
  (k.owner i.activity.id, i.bare (k.base i.activity.id))

end Numbering

def TimedStep.happenings (epsilon : Rat) (s : TimedStep) : List Happening :=
  (((s.step.ground.action.events ⟨epsilon, 0⟩ ⟨0, 0, some s.step.ground⟩
    s.duration).toOption.getD []).map (Event.bare 0)).map fun e =>
      ⟨s.start + e.offset, .step s.step, e⟩

theorem TimedStep.owner_of_happening {epsilon : Rat} {s : TimedStep} {a : Happening}
    (h : a ∈ s.happenings epsilon) :
    a.owner = .step s.step := by
  obtain ⟨e, -, rfl⟩ := List.mem_map.mp h
  rfl

variable {sim sim' next : Simulator} {steps steps' : List TimedStep} {xs ys : List Scheduled}
  {k : Numbering} {x y : Scheduled} {n : Nat}

section Steps

theorem Simulator.eventsOf_sim {g : GroundAction} {duration : Option Rat} {es : List Event}
    (h : sim.eventsOf g duration = (next, .ok es)) : next = sim.afterMaking es := by
  unfold eventsOf execute at h
  dsimp only at h
  split at h
  · split at h
    · simp only [Prod.mk.injEq, Except.ok.injEq] at h
      obtain ⟨rfl, rfl⟩ := h
      rfl
    · simp at h
  · simp at h

theorem Action.bare_happenings {s : TimedStep} {c : Clock} {a : Activity} {es : List Event}
    (h : s.step.ground.action.events c a s.duration = .ok es)
    (ha : a.ground = some s.step.ground) :
    (es.map (Event.bare c.next)).map (fun e => ⟨s.start + e.offset, .step s.step, e⟩) =
      s.happenings c.epsilon := by
  obtain ⟨es', hes', hbare⟩ :=
    Action.bare_events h ⟨c.epsilon, 0⟩ ⟨0, 0, some s.step.ground⟩ rfl ha
  rw [TimedStep.happenings, hes', hbare]
  rfl

structure StepsNumbered (sim : Simulator) (n : Nat) (steps : List TimedStep) (next : Simulator)
    (xs : List Scheduled) (k : Numbering) : Prop where
  next : next = { sim with
    nextActivity := sim.nextActivity + steps.length
    nextEvent := sim.nextEvent + xs.length }
  others : ∀ id, id < sim.nextActivity ∨ sim.nextActivity + steps.length ≤ id → k.base id = 0
  least : ∀ x ∈ xs, k.base x.event.activity.id ≤ x.event.id ∧
    ∀ i, x.event.interval? = some i → k.base x.event.activity.id ≤ i.id
  happenings : xs.map k.happening = steps.flatMap (TimedStep.happenings sim.epsilon)
  turns : ∀ x ∈ xs, ∃ m s, steps[m]? = some s ∧ x.turn = .step (n + m) ∧
    k.happening x ∈ s.happenings sim.epsilon

theorem Numbering.happenings_ofStep {s : TimedStep} {es : List Event}
    (hes : s.step.ground.action.events sim.clock
      ⟨sim.origin, sim.nextActivity, some s.step.ground⟩ s.duration = .ok es)
    (howner : k.owner sim.nextActivity = .step s.step)
    (hbase : k.base sim.nextActivity = sim.nextEvent) :
    (es.map fun e => (⟨e, s.start + e.offset, .step n⟩ : Scheduled)).map k.happening =
      s.happenings sim.epsilon := by
  have hhappenings := Action.bare_happenings hes rfl
  refine Eq.trans ?_ hhappenings
  rw [List.map_map, List.map_map]
  refine List.map_congr_left fun e he => ?_
  have hid : e.activity.id = sim.nextActivity := (Action.belongs_events hes he).activity ▸ rfl
  simp only [Function.comp, happening, hid, howner, hbase, Event.offset_bare]
  rfl

theorem StepsNumbered.cons {s : TimedStep} {es : List Event} {owner : Nat → Owner}
    {base : Nat → Nat}
    (hes : s.step.ground.action.events sim.clock
      ⟨sim.origin, sim.nextActivity, some s.step.ground⟩ s.duration = .ok es)
    (howner : owner sim.nextActivity = .step s.step)
    (hlater : ∀ x ∈ xs, x.event.activity.id ≠ sim.nextActivity)
    (h : StepsNumbered (sim.afterMaking es) (n + 1) steps next xs ⟨owner, base⟩) :
    StepsNumbered sim n (s :: steps) next (es.map (fun e => ⟨e, s.start + e.offset, .step n⟩) ++ xs)
      ⟨owner, Function.update base sim.nextActivity sim.nextEvent⟩ := by
  let k : Numbering := ⟨owner, Function.update base sim.nextActivity sim.nextEvent⟩
  have hmine : k.base sim.nextActivity = sim.nextEvent := Function.update_self _ _ _
  have hbase (x : Scheduled) (hx : x ∈ xs) :
      k.base x.event.activity.id = base x.event.activity.id :=
    Function.update_of_ne (hlater x hx) _ _
  have hhappening (x : Scheduled) (hx : x ∈ xs) :
      k.happening x = Numbering.happening ⟨owner, base⟩ x := by
    simp only [Numbering.happening, hbase x hx]
    rfl
  have hhappenings := Numbering.happenings_ofStep (k := k) (n := n) hes howner hmine
  refine ⟨?_, fun id hid => ?_, fun x hx => ?_, ?_, fun x hx => ?_⟩
  · rw [h.next]
    simp [Simulator.afterMaking, Nat.add_assoc, Nat.add_comm 1]
  · rw [List.length_cons] at hid
    have hne : id ≠ sim.nextActivity := by omega
    have hzero := h.others id (by simp only [Simulator.afterMaking]; omega)
    exact (Function.update_of_ne hne _ _).trans hzero
  · rcases List.mem_append.mp hx with hx | hx
    · obtain ⟨e, he, rfl⟩ := List.mem_map.mp hx
      have hnumbered := Action.numbered_events hes
      have hid : e.activity.id = sim.nextActivity := (Action.belongs_events hes he).activity ▸ rfl
      dsimp only
      rw [hid, Function.update_self]
      exact ⟨hnumbered.le_id he, fun i hi => hnumbered.le_interval he hi⟩
    · rw [hbase x hx]
      exact h.least x hx
  · rw [List.map_append, hhappenings, List.map_congr_left hhappening, h.happenings]
    rfl
  · rcases List.mem_append.mp hx with hx | hx
    · obtain ⟨e, he, rfl⟩ := List.mem_map.mp hx
      refine ⟨0, s, rfl, rfl, ?_⟩
      rw [← hhappenings]
      exact List.mem_map_of_mem (List.mem_map_of_mem he)
    · obtain ⟨m, s', hm, hturn, hmem⟩ := h.turns x hx
      refine ⟨m + 1, s', hm, ?_, ?_⟩
      · rw [hturn, Nat.add_right_comm, Nat.add_assoc]
      · rw [hhappening x hx]
        exact hmem

theorem exists_stepsNumbered (h : stepEvents sim n steps = (next, .ok xs)) {owner : Nat → Owner}
    (howner : ∀ m s, steps[m]? = some s → owner (sim.nextActivity + m) = .step s.step) :
    ∃ base, StepsNumbered sim n steps next xs ⟨owner, base⟩ := by
  induction steps generalizing sim n xs with
  | nil =>
      simp only [stepEvents, Prod.mk.injEq, Except.ok.injEq] at h
      obtain ⟨rfl, rfl⟩ := h
      exact ⟨fun _ => 0, rfl, fun _ _ => rfl, by simp, rfl, by simp⟩
  | cons s rest ih =>
      obtain ⟨mid, es, others, he, ho, rfl⟩ := stepEvents_cons h
      obtain ⟨hes, -⟩ := Simulator.eventsOf_ok he
      obtain rfl := Simulator.eventsOf_sim he
      obtain ⟨base, hnumbers⟩ := ih ho fun m s' hm => by
        have hnext := howner (m + 1) s' hm
        rwa [Nat.add_comm m 1, ← Nat.add_assoc] at hnext
      have hlater (x : Scheduled) (hx : x ∈ others) : x.event.activity.id ≠ sim.nextActivity := by
        obtain ⟨m, s', -, -, -, hbelongs⟩ := (laid_stepEvents ho).ofStep x hx
        rw [hbelongs.activity]
        simp only [Simulator.stepActivity, Simulator.afterMaking]
        omega
      exact ⟨_, hnumbers.cons hes (howner 0 s rfl) hlater⟩

end Steps

section Owners

def ownerOf (steps : List TimedStep) : Nat → Owner
  | 0 => .plan
  | n + 1 =>
      match steps[n]? with
      | some s => .step s.step
      | none => .effects (n + 1)

theorem ownerOf_step {s : TimedStep} (h : steps[n]? = some s) :
    ownerOf steps (n + 1) = .step s.step := by
  rw [ownerOf, h]

theorem ownerOf_effects (h : steps.length + 1 ≤ n) : ownerOf steps n = .effects n := by
  obtain ⟨m, rfl⟩ := Nat.exists_eq_add_of_le' ((Nat.le_add_left 1 _).trans h)
  rw [ownerOf, List.getElem?_eq_none (by omega)]

theorem getElem?_inj_of_step (h : (steps.map TimedStep.step).Nodup) {m : Nat} {s s' : TimedStep}
    (hn : steps[n]? = some s) (hm : steps[m]? = some s') (hstep : s.step = s'.step) : n = m := by
  refine (List.getElem?_inj (by simpa using (List.getElem?_eq_some_iff.mp hn).1) h).mp ?_
  rw [List.getElem?_map, List.getElem?_map, hn, hm, Option.map_some, Option.map_some, hstep]

theorem injective_ownerOf (h : (steps.map TimedStep.step).Nodup) :
    Function.Injective (ownerOf steps) := by
  intro n m hnm
  cases n with
  | zero =>
      cases m with
      | zero => rfl
      | succ m =>
          simp only [ownerOf] at hnm
          split at hnm <;> cases hnm
  | succ n =>
      cases m with
      | zero =>
          simp only [ownerOf] at hnm
          split at hnm <;> cases hnm
      | succ m =>
          simp only [ownerOf] at hnm
          split at hnm <;> split at hnm
          · rename_i s hs _ s' hs'
            rw [getElem?_inj_of_step h hs hs' (Owner.step.inj hnm)]
          · cases hnm
          · cases hnm
          · exact Owner.effects.inj hnm

end Owners

inductive Scheduled.OwnedBy (k : Numbering) (epsilon : Rat) (steps : List TimedStep)
    (x : Scheduled) : Prop
  | ofStep {m : Nat} {s : TimedStep} (step : steps[m]? = some s) (turn : x.turn = .step m)
      (happening : k.happening x ∈ s.happenings epsilon)
  | ofEffects (m : Nat) (turn : x.turn = .timedEffect) (owner : (k.happening x).owner = .effects m)
      (id : (k.happening x).event.id = x.event.id)
  | ofGoal (turn : x.turn = .goal) (owner : (k.happening x).owner = .plan)
      (id : (k.happening x).event.id = x.event.id)

structure Numbering.Fits (k : Numbering) (epsilon : Rat) (steps : List TimedStep)
    (xs : List Scheduled) : Prop where
  injective : Function.Injective k.owner
  plan : k.owner 0 = .plan
  least : ∀ x ∈ xs, k.base x.event.activity.id ≤ x.event.id ∧
    ∀ i, x.event.interval? = some i → k.base x.event.activity.id ≤ i.id
  describes : ∀ x ∈ xs, x.OwnedBy k epsilon steps

def Scheduled.outside (x : Scheduled) : Happening where
  time := x.time
  owner := if x.turn = .goal then .plan else .effects x.event.activity.id
  event := x.event.bare 0

def Simulator.afterSteps (sim : Simulator) (steps : List TimedStep) : Simulator :=
  { sim with
    nextActivity := sim.nextActivity + steps.length
    nextEvent := sim.nextEvent + (steps.flatMap (TimedStep.happenings sim.epsilon)).length }

def TimedActivity.scheduled (t : TimedActivity) : List Scheduled :=
  t.events.map fun e => ⟨e, t.time + e.offset, .timedEffect⟩

def Schedule.others (sched : Schedule) (ts : List TimedActivity) : List Scheduled :=
  ts.flatMap TimedActivity.scheduled ++ sched.sim.goalEvents.map sched.goal

structure Numbering.Describes (k : Numbering) (sim : Simulator) (steps : List TimedStep)
    (sched : Schedule) (ts : List TimedActivity) : Prop where
  fits : k.Fits sim.epsilon steps sched.events
  effects : (sim.afterSteps steps).timedActivities = (sched.sim, .ok ts)
  makespan : sched.makespan = List.foldl Number.larger 0
    (((steps.flatMap (TimedStep.happenings sim.epsilon)).map Happening.time ++
      (ts.flatMap TimedActivity.scheduled).map Scheduled.time) ++
      (sched.sim.goalEvents.filter fun e => !e.fromEnd).map Event.offset)
  perm : (sched.events.map k.happening).Perm (steps.flatMap (TimedStep.happenings sim.epsilon) ++
    (sched.others ts).map Scheduled.outside)

section Schedules

variable {origin : Nat} {problem : Problem} {epsilon : Rat} {provider : Option EffectProvider}
  {component : String} {sched sched' : Schedule} {ts : List TimedActivity}

theorem StepsNumbered.next_eq (h : StepsNumbered sim n steps next xs k) :
    next = sim.afterSteps steps := by
  rw [h.next, Simulator.afterSteps, ← h.happenings, List.length_map]

theorem StepsNumbered.outside (h : StepsNumbered sim n steps next xs ⟨ownerOf steps, k.base⟩)
    (hfirst : sim.nextActivity = 1) (hx : x.event.activity.id = 0 ∧ x.turn = .goal ∨
      x.turn = .timedEffect ∧ steps.length + 1 ≤ x.event.activity.id) :
    k.base x.event.activity.id = 0 ∧
      Numbering.happening ⟨ownerOf steps, k.base⟩ x = x.outside ∧
      x.OwnedBy ⟨ownerOf steps, k.base⟩ sim.epsilon steps := by
  rcases hx with ⟨hid, hturn⟩ | ⟨hturn, hid⟩
  · have hbase : k.base x.event.activity.id = 0 := h.others _ (.inl (by omega))
    have howner : ownerOf steps x.event.activity.id = .plan := by rw [hid, ownerOf]
    refine ⟨hbase, ?_, .ofGoal hturn howner ?_⟩
    · simp [Numbering.happening, Scheduled.outside, hbase, howner, hturn]
    · simp [Numbering.happening, hbase]
  · have hbase : k.base x.event.activity.id = 0 := h.others _ (.inr (by omega))
    have howner : ownerOf steps x.event.activity.id = .effects x.event.activity.id :=
      ownerOf_effects hid
    refine ⟨hbase, ?_, .ofEffects _ hturn howner ?_⟩
    · simp [Numbering.happening, Scheduled.outside, hbase, howner, hturn]
    · simp [Numbering.happening, hbase]

theorem Schedule.mem_others
    (hnew : Simulator.new origin problem epsilon provider component = .ok sim)
    (h : ofSteps sim steps = .ok sched) (hnext : next = sim.afterSteps steps)
    (ht : next.timedActivities = (sched.sim, .ok ts)) (hx : x ∈ sched.others ts) :
    x.event.activity.id = 0 ∧ x.turn = .goal ∨
      x.turn = .timedEffect ∧ steps.length + 1 ≤ x.event.activity.id := by
  obtain ⟨htimed, hfirst, -, hplan⟩ := Simulator.new_ok hnew
  rcases List.mem_append.mp hx with hx | hx
  · obtain ⟨t, ht', hx⟩ := List.mem_flatMap.mp hx
    obtain ⟨e, he, rfl⟩ := List.mem_map.mp hx
    have hnone : next.timed = none := hnext ▸ htimed
    obtain ⟨a, hbelongs, hle⟩ := (laid_timedActivities hnone ht).belongs e
      (List.mem_flatMap.mpr ⟨t, ht', he⟩)
    rw [hnext, Simulator.afterSteps, hfirst] at hle
    refine .inr ⟨rfl, ?_⟩
    rw [hbelongs.activity]
    dsimp only at hle
    omega
  · obtain ⟨e, he, rfl⟩ := List.mem_map.mp hx
    have hobserves := hplan e ((laid_ofSteps hnew h).rules.goalEvents ▸ he)
    refine .inl ⟨?_, rfl⟩
    rw [goal, hobserves.activity]
    rfl

theorem exists_numbering
    (hnew : Simulator.new origin problem epsilon provider component = .ok sim)
    (h : Schedule.ofSteps sim steps = .ok sched) (hdistinct : (steps.map TimedStep.step).Nodup) :
    ∃ k ts, Numbering.Describes k sim steps sched ts := by
  obtain ⟨next, xs, ts, ys, hx, ht, rfl, hspan, hevents⟩ := ofSteps_ok h
  obtain ⟨-, hfirst, -, -⟩ := Simulator.new_ok hnew
  have howner (m : Nat) (s : TimedStep) (hm : steps[m]? = some s) :
      ownerOf steps (sim.nextActivity + m) = .step s.step := by
    rw [hfirst, Nat.add_comm]
    exact ownerOf_step hm
  obtain ⟨base, hnumbers⟩ := exists_stepsNumbered hx howner
  let k : Numbering := ⟨ownerOf steps, base⟩
  have hperm : sched.events.Perm (xs ++ sched.others ts) := by
    rw [hevents, List.append_assoc]
    exact List.mergeSort_perm _ _
  have houtside (x : Scheduled) (hx : x ∈ sched.others ts) : k.base x.event.activity.id = 0 ∧
      k.happening x = x.outside ∧ x.OwnedBy k sim.epsilon steps :=
    hnumbers.outside (k := k) hfirst (Schedule.mem_others hnew h hnumbers.next_eq ht hx)
  refine ⟨k, ts, ⟨injective_ownerOf hdistinct, rfl, fun x hx => ?_, fun x hx => ?_⟩, ?_, ?_, ?_⟩
  · rcases List.mem_append.mp (hperm.mem_iff.mp hx) with hx | hx
    · exact hnumbers.least x hx
    · rw [(houtside x hx).1]
      exact ⟨Nat.zero_le _, fun i _ => Nat.zero_le _⟩
  · rcases List.mem_append.mp (hperm.mem_iff.mp hx) with hx | hx
    · obtain ⟨m, s, hm, hturn, hhappening⟩ := hnumbers.turns x hx
      rw [Nat.zero_add] at hturn
      exact .ofStep hm hturn hhappening
    · exact (houtside x hx).2.2
  · rw [← hnumbers.next_eq]
    exact ht
  · rw [hspan, ← hnumbers.happenings, List.map_map, List.map_append]
    rfl
  · refine (hperm.map k.happening).trans ?_
    rw [List.map_append, hnumbers.happenings, List.map_congr_left fun x hx => (houtside x hx).2.1]

theorem Numbering.Describes.of_perm (h : k.Describes sim steps sched ts) {k' : Numbering}
    {ts' : List TimedActivity} (h' : k'.Describes sim steps' sched' ts')
    (hperm : steps.Perm steps') :
    sched'.sim = sched.sim ∧ sched'.makespan = sched.makespan ∧
      (sched.events.map k.happening).Perm (sched'.events.map k'.happening) := by
  have hhappenings := hperm.flatMap_right (TimedStep.happenings sim.epsilon)
  have hafter : sim.afterSteps steps' = sim.afterSteps steps := by
    rw [Simulator.afterSteps, Simulator.afterSteps, hhappenings.length_eq, hperm.length_eq]
  have heffects := h'.effects
  rw [hafter, h.effects] at heffects
  obtain ⟨hsim, hts⟩ := Prod.mk.inj heffects
  obtain rfl := Except.ok.inj hts
  have hspan : sched'.makespan = sched.makespan := by
    rw [h'.makespan, h.makespan, ← hsim]
    refine List.Perm.foldl_eq' ?_ (fun a _ b _ c => by simp [max_right_comm]) 0
    exact ((hhappenings.symm.map Happening.time).append_right _).append_right _
  have hothers : sched'.others ts = sched.others ts := by
    have hgoal : sched'.goal = sched.goal := by
      funext e
      rw [Schedule.goal, Schedule.goal, hspan]
    rw [Schedule.others, Schedule.others, ← hsim, hgoal]
  refine ⟨hsim.symm, hspan, h.perm.trans (.trans ?_ h'.perm.symm)⟩
  rw [hothers]
  exact hhappenings.append_right _

end Schedules

end TemporalPlanning
