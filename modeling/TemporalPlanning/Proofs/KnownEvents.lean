import Mathlib.Data.List.Pairwise
import TemporalPlanning.Proofs.RunConstraints
import TemporalPlanning.Proofs.ScheduleEvents
import TemporalPlanning.Proofs.Unfoldings

namespace TemporalPlanning.Simulator

def madeTimed (sim : Simulator) : List (List Event) :=
  match sim.timed with
  | some _ => []
  | none => (sim.timedActivities.2.toOption.getD []).map (·.events)

def known (sim : Simulator) (made : List (List Event)) : List Event :=
  sim.planStart :: sim.planEnd :: (sim.goalEvents ++ made.flatten)

/-- A state that known events lead to, with the activities that were made so far. -/
inductive Session : Simulator → List (List Event) → State → Prop
  | initial {origin problem epsilon provider component sim}
      (h : Simulator.new origin problem epsilon provider component = .ok sim) :
      Session sim [] sim.initialState
  | request {sim made s} (g : GroundAction) (duration : Option Rat) (h : Session sim made s) :
      Session (sim.eventsOf g duration).1 (made ++ (sim.eventsOf g duration).2.toOption.toList) s
  | timed {sim made s} (h : Session sim made s) :
      Session sim.timedActivities.1 (made ++ sim.madeTimed) s
  | apply {sim made s e time s'} (h : Session sim made s) (he : e ∈ sim.known made)
      (happ : (sim.tryApply e s time).outcome.1 = .ok (.ok s')) :
      Session sim made s'

structure PlanParts (sim : Simulator) : Prop where
  start : sim.planStart.kind = .startAction ∧ sim.planStart.activity = .plan sim.origin
  finish : sim.planEnd.kind = .endAction ∧ sim.planEnd.activity = .plan sim.origin
  goals : ∀ e ∈ sim.goalEvents, e.activity = .plan sim.origin ∧
    ∃ i, e.interval? = some i ∧ i.activity = .plan sim.origin
  closed : ∀ p i, .startCondition p i ∈ sim.goalEvents → ∃ q, .endCondition q i ∈ sim.goalEvents

structure Makes (sim : Simulator) (made : List (List Event)) : Prop where
  plan : sim.PlanParts
  numbered : Numbered 0 (sim.known made)
  next : sim.nextEvent = (sim.known made).length
  positive : 0 < sim.nextActivity
  unfolds : ∀ es ∈ made, ∃ a d, Unfolds a d es ∧ 0 < a.id ∧ a.id < sim.nextActivity
  distinct : made.Pairwise fun es fs => ∀ e ∈ es, ∀ f ∈ fs, e.activity.id ≠ f.activity.id
  own : ∀ es ∈ made, ∀ e ∈ es, e.origin = sim.origin

section Known

variable {sim sim' : Simulator} {made : List (List Event)} {e f : Event} {es fs : List Event}

theorem known_append (more : List (List Event)) :
    sim.known (made ++ more) = sim.known made ++ more.flatten := by
  simp [known]

theorem mem_known : e ∈ sim.known made ↔
    e = sim.planStart ∨ e = sim.planEnd ∨ e ∈ sim.goalEvents ∨ ∃ es ∈ made, e ∈ es := by
  simp [known]

namespace SameRules

theorem known (h : SameRules sim sim') (made : List (List Event)) :
    sim'.known made = sim.known made := by
  rw [Simulator.known, h.planStart, h.planEnd, h.goalEvents, Simulator.known]

theorem planParts (h : SameRules sim sim') (hp : sim.PlanParts) : sim'.PlanParts where
  start := by rw [h.planStart, h.origin]; exact hp.start
  finish := by rw [h.planEnd, h.origin]; exact hp.finish
  goals := by rw [h.goalEvents, h.origin]; exact hp.goals
  closed := by rw [h.goalEvents]; exact hp.closed

end SameRules

theorem planParts_new {origin : Nat} {problem : Problem} {epsilon : Rat}
    {provider : Option EffectProvider} {component : String}
    (h : Simulator.new origin problem epsilon provider component = .ok sim) : sim.PlanParts := by
  have hobserves := (new_ok h).2.2.2
  obtain ⟨goals, hgoals, rfl⟩ := new_iff.mp h
  exact ⟨⟨rfl, rfl⟩, ⟨rfl, rfl⟩,
    fun e he => ⟨(hobserves e he).activity, intervals_goalsEvents hgoals e he⟩,
    fun p i hp => closed_goalsEvents hgoals hp⟩

theorem ids_new {origin : Nat} {problem : Problem} {epsilon : Rat}
    {provider : Option EffectProvider} {component : String}
    (h : Simulator.new origin problem epsilon provider component = .ok sim) :
    sim.planStart.id = 0 ∧ sim.planEnd.id = 1 := by
  obtain ⟨goals, -, rfl⟩ := new_iff.mp h
  exact ⟨rfl, rfl⟩

theorem interval_none (h : e.kind = .startAction ∨ e.kind = .endAction) : e.interval? = none := by
  cases e with
  | startAction => rfl
  | endAction => rfl
  | startCondition => simp [Event.kind] at h
  | endCondition => simp [Event.kind] at h

theorem makes_new {origin : Nat} {problem : Problem} {epsilon : Rat}
    {provider : Option EffectProvider} {component : String}
    (h : Simulator.new origin problem epsilon provider component = .ok sim) : Makes sim [] := by
  have hplan := planParts_new h
  obtain ⟨hstart, hfinish⟩ := ids_new h
  obtain ⟨-, hactivity, hevent, -⟩ := new_ok h
  have hnumbered : Numbered 0 ([sim.planStart] ++ ([sim.planEnd] ++ sim.goalEvents)) :=
    (Numbered.singleton hstart (interval_none (.inl hplan.start.1))).append
      ((Numbered.singleton hfinish (interval_none (.inr hplan.finish.1))).append (numbered_new h))
  have hknown : sim.known [] = [sim.planStart] ++ ([sim.planEnd] ++ sim.goalEvents) := by
    simp [known]
  refine ⟨hplan, hknown ▸ hnumbered, ?_, by omega, by simp, .nil, by simp⟩
  rw [hevent, hknown]
  simp
  omega

theorem execute_error {g : GroundAction} {duration : Option Rat} {f : Fault}
    (h : sim.execute g duration = (sim', .error f)) :
    sim'.nextEvent = sim.nextEvent ∧ sim'.nextActivity = sim.nextActivity + 1 := by
  unfold Simulator.execute at h
  dsimp only at h
  split at h
  · simp at h
  · rw [← (Prod.mk.inj h).1]
    exact ⟨rfl, rfl⟩

theorem timedActivities_error {f : Fault} (htimed : sim.timed = none)
    (h : sim.timedActivities = (sim', .error f)) : sim' = sim := by
  unfold Simulator.timedActivities at h
  rw [htimed] at h
  dsimp only at h
  split at h
  · exact (Prod.mk.inj h).1.symm
  · rename_i m _
    obtain ⟨last, ts, hts⟩ := exists_executeTimed sim (m.entries.mergeSort fun a b => a.1 ≤ b.1)
    rw [hts] at h
    simp at h

namespace Makes

theorem of_rules (h : Makes sim made) (hrules : SameRules sim sim')
    (hevent : sim'.nextEvent = sim.nextEvent) (hactivity : sim.nextActivity ≤ sim'.nextActivity) :
    Makes sim' made where
  plan := hrules.planParts h.plan
  numbered := hrules.known made ▸ h.numbered
  next := by rw [hevent, hrules.known, h.next]
  positive := h.positive.trans_le hactivity
  unfolds es hes := by
    obtain ⟨a, d, hunfolds, hpositive, hlt⟩ := h.unfolds es hes
    exact ⟨a, d, hunfolds, hpositive, hlt.trans_le hactivity⟩
  distinct := h.distinct
  own := hrules.origin ▸ h.own

theorem activity_lt (h : Makes sim made) (hes : es ∈ made) (he : e ∈ es) :
    0 < e.activity.id ∧ e.activity.id < sim.nextActivity := by
  obtain ⟨a, d, hunfolds, hpositive, hlt⟩ := h.unfolds es hes
  rw [(hunfolds.belongs e he).activity]
  exact ⟨hpositive, hlt⟩

theorem id_ne_of_ne (h : Makes sim made) (hes : es ∈ made) (hfs : fs ∈ made) (hne : es ≠ fs)
    (he : e ∈ es) (hf : f ∈ fs) : e.activity.id ≠ f.activity.id := by
  have hsymm : Std.Symm fun es fs : List Event =>
      ∀ e ∈ es, ∀ f ∈ fs, e.activity.id ≠ f.activity.id :=
    ⟨fun x y hxy f hf e he => (hxy e he f hf).symm⟩
  exact h.distinct.forall hes hfs hne e he f hf

theorem execute {g : GroundAction} {duration : Option Rat} {r : Except Fault (List Event)}
    (h : Makes sim made) (hε : 0 ≤ sim.epsilon) (hx : sim.execute g duration = (sim', r)) :
    Makes sim' (made ++ r.toOption.toList) := by
  cases r with
  | error f =>
      have hrules := SameRules.execute sim g duration
      rw [hx] at hrules
      obtain ⟨hevent, hactivity⟩ := execute_error hx
      simpa [Except.toOption] using h.of_rules hrules hevent (hactivity ▸ Nat.le_succ _)
  | ok es =>
      obtain ⟨hes, hgrows⟩ := execute_ok hx
      have hnew := Action.unfolds hes hε
      have hnumbered := Action.numbered_events hes
      have hclock : sim.clock.next = 0 + (sim.known made).length := by
        rw [Nat.zero_add, ← h.next]
        rfl
      rw [hclock] at hnumbered
      have hknown : sim'.known (made ++ [es]) = sim.known made ++ es := by
        rw [hgrows.rules.known, known_append, List.flatten_singleton]
      refine ⟨hgrows.rules.planParts h.plan, ?_, ?_, ?_, ?_, ?_, fun fs hfs e he => ?_⟩
      · exact hknown ▸ h.numbered.append hnumbered
      · have hlength := congrArg List.length hknown
        rw [List.length_append, ← h.next, ← hgrows.nextEvent] at hlength
        exact hlength.symm
      · rw [hgrows.nextActivity]
        omega
      · intro fs hfs
        rw [hgrows.nextActivity]
        rcases List.mem_append.mp hfs with hfs | hfs
        · obtain ⟨a, d, hunfolds, hpositive, hlt⟩ := h.unfolds fs hfs
          exact ⟨a, d, hunfolds, hpositive, by omega⟩
        · obtain rfl := List.mem_singleton.mp hfs
          exact ⟨_, _, hnew, h.positive, Nat.lt_succ_self _⟩
      · refine List.pairwise_append.mpr ⟨h.distinct, List.pairwise_singleton _ _, ?_⟩
        intro fs hfs es' hes' f hf e he
        obtain rfl := List.mem_singleton.mp hes'
        have hlt := (h.activity_lt hfs hf).2
        rw [(hnew.belongs e he).activity]
        exact hlt.ne
      · rw [hgrows.rules.origin]
        rcases List.mem_append.mp hfs with hfs | hfs
        · exact h.own fs hfs e he
        · rw [List.mem_singleton.mp hfs] at he
          exact congrArg Activity.origin (hnew.belongs e he).activity

theorem eventsOf (h : Makes sim made) (hε : 0 ≤ sim.epsilon) (g : GroundAction)
    (duration : Option Rat) : Makes (sim.eventsOf g duration).1
      (made ++ (sim.eventsOf g duration).2.toOption.toList) := by
  unfold Simulator.eventsOf
  split
  · exact h.execute hε rfl
  · simpa [Except.toOption] using h

theorem executeTimed (h : Makes sim made) (hε : 0 ≤ sim.epsilon)
    {byTime : List (Rat × List Effect)} {ts : List TimedActivity}
    (hx : sim.executeTimed byTime = (sim', .ok ts)) :
    Makes sim' (made ++ ts.map (·.events)) := by
  induction byTime generalizing sim made ts with
  | nil =>
      simp only [Simulator.executeTimed, Prod.mk.injEq, Except.ok.injEq] at hx
      obtain ⟨rfl, rfl⟩ := hx
      simpa using h
  | cons x rest ih =>
      obtain ⟨next, es, others, he, ho, rfl⟩ := executeTimed_cons hx
      have hnext := h.execute hε he
      have hrules := (execute_ok he).2.rules
      have hall := ih hnext (hrules.epsilon ▸ hε) ho
      rwa [List.append_assoc] at hall

theorem timedActivities (h : Makes sim made) (hε : 0 ≤ sim.epsilon) :
    Makes sim.timedActivities.1 (made ++ sim.madeTimed) := by
  cases htimed : sim.timed with
  | some ts => simpa [madeTimed, Simulator.timedActivities, htimed] using h
  | none =>
      have hmade : sim.madeTimed = (sim.timedActivities.2.toOption.getD []).map (·.events) := by
        simp [madeTimed, htimed]
      rw [hmade]
      cases hx : sim.timedActivities with
      | mk sim' r =>
          cases r with
          | error f =>
              obtain rfl := timedActivities_error htimed hx
              simpa [Except.toOption] using h
          | ok ts =>
              obtain ⟨m, next, -, he, rfl⟩ := timedActivities_ok htimed hx
              exact (h.executeTimed hε he).of_rules ⟨rfl, rfl, rfl, rfl, rfl, rfl⟩ rfl le_rfl

end Makes

theorem Session.makes {s : State} (h : Session sim made s) (hε : 0 ≤ sim.epsilon) :
    Makes sim made := by
  induction h with
  | initial h => exact makes_new h
  | request g d _ ih =>
      rw [(SameRules.eventsOf _ g d).epsilon] at hε
      exact (ih hε).eventsOf hε g d
  | timed _ ih =>
      rw [(SameRules.timedActivities _).epsilon] at hε
      exact (ih hε).timedActivities hε
  | apply _ _ _ ih => exact ih hε

end Known

end TemporalPlanning.Simulator
