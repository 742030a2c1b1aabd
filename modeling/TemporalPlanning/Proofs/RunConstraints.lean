import TemporalPlanning.Proofs.Feasibility
import TemporalPlanning.Proofs.GoalEvents
import TemporalPlanning.Proofs.TransitionSteps

namespace TemporalPlanning

open Network (Represents)

abbrev RunLog : Type := List (Applied × Option Rat)

namespace Simulator

/-- What is applied to the initial state of a simulator, which is asked for events in between. -/
inductive Run : Simulator → RunLog → State → Prop
  | initial {origin problem epsilon provider component sim}
      (h : Simulator.new origin problem epsilon provider component = .ok sim) :
      Run sim [] sim.initialState
  | request {sim log s} (g : GroundAction) (duration : Option Rat) (h : Run sim log s) :
      Run (sim.eventsOf g duration).1 log s
  | timed {sim log s} (h : Run sim log s) : Run sim.timedActivities.1 log s
  | apply {sim log s e time s'} (h : Run sim log s)
      (happ : (sim.tryApply e s time).outcome.1 = .ok (.ok s')) :
      Run sim ((s'.last, time) :: log) s'

def applied (sim : Simulator) (log : RunLog) : List Applied :=
  log.map Prod.fst ++ [⟨sim.planStart, [], []⟩]

/-- The times are those of a run: in order, as far apart and where they have to be. -/
structure Allows (sim : Simulator) (log : RunLog) (t : EventRef → Rat) : Prop where
  ends : t sim.planStart.ref ≤ t sim.planEnd.ref
  goals : ∀ e ∈ sim.goalEvents, if e.fromEnd then t sim.planEnd.ref - t e.ref = e.offset
    else t e.ref - t sim.planStart.ref = e.offset
  goalOrder : ∀ p q i, .startCondition p i ∈ sim.goalEvents → .endCondition q i ∈ sim.goalEvents →
    t (Event.startCondition p i).ref ≤ t (Event.endCondition q i).ref
  committed : ∀ x ∈ log, ∀ c ∈ x.1.event.committed, t c.ref - t x.1.event.ref = c.offset
  order : (sim.applied log).Pairwise fun later earlier =>
    t earlier.event.ref ≤ t later.event.ref
  separated : (sim.applied log).Pairwise fun later earlier =>
    ∀ d ∈ separation sim.epsilon later earlier, d ≤ t later.event.ref - t earlier.event.ref
  pinned : ∀ x ∈ log, ∀ time ∈ x.2, t x.1.event.ref - t sim.planStart.ref = time

structure SameRules (sim sim' : Simulator) : Prop where
  origin : sim'.origin = sim.origin
  problem : sim'.problem = sim.problem
  defaults : sim'.defaults = sim.defaults
  epsilon : sim'.epsilon = sim.epsilon
  provider : sim'.provider = sim.provider
  planEvents : sim'.planEvents = sim.planEvents

namespace SameRules

variable {sim sim' sim'' : Simulator}

theorem refl (sim : Simulator) : SameRules sim sim := ⟨rfl, rfl, rfl, rfl, rfl, rfl⟩

theorem trans (h : SameRules sim sim') (h' : SameRules sim' sim'') : SameRules sim sim'' :=
  ⟨h'.origin.trans h.origin, h'.problem.trans h.problem, h'.defaults.trans h.defaults,
    h'.epsilon.trans h.epsilon, h'.provider.trans h.provider, h'.planEvents.trans h.planEvents⟩

theorem execute (sim : Simulator) (g : GroundAction) (duration : Option Rat) :
    SameRules sim (sim.execute g duration).1 := by
  unfold Simulator.execute
  dsimp only
  split
  · exact ⟨rfl, rfl, rfl, rfl, rfl, rfl⟩
  · exact ⟨rfl, rfl, rfl, rfl, rfl, rfl⟩

theorem eventsOf (sim : Simulator) (g : GroundAction) (duration : Option Rat) :
    SameRules sim (sim.eventsOf g duration).1 := by
  unfold Simulator.eventsOf
  split
  · exact execute sim g duration
  · exact refl sim

theorem executeTimed (sim : Simulator) (byTime : List (Rat × List Effect)) :
    SameRules sim (sim.executeTimed byTime).1 := by
  induction byTime generalizing sim with
  | nil => exact refl sim
  | cons x rest ih =>
      have hx := execute sim (timedGround x.1 x.2) none
      simp only [Simulator.executeTimed]
      split
      · rename_i next f he
        rw [he] at hx
        exact hx
      · rename_i next es he
        rw [he] at hx
        have hr := hx.trans (ih next)
        split
        · rename_i last f hl
          rw [hl] at hr
          exact hr
        · rename_i last others hl
          rw [hl] at hr
          exact hr

theorem timedActivities (sim : Simulator) : SameRules sim sim.timedActivities.1 := by
  unfold Simulator.timedActivities
  split
  · exact refl sim
  · split
    · exact refl sim
    · rename_i m hm
      have hx := executeTimed sim (m.entries.mergeSort fun a b => a.1 ≤ b.1)
      split
      · rename_i next f he
        rw [he] at hx
        exact hx
      · rename_i next ts he
        rw [he] at hx
        exact hx.trans ⟨rfl, rfl, rfl, rfl, rfl, rfl⟩

theorem planStart (h : SameRules sim sim') : sim'.planStart = sim.planStart := by
  rw [Simulator.planStart, h.planEvents, Simulator.planStart]

theorem planEnd (h : SameRules sim sim') : sim'.planEnd = sim.planEnd := by
  rw [Simulator.planEnd, h.planEvents, Simulator.planEnd]

theorem goalEvents (h : SameRules sim sim') : sim'.goalEvents = sim.goalEvents := by
  rw [Simulator.goalEvents, h.planEvents, Simulator.goalEvents]

theorem applied (h : SameRules sim sim') (log : RunLog) : sim'.applied log = sim.applied log := by
  rw [Simulator.applied, h.planStart, Simulator.applied]

theorem allows (h : SameRules sim sim') {log : RunLog} {t : EventRef → Rat}
    (ht : sim.Allows log t) : sim'.Allows log t where
  ends := by simpa only [h.planStart, h.planEnd] using ht.ends
  goals := by simpa only [h.planStart, h.planEnd, h.goalEvents] using ht.goals
  goalOrder := by simpa only [h.goalEvents] using ht.goalOrder
  committed := ht.committed
  order := by simpa only [h.applied] using ht.order
  separated := by simpa only [h.applied, h.epsilon] using ht.separated
  pinned := by simpa only [h.planStart] using ht.pinned

theorem symm (h : SameRules sim sim') : SameRules sim' sim :=
  ⟨h.origin.symm, h.problem.symm, h.defaults.symm, h.epsilon.symm, h.provider.symm,
    h.planEvents.symm⟩

theorem allows_iff (h : SameRules sim sim') (log : RunLog) (t : EventRef → Rat) :
    sim.Allows log t ↔ sim'.Allows log t := ⟨h.allows, h.symm.allows⟩

end SameRules

section Network

variable {sim : Simulator} {net : Network EventRef} {C : (EventRef → Rat) → Prop}

theorem represents_placeGoalEvent (h : net.Represents C) (e : Event) :
    (sim.placeGoalEvent net e).Represents fun t => C t ∧
      if e.fromEnd then t sim.planEnd.ref - t e.ref = e.offset
      else t e.ref - t sim.planStart.ref = e.offset := by
  unfold placeGoalEvent
  cases e.fromEnd with
  | false => exact (h.add _ _ _ _).congr fun t => by simp [within_exactly]
  | true => exact (h.add _ _ _ _).congr fun t => by simp [within_exactly]

theorem represents_orderGoalEvent {lo : Nat} (hp : Numbered lo sim.goalEvents) {e : Event}
    (he : e ∈ sim.goalEvents) (h : net.Represents C) :
    (sim.orderGoalEvent net e).Represents fun t => C t ∧ ∀ p q i,
      .startCondition p i ∈ sim.goalEvents → e = .endCondition q i →
        t (Event.startCondition p i).ref ≤ t e.ref := by
  cases e with
  | endCondition q i =>
      obtain ⟨p, hopen⟩ := hp.paired.opened q i he
      simp only [orderGoalEvent, hp.find_opening hopen]
      refine (h.add _ _ _ _).congr fun t => ?_
      rw [within_lower, sub_nonneg]
      constructor
      · rintro ⟨hC, hle⟩
        refine ⟨hC, fun p' q' j hp' hj => ?_⟩
        obtain ⟨rfl, rfl⟩ : q = q' ∧ i = j := by simpa using hj
        have hid := (hp.paired.opening p' i hp').trans (hp.paired.opening p i hopen).symm
        rw [hp.eq_of_id hp' hopen hid]
        exact hle
      · rintro ⟨hC, hall⟩
        exact ⟨hC, hall p q i hopen rfl⟩
  | startAction => exact h.congr fun t => by simp
  | startCondition => exact h.congr fun t => by simp
  | endAction => exact h.congr fun t => by simp

theorem represents_commit (h : net.Represents C) (e : Event) :
    (commit e net).Represents fun t => C t ∧
      ∀ c ∈ e.committed, t c.ref - t e.ref = c.offset :=
  Represents.foldl _ (fun c _ _ _ h => (h.add _ _ _ _).congr fun t => by rw [within_exactly]) h

theorem represents_separateFrom (h : net.Represents C) (epsilon : Rat) (next past : Applied) :
    (separateFrom epsilon next net past).Represents fun t => C t ∧
      ∀ d ∈ separation epsilon next past, d ≤ t next.event.ref - t past.event.ref := by
  unfold separateFrom
  split
  · rename_i d hd
    exact (h.add _ _ _ _).congr fun t => by simp [within_lower, hd]
  · rename_i hd
    exact h.congr fun t => by simp [hd]

theorem represents_pin (h : net.Represents C) (e : Event) (time : Option Rat) :
    (sim.pin e time net).Represents fun t => C t ∧
      ∀ q ∈ time, t e.ref - t sim.planStart.ref = q := by
  cases time with
  | none => exact h.congr fun t => by simp
  | some q => exact (h.add _ _ _ _).congr fun t => by simp [within_exactly]

theorem represents_initialNetwork {lo : Nat} (hp : Numbered lo sim.goalEvents) :
    sim.initialNetwork.Represents (sim.Allows []) := by
  have hends := Represents.empty.addNode (a := sim.planStart.ref)
    |>.add sim.planStart.ref sim.planEnd.ref (some 0) none
  have hplaced := Represents.foldl sim.goalEvents (f := sim.placeGoalEvent)
    (fun e _ _ _ h => represents_placeGoalEvent h e) hends
  have hordered := Represents.foldl sim.goalEvents (f := sim.orderGoalEvent)
    (fun e he _ _ h => represents_orderGoalEvent hp he h) hplaced
  refine hordered.congr fun t => ?_
  rw [within_lower, sub_nonneg]
  constructor
  · rintro ⟨⟨⟨-, hends⟩, hgoals⟩, horder⟩
    exact ⟨hends, hgoals, fun p q i hp hq => horder _ hq p q i hp rfl, by simp,
      List.pairwise_singleton _ _, List.pairwise_singleton _ _, by simp⟩
  · intro ht
    refine ⟨⟨⟨trivial, ht.ends⟩, ht.goals⟩, ?_⟩
    rintro e he p q i hp rfl
    exact ht.goalOrder p q i hp he

variable {s : State} {log : RunLog}

theorem allows_cons (hs : s.history = sim.applied log) (next : Applied) (time : Option Rat)
    (t : EventRef → Rat) : sim.Allows ((next, time) :: log) t ↔ sim.Allows log t ∧
      (∀ c ∈ next.event.committed, t c.ref - t next.event.ref = c.offset) ∧
      t s.last.event.ref ≤ t next.event.ref ∧
      (∀ past ∈ s.history, ∀ d ∈ separation sim.epsilon next past,
        d ≤ t next.event.ref - t past.event.ref) ∧
      ∀ q ∈ time, t next.event.ref - t sim.planStart.ref = q := by
  have hcons : sim.applied ((next, time) :: log) = next :: s.history := by rw [hs]; rfl
  constructor
  · intro ht
    have horder := ht.order
    have hsep := ht.separated
    rw [hcons, List.pairwise_cons] at horder hsep
    have hcommitted := List.forall_mem_cons.mp ht.committed
    have hpinned := List.forall_mem_cons.mp ht.pinned
    exact ⟨⟨ht.ends, ht.goals, ht.goalOrder, hcommitted.2, hs ▸ horder.2, hs ▸ hsep.2, hpinned.2⟩,
      hcommitted.1, horder.1 s.last List.mem_cons_self, hsep.1, hpinned.1⟩
  · rintro ⟨ht, hcommitted, hlast, hsep, hpinned⟩
    have horder : s.history.Pairwise fun later earlier =>
        t earlier.event.ref ≤ t later.event.ref := hs ▸ ht.order
    have hafter : ∀ past ∈ s.history, t past.event.ref ≤ t next.event.ref := by
      intro past hpast
      rcases List.mem_cons.mp hpast with rfl | hpast
      · exact hlast
      · exact (List.rel_of_pairwise_cons horder hpast).trans hlast
    exact ⟨ht.ends, ht.goals, ht.goalOrder, List.forall_mem_cons.mpr ⟨hcommitted, ht.committed⟩,
      hcons ▸ List.pairwise_cons.mpr ⟨hafter, horder⟩,
      hcons ▸ List.pairwise_cons.mpr ⟨hsep, hs ▸ ht.separated⟩,
      List.forall_mem_cons.mpr ⟨hpinned, ht.pinned⟩⟩

theorem represents_networkAfter (hs : s.history = sim.applied log)
    (h : s.network.Represents (sim.Allows log)) (next : Applied) (time : Option Rat) :
    (sim.networkAfter s next time).Represents (sim.Allows ((next, time) :: log)) := by
  have hordered :=
    (represents_commit h next.event).add s.last.event.ref next.event.ref (some 0) none
  have hseparated := Represents.foldl s.history
    (fun past _ _ _ h => represents_separateFrom h sim.epsilon next past) hordered
  refine (represents_pin hseparated next.event time).congr fun t => ?_
  rw [allows_cons hs, within_lower, sub_nonneg]
  simp only [and_assoc]

end Network

section New

variable {sim : Simulator} {origin : Nat} {problem : Problem} {epsilon : Rat}
  {provider : Option EffectProvider} {component : String}

def unused (origin : Nat) (problem : Problem) (epsilon : Rat) (provider : Option EffectProvider)
    (component : String) (goals : List Event) : Simulator where
  origin := origin
  problem := problem
  defaults := problem.defaults
  epsilon := epsilon
  provider := provider
  component := component
  planEvents := {
    start := .startAction (Clock.place ⟨epsilon, 0⟩ 0 (.plan origin) 0 false "start") .empty 0 []
    finish := .endAction (Clock.place ⟨epsilon, 0⟩ 1 (.plan origin) 0 true "end") .empty
    conditions := goals }
  nextActivity := 1
  nextEvent := 2 + goals.length
  timed := none

theorem new_iff : Simulator.new origin problem epsilon provider component = .ok sim ↔
    ∃ goals, goalsEvents ⟨epsilon, 0⟩ (.plan origin) 2 problem.timedGoals = .ok goals ∧
      unused origin problem epsilon provider component goals = sim := by
  simp only [Simulator.new, PlanEvents.ofGoals, except_bind_ok, except_pure_ok]
  constructor
  · rintro ⟨events, ⟨goals, hgoals, rfl⟩, rfl⟩
    exact ⟨goals, hgoals, rfl⟩
  · rintro ⟨goals, hgoals, rfl⟩
    exact ⟨_, ⟨goals, hgoals, rfl⟩, rfl⟩

theorem new_unused (h : problem.timedGoals = []) :
    Simulator.new origin problem epsilon provider component =
      .ok (unused origin problem epsilon provider component []) :=
  new_iff.mpr ⟨[], by rw [h]; rfl, rfl⟩

theorem goalsEvents_new (h : Simulator.new origin problem epsilon provider component = .ok sim) :
    goalsEvents ⟨epsilon, 0⟩ (.plan origin) 2 problem.timedGoals = .ok sim.goalEvents := by
  obtain ⟨goals, hgoals, rfl⟩ := new_iff.mp h
  exact hgoals

theorem numbered_new (h : Simulator.new origin problem epsilon provider component = .ok sim) :
    Numbered 2 sim.goalEvents :=
  numbered_goalsEvents (goalsEvents_new h)

end New

section Runs

variable {sim : Simulator} {log : RunLog} {s : State}

theorem Run.history_eq (h : Run sim log s) : s.history = sim.applied log := by
  induction h with
  | initial => rfl
  | request g duration _ ih => rw [(SameRules.eventsOf _ g duration).applied, ih]
  | timed _ ih => rw [(SameRules.timedActivities _).applied, ih]
  | apply _ happ ih =>
      obtain ⟨v, a, -, -, rfl⟩ :=
        transition_gives.mp (tryApply_gives (Logged.gives_of_outcome happ))
      change a :: State.history _ = _
      rw [ih]
      rfl

theorem Run.represents (h : Run sim log s) : s.network.Represents (sim.Allows log) := by
  induction h with
  | initial h => exact represents_initialNetwork (numbered_new h)
  | request g duration _ ih => exact ih.congr ((SameRules.eventsOf _ g duration).allows_iff _)
  | timed _ ih => exact ih.congr ((SameRules.timedActivities _).allows_iff _)
  | apply h happ ih =>
      obtain ⟨v, a, -, -, rfl⟩ :=
        transition_gives.mp (tryApply_gives (Logged.gives_of_outcome happ))
      exact represents_networkAfter h.history_eq ih a _

theorem tryApply_of_examine {e : Event} {v : Valuation} {a : Applied} {time : Option Rat}
    (hx : (sim.examine e s).Gives (v, a)) {C : (EventRef → Rat) → Prop}
    (hC : (sim.networkAfter s a time).Represents C) :
    ((∃ t, C t) → (sim.tryApply e s time).outcome.1 = .ok (.ok (sim.stateAfter s v a time))) ∧
    ((¬ ∃ t, C t) → (sim.tryApply e s time).outcome.1 =
      .ok (.error ⟨e, .inconsistent (sim.networkAfter s a time).witness⟩)) := by
  rw [← hC.check_iff]
  constructor
  · intro hc
    have ht : (sim.transition e s time).run = .ok (.ok (sim.stateAfter s v a time)) :=
      transition_gives.mpr ⟨v, a, hx, hc, rfl⟩
    rw [tryApply_outcome, ht]
  · intro hc
    rw [tryApply_outcome, transition_inconsistent hx (Bool.not_eq_true _ ▸ hc)]

theorem Run.network_exact (h : Run sim log s) :
    (s.network.check = true ↔ ∃ t, sim.Allows log t) ∧
    (s.network.check = true → ∀ t, s.network.Solves t ↔ sim.Allows log t) ∧
    ∀ e time v a, (sim.examine e s).Gives (v, a) →
      ((∃ r : Refusal, (sim.tryApply e s time).outcome.1 = .ok (.error r) ∧
          r.kind = .temporalInconsistency) ↔ ¬ ∃ t, sim.Allows ((a, time) :: log) t) ∧
      ((∃ next, (sim.tryApply e s time).outcome.1 = .ok (.ok next)) ↔
        ∃ t, sim.Allows ((a, time) :: log) t) := by
  refine ⟨h.represents.check_iff, h.represents.solves_iff, fun e time v a hx => ?_⟩
  obtain ⟨haccept, hrefuse⟩ :=
    tryApply_of_examine hx (represents_networkAfter h.history_eq h.represents a time)
  refine ⟨⟨?_, fun hno => ⟨_, hrefuse hno, rfl⟩⟩, ?_, fun hsome => ⟨_, haccept hsome⟩⟩
  · rintro ⟨r, hr, -⟩ hsome
    rw [haccept hsome] at hr
    simp at hr
  · rintro ⟨next, hnext⟩
    by_contra hno
    rw [hrefuse hno] at hnext
    simp at hnext

end Runs

end Simulator

def FluentDeclaration.flag (name : String) (value : Bool) : FluentDeclaration :=
  ⟨name, "bool", [], some (.bool value)⟩

def Effect.setFlag (fluent : String) (value : Bool) : Effect :=
  ⟨.assign, ⟨fluent, []⟩, .bool value, none⟩

def DurativeAction.ofLength (name : String) (length : Rat) (conditions : List TimedCondition)
    (effects : List TimedEffect) : DurativeAction where
  name := name
  parameters := []
  duration := ⟨.number length, .number length, false, false⟩
  conditions := conditions
  effects := effects
  continuousEffects := []
  simulatedEffects := []

/-- Each parameter stands for the object of its name. -/
def GroundAction.ofAction (a : Action) : GroundAction where
  action := a
  args := a.parameters.map (·.name)
  arity := List.length_map _

def Problem.ofActions (name : String) (fluents : List FluentDeclaration) (actions : List Action) :
    Problem where
  name := name
  fluents := fluents
  objects := []
  actions := actions
  initial := .empty
  goals := []
  timedGoals := []
  timedEffects := []
  trajectory := []
  metrics := []

namespace Simulator

section Lamp

def switchAction : Action := .instantaneous ⟨"switch", [], [], [.setFlag "lit" true], none⟩

def switch : GroundAction := .ofAction switchAction

def lampProblem : Problem :=
  { Problem.ofActions "lamp" [.flag "lit" false] [switchAction] with goals := [.fluent "lit" []] }

def lampSimulator : Simulator := unused 0 lampProblem 1 none "simulator" []

def lampStarted : Simulator := (lampSimulator.eventsOf switch none).1

def switchStart : Event :=
  ((lampSimulator.eventsOf switch none).2.toOption.getD []).headD lampSimulator.planEnd

theorem network_exact_switch : ∃ s : State,
    (lampStarted.tryApply switchStart lampSimulator.initialState (some 1)).outcome.1 =
      .ok (.ok s) ∧ s.network.check = true ∧ ∃ t, lampStarted.Allows [(s.last, some 1)] t := by
  have hcheck : ((lampStarted.tryApply switchStart lampSimulator.initialState
      (some 1)).outcome.1.toOption.bind Except.toOption).any (·.network.check) = true := by
    decide +kernel
  obtain ⟨s, hs, hc⟩ := (Option.any_eq_true _ _).mp hcheck
  have happ := except_ok_of_toOption hs
  have hrun : Run lampStarted [(s.last, some 1)] s :=
    .apply (.request switch none (.initial (new_unused rfl))) happ
  exact ⟨s, happ, hc, (Run.network_exact hrun).1.mp hc⟩

end Lamp

end Simulator

end TemporalPlanning
