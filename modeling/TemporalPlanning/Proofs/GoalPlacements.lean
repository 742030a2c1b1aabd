import TemporalPlanning.Proofs.IntervalEvents
import TemporalPlanning.Proofs.KnownEvents

namespace TemporalPlanning

def Timing.position (t : Timing) : Rat := if t.anchor = .planEnd then -t.delay else t.delay

namespace Interval

def onAxis (i : Interval) : Span := ⟨i.lower.position, i.upper.position, i.leftOpen, i.rightOpen⟩

def SharesAnchor (i : Interval) : Prop := i.lower.anchor = i.upper.anchor

/-- There is no time between the ends, whatever the length of the plan. -/
def Vacant (i : Interval) : Prop := i.SharesAnchor ∧ i.onAxis.isEmpty = true

/--
There is room for moving the open ends, or the one open end cannot be moved beyond the closed one,
which lies at the anchor.
-/
def Fits (i : Interval) (epsilon : Rat) : Prop :=
  ¬ i.onAxis.Cramped epsilon ∨
    (i.lower = ⟨.planStart, 0⟩ ∧ i.leftOpen = false) ∨
    (i.upper = ⟨.planEnd, 0⟩ ∧ i.rightOpen = false)

end Interval

def Placement.position (p : Placement) : Rat := PlanOffset.position ⟨p.offset, p.fromEnd⟩

namespace PlanOffset

variable {lower upper o : PlanOffset} {epsilon : Rat} {t : Timing} {leftOpen rightOpen : Bool}

theorem ofTiming_ok (h : ofTiming t = .ok o) :
    t = ⟨if o.fromEnd then .planEnd else .planStart, o.distance⟩ := by
  obtain ⟨anchor, delay⟩ := t
  cases anchor with
  | planStart => rw [← Except.ok.inj h]; rfl
  | planEnd => rw [← Except.ok.inj h]; rfl
  | start => simp [ofTiming] at h
  | finish => simp [ofTiming] at h

theorem position_later (hε : 0 < epsilon) (ho : 0 ≤ o.distance) :
    (o.moved epsilon true).position =
      if o.fromEnd then min (o.position + epsilon) 0 else o.position + epsilon := by
  obtain ⟨d, fromEnd⟩ := o
  cases fromEnd with
  | false => simp [moved, position, (add_pos_of_nonneg_of_pos ho hε).le]
  | true =>
      simp only [moved, position, Number.larger_eq_max]
      grind

theorem position_earlier (hε : 0 < epsilon) (ho : 0 ≤ o.distance) :
    (o.moved epsilon false).position =
      if o.fromEnd then o.position - epsilon else max (o.position - epsilon) 0 := by
  obtain ⟨d, fromEnd⟩ := o
  cases fromEnd with
  | false => simp [moved, position]
  | true =>
      simp only [moved, position, Number.larger_eq_max]
      grind

theorem ordered_iff (hε : 0 < epsilon) (hlower : 0 ≤ lower.distance) (hupper : 0 ≤ upper.distance)
    (hanchor : lower.fromEnd = upper.fromEnd) (hforward : lower.position ≤ upper.position) :
    (if leftOpen then lower.moved epsilon true else lower).position ≤
        (if rightOpen then upper.moved epsilon false else upper).position ↔
      ¬ Span.Cramped ⟨lower.position, upper.position, leftOpen, rightOpen⟩ epsilon ∨
        (lower = ⟨0, false⟩ ∧ leftOpen = false) ∨ (upper = ⟨0, true⟩ ∧ rightOpen = false) := by
  rw [apply_ite position, apply_ite position, position_later hε hlower, position_earlier hε hupper]
  unfold Span.Cramped
  obtain ⟨l, fromEnd⟩ := lower
  obtain ⟨u, _⟩ := upper
  obtain rfl := hanchor
  -- at the start of the plan only the closing can be held back, at its end only the opening
  cases fromEnd with
  | false =>
      simp only [position, Bool.false_eq_true, if_false, mk.injEq] at hforward ⊢
      grind
  | true =>
      simp only [position, if_true, mk.injEq] at hforward ⊢
      grind

theorem position_ofTiming (h : ofTiming t = .ok o) : t.position = o.position := by
  rw [ofTiming_ok h]
  cases hfrom : o.fromEnd <;> simp [Timing.position, position, hfrom]

theorem fromEnd_iff (h : ofTiming t = .ok o) : o.fromEnd = true ↔ t.anchor = .planEnd := by
  rw [ofTiming_ok h]
  cases o.fromEnd <;> simp

theorem fromEnd_eq_iff {i : Interval} (hlower : ofTiming i.lower = .ok lower)
    (hupper : ofTiming i.upper = .ok upper) : lower.fromEnd = upper.fromEnd ↔ i.SharesAnchor := by
  rw [Interval.SharesAnchor, ofTiming_ok hlower, ofTiming_ok hupper]
  cases lower.fromEnd <;> cases upper.fromEnd <;> simp

theorem emptyBetween_iff {i : Interval} (hlower : ofTiming i.lower = .ok lower)
    (hupper : ofTiming i.upper = .ok upper) : emptyBetween lower upper i = true ↔ i.Vacant := by
  rw [Interval.Vacant, ← fromEnd_eq_iff hlower hupper, emptyBetween, Bool.and_eq_true,
    decide_eq_true_iff, Interval.onAxis, Span.isEmpty, position_ofTiming hlower,
    position_ofTiming hupper]

theorem fits_iff {i : Interval} (hlower : ofTiming i.lower = .ok lower)
    (hupper : ofTiming i.upper = .ok upper) : i.Fits epsilon ↔
      ¬ Span.Cramped ⟨lower.position, upper.position, i.leftOpen, i.rightOpen⟩ epsilon ∨
        (lower = ⟨0, false⟩ ∧ i.leftOpen = false) ∨ (upper = ⟨0, true⟩ ∧ i.rightOpen = false) := by
  have hfirst : i.lower = ⟨.planStart, 0⟩ ↔ lower = ⟨0, false⟩ := by
    rw [ofTiming_ok hlower]
    obtain ⟨d, fromEnd⟩ := lower
    cases fromEnd <;> simp
  have hlast : i.upper = ⟨.planEnd, 0⟩ ↔ upper = ⟨0, true⟩ := by
    rw [ofTiming_ok hupper]
    obtain ⟨d, fromEnd⟩ := upper
    cases fromEnd <;> simp
  rw [Interval.Fits, Interval.onAxis, position_ofTiming hlower, position_ofTiming hupper, hfirst,
    hlast]

end PlanOffset

/--
The events of a timed goal: none if it is vacant, else the one that opens and the one that closes
its interval, in this order if the interval fits.
-/
structure TimedCondition.PlacedBy (goal : TimedCondition) (epsilon : Rat) (es : List Event) :
    Prop where
  vacant : goal.interval.Vacant → es = []
  kept : ¬ goal.interval.Vacant → ∃ p q i, es = [.startCondition p i, .endCondition q i] ∧
    i.condition = goal.condition ∧ (p.fromEnd = true ↔ goal.interval.lower.anchor = .planEnd) ∧
    (q.fromEnd = true ↔ goal.interval.upper.anchor = .planEnd) ∧
    (goal.interval.SharesAnchor → (p.position ≤ q.position ↔ goal.interval.Fits epsilon))

section Goals

variable {c : Clock} {plan : Activity} {n : Nat} {goal : TimedCondition}
  {goals : List TimedCondition} {es : List Event}

theorem placedBy_goalEvents (h : goalEvents c plan n goal = .ok es) (hε : 0 < c.epsilon)
    (hlower : 0 ≤ goal.interval.lower.delay) (hupper : 0 ≤ goal.interval.upper.delay) :
    goal.PlacedBy c.epsilon es := by
  simp only [goalEvents, except_bind_ok] at h
  obtain ⟨lower, hl, upper, hu, h⟩ := h
  rw [← PlanOffset.distance_ofTiming hl] at hlower
  rw [← PlanOffset.distance_ofTiming hu] at hupper
  split at h
  · rename_i hempty
    exact ⟨fun _ => (except_pure_ok.mp h).symm,
      fun hkept => absurd ((PlanOffset.emptyBetween_iff hl hu).mp hempty) hkept⟩
  · rename_i hkept
    rw [PlanOffset.emptyBetween_iff hl hu] at hkept
    refine ⟨fun hvacant => absurd hvacant hkept, fun _ =>
      ⟨_, _, _, (except_pure_ok.mp h).symm, rfl, ?_, ?_, fun hshares => ?_⟩⟩
    · rw [← PlanOffset.fromEnd_iff hl]
      change (if _ then _ else _ : PlanOffset).fromEnd = true ↔ _
      rw [apply_ite PlanOffset.fromEnd, PlanOffset.moved, ite_self]
    · rw [← PlanOffset.fromEnd_iff hu]
      change (if _ then _ else _ : PlanOffset).fromEnd = true ↔ _
      rw [apply_ite PlanOffset.fromEnd, PlanOffset.moved, ite_self]
    · have hanchor := (PlanOffset.fromEnd_eq_iff hl hu).mpr hshares
      have hforward : lower.position ≤ upper.position := by
        rw [← PlanOffset.position_ofTiming hl, ← PlanOffset.position_ofTiming hu]
        by_contra hback
        exact hkept ⟨hshares, by simp [Interval.onAxis, Span.isEmpty, not_le.mp hback]⟩
      rw [PlanOffset.fits_iff hl hu]
      exact PlanOffset.ordered_iff hε hlower hupper hanchor hforward

theorem placedBy_goalsEvents (h : goalsEvents c plan n goals = .ok es) (hε : 0 < c.epsilon)
    (hgoals : ∀ g ∈ goals, 0 ≤ g.interval.lower.delay ∧ 0 ≤ g.interval.upper.delay) :
    ∃ parts, es = parts.flatten ∧
      List.Forall₂ (fun goal => goal.PlacedBy c.epsilon) goals parts := by
  induction goals generalizing n es with
  | nil =>
      obtain rfl : [] = es := by simpa [goalsEvents] using h
      exact ⟨[], rfl, .nil⟩
  | cons goal goals ih =>
      obtain ⟨first, rest, hf, hr, rfl⟩ := goalsEvents_cons.mp h
      obtain ⟨⟨hlower, hupper⟩, hgoals⟩ := List.forall_mem_cons.mp hgoals
      obtain ⟨parts, rfl, hparts⟩ := ih hr hgoals
      exact ⟨first :: parts, rfl, .cons (placedBy_goalEvents hf hε hlower hupper) hparts⟩

end Goals

theorem TimedCondition.PlacedBy.opened {goal : TimedCondition} {epsilon : Rat} {es : List Event}
    (h : goal.PlacedBy epsilon es) {e : Event} (he : e ∈ es) : ¬ goal.interval.Vacant :=
  fun hvacant => List.not_mem_nil (h.vacant hvacant ▸ he)

namespace Simulator

variable {sim : Simulator} {goals : List TimedCondition} {epsilon : Rat} {parts : List (List Event)}

def goalTime (sim : Simulator) (r : EventRef) : Rat :=
  ((sim.goalEvents.find? fun e => e.id = r.id).map Event.offset).getD 0

theorem goalTime_ref (hnumbered : Numbered 2 sim.goalEvents) {e : Event} (he : e ∈ sim.goalEvents) :
    sim.goalTime e.ref = e.offset := by
  have hfound : sim.goalEvents.find? (fun x => x.id = e.ref.id) = some e := hnumbered.find_id he
  rw [goalTime, hfound, Option.map_some, Option.getD_some]

theorem goalTime_early (hnumbered : Numbered 2 sim.goalEvents) {r : EventRef} (hr : r.id < 2) :
    sim.goalTime r = 0 := by
  have hnone : sim.goalEvents.find? (fun x => x.id = r.id) = none := by
    refine List.find?_eq_none.mpr fun e he => ?_
    rw [decide_eq_true_iff]
    have hid := hnumbered.le_id he
    omega
  rw [goalTime, hnone, Option.map_none, Option.getD_none]

theorem allows_iff_ordered (hnumbered : Numbered 2 sim.goalEvents) (hstart : sim.planStart.id = 0)
    (hfinish : sim.planEnd.id = 1) (hfrom : ∀ e ∈ sim.goalEvents, e.fromEnd = false) :
    (∃ t, sim.Allows [] t) ↔ ∀ p q i, .startCondition p i ∈ sim.goalEvents →
      .endCondition q i ∈ sim.goalEvents → p.offset ≤ q.offset := by
  constructor
  · rintro ⟨t, ht⟩ p q i hp hq
    have hopening := ht.goals _ hp
    have hclosing := ht.goals _ hq
    have horder := ht.goalOrder p q i hp hq
    rw [hfrom _ hp, if_neg Bool.false_ne_true] at hopening
    rw [hfrom _ hq, if_neg Bool.false_ne_true] at hclosing
    change _ = p.offset at hopening
    change _ = q.offset at hclosing
    linarith
  · intro hordered
    have hzero : sim.goalTime sim.planStart.ref = 0 :=
      goalTime_early hnumbered (show sim.planStart.id < 2 by omega)
    have hend : sim.goalTime sim.planEnd.ref = 0 :=
      goalTime_early hnumbered (show sim.planEnd.id < 2 by omega)
    refine ⟨sim.goalTime, ?_, fun e he => ?_, fun p q i hp hq => ?_, by simp,
      List.pairwise_singleton _ _, List.pairwise_singleton _ _, by simp⟩
    · rw [hzero, hend]
    · rw [hfrom e he, if_neg Bool.false_ne_true, goalTime_ref hnumbered he, hzero, sub_zero]
    · rw [goalTime_ref hnumbered hp, goalTime_ref hnumbered hq]
      exact hordered p q i hp hq

theorem placedBy_of_parts (hparts : List.Forall₂ (fun goal => goal.PlacedBy epsilon) goals parts) :
    (∀ goal ∈ goals, ∃ es ∈ parts, goal.PlacedBy epsilon es) ∧
      ∀ es ∈ parts, ∃ goal ∈ goals, goal.PlacedBy epsilon es := by
  induction hparts with
  | nil => simp
  | cons hplaced _ ih =>
      refine ⟨List.forall_mem_cons.mpr ⟨⟨_, List.mem_cons_self, hplaced⟩, fun goal hgoal => ?_⟩,
        List.forall_mem_cons.mpr ⟨⟨_, List.mem_cons_self, hplaced⟩, fun es hes => ?_⟩⟩
      · obtain ⟨es, hes, hplaced⟩ := ih.1 goal hgoal
        exact ⟨es, List.mem_cons_of_mem _ hes, hplaced⟩
      · obtain ⟨goal, hgoal, hplaced⟩ := ih.2 es hes
        exact ⟨goal, List.mem_cons_of_mem _ hgoal, hplaced⟩

theorem pair_of_placedBy {goal : TimedCondition} {es : List Event}
    (h : goal.PlacedBy epsilon es) (hkept : ¬ goal.interval.Vacant)
    (hlower : goal.interval.lower.anchor = .planStart)
    (hupper : goal.interval.upper.anchor = .planStart) :
    ∃ p q i, es = [.startCondition p i, .endCondition q i] ∧ p.fromEnd = false ∧
      q.fromEnd = false ∧ (p.offset ≤ q.offset ↔ goal.interval.Fits epsilon) := by
  obtain ⟨p, q, i, hes, -, hp, hq, hfits⟩ := h.kept hkept
  rw [hlower] at hp
  rw [hupper] at hq
  have hpfrom : p.fromEnd = false := by simpa using hp
  have hqfrom : q.fromEnd = false := by simpa using hq
  have horder := hfits (hlower.trans hupper.symm)
  simp only [Placement.position, PlanOffset.position, hpfrom, hqfrom, Bool.false_eq_true,
    if_false] at horder
  exact ⟨p, q, i, hes, hpfrom, hqfrom, horder⟩

section FromStart

variable (hevents : sim.goalEvents = parts.flatten)
  (hparts : List.Forall₂ (fun goal => goal.PlacedBy epsilon) goals parts)
  (hstart : ∀ g ∈ goals, g.interval.lower.anchor = .planStart ∧
    g.interval.upper.anchor = .planStart)

include hevents hparts hstart

theorem fromStart_of_parts : ∀ e ∈ sim.goalEvents, e.fromEnd = false := by
  intro e he
  obtain ⟨es, hes, he⟩ := List.mem_flatten.mp (hevents ▸ he)
  obtain ⟨goal, hgoal, hplaced⟩ := (placedBy_of_parts hparts).2 es hes
  obtain ⟨p, q, i, rfl, hp, hq, -⟩ := pair_of_placedBy hplaced (hplaced.opened he)
    (hstart goal hgoal).1 (hstart goal hgoal).2
  rcases List.mem_pair.mp he with rfl | rfl
  · exact hp
  · exact hq

theorem ordered_iff_fits (hnumbered : Numbered 2 sim.goalEvents) :
    (∀ p q i, .startCondition p i ∈ sim.goalEvents → .endCondition q i ∈ sim.goalEvents →
      p.offset ≤ q.offset) ↔ ∀ g ∈ goals, ¬ g.interval.Vacant → g.interval.Fits epsilon := by
  constructor
  · intro hordered goal hgoal hkept
    obtain ⟨es, hes, hplaced⟩ := (placedBy_of_parts hparts).1 goal hgoal
    obtain ⟨p, q, i, rfl, -, -, hfits⟩ := pair_of_placedBy hplaced hkept (hstart goal hgoal).1
      (hstart goal hgoal).2
    refine hfits.mp (hordered p q i ?_ ?_)
    · exact hevents ▸ List.mem_flatten_of_mem hes List.mem_cons_self
    · exact hevents ▸ List.mem_flatten_of_mem hes (List.mem_cons_of_mem _ List.mem_cons_self)
  · intro hall p q i hp hq
    obtain ⟨es, hes, hin⟩ := List.mem_flatten.mp (hevents ▸ hp)
    obtain ⟨goal, hgoal, hplaced⟩ := (placedBy_of_parts hparts).2 es hes
    have hkept := hplaced.opened hin
    obtain ⟨p', q', j, rfl, -, -, hfits⟩ := pair_of_placedBy hplaced hkept (hstart goal hgoal).1
      (hstart goal hgoal).2
    obtain ⟨rfl, rfl⟩ : p = p' ∧ i = j := by simpa using hin
    have hclosing : .endCondition q' i ∈ sim.goalEvents :=
      hevents ▸ List.mem_flatten_of_mem hes (List.mem_cons_of_mem _ List.mem_cons_self)
    -- the interval has one closing event, so it is the one of this goal
    obtain ⟨rfl, -⟩ : q = q' ∧ i = i := by simpa using hnumbered.closing_unique hclosing hq rfl
    exact hfits.mpr (hall goal hgoal hkept)

end FromStart

theorem goals_in_order {origin : Nat} {problem : Problem} {provider : Option EffectProvider}
    {component : String} (h : Simulator.new origin problem epsilon provider component = .ok sim)
    (hε : 0 < epsilon) (hdelays : ∀ g ∈ problem.timedGoals,
      0 ≤ g.interval.lower.delay ∧ 0 ≤ g.interval.upper.delay) :
    (∃ parts, sim.goalEvents = parts.flatten ∧
      List.Forall₂ (fun goal => goal.PlacedBy epsilon) problem.timedGoals parts) ∧
    ((∀ g ∈ problem.timedGoals, g.interval.lower.anchor = .planStart ∧
        g.interval.upper.anchor = .planStart) →
      (sim.initialState.network.check = true ↔
        ∀ g ∈ problem.timedGoals, ¬ g.interval.Vacant → g.interval.Fits epsilon)) := by
  obtain ⟨hfirst, hlast⟩ := ids_new h
  have hnumbered := numbered_new h
  obtain ⟨parts, hevents, hparts⟩ := placedBy_goalsEvents (goalsEvents_new h) hε hdelays
  refine ⟨⟨parts, hevents, hparts⟩, fun hstart => ?_⟩
  change sim.initialNetwork.check = true ↔ _
  rw [(represents_initialNetwork hnumbered).check_iff, allows_iff_ordered hnumbered hfirst hlast
    (fromStart_of_parts hevents hparts hstart), ordered_iff_fits hevents hparts hstart hnumbered]

end Simulator

namespace Beacon

def afterStart (delay : Rat) : Timing := ⟨.planStart, delay⟩

def litOver (lower upper : Rat) (leftOpen rightOpen : Bool) : TimedCondition :=
  ⟨⟨afterStart lower, afterStart upper, leftOpen, rightOpen⟩, .fluent "lit" []⟩

def problem (goals : List TimedCondition) : Problem :=
  { Problem.ofActions "beacon" [.flag "lit" true] [] with timedGoals := goals }

def fitting : List TimedCondition :=
  [litOver 0 4 true true, litOver 0 1 false true, litOver 2 1 false false,
    litOver 3 3 false false]

theorem fitting_in_order : 0 < (2 : Rat) ∧
    (∀ g ∈ fitting, 0 ≤ g.interval.lower.delay ∧ 0 ≤ g.interval.upper.delay) ∧
    ∃ sim, Simulator.new 0 (problem fitting) 2 none "simulator" = .ok sim ∧
      sim.initialState.network.check = true := by
  have hdelays : ∀ g ∈ fitting, 0 ≤ g.interval.lower.delay ∧ 0 ≤ g.interval.upper.delay := by
    decide +kernel
  obtain ⟨sim, hsim⟩ : ∃ sim, Simulator.new 0 (problem fitting) 2 none "simulator" = .ok sim :=
    ⟨_, rfl⟩
  refine ⟨two_pos, hdelays, sim, hsim, ?_⟩
  refine ((Simulator.goals_in_order hsim two_pos hdelays).2 (by decide)).mpr ?_
  change ∀ g ∈ fitting, _
  simp only [Interval.Vacant, Interval.SharesAnchor, Interval.Fits, Span.Cramped]
  decide +kernel

theorem closed_before_opened :
    ∃ sim, Simulator.new 0 (problem [litOver 0 1 true true]) 1 none "simulator" = .ok sim ∧
      (∃ p q i, .startCondition p i ∈ sim.goalEvents ∧ .endCondition q i ∈ sim.goalEvents ∧
        q.position < p.position) ∧ sim.initialState.network.check = false := by
  refine ⟨_, rfl, ⟨_, _, _, List.mem_cons_self, List.mem_cons_of_mem _ List.mem_cons_self, ?_⟩, ?_⟩
  · decide +kernel
  · decide +kernel

end Beacon

end TemporalPlanning
