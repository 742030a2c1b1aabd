import Mathlib.Tactic.Linarith
import TemporalPlanning.Execution.PlanEvents
import TemporalPlanning.Proofs.Attempts
import TemporalPlanning.Proofs.EventNumbers

namespace TemporalPlanning

namespace Number

@[simp] theorem larger_eq_max (a b : Rat) : larger a b = max a b := (max_def' a b).symm

theorem le_foldl_larger (qs : List Rat) (a : Rat) :
    a ≤ qs.foldl larger a ∧ ∀ q ∈ qs, q ≤ qs.foldl larger a := by
  induction qs generalizing a with
  | nil => simp
  | cons q qs ih =>
      obtain ⟨hfirst, hrest⟩ := ih (larger a q)
      rw [larger_eq_max] at hfirst hrest
      rw [List.foldl_cons, larger_eq_max]
      exact ⟨(le_max_left a q).trans hfirst,
        List.forall_mem_cons.mpr ⟨(le_max_right a q).trans hfirst, hrest⟩⟩

theorem foldl_larger_le {qs : List Rat} {a b : Rat} (ha : a ≤ b) (hqs : ∀ q ∈ qs, q ≤ b) :
    qs.foldl larger a ≤ b := by
  induction qs generalizing a with
  | nil => exact ha
  | cons q qs ih =>
      rw [List.forall_mem_cons] at hqs
      rw [List.foldl_cons, larger_eq_max]
      exact ih (max_le ha hqs.1) hqs.2

end Number

variable {c : Clock} {plan : Activity} {n : Nat} {goal : TimedCondition}
  {goals : List TimedCondition} {es : List Event}

theorem goalEvents_ok (h : goalEvents c plan n goal = .ok es) :
    es = [] ∨ ∃ p q i, es = [.startCondition p i, .endCondition q i] ∧ i.id = c.next + n ∧
      p.id = i.id ∧ q.id = i.id + 1 ∧ p.activity = plan ∧ q.activity = plan ∧
      i.effects = [] ∧ i.continuousEffects = [] ∧ i.simulated = none := by
  simp only [goalEvents, except_bind_ok] at h
  obtain ⟨lower, -, upper, -, h⟩ := h
  split at h
  · exact .inl (except_pure_ok.mp h).symm
  · exact .inr ⟨_, _, _, (except_pure_ok.mp h).symm, rfl, rfl, rfl, rfl, rfl, rfl, rfl, rfl⟩

theorem goalsEvents_cons : goalsEvents c plan n (goal :: goals) = .ok es ↔ ∃ first rest,
    goalEvents c plan n goal = .ok first ∧
    goalsEvents c plan (n + first.length) goals = .ok rest ∧ es = first ++ rest := by
  simp only [goalsEvents, except_bind_ok, except_pure_ok]
  constructor
  · rintro ⟨first, hf, rest, hr, rfl⟩
    exact ⟨first, rest, hf, hr, rfl⟩
  · rintro ⟨first, rest, hf, hr, rfl⟩
    exact ⟨first, hf, rest, hr, rfl⟩

theorem numbered_goalsEvents (h : goalsEvents c plan n goals = .ok es) :
    Numbered (c.next + n) es := by
  induction goals generalizing n es with
  | nil =>
      obtain rfl : [] = es := by simpa [goalsEvents] using h
      exact .nil _
  | cons goal goals ih =>
      obtain ⟨first, rest, hf, hr, rfl⟩ := goalsEvents_cons.mp h
      have hrest := ih hr
      rw [← Nat.add_assoc] at hrest
      refine .append ?_ hrest
      rcases goalEvents_ok hf with rfl | ⟨p, q, i, rfl, hi, hp, hq, -⟩
      · exact .nil _
      · exact hi ▸ .pair hp hq

structure Event.Observes (plan : Activity) (e : Event) : Prop where
  activity : e.activity = plan
  committed : e.committed = []
  effects : e.effects = []
  continuousEffects : e.continuousEffects = []
  simulated : e.simulated = none

theorem observes_goalsEvents (h : goalsEvents c plan n goals = .ok es) :
    ∀ e ∈ es, e.Observes plan := by
  induction goals generalizing n es with
  | nil =>
      obtain rfl : [] = es := by simpa [goalsEvents] using h
      simp
  | cons goal goals ih =>
      obtain ⟨first, rest, hf, hr, rfl⟩ := goalsEvents_cons.mp h
      refine List.forall_mem_append.mpr ⟨?_, ih hr⟩
      rcases goalEvents_ok hf with rfl | ⟨p, q, i, rfl, -, -, -, hp, hq, heff, hcont, hsim⟩
      · simp
      · refine List.forall_mem_cons.mpr ⟨⟨hp, rfl, rfl, rfl, rfl⟩, List.forall_mem_singleton.mpr ?_⟩
        exact ⟨hq, rfl, heff, hcont, hsim⟩

theorem intervals_goalEvents (h : goalEvents c plan n goal = .ok es) :
    ∀ e ∈ es, ∃ i, e.interval? = some i ∧ i.activity = plan := by
  simp only [goalEvents, except_bind_ok] at h
  obtain ⟨lower, -, upper, -, h⟩ := h
  split at h
  · obtain rfl := except_pure_ok.mp h
    simp
  · obtain rfl := except_pure_ok.mp h
    exact List.forall_mem_cons.mpr ⟨⟨_, rfl, rfl⟩, List.forall_mem_singleton.mpr ⟨_, rfl, rfl⟩⟩

theorem intervals_goalsEvents (h : goalsEvents c plan n goals = .ok es) :
    ∀ e ∈ es, ∃ i, e.interval? = some i ∧ i.activity = plan := by
  induction goals generalizing n es with
  | nil =>
      obtain rfl : [] = es := by simpa [goalsEvents] using h
      simp
  | cons goal goals ih =>
      obtain ⟨first, rest, hf, hr, rfl⟩ := goalsEvents_cons.mp h
      exact List.forall_mem_append.mpr ⟨intervals_goalEvents hf, ih hr⟩

theorem closed_goalsEvents (h : goalsEvents c plan n goals = .ok es) {p : Placement}
    {i : IntervalCondition} (hp : .startCondition p i ∈ es) : ∃ q, .endCondition q i ∈ es := by
  induction goals generalizing n es with
  | nil =>
      obtain rfl : [] = es := by simpa [goalsEvents] using h
      simp at hp
  | cons goal goals ih =>
      obtain ⟨first, rest, hf, hr, rfl⟩ := goalsEvents_cons.mp h
      rcases List.mem_append.mp hp with hp | hp
      · rcases goalEvents_ok hf with rfl | ⟨p', q, j, rfl, -⟩
        · simp at hp
        · obtain ⟨rfl, rfl⟩ : p = p' ∧ i = j := by simpa using hp
          exact ⟨q, by simp⟩
      · obtain ⟨q, hq⟩ := ih hr hp
        exact ⟨q, List.mem_append_right _ hq⟩

theorem PlanOffset.distance_ofTiming {t : Timing} {o : PlanOffset} (h : ofTiming t = .ok o) :
    o.distance = t.delay := by
  unfold ofTiming at h
  split at h
  · rw [← Except.ok.inj h]
  · rw [← Except.ok.inj h]
  · simp at h

theorem PlanOffset.moved_nonneg (o : PlanOffset) (epsilon : Rat) (later : Bool) :
    0 ≤ (o.moved epsilon later).distance := by simp [moved]

theorem offset_nonneg_of_goalEvents (h : goalEvents c plan n goal = .ok es)
    (hlower : 0 ≤ goal.interval.lower.delay) (hupper : 0 ≤ goal.interval.upper.delay) :
    ∀ e ∈ es, 0 ≤ e.offset := by
  simp only [goalEvents, except_bind_ok] at h
  obtain ⟨lower, hl, upper, hu, h⟩ := h
  rw [← PlanOffset.distance_ofTiming hl] at hlower
  rw [← PlanOffset.distance_ofTiming hu] at hupper
  split at h
  · obtain rfl := except_pure_ok.mp h
    simp
  · obtain rfl := except_pure_ok.mp h
    refine List.forall_mem_cons.mpr ⟨?_, List.forall_mem_singleton.mpr ?_⟩
    · change 0 ≤ (if goal.interval.leftOpen then lower.moved c.epsilon true else lower).distance
      split
      · exact lower.moved_nonneg c.epsilon true
      · exact hlower
    · change 0 ≤ (if goal.interval.rightOpen then upper.moved c.epsilon false else upper).distance
      split
      · exact upper.moved_nonneg c.epsilon false
      · exact hupper

theorem offset_nonneg_of_goalsEvents (h : goalsEvents c plan n goals = .ok es)
    (hgoals : ∀ g ∈ goals, 0 ≤ g.interval.lower.delay ∧ 0 ≤ g.interval.upper.delay) :
    ∀ e ∈ es, 0 ≤ e.offset := by
  induction goals generalizing n es with
  | nil =>
      obtain rfl : [] = es := by simpa [goalsEvents] using h
      simp
  | cons goal goals ih =>
      obtain ⟨first, rest, hf, hr, rfl⟩ := goalsEvents_cons.mp h
      obtain ⟨⟨hlower, hupper⟩, hgoals⟩ := List.forall_mem_cons.mp hgoals
      exact List.forall_mem_append.mpr ⟨offset_nonneg_of_goalEvents hf hlower hupper, ih hr hgoals⟩

end TemporalPlanning
