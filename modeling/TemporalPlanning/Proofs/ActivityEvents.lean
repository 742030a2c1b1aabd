import Mathlib.Tactic.Linarith
import TemporalPlanning.Execution.Timeline
import TemporalPlanning.Proofs.Attempts
import TemporalPlanning.Proofs.EventNumbers

namespace TemporalPlanning

theorem DurativeAction.offset_within {a : DurativeAction} {d q : Rat} {t : Timing}
    (h : a.offset d t = .ok q) : 0 ≤ q ∧ q ≤ d := by
  unfold DurativeAction.offset at h
  dsimp only at h
  split at h
  · split at h
    · simp at h
    · rename_i hin
      obtain rfl : t.delay = q := by simpa using h
      exact (not_or.mp hin).imp not_lt.mp not_lt.mp
  · split at h
    · simp at h
    · rename_i hin
      obtain rfl : d - t.delay = q := by simpa using h
      exact (not_or.mp hin).imp not_lt.mp not_lt.mp
  · simp at h

namespace Timeline

variable {t t' : Timeline} {s : Span} {c : Expr} {a : DurativeAction} {d : Rat}

def Asks (t : Timeline) (s : Span) (c : Expr) : Prop :=
  ∃ x, t.spans.get? s = some x ∧ c ∈ x.conditions

theorem Asks.onSpan (h : t.Asks s c) (s' : Span) {f : SpanContent → SpanContent}
    (hf : ∀ x : SpanContent, ∀ c ∈ x.conditions, c ∈ (f x).conditions) :
    (t.onSpan s' f).Asks s c := by
  obtain ⟨x, hx, hc⟩ := h
  by_cases hs : s = s'
  · subst hs
    refine ⟨f x, ?_, hf x c hc⟩
    simp [Timeline.onSpan, Timeline.at?, hx]
  · exact ⟨x, by simpa [Timeline.onSpan, hs] using hx, hc⟩

theorem asks_addOver (t : Timeline) (s : Span) (c : Expr) : (t.addOver s c).Asks s c := by
  refine ⟨_, OrderedMap.get?_put .. |>.trans (if_pos rfl), ?_⟩
  simp

theorem Asks.addOver (h : t.Asks s c) (s' : Span) (c' : Expr) : (t.addOver s' c').Asks s c := by
  unfold Timeline.addOver
  dsimp only
  refine Asks.onSpan ?_ s' fun x c hc => List.mem_append_left _ hc
  split
  · exact h
  · exact h

theorem Asks.addCondition (h : t.Asks s c) {k : TimedCondition}
    (hk : addCondition a d t k = .ok t') : t'.Asks s c := by
  simp only [Timeline.addCondition, except_bind_ok] at hk
  obtain ⟨s', -, hk⟩ := hk
  split at hk
  · exact except_pure_ok.mp hk ▸ h
  · split at hk
    · split at hk
      · exact except_pure_ok.mp hk ▸ h
      · exact except_pure_ok.mp hk ▸ h
      · exact except_pure_ok.mp hk ▸ h.addOver s' k.condition
    · exact except_pure_ok.mp hk ▸ h.addOver s' k.condition

theorem asks_addCondition {k : TimedCondition} (hs : span a d k.interval = .ok s)
    (hroom : s.lower < s.upper) (hk : addCondition a d t k = .ok t') : t'.Asks s k.condition := by
  simp only [Timeline.addCondition, except_bind_ok] at hk
  obtain ⟨s', hs', hk⟩ := hk
  obtain rfl : s = s' := by simpa using hs.symm.trans hs'
  have hne : s.lower ≠ s.upper := ne_of_lt hroom
  have hempty : s.isEmpty = false := by simp [Span.isEmpty, hne, not_lt.mpr hroom.le]
  simp only [hempty, Bool.false_eq_true, if_false, if_neg hne] at hk
  exact except_pure_ok.mp hk ▸ asks_addOver t s k.condition

theorem Asks.addEffect (h : t.Asks s c) {e : TimedEffect} (he : addEffect a d t e = .ok t') :
    t'.Asks s c := by
  simp only [Timeline.addEffect, except_bind_ok] at he
  obtain ⟨q, -, he⟩ := he
  split at he
  · exact except_pure_ok.mp he ▸ h
  · exact except_pure_ok.mp he ▸ h
  · exact except_pure_ok.mp he ▸ h.onSpan _ fun x c hc => hc

theorem Asks.addSimulated (h : t.Asks s c) {e : SimulatedEffect}
    (he : addSimulated a d t e = .ok t') : t'.Asks s c := by
  simp only [Timeline.addSimulated, except_bind_ok] at he
  obtain ⟨q, -, he⟩ := he
  cases hp : Place.ofOffset e.timing.anchor q d with
  | start =>
      simp only [hp] at he
      split at he
      · simp at he
      · exact except_pure_ok.mp he ▸ h
  | finish =>
      simp only [hp] at he
      split at he
      · simp at he
      · exact except_pure_ok.mp he ▸ h
  | inner =>
      simp only [hp] at he
      split at he
      · simp at he
      · exact except_pure_ok.mp he ▸ h.onSpan _ fun x c hc => hc

theorem Asks.addContinuous (h : t.Asks s c) {e : ContinuousEffect}
    (he : addContinuous a d t e = .ok t') : t'.Asks s c := by
  simp only [Timeline.addContinuous, except_bind_ok] at he
  obtain ⟨s', -, he⟩ := he
  split at he
  · exact except_pure_ok.mp he ▸ h
  · exact except_pure_ok.mp he ▸ h.onSpan _ fun x c hc => hc

theorem asks_ofAction {k : TimedCondition} (hk : k ∈ a.conditions)
    (hs : span a d k.interval = .ok s) (hroom : s.lower < s.upper) (h : ofAction a d = .ok t) :
    t.Asks s k.condition := by
  simp only [Timeline.ofAction, except_bind_ok] at h
  obtain ⟨t₁, h₁, t₂, h₂, t₃, h₃, h₄⟩ := h
  have hask : t₁.Asks s k.condition :=
    foldlM_reaches (f := addCondition a d) (P := fun t => Asks t s k.condition)
      (fun _ _ _ hx h => h.addCondition hx) hk (fun _ _ hx => asks_addCondition hs hroom hx) h₁
  have hask : t₂.Asks s k.condition := foldlM_keeps (f := addEffect a d)
    (P := fun t => Asks t s k.condition) (fun _ _ _ hx h => h.addEffect hx) h₂ hask
  have hask : t₃.Asks s k.condition := foldlM_keeps (f := addSimulated a d)
    (P := fun t => Asks t s k.condition) (fun _ _ _ hx h => h.addSimulated hx) h₃ hask
  exact foldlM_keeps (f := addContinuous a d)
    (P := fun t => Asks t s k.condition) (fun _ _ _ hx h => h.addContinuous hx) h₄ hask

end Timeline

structure Event.BelongsTo (activity : Activity) (e : Event) : Prop where
  activity : e.activity = activity
  fromEnd : e.fromEnd = false
  offset_start : e.kind = .startAction → e.offset = 0

section Events

open Timeline

variable {c : Clock} {activity : Activity} {n : Nat} {s : Span} {x : SpanContent}
  {entries : List (Span × SpanContent)} {e : Event} {es : List Event}

def spanInterval (c : Clock) (activity : Activity) (n : Nat) (s : Span) (x : SpanContent) :
    IntervalCondition :=
  ⟨c.next + n, activity, .conjunction x.conditions, s.lower, s.upper, s.leftOpen, s.rightOpen,
    x.continuousEffects, x.effects, x.simulated, s.label⟩

theorem spanEvents_eq : spanEvents c activity n s x =
    [.startCondition (c.place n activity (s.shifted c.epsilon).1 false ("open" ++ s.label))
        (spanInterval c activity n s x),
      .endCondition (c.place (n + 1) activity (s.shifted c.epsilon).2 false ("close" ++ s.label))
        (spanInterval c activity n s x)] := rfl

theorem numbered_spanEvents : Numbered (c.next + n) (spanEvents c activity n s x) :=
  Numbered.pair (i := spanInterval c activity n s x) rfl rfl

theorem numbered_innerEvents : Numbered (c.next + n) (innerEvents c activity n entries) := by
  induction entries generalizing n with
  | nil => exact .nil _
  | cons e entries ih =>
      have hrest : Numbered (c.next + (n + 2)) (innerEvents c activity (n + 2) entries) := ih
      rw [← Nat.add_assoc] at hrest
      exact numbered_spanEvents.append hrest

theorem belongs_innerEvents (he : e ∈ innerEvents c activity n entries) :
    e.BelongsTo activity := by
  induction entries generalizing n with
  | nil => simp [innerEvents] at he
  | cons y entries ih =>
      rcases List.mem_append.mp he with he | he
      · rcases List.mem_pair.mp he with rfl | rfl
        · exact ⟨rfl, rfl, nofun⟩
        · exact ⟨rfl, rfl, nofun⟩
      · exact ih he

theorem spanEvents_mem (c : Clock) (activity : Activity) (n : Nat) (hs : (s, x) ∈ entries) :
    ∃ m, ∀ e ∈ spanEvents c activity m s x, e ∈ innerEvents c activity n entries := by
  induction entries generalizing n with
  | nil => simp at hs
  | cons y entries ih =>
      rcases List.mem_cons.mp hs with rfl | hs
      · exact ⟨n, fun e he => List.mem_append_left _ he⟩
      · obtain ⟨m, hm⟩ := ih (n + 2) hs
        exact ⟨m, fun e he => List.mem_append_right _ (hm e he)⟩

variable {t : Timeline} {d : Rat}

theorem Timeline.events_perm (t : Timeline) (c : Clock) (activity : Activity) (d : Rat) :
    ∃ start finish : Event, (t.events c activity d).Perm
      ([start] ++ (innerEvents c activity 1 t.spans.entries ++ [finish])) ∧
      start.id = c.next ∧ start.interval? = none ∧ start.BelongsTo activity ∧
      finish.id = c.next + (1 + (innerEvents c activity 1 t.spans.entries).length) ∧
      finish.interval? = none ∧ finish.BelongsTo activity :=
  ⟨_, _, (List.mergeSort_perm _ _).cons _, rfl, rfl, ⟨rfl, rfl, fun _ => rfl⟩, rfl, rfl,
    ⟨rfl, rfl, nofun⟩⟩

theorem Timeline.numbered_events : Numbered c.next (t.events c activity d) := by
  obtain ⟨start, finish, hperm, hs, hsn, -, hf, hfn, -⟩ :=
    Timeline.events_perm t c activity d
  refine Numbered.of_perm ?_ hperm.symm
  rw [← Nat.add_assoc] at hf
  exact (Numbered.singleton hs hsn).append
    (numbered_innerEvents.append (Numbered.singleton hf hfn))

theorem Timeline.belongs_events (he : e ∈ t.events c activity d) : e.BelongsTo activity := by
  obtain ⟨start, finish, hperm, -, -, hs, -, -, hf⟩ :=
    Timeline.events_perm t c activity d
  rcases List.mem_append.mp (hperm.mem_iff.mp he) with he | he
  · exact List.mem_singleton.mp he ▸ hs
  · rcases List.mem_append.mp he with he | he
    · exact belongs_innerEvents he
    · exact List.mem_singleton.mp he ▸ hf

theorem Timeline.innerEvents_subset (he : e ∈ innerEvents c activity 1 t.spans.entries) :
    e ∈ t.events c activity d :=
  List.mem_cons_of_mem _ ((List.mergeSort_perm _ _).mem_iff.mpr (List.mem_append_left _ he))

variable {a : Action} {duration : Option Rat}

theorem numbered_instantaneous (a : InstantaneousAction) :
    Numbered c.next (a.events c activity) := by
  have h (start finish : Event) (hs : start.id = c.next) (hsn : start.interval? = none)
      (hf : finish.id = c.next + 1) (hfn : finish.interval? = none) :
      Numbered c.next [start, finish] :=
    (Numbered.singleton hs hsn).append (Numbered.singleton hf hfn)
  exact h _ _ rfl rfl rfl rfl

theorem belongs_instantaneous {a : InstantaneousAction} (he : e ∈ a.events c activity) :
    e.BelongsTo activity := by
  rcases List.mem_pair.mp he with rfl | rfl
  · exact ⟨rfl, rfl, fun _ => rfl⟩
  · exact ⟨rfl, rfl, nofun⟩

theorem DurativeAction.events_ok {b : DurativeAction} {d : Rat}
    (h : Action.events c activity (some d) (.durative b) = .ok es) :
    ∃ t, Timeline.ofAction b d = .ok t ∧ es = t.events c activity d := by
  simp only [Action.events] at h
  split at h
  · simp at h
  · obtain ⟨t, ht, h⟩ := except_bind_ok.mp h
    exact ⟨t, ht, (except_pure_ok.mp h).symm⟩

theorem Action.events_ok (h : a.events c activity duration = .ok es) :
    (∃ i, a = .instantaneous i ∧ es = i.events c activity) ∨
    ∃ b d t, a = .durative b ∧ duration = some d ∧ Timeline.ofAction b d = .ok t ∧
      es = t.events c activity d := by
  cases a with
  | instantaneous i =>
      cases duration with
      | none => exact .inl ⟨i, rfl, by simpa [Action.events] using h.symm⟩
      | some d =>
          simp only [Action.events] at h
          split at h
          · exact .inl ⟨i, rfl, by simpa using h.symm⟩
          · simp at h
  | durative b =>
      cases duration with
      | none => simp [Action.events] at h
      | some d =>
          obtain ⟨t, ht, rfl⟩ := DurativeAction.events_ok h
          exact .inr ⟨b, d, t, rfl, rfl, ht, rfl⟩

theorem Action.numbered_events (h : a.events c activity duration = .ok es) :
    Numbered c.next es := by
  rcases Action.events_ok h with ⟨i, -, rfl⟩ | ⟨b, d, t, -, -, -, rfl⟩
  · exact numbered_instantaneous i
  · exact Timeline.numbered_events

theorem Action.belongs_events (h : a.events c activity duration = .ok es) (he : e ∈ es) :
    e.BelongsTo activity := by
  rcases Action.events_ok h with ⟨i, -, rfl⟩ | ⟨b, d, t, -, -, -, rfl⟩
  · exact belongs_instantaneous he
  · exact Timeline.belongs_events he

theorem committed_innerEvents (he : e ∈ innerEvents c activity n entries) : e.committed = [] := by
  induction entries generalizing n with
  | nil => simp [innerEvents] at he
  | cons y entries ih =>
      rcases List.mem_append.mp he with he | he
      · rcases List.mem_pair.mp he with rfl | rfl
        · rfl
        · rfl
      · exact ih he

theorem Action.committed_events (h : a.events c activity duration = .ok es) (he : e ∈ es) :
    e.committed = [] ∨ (∀ f ∈ e.committed, f ∈ es) ∧ e.offset = 0 := by
  rcases Action.events_ok h with ⟨i, -, rfl⟩ | ⟨b, d, t, -, -, -, rfl⟩
  · rcases List.mem_pair.mp he with rfl | rfl
    · exact .inr ⟨fun f hf => List.mem_cons_of_mem _ hf, rfl⟩
    · exact .inl rfl
  · rcases List.mem_cons.mp he with rfl | he
    · exact .inr ⟨fun f hf => List.mem_cons_of_mem _ hf, rfl⟩
    · refine .inl ?_
      rcases List.mem_append.mp ((List.mergeSort_perm _ _).mem_iff.mp he) with he | he
      · exact committed_innerEvents he
      · rw [List.mem_singleton.mp he]
        rfl

theorem Action.condition_events {b : DurativeAction} {k : TimedCondition}
    (h : Action.events c activity (some d) (.durative b) = .ok es) (hk : k ∈ b.conditions)
    (hs : Timeline.span b d k.interval = .ok s) (hroom : s.lower < s.upper) :
    ∃ p q i cs, .startCondition p i ∈ es ∧ .endCondition q i ∈ es ∧ i.activity = activity ∧
      i.rightOpen = s.rightOpen ∧ i.leftOpen = s.leftOpen ∧
      (p.offset, q.offset) = s.shifted c.epsilon ∧ i.condition = .conjunction cs ∧
      k.condition ∈ cs := by
  obtain ⟨t, ht, rfl⟩ := DurativeAction.events_ok h
  obtain ⟨x, hx, hmem⟩ := asks_ofAction hk hs hroom ht
  obtain ⟨m, hm⟩ := spanEvents_mem c activity 1 (OrderedMap.mem_entries_iff.mpr hx)
  rw [spanEvents_eq, List.forall_mem_cons, List.forall_mem_singleton] at hm
  exact ⟨_, _, spanInterval c activity m s x, x.conditions,
    Timeline.innerEvents_subset hm.1, Timeline.innerEvents_subset hm.2,
    rfl, rfl, rfl, rfl, rfl, hmem⟩

end Events

end TemporalPlanning
