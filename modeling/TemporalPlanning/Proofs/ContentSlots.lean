import TemporalPlanning.Proofs.ActivityEvents

namespace TemporalPlanning

def Timing.under (t : Timing) (d : Rat) : Rat :=
  match t.anchor with
  | .finish => d - t.delay
  | _ => t.delay

def Interval.under (i : Interval) (d : Rat) : Span :=
  ⟨i.lower.under d, i.upper.under d, i.leftOpen, i.rightOpen⟩

inductive Slot where
  | start
  | finish
  | inner (s : Span)
  deriving DecidableEq

namespace Span

theorem isEmpty_instant (q : Rat) : (instant q).isEmpty = false := by
  simp [instant, isEmpty]

theorem instant_of_point {s : Span} (h : s.isEmpty = false) (hpoint : s.lower = s.upper) :
    s = .instant s.lower := by
  obtain ⟨l, u, lo, ro⟩ := s
  obtain rfl : l = u := hpoint
  simp only [isEmpty, lt_irrefl, decide_false, Bool.false_or, decide_true, Bool.true_and,
    Bool.or_eq_false_iff] at h
  obtain ⟨rfl, rfl⟩ := h
  rfl

end Span

namespace TimedCondition

section Stations

variable (k : TimedCondition) (d : Rat)

def AtStart : Prop :=
  k.interval.under d = .instant 0 ∧ (d = 0 → k.interval.lower.anchor ≠ .finish)

def AtEnd : Prop :=
  k.interval.under d = .instant d ∧ (d = 0 → k.interval.lower.anchor = .finish)

def Over : Prop :=
  (k.interval.under d).isEmpty = false ∧
    k.interval.under d ≠ .instant 0 ∧ k.interval.under d ≠ .instant d

def FromStart : Prop :=
  k.Over d ∧ k.interval.leftOpen = false ∧ k.interval.lower.under d = 0

instance : Decidable (k.AtStart d) := inferInstanceAs (Decidable (_ ∧ (_ → _)))

instance : Decidable (k.AtEnd d) := inferInstanceAs (Decidable (_ ∧ (_ → _)))

instance : Decidable (k.Over d) := inferInstanceAs (Decidable (_ ∧ _))

instance : Decidable (k.FromStart d) := inferInstanceAs (Decidable (_ ∧ _))

def BelongsTo : Slot → Prop
  | .start => k.AtStart d ∨ k.FromStart d
  | .finish => k.AtEnd d
  | .inner s => k.Over d ∧ k.interval.under d = s

instance (st : Slot) : Decidable (k.BelongsTo d st) :=
  match st with
  | .start => inferInstanceAs (Decidable (_ ∨ _))
  | .finish => inferInstanceAs (Decidable (k.AtEnd d))
  | .inner _ => inferInstanceAs (Decidable (_ ∧ _))

end Stations

variable {k : TimedCondition} {d : Rat} {st : Slot}

theorem AtStart.not_atEnd (h : k.AtStart d) : ¬ k.AtEnd d := by
  intro hend
  have hd : (0 : Rat) = d := congrArg Span.lower (h.1.symm.trans hend.1)
  exact h.2 hd.symm (hend.2 hd.symm)

theorem AtStart.not_over (h : k.AtStart d) : ¬ k.Over d := fun hover => hover.2.1 h.1

theorem AtEnd.not_over (h : k.AtEnd d) : ¬ k.Over d := fun hover => hover.2.2 h.1

theorem BelongsTo.nonempty (h : k.BelongsTo d st) : (k.interval.under d).isEmpty = false := by
  cases st with
  | start =>
      rcases h with hstart | hfrom
      · rw [hstart.1, Span.isEmpty_instant]
      · exact hfrom.1.1
  | finish =>
      have hend : k.AtEnd d := h
      rw [hend.1, Span.isEmpty_instant]
  | inner s => exact h.1.1

theorem routed (h : (k.interval.under d).isEmpty = false) :
    (k.AtStart d ∧ ¬ k.AtEnd d ∧ ¬ k.Over d) ∨ (k.AtEnd d ∧ ¬ k.AtStart d ∧ ¬ k.Over d) ∨
      (k.Over d ∧ ¬ k.AtStart d ∧ ¬ k.AtEnd d) := by
  have hplace : k.AtStart d ∨ k.AtEnd d ∨ k.Over d := by
    by_cases hzero : k.interval.under d = .instant 0
    · by_cases hend : d = 0 ∧ k.interval.lower.anchor = .finish
      · exact .inr (.inl ⟨hzero.trans (congrArg _ hend.1.symm), fun _ => hend.2⟩)
      · exact .inl ⟨hzero, not_and.mp hend⟩
    · by_cases hd : k.interval.under d = .instant d
      · exact .inr (.inl ⟨hd, fun hd' => absurd (hd.trans (congrArg _ hd')) hzero⟩)
      · exact .inr (.inr ⟨h, hzero, hd⟩)
  rcases hplace with hstart | hend | hover
  · exact .inl ⟨hstart, hstart.not_atEnd, hstart.not_over⟩
  · exact .inr (.inl ⟨hend, fun hstart => hstart.not_atEnd hend, hend.not_over⟩)
  · exact .inr (.inr ⟨hover, fun h => h.not_over hover, fun h => h.not_over hover⟩)

end TimedCondition

namespace ContinuousEffect

def BelongsTo (x : ContinuousEffect) (d : Rat) : Slot → Prop
  | .inner s => (x.interval.under d).isEmpty = false ∧ x.interval.under d = s
  | _ => False

instance (x : ContinuousEffect) (d : Rat) (st : Slot) : Decidable (x.BelongsTo d st) :=
  match st with
  | .start => inferInstanceAs (Decidable False)
  | .finish => inferInstanceAs (Decidable False)
  | .inner _ => inferInstanceAs (Decidable (_ ∧ _))

end ContinuousEffect

namespace Place

variable {anchor : Anchor} {q d : Rat}

theorem start_iff : ofOffset anchor q d = .start ↔ q = 0 ∧ (d = 0 → anchor ≠ .finish) := by
  unfold ofOffset
  grind

theorem finish_iff : ofOffset anchor q d = .finish ↔ q = d ∧ (d = 0 → anchor = .finish) := by
  unfold ofOffset
  grind

theorem inner_iff : ofOffset anchor q d = .inner ↔ q ≠ 0 ∧ q ≠ d := by
  unfold ofOffset
  grind

def slot (q : Rat) : Place → Slot
  | .start => .start
  | .finish => .finish
  | .inner => .inner (.instant q)

end Place

def Timing.slot (t : Timing) (d : Rat) : Slot :=
  (Place.ofOffset t.anchor (t.under d) d).slot (t.under d)

variable {a : DurativeAction} {d q : Rat}

theorem DurativeAction.offset_eq {t : Timing} (h : a.offset d t = .ok q) : q = t.under d := by
  unfold DurativeAction.offset at h
  unfold Timing.under
  dsimp only at h
  cases hanchor : t.anchor with
  | start =>
      simp only [hanchor] at h
      split at h
      · simp at h
      · exact (Except.ok.inj h).symm
  | finish =>
      simp only [hanchor] at h
      split at h
      · simp at h
      · exact (Except.ok.inj h).symm
  | planStart => simp [hanchor] at h
  | planEnd => simp [hanchor] at h

namespace Timeline

variable {t t' : Timeline} {s : Span}

theorem span_eq {i : Interval} (h : span a d i = .ok s) : s = i.under d := by
  simp only [span, except_bind_ok, except_pure_ok] at h
  obtain ⟨l, hl, u, hu, rfl⟩ := h
  rw [DurativeAction.offset_eq hl, DurativeAction.offset_eq hu]
  rfl

def content (t : Timeline) : Slot → SpanContent
  | .start => ⟨t.start.conditions, [], t.start.effects, t.start.simulated⟩
  | .finish => ⟨t.finish.conditions, [], t.finish.effects, t.finish.simulated⟩
  | .inner s => t.at? s

theorem content_empty (st : Slot) : Timeline.empty.content st = .empty := by
  cases st <;> rfl

theorem content_onSpan (t : Timeline) (s : Span) (f : SpanContent → SpanContent) (st : Slot) :
    (t.onSpan s f).content st = if .inner s = st then f (t.content st) else t.content st := by
  cases st with
  | start => rfl
  | finish => rfl
  | inner s' =>
      by_cases h : s = s'
      · subst h
        simp [content, onSpan, at?]
      · simp [content, onSpan, at?, h, Ne.symm h]

theorem content_onStart (t : Timeline) (c : Expr) (st : Slot) : (t.onStart c).content st =
    if st = .start then { t.content st with conditions := (t.content st).conditions ++ [c] }
    else t.content st := by
  cases st <;> rfl

theorem content_addOver (t : Timeline) (s : Span) (c : Expr) (st : Slot) :
    (t.addOver s c).content st =
      if .inner s = st ∨ st = .start ∧ s.leftOpen = false ∧ s.lower = 0 then
        { t.content st with conditions := (t.content st).conditions ++ [c] }
      else t.content st := by
  unfold addOver
  by_cases hfrom : s.leftOpen = false ∧ s.lower = 0
  · rw [if_pos (by simpa using hfrom), content_onSpan, content_onStart]
    cases st <;> simp [hfrom]
  · rw [if_neg (by simpa using hfrom), content_onSpan]
    simp [hfrom]

theorem addCondition_of_empty {k : TimedCondition} (hempty : (k.interval.under d).isEmpty = true)
    (h : addCondition a d t k = .ok t') : t' = t := by
  simp only [addCondition, except_bind_ok] at h
  obtain ⟨s, hs, h⟩ := h
  obtain rfl := span_eq hs
  rw [if_pos hempty] at h
  exact (except_pure_ok.mp h).symm

theorem addCondition_cases {k : TimedCondition} (h : addCondition a d t k = .ok t') :
    ((k.interval.under d).isEmpty = true ∧ t' = t) ∨
    (k.AtStart d ∧ t' = t.onStart k.condition) ∨
    (k.AtEnd d ∧ t' = t.onFinish k.condition) ∨
    (k.Over d ∧ t' = t.addOver (k.interval.under d) k.condition) := by
  by_cases hempty : (k.interval.under d).isEmpty = true
  · exact .inl ⟨hempty, addCondition_of_empty hempty h⟩
  · simp only [addCondition, except_bind_ok] at h
    obtain ⟨s, hs, h⟩ := h
    obtain rfl := span_eq hs
    rw [if_neg hempty] at h
    have hempty : (k.interval.under d).isEmpty = false := Bool.eq_false_iff.mpr hempty
    -- a point is placed by the anchor of its lower end, all else lies over its interval
    apply Or.inr
    by_cases hpoint : (k.interval.under d).lower = (k.interval.under d).upper
    · have hinstant := Span.instant_of_point hempty hpoint
      rw [if_pos hpoint] at h
      cases hplace : Place.ofOffset k.interval.lower.anchor (k.interval.under d).lower d with
      | start =>
          obtain ⟨hzero, hanchor⟩ := Place.start_iff.mp hplace
          simp only [hplace] at h
          exact .inl ⟨⟨hzero ▸ hinstant, hanchor⟩, (except_pure_ok.mp h).symm⟩
      | finish =>
          obtain ⟨hd, hanchor⟩ := Place.finish_iff.mp hplace
          simp only [hplace] at h
          have hinstant : k.interval.under d = .instant d := hinstant.trans (congrArg _ hd)
          exact .inr (.inl ⟨⟨hinstant, hanchor⟩, (except_pure_ok.mp h).symm⟩)
      | inner =>
          obtain ⟨hzero, hd⟩ := Place.inner_iff.mp hplace
          simp only [hplace] at h
          refine .inr (.inr ⟨⟨hempty, ?_, ?_⟩, (except_pure_ok.mp h).symm⟩)
          · intro hs
            exact hzero (congrArg Span.lower hs)
          · intro hs
            exact hd (congrArg Span.lower hs)
    · rw [if_neg hpoint] at h
      refine .inr (.inr ⟨⟨hempty, ?_, ?_⟩, (except_pure_ok.mp h).symm⟩)
      · intro hs
        exact hpoint (hs ▸ rfl)
      · intro hs
        exact hpoint (hs ▸ rfl)

theorem content_addCondition {k : TimedCondition} (h : addCondition a d t k = .ok t')
    (st : Slot) : t'.content st = if k.BelongsTo d st then
      { t.content st with conditions := (t.content st).conditions ++ [k.condition] }
    else t.content st := by
  rcases addCondition_cases h with ⟨hempty, rfl⟩ | ⟨hstart, rfl⟩ | ⟨hend, rfl⟩ | ⟨hover, rfl⟩
  · rw [if_neg]
    intro hk
    exact Bool.false_ne_true (hk.nonempty.symm.trans hempty)
  · cases st with
    | start => exact (if_pos (Or.inl hstart)).symm
    | finish => exact (if_neg hstart.not_atEnd).symm
    | inner s => exact (if_neg fun hk => hstart.not_over hk.1).symm
  · cases st with
    | start =>
        refine (if_neg ?_).symm
        rintro (hstart | hfrom)
        · exact hstart.not_atEnd hend
        · exact hend.not_over hfrom.1
    | finish => exact (if_pos hend).symm
    | inner s => exact (if_neg fun hk => hend.not_over hk.1).symm
  · rw [content_addOver]
    refine if_congr ?_ rfl rfl
    cases st with
    | start =>
        have hstart : ¬ k.AtStart d := fun hk => hk.not_over hover
        simp [TimedCondition.BelongsTo, TimedCondition.FromStart, hover, hstart, Interval.under]
    | finish =>
        have hend : ¬ k.AtEnd d := fun hk => hk.not_over hover
        simp [TimedCondition.BelongsTo, hend]
    | inner s => simp [TimedCondition.BelongsTo, hover]

theorem content_addEffect {e : TimedEffect} (h : addEffect a d t e = .ok t') (st : Slot) :
    t'.content st = if e.timing.slot d = st then
      { t.content st with effects := (t.content st).effects ++ [e.effect] }
    else t.content st := by
  simp only [addEffect, except_bind_ok] at h
  obtain ⟨q, hq, h⟩ := h
  obtain rfl := DurativeAction.offset_eq hq
  unfold Timing.slot
  cases hplace : Place.ofOffset e.timing.anchor (e.timing.under d) d with
  | start =>
      simp only [hplace] at h
      obtain rfl := except_pure_ok.mp h
      cases st <;> rfl
  | finish =>
      simp only [hplace] at h
      obtain rfl := except_pure_ok.mp h
      cases st <;> rfl
  | inner =>
      simp only [hplace] at h
      obtain rfl := except_pure_ok.mp h
      exact content_onSpan t (.instant (e.timing.under d)) _ st

theorem content_addSimulated {e : SimulatedEffect} (h : addSimulated a d t e = .ok t') :
    (t.content (e.timing.slot d)).simulated = none ∧ ∀ st, t'.content st =
      if e.timing.slot d = st then { t.content st with simulated := some e }
      else t.content st := by
  simp only [addSimulated, except_bind_ok] at h
  obtain ⟨q, hq, h⟩ := h
  obtain rfl := DurativeAction.offset_eq hq
  unfold Timing.slot
  cases hplace : Place.ofOffset e.timing.anchor (e.timing.under d) d with
  | start =>
      simp only [hplace] at h
      split at h
      · simp at h
      · rename_i hfree
        obtain rfl := except_pure_ok.mp h
        exact ⟨hfree, fun st => by cases st <;> rfl⟩
  | finish =>
      simp only [hplace] at h
      split at h
      · simp at h
      · rename_i hfree
        obtain rfl := except_pure_ok.mp h
        exact ⟨hfree, fun st => by cases st <;> rfl⟩
  | inner =>
      simp only [hplace] at h
      split at h
      · simp at h
      · rename_i hfree
        obtain rfl := except_pure_ok.mp h
        exact ⟨hfree, content_onSpan t (.instant (e.timing.under d)) _⟩

theorem addContinuous_of_empty {x : ContinuousEffect}
    (hempty : (x.interval.under d).isEmpty = true) (h : addContinuous a d t x = .ok t') :
    t' = t := by
  simp only [addContinuous, except_bind_ok] at h
  obtain ⟨s, hs, h⟩ := h
  obtain rfl := span_eq hs
  rw [if_pos hempty] at h
  exact (except_pure_ok.mp h).symm

theorem content_addContinuous {x : ContinuousEffect} (h : addContinuous a d t x = .ok t')
    (st : Slot) : t'.content st = if x.BelongsTo d st then
      { t.content st with continuousEffects := (t.content st).continuousEffects ++ [x] }
    else t.content st := by
  by_cases hempty : (x.interval.under d).isEmpty = true
  · rw [addContinuous_of_empty hempty h, if_neg]
    cases st <;> simp [ContinuousEffect.BelongsTo, hempty]
  · simp only [addContinuous, except_bind_ok] at h
    obtain ⟨s, hs, h⟩ := h
    obtain rfl := span_eq hs
    rw [if_neg hempty] at h
    obtain rfl := except_pure_ok.mp h
    rw [content_onSpan]
    apply if_congr ?_ rfl rfl
    cases st <;> simp [ContinuousEffect.BelongsTo, hempty]

structure Collects (d : Rat) (ks : List TimedCondition) (es : List TimedEffect)
    (ss : List SimulatedEffect) (xs : List ContinuousEffect) (t : Timeline) : Prop where
  conditions : ∀ st, (t.content st).conditions =
    (ks.filter fun k => k.BelongsTo d st).map (·.condition)
  effects : ∀ st, (t.content st).effects =
    (es.filter fun e => e.timing.slot d = st).map (·.effect)
  simulated : ∀ st, (t.content st).simulated.toList = ss.filter fun e => e.timing.slot d = st
  continuous : ∀ st, (t.content st).continuousEffects = xs.filter fun x => x.BelongsTo d st

variable {ks : List TimedCondition} {es : List TimedEffect} {ss : List SimulatedEffect}
  {xs : List ContinuousEffect}

theorem collects_empty : Collects d [] [] [] [] Timeline.empty where
  conditions st := by rw [content_empty]; rfl
  effects st := by rw [content_empty]; rfl
  simulated st := by rw [content_empty]; rfl
  continuous st := by rw [content_empty]; rfl

namespace Collects

theorem addCondition (h : Collects d ks es ss xs t) {k : TimedCondition}
    (hk : t.addCondition a d k = .ok t') : Collects d (ks ++ [k]) es ss xs t' where
  conditions st := by
    rw [content_addCondition hk, List.filter_append, List.map_append, ← h.conditions st]
    by_cases hst : k.BelongsTo d st <;> simp [hst]
  effects st := by rw [content_addCondition hk, ← h.effects st]; split <;> rfl
  simulated st := by rw [content_addCondition hk, ← h.simulated st]; split <;> rfl
  continuous st := by rw [content_addCondition hk, ← h.continuous st]; split <;> rfl

theorem addEffect (h : Collects d ks es ss xs t) {e : TimedEffect}
    (he : t.addEffect a d e = .ok t') : Collects d ks (es ++ [e]) ss xs t' where
  conditions st := by rw [content_addEffect he, ← h.conditions st]; split <;> rfl
  effects st := by
    rw [content_addEffect he, List.filter_append, List.map_append, ← h.effects st]
    by_cases hst : e.timing.slot d = st <;> simp [hst]
  simulated st := by rw [content_addEffect he, ← h.simulated st]; split <;> rfl
  continuous st := by rw [content_addEffect he, ← h.continuous st]; split <;> rfl

theorem addSimulated (h : Collects d ks es ss xs t) {e : SimulatedEffect}
    (he : t.addSimulated a d e = .ok t') : Collects d ks es (ss ++ [e]) xs t' where
  conditions st := by rw [(content_addSimulated he).2, ← h.conditions st]; split <;> rfl
  effects st := by rw [(content_addSimulated he).2, ← h.effects st]; split <;> rfl
  simulated st := by
    obtain ⟨hfree, hcontent⟩ := content_addSimulated he
    rw [hcontent, List.filter_append, ← h.simulated st]
    by_cases hst : e.timing.slot d = st
    · subst hst
      simp [hfree]
    · simp [hst]
  continuous st := by rw [(content_addSimulated he).2, ← h.continuous st]; split <;> rfl

theorem addContinuous (h : Collects d ks es ss xs t) {x : ContinuousEffect}
    (hx : t.addContinuous a d x = .ok t') : Collects d ks es ss (xs ++ [x]) t' where
  conditions st := by rw [content_addContinuous hx, ← h.conditions st]; split <;> rfl
  effects st := by rw [content_addContinuous hx, ← h.effects st]; split <;> rfl
  simulated st := by rw [content_addContinuous hx, ← h.simulated st]; split <;> rfl
  continuous st := by
    rw [content_addContinuous hx, List.filter_append, ← h.continuous st]
    by_cases hst : x.BelongsTo d st <;> simp [hst]

end Collects

theorem foldlM_collects {α β ε : Type} {f : α → β → Except ε α} {R : List β → α → Prop}
    (hf : ∀ seen a x b, f a x = .ok b → R seen a → R (seen ++ [x]) b) {seen rest : List β}
    {a b : α} (h : rest.foldlM f a = .ok b) (ha : R seen a) : R (seen ++ rest) b := by
  induction rest generalizing seen a with
  | nil =>
      obtain rfl := except_pure_ok.mp h
      rwa [List.append_nil]
  | cons x rest ih =>
      rw [List.foldlM_cons, except_bind_ok] at h
      obtain ⟨next, hx, h⟩ := h
      have hrest := ih h (hf seen a x next hx ha)
      rwa [List.append_assoc] at hrest

theorem collects_ofAction (h : ofAction a d = .ok t) :
    t.Collects d a.conditions a.effects a.simulatedEffects a.continuousEffects := by
  simp only [Timeline.ofAction, except_bind_ok] at h
  obtain ⟨t₁, h₁, t₂, h₂, t₃, h₃, h₄⟩ := h
  have ht₁ : t₁.Collects d a.conditions [] [] [] :=
    foldlM_collects (R := fun ks t => Collects d ks [] [] [] t)
      (fun _ _ _ _ hk h => h.addCondition hk) h₁ collects_empty
  have ht₂ : t₂.Collects d a.conditions a.effects [] [] :=
    foldlM_collects (R := fun es t => Collects d a.conditions es [] [] t)
      (fun _ _ _ _ he h => h.addEffect he) h₂ ht₁
  have ht₃ : t₃.Collects d a.conditions a.effects a.simulatedEffects [] :=
    foldlM_collects (R := fun ss t => Collects d a.conditions a.effects ss [] t)
      (fun _ _ _ _ he h => h.addSimulated he) h₃ ht₂
  exact foldlM_collects
    (R := fun xs t => Collects d a.conditions a.effects a.simulatedEffects xs t)
    (fun _ _ _ _ hx h => h.addContinuous hx) h₄ ht₃

end Timeline

end TemporalPlanning
