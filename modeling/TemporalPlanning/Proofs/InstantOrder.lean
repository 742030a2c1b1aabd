import TemporalPlanning.Proofs.CarriedContents

namespace TemporalPlanning

section Naming

variable {α : Type} [DecidableEq α]

theorem find?_pair_iff {l : List α} {x y : α} (hne : x ≠ y) :
    l.find? (fun z => z = x ∨ z = y) = some x ↔ l.idxOf x < l.idxOf y := by
  induction l with
  | nil => simp
  | cons z l ih =>
      by_cases hx : z = x
      · subst hx
        simp [hne]
      · by_cases hy : z = y
        · subst hy
          simp [hx]
        · simpa [hx, hy] using ih

theorem OrderedMap.find?_keys_put {ν : Type} (m : OrderedMap α ν) (k : α) (v : ν) (P : α → Bool) :
    (m.put k v).keys.find? P = (m.keys ++ [k]).find? P := by
  rw [OrderedMap.keys_put]
  split
  · rename_i hk
    rw [List.find?_append]
    cases hfind : m.keys.find? P with
    | some x => rfl
    | none =>
        have hno : P k = false := by simpa using List.find?_eq_none.mp hfind k hk
        simp [hno]
  · rfl

end Naming

def spansOver (d : Rat) (ks : List TimedCondition) : List Span :=
  (ks.filter fun k => k.Over d).map fun k => k.interval.under d

def DurativeAction.NamesBefore (a : DurativeAction) (d : Rat) (s s' : Span) : Prop :=
  (spansOver d a.conditions).idxOf s < (spansOver d a.conditions).idxOf s'

namespace Timeline

variable {a : DurativeAction} {d q : Rat} {t t' : Timeline} {s s' : Span}

theorem spans_addOver (t : Timeline) (s : Span) (c : Expr) :
    ∃ x, (t.addOver s c).spans = t.spans.put s x := by
  unfold addOver
  split
  · exact ⟨_, rfl⟩
  · exact ⟨_, rfl⟩

def InOrderOf (t : Timeline) (named : List Span) : Prop :=
  ∀ P : Span → Bool, t.spans.keys.find? P = named.find? P

theorem inOrderOf_empty : empty.InOrderOf (spansOver d []) := fun _ => rfl

theorem InOrderOf.addCondition {ks : List TimedCondition} (h : t.InOrderOf (spansOver d ks))
    {k : TimedCondition} (hk : t.addCondition a d k = .ok t') :
    t'.InOrderOf (spansOver d (ks ++ [k])) := by
  have hskip (hover : ¬ k.Over d) : t.InOrderOf (spansOver d (ks ++ [k])) := by
    simpa [spansOver, hover] using h
  rcases addCondition_cases hk with ⟨hempty, rfl⟩ | ⟨hstart, rfl⟩ | ⟨hend, rfl⟩ | ⟨hover, rfl⟩
  · exact hskip fun hover => Bool.false_ne_true (hover.1.symm.trans hempty)
  · exact hskip hstart.not_over
  · exact hskip hend.not_over
  · intro P
    have hnamed : spansOver d (ks ++ [k]) = spansOver d ks ++ [k.interval.under d] := by
      simp [spansOver, hover]
    obtain ⟨x, hspans⟩ := spans_addOver t (k.interval.under d) k.condition
    rw [hspans, OrderedMap.find?_keys_put, hnamed, List.find?_append, List.find?_append, h P]

theorem inOrderOf_conditions {ks : List TimedCondition}
    (h : ks.foldlM (addCondition a d) empty = .ok t) : t.InOrderOf (spansOver d ks) :=
  foldlM_collects (R := fun ks t => InOrderOf t (spansOver d ks))
    (fun _ _ _ _ hk ht => ht.addCondition hk) h inOrderOf_empty

theorem prefix_onSpan (t : Timeline) (s : Span) (f : SpanContent → SpanContent) :
    t.spans.keys <+: (t.onSpan s f).spans.keys := by
  rw [onSpan, OrderedMap.keys_put]
  split
  · exact List.prefix_rfl
  · exact List.prefix_append _ _

theorem prefix_addEffect {e : TimedEffect} (h : addEffect a d t e = .ok t') :
    t.spans.keys <+: t'.spans.keys := by
  simp only [addEffect, except_bind_ok] at h
  obtain ⟨q, -, h⟩ := h
  split at h
  · exact except_pure_ok.mp h ▸ List.prefix_rfl
  · exact except_pure_ok.mp h ▸ List.prefix_rfl
  · exact except_pure_ok.mp h ▸ prefix_onSpan t _ _

theorem prefix_addSimulated {e : SimulatedEffect} (h : addSimulated a d t e = .ok t') :
    t.spans.keys <+: t'.spans.keys := by
  simp only [addSimulated, except_bind_ok] at h
  obtain ⟨q, -, h⟩ := h
  cases hplace : Place.ofOffset e.timing.anchor q d with
  | start =>
      simp only [hplace] at h
      split at h
      · simp at h
      · exact except_pure_ok.mp h ▸ List.prefix_rfl
  | finish =>
      simp only [hplace] at h
      split at h
      · simp at h
      · exact except_pure_ok.mp h ▸ List.prefix_rfl
  | inner =>
      simp only [hplace] at h
      split at h
      · simp at h
      · exact except_pure_ok.mp h ▸ prefix_onSpan t _ _

theorem prefix_addContinuous {x : ContinuousEffect} (h : addContinuous a d t x = .ok t') :
    t.spans.keys <+: t'.spans.keys := by
  simp only [addContinuous, except_bind_ok] at h
  obtain ⟨s, -, h⟩ := h
  split at h
  · exact except_pure_ok.mp h ▸ List.prefix_rfl
  · exact except_pure_ok.mp h ▸ prefix_onSpan t _ _

theorem find?_ofAction (h : ofAction a d = .ok t) {P : Span → Bool} (hs : P s = true)
    (hover : s ∈ spansOver d a.conditions) :
    t.spans.keys.find? P = (spansOver d a.conditions).find? P := by
  simp only [ofAction, except_bind_ok] at h
  obtain ⟨t₁, h₁, t₂, h₂, t₃, h₃, h₄⟩ := h
  have hlater : t₁.spans.keys <+: t₂.spans.keys := foldlM_keeps (f := addEffect a d)
    (P := fun t => t₁.spans.keys <+: t.spans.keys)
    (fun _ _ _ hx h => h.trans (prefix_addEffect hx)) h₂ List.prefix_rfl
  have hlater : t₁.spans.keys <+: t₃.spans.keys := foldlM_keeps (f := addSimulated a d)
    (P := fun t => t₁.spans.keys <+: t.spans.keys)
    (fun _ _ _ hx h => h.trans (prefix_addSimulated hx)) h₃ hlater
  have hlater : t₁.spans.keys <+: t.spans.keys := foldlM_keeps (f := addContinuous a d)
    (P := fun t => t₁.spans.keys <+: t.spans.keys)
    (fun _ _ _ hx h => h.trans (prefix_addContinuous hx)) h₄ hlater
  have hfirst := inOrderOf_conditions h₁ P
  cases hfind : (spansOver d a.conditions).find? P with
  | none => exact absurd hs (by simpa using List.find?_eq_none.mp hfind s hover)
  | some u => exact hlater.find?_eq_some (hfirst.trans hfind)

theorem idxOf_lt_iff (h : ofAction a d = .ok t) (hover : s ∈ spansOver d a.conditions) :
    t.spans.keys.idxOf s < t.spans.keys.idxOf s' ↔ a.NamesBefore d s s' := by
  by_cases hne : s = s'
  · subst hne
    simp [DurativeAction.NamesBefore]
  · rw [DurativeAction.NamesBefore, ← find?_pair_iff hne, ← find?_pair_iff hne,
      find?_ofAction h (by simp) hover]

end Timeline

section Closings

open Timeline

variable {c : Clock} {activity : Activity} {n : Nat} {d : Rat}
  {entries : List (Span × SpanContent)} {p : Placement} {i : IntervalCondition}

theorem id_closing (hnodup : (entries.map Prod.fst).Nodup)
    (hp : .endCondition p i ∈ innerEvents c activity n entries) :
    p.id = c.next + n + 2 * (entries.map Prod.fst).idxOf i.span + 1 := by
  induction entries generalizing n with
  | nil => simp [innerEvents] at hp
  | cons e entries ih =>
      obtain ⟨s, x⟩ := e
      rw [List.map_cons] at hnodup ⊢
      obtain ⟨hs, hnodup⟩ := List.nodup_cons.mp hnodup
      rcases List.mem_append.mp hp with hown | hlater
      · rw [spanEvents_eq] at hown
        obtain ⟨rfl, rfl⟩ : p = c.place (n + 1) activity (s.shifted c.epsilon).2 false
            ("close" ++ s.label) ∧ i = spanInterval c activity n s x := by simpa using hown
        have hspan : (spanInterval c activity n s x).span = s := rfl
        rw [hspan, List.idxOf_cons_self]
        rfl
      · have hid := ih hnodup hlater
        have hne : s ≠ i.span := by
          rintro rfl
          obtain ⟨q, hq⟩ := numbered_innerEvents.paired.opened p i hlater
          exact hs (opening_innerEvents hq).1
        rw [List.idxOf_cons_ne _ hne]
        omega

end Closings

section Order

variable {e x : Event} {front back : List Event}

theorem Event.key_lt_iff (hoffset : e.offset = x.offset) (hkind : e.kind = x.kind) :
    e.key < x.key ↔ e.id < x.id := by
  simp [Event.key, Prod.Lex.toLex_lt_toLex, hoffset, hkind]

theorem mem_front_iff (h : (front ++ x :: back).Pairwise fun e f => e.key < f.key)
    (he : e ∈ front ++ back) : e ∈ front ↔ e.key < x.key := by
  obtain ⟨-, hback, hfront⟩ := List.pairwise_append.mp h
  constructor
  · intro he
    exact hfront e he x List.mem_cons_self
  · intro hlt
    refine (List.mem_append.mp he).resolve_right fun he => ?_
    exact lt_asymm hlt (List.rel_of_pairwise_cons hback he)

end Order

section Instants

variable {c : Clock} {activity : Activity} {a : DurativeAction} {d q : Rat} {t : Timeline}
  {es : List Event}

theorem Timing.slot_instant {x : Timing} (hq : 0 < q) (hqd : q < d) :
    x.slot d = .inner (.instant q) ↔ x.under d = q := by
  constructor
  · intro h
    have hoffset := x.offset_slot (d := d) (ε := 0)
    rw [h] at hoffset
    exact hoffset.symm.trans (congrArg Prod.snd (Span.shifted_instant q 0))
  · intro h
    have hplace : Place.ofOffset x.anchor q d = .inner :=
      Place.inner_iff.mpr ⟨hq.ne', hqd.ne⟩
    rw [Timing.slot, h, hplace]
    rfl

theorem Timeline.mem_keys_instant (ht : ofAction a d = .ok t) (hq : 0 < q) (hqd : q < d)
    (heffect : (∃ x ∈ a.effects, x.timing.under d = q) ∨
      ∃ x ∈ a.simulatedEffects, x.timing.under d = q) : Span.instant q ∈ t.spans.keys := by
  have hcollects := collects_ofAction ht
  apply mem_keys_of_content
  intro hempty
  rcases heffect with ⟨x, hx, hunder⟩ | ⟨x, hx, hunder⟩
  · have hnone := hcollects.effects (.inner (.instant q))
    rw [hempty] at hnone
    have hnone := List.map_eq_nil_iff.mp hnone.symm
    exact List.filter_eq_nil_iff.mp hnone x hx
      (decide_eq_true ((Timing.slot_instant hq hqd).mpr hunder))
  · have hnone := hcollects.simulated (.inner (.instant q))
    rw [hempty] at hnone
    exact List.filter_eq_nil_iff.mp hnone.symm x hx
      (decide_eq_true ((Timing.slot_instant hq hqd).mpr hunder))

variable (c activity) in
theorem Timeline.exists_carrier (ht : ofAction a d = .ok t) (hq : 0 < q) (hqd : q < d)
    (hkey : Span.instant q ∈ t.spans.keys) : ∃ p i,
      .endCondition p i ∈ innerEvents c activity 1 t.spans.entries ∧ p.offset = q ∧
      i.span = .instant q ∧
      i.effects = (a.effects.filter fun x => x.timing.under d = q).map (·.effect) ∧
      i.simulated.toList = a.simulatedEffects.filter fun x => x.timing.under d = q := by
  have hcollects := collects_ofAction ht
  obtain ⟨⟨s, x⟩, hx, hs⟩ := List.mem_map.mp hkey
  obtain rfl : s = .instant q := hs
  obtain ⟨m, hm⟩ := spanEvents_mem c activity 1 hx
  rw [spanEvents_eq, List.forall_mem_cons, List.forall_mem_singleton] at hm
  have hcontent := content_of_mem hx
  refine ⟨_, _, hm.2, congrArg Prod.snd (Span.shifted_instant q c.epsilon), rfl, ?_, ?_⟩
  · change x.effects = _
    rw [← hcontent, hcollects.effects]
    exact congrArg _ (List.filter_congr fun e _ =>
      decide_eq_decide.mpr (Timing.slot_instant hq hqd))
  · change x.simulated.toList = _
    rw [← hcontent, hcollects.simulated]
    exact List.filter_congr fun e _ => decide_eq_decide.mpr (Timing.slot_instant hq hqd)

theorem Timeline.key_lt_closing_iff (ht : ofAction a d = .ok t) {p : Placement}
    {i j : IntervalCondition} (hp : .endCondition p i ∈ innerEvents c activity 1 t.spans.entries)
    {e : Event} (he : e ∈ t.events c activity d) (hsame : e.offset = p.offset)
    (hj : e.interval? = some j) (hover : j.span ∈ spansOver d a.conditions) :
    e.key < (Event.endCondition p i).key ↔
      e.kind = .startCondition ∨ a.NamesBefore d j.span i.span := by
  have heq : e.offset = (Event.endCondition p i).offset := hsame
  rcases Event.opening_or_closing hj with ⟨o, rfl⟩ | ⟨o, rfl⟩
  · exact iff_of_true (Event.key_lt_of_offset heq.le (Nat.lt_succ_self _)) (.inl rfl)
  · have hclosing := mem_events_of_interval he rfl
    have hkind : (Event.endCondition o j).kind ≠ .startCondition := nofun
    rw [Event.key_lt_iff heq rfl, or_iff_right hkind, ← idxOf_lt_iff ht hover]
    change o.id < p.id ↔ _
    rw [id_closing t.spans.nodup hclosing, id_closing t.spans.nodup hp, OrderedMap.keys]
    omega

theorem Action.events_of_instant (hε : 0 < c.epsilon)
    (h : Action.events c activity (some d) (.durative a) = .ok es) (hq : 0 < q) (hqd : q < d)
    (heffect : (∃ x ∈ a.effects, x.timing.under d = q) ∨
      ∃ x ∈ a.simulatedEffects, x.timing.under d = q) :
    ∃ front p i back, es = front ++ .endCondition p i :: back ∧ p.offset = q ∧
      i.span = .instant q ∧
      i.effects = (a.effects.filter fun x => x.timing.under d = q).map (·.effect) ∧
      i.simulated.toList = (a.simulatedEffects.filter fun x => x.timing.under d = q) ∧
      ∀ e ∈ front ++ back, e.offset = q → ∀ j, e.interval? = some j →
        j.span ∈ spansOver d a.conditions →
        (e ∈ front ↔ e.kind = .startCondition ∨ a.NamesBefore d j.span (.instant q)) := by
  have hsorted := (Action.unfolds h hε.le).strictly_sorted
  obtain ⟨t, ht, rfl⟩ := DurativeAction.events_ok h
  have hkey := Timeline.mem_keys_instant ht hq hqd heffect
  obtain ⟨p, i, hp, hoffset, hi, heffects, hsimulated⟩ :=
    Timeline.exists_carrier c activity ht hq hqd hkey
  obtain ⟨front, back, hsplit⟩ := List.append_of_mem (Timeline.innerEvents_subset (d := d) hp)
  refine ⟨front, p, i, back, hsplit, hoffset, hi, heffects, hsimulated, ?_⟩
  intro e he hsame j hj hover
  have hmem : e ∈ t.events c activity d := by
    rw [hsplit]
    exact (List.mem_append.mp he).elim (List.mem_append_left _)
      fun he => List.mem_append_right _ (List.mem_cons_of_mem _ he)
  rw [mem_front_iff (hsplit ▸ hsorted) he, ← hi]
  exact Timeline.key_lt_closing_iff ht hp hmem (hsame.trans hoffset.symm) hj hover

end Instants

namespace Crossing

def green : Expr := .fluent "green" []

def clear : Expr := .fluent "clear" []

def greenUntilOne : TimedCondition := ⟨.closed ⟨.start, 0⟩ ⟨.start, 1⟩, green⟩

def clearAtOne : TimedCondition := ⟨.point ⟨.start, 1⟩, clear⟩

def turnRed : Effect := .setFlag "green" false

def cross (conditions : List TimedCondition) : DurativeAction :=
  .ofLength "cross" 2 conditions [⟨⟨.start, 1⟩, turnRed⟩]

def crossing : Activity := ⟨0, 1, none⟩

def clock : Clock := ⟨1, 2⟩

theorem green_checked_first : 0 < clock.epsilon ∧ (0 : Rat) < 1 ∧ (1 : Rat) < 2 ∧
    ∃ front p i back, Action.events clock crossing (some 2)
        (.durative (cross [greenUntilOne, clearAtOne])) = .ok (front ++ .endCondition p i :: back) ∧
      p.offset = 1 ∧ i.effects = [turnRed] ∧
      ∀ e ∈ front ++ back, e.offset = 1 → ∀ j, e.interval? = some j →
        j.span = ⟨0, 1, false, false⟩ → e ∈ front := by
  have hε : 0 < clock.epsilon := by decide
  obtain ⟨es, hes⟩ : ∃ es, Action.events clock crossing (some 2)
      (.durative (cross [greenUntilOne, clearAtOne])) = .ok es := ⟨_, by with_unfolding_all rfl⟩
  obtain ⟨front, p, i, back, rfl, hoffset, -, heffects, -, horder⟩ :=
    Action.events_of_instant hε hes (q := 1) (by decide) (by decide)
      (.inl ⟨_, List.mem_singleton_self _, rfl⟩)
  refine ⟨hε, by decide, by decide, front, p, i, back, hes, hoffset, heffects, ?_⟩
  intro e he hsame j hj hspan
  refine (horder e he hsame j hj ?_).mpr (.inr ?_)
  · rw [hspan]
    decide +kernel
  · rw [hspan, DurativeAction.NamesBefore]
    decide +kernel

def hasty : DurativeAction := cross [clearAtOne, greenUntilOne]

def instant : IntervalCondition :=
  ⟨3, crossing, .conjunction [clear], 1, 1, false, false, [], [turnRed], none, "[1, 1]"⟩

def unit : IntervalCondition :=
  ⟨5, crossing, .conjunction [green], 0, 1, false, false, [], [], none, "[0, 1]"⟩

def place (n : Nat) (offset : Rat) (suffix : String) : Placement :=
  clock.place n crossing offset false suffix

def openInstant : Event := .startCondition (place 1 1 "open[1, 1]") instant

def closeInstant : Event := .endCondition (place 2 1 "close[1, 1]") instant

def openUnit : Event := .startCondition (place 3 0 "open[0, 1]") unit

def closeUnit : Event := .endCondition (place 4 1 "close[0, 1]") unit

def finish : Event := .endAction (place 5 2 "end") .empty

def committed : List Event := [openUnit, openInstant, closeInstant, closeUnit, finish]

def start : Event := .startAction (place 0 0 "start") ⟨[green], [], none⟩ 2 committed

theorem sort_inner :
    Event.sort [openInstant, closeInstant, openUnit, closeUnit, finish] = committed := by
  have hperm : ([openInstant, closeInstant] ++ openUnit :: [closeUnit, finish]).Perm committed :=
    List.perm_middle
  exact Event.sort_eq hperm (by decide) (by decide +kernel)

theorem events_hasty :
    Action.events clock crossing (some 2) (.durative hasty) = .ok (start :: committed) := by
  rw [start, ← sort_inner]
  with_unfolding_all rfl

theorem red_before_checked : ∃ front p i back,
    Action.events clock crossing (some 2) (.durative hasty) =
      .ok (front ++ .endCondition p i :: back) ∧ p.offset = 1 ∧ i.effects = [turnRed] ∧
    ∃ e ∈ back, e.offset = 1 ∧ ∃ j, e.interval? = some j ∧ j.span ∈ spansOver 2 hasty.conditions :=
  ⟨[start, openUnit, openInstant], _, instant, [closeUnit, finish], events_hasty, rfl, rfl,
    closeUnit, List.mem_cons_self, rfl, unit, rfl, by decide +kernel⟩

end Crossing

end TemporalPlanning
