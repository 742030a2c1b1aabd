import TemporalPlanning.Proofs.ContentSlots
import TemporalPlanning.Proofs.IntervalEvents

namespace TemporalPlanning

section Grouping

variable {α κ : Type} [DecidableEq κ]

theorem perm_flatMap_filter {key : α → κ} {ks : List κ} {xs : List α} (hks : ks.Nodup)
    (hkeys : ∀ x ∈ xs, key x ∈ ks) :
    (ks.flatMap fun k => xs.filter fun x => key x = k).Perm xs := by
  induction ks generalizing xs with
  | nil =>
      obtain rfl := List.eq_nil_iff_forall_not_mem.mpr fun x hx => List.not_mem_nil (hkeys x hx)
      exact .nil
  | cons k ks ih =>
      obtain ⟨hk, hks⟩ := List.nodup_cons.mp hks
      have hothers : (ks.flatMap fun k' => xs.filter fun x => key x = k') =
          ks.flatMap fun k' => (xs.filter fun x => key x ≠ k).filter fun x => key x = k' := by
        refine List.flatMap_congr fun k' hk' => ?_
        rw [List.filter_filter]
        refine List.filter_congr fun x hx => ?_
        have hne : k' ≠ k := fun h => hk (h ▸ hk')
        grind
      -- the members of `k` are taken out, and the other keys group what is left
      rw [List.flatMap_cons, hothers]
      refine .trans (.append_left _ (ih hks fun x hx => ?_)) ?_
      · obtain ⟨hx, hne⟩ := List.mem_filter.mp hx
        exact (List.mem_cons.mp (hkeys x hx)).resolve_left (of_decide_eq_true hne)
      · simpa using List.filter_append_perm (fun x => decide (key x = k)) xs

end Grouping

namespace Event

def opened? : Event → Option IntervalCondition
  | .startCondition _ i => some i
  | _ => none

def starting? : Event → Option ActionBody
  | .startAction _ b _ _ => some b
  | _ => none

def finishing? : Event → Option ActionBody
  | .endAction _ b => some b
  | _ => none

end Event

structure DurativeAction.CarriedBy (a : DurativeAction) (d : Rat) (es : List Event) : Prop where
  effects : (es.flatMap fun e => e.effects.map fun x => (e.offset, x)).Perm
    (a.effects.map fun x => (x.timing.under d, x.effect))
  simulated : (es.flatMap fun e => e.simulated.toList.map fun x => (e.offset, x)).Perm
    (a.simulatedEffects.map fun x => (x.timing.under d, x))
  spans : ((es.filterMap Event.opened?).map (·.span)).Nodup
  continuous : ((es.filterMap Event.opened?).flatMap fun i =>
      i.continuousEffects.map fun x => (i.span, x)).Perm
    ((a.continuousEffects.filter fun x => (x.interval.under d).isEmpty = false).map fun x =>
      (x.interval.under d, x))
  conjuncts : ∀ i ∈ es.filterMap Event.opened?, i.condition = .conjunction
    ((a.conditions.filter fun k => k.Over d ∧ k.interval.under d = i.span).map (·.condition))
  covered : ∀ k ∈ a.conditions, k.Over d →
    ∃ i ∈ es.filterMap Event.opened?, i.span = k.interval.under d
  routed : ∀ k ∈ a.conditions, (k.interval.under d).isEmpty = false →
    (k.AtStart d ∧ ¬ k.AtEnd d ∧ ¬ k.Over d) ∨ (k.AtEnd d ∧ ¬ k.AtStart d ∧ ¬ k.Over d) ∨
      (k.Over d ∧ ¬ k.AtStart d ∧ ¬ k.AtEnd d)
  start : ∃ b, es.filterMap Event.starting? = [b] ∧ b.conditions =
    (a.conditions.filter fun k => k.AtStart d ∨ k.FromStart d).map (·.condition)
  finish : ∃ b, es.filterMap Event.finishing? = [b] ∧ b.conditions =
    (a.conditions.filter fun k => k.AtEnd d).map (·.condition)

section Stations

variable {ε d : Rat} {t : Timeline} {st : Slot}

def Slot.offset (ε d : Rat) : Slot → Rat
  | .start => 0
  | .finish => d
  | .inner s => (s.shifted ε).2

theorem Span.shifted_instant (q ε : Rat) : (Span.instant q).shifted ε = (q, q) := by
  simp [shifted, instant]

theorem Timing.offset_slot (t : Timing) : (t.slot d).offset ε d = t.under d := by
  unfold slot
  cases hplace : Place.ofOffset t.anchor (t.under d) d with
  | start => exact (Place.start_iff.mp hplace).1.symm
  | finish => exact (Place.finish_iff.mp hplace).1.symm
  | inner => exact congrArg Prod.snd (Span.shifted_instant (t.under d) ε)

namespace Timeline

def slots (t : Timeline) : List Slot :=
  .start :: (t.spans.keys.map .inner ++ [.finish])

theorem nodup_slots (t : Timeline) : t.slots.Nodup := by
  have hspans : (t.spans.keys.map Slot.inner).Nodup :=
    t.spans.nodup.map fun _ _ h => Slot.inner.inj h
  refine List.nodup_cons.mpr ⟨by simp, hspans.append (List.nodup_singleton _) ?_⟩
  simp [List.Disjoint]

theorem content_of_mem {s : Span} {x : SpanContent} (h : (s, x) ∈ t.spans.entries) :
    t.content (.inner s) = x := by
  simp [content, at?, OrderedMap.mem_entries_iff.mp h]

theorem mem_keys_of_content {s : Span} (h : t.content (.inner s) ≠ .empty) :
    s ∈ t.spans.keys := by
  by_contra hs
  rw [← OrderedMap.get?_eq_none_iff] at hs
  exact h (by simp [content, at?, hs])

theorem mem_slots (h : t.content st ≠ .empty) : st ∈ t.slots := by
  cases st with
  | start => simp [slots]
  | finish => simp [slots]
  | inner s => simpa [slots] using mem_keys_of_content h

end Timeline

end Stations

section Events

open Timeline

variable {β : Type} {c : Clock} {activity : Activity} {n : Nat} {d : Rat} {t : Timeline}
  {entries : List (Span × SpanContent)}

theorem flatMap_innerEvents {f : Event → List β} {g : Span × SpanContent → List β}
    (hf : ∀ n s x, (spanEvents c activity n s x).flatMap f = g (s, x)) :
    (innerEvents c activity n entries).flatMap f = entries.flatMap g := by
  induction entries generalizing n with
  | nil => rfl
  | cons e entries ih =>
      rw [innerEvents, List.flatMap_append, hf, ih]
      rfl

theorem map_opened_innerEvents {f : IntervalCondition → β} {g : Span × SpanContent → β}
    (hf : ∀ n s x, f (spanInterval c activity n s x) = g (s, x)) :
    ((innerEvents c activity n entries).filterMap Event.opened?).map f = entries.map g := by
  induction entries generalizing n with
  | nil => rfl
  | cons e entries ih =>
      rw [innerEvents, List.filterMap_append, List.map_append, ih, List.map_cons, ← hf n]
      rfl

namespace Timeline

theorem perm_events (t : Timeline) (c : Clock) (activity : Activity) (d : Rat) :
    ∃ p q committed, (t.events c activity d).Perm (.startAction p t.start d committed ::
      (innerEvents c activity 1 t.spans.entries ++ [.endAction q t.finish])) ∧
      p.offset = 0 ∧ q.offset = d :=
  ⟨_, _, _, (List.mergeSort_perm _ _).cons _, rfl, rfl⟩

theorem perm_opened (t : Timeline) (c : Clock) (activity : Activity) (d : Rat)
    {f : IntervalCondition → β} {g : Span × SpanContent → β}
    (hf : ∀ n s x, f (spanInterval c activity n s x) = g (s, x)) :
    (((t.events c activity d).filterMap Event.opened?).map f).Perm (t.spans.entries.map g) := by
  obtain ⟨p, q, committed, hperm, -⟩ := t.perm_events c activity d
  have hopened : (t.events c activity d).filterMap Event.opened? |>.Perm
      ((innerEvents c activity 1 t.spans.entries).filterMap Event.opened?) := by
    refine (hperm.filterMap _).trans ?_
    rw [List.filterMap_cons_none rfl, List.filterMap_append, List.filterMap_cons_none rfl,
      List.filterMap_nil, List.append_nil]
  exact (hopened.map f).trans (.of_eq (map_opened_innerEvents hf))

theorem perm_carried {f : Event → List β} {g : SpanContent → List β}
    (hstart : ∀ p b d es, f (.startAction p b d es) = g ⟨b.conditions, [], b.effects, b.simulated⟩)
    (hopening : ∀ p i, f (.startCondition p i) = [])
    (hclosing : ∀ p n s x, f (.endCondition p (spanInterval c activity n s x)) = g x)
    (hfinish : ∀ p b, f (.endAction p b) = g ⟨b.conditions, [], b.effects, b.simulated⟩) :
    ((t.events c activity d).flatMap fun e => (f e).map fun y => (e.offset, y)).Perm
      (t.slots.flatMap fun st =>
        (g (t.content st)).map fun y => (st.offset c.epsilon d, y)) := by
  obtain ⟨p, q, committed, hperm, hp, hq⟩ := t.perm_events c activity d
  have hinner : ((innerEvents c activity 1 t.spans.entries).flatMap fun e =>
      (f e).map fun y => (e.offset, y)) = (t.spans.keys.map Slot.inner).flatMap fun st =>
        (g (t.content st)).map fun y => (st.offset c.epsilon d, y) := by
    rw [flatMap_innerEvents (g := fun e => (g e.2).map fun y => ((e.1.shifted c.epsilon).2, y))]
    · rw [List.flatMap_map, OrderedMap.keys, List.flatMap_map]
      refine List.flatMap_congr fun e he => ?_
      rw [content_of_mem he]
      rfl
    · intro n s x
      rw [spanEvents_eq, List.flatMap_cons, List.flatMap_singleton, hopening, hclosing]
      rfl
  refine (hperm.flatMap_right _).trans (.of_eq ?_)
  rw [List.flatMap_cons, List.flatMap_append, List.flatMap_singleton, hinner, hstart, hfinish,
    slots, List.flatMap_cons, List.flatMap_append, List.flatMap_singleton]
  simp only [Event.offset, Event.place, hp, hq]
  rfl

theorem perm_slots {γ : Type} {ε : Rat} {g : SpanContent → List β} {zs : List γ}
    {timing : γ → Timing} {value : γ → β} (hnone : g .empty = [])
    (hg : ∀ st, g (t.content st) = (zs.filter fun z => (timing z).slot d = st).map value) :
    (t.slots.flatMap fun st => (g (t.content st)).map fun y => (st.offset ε d, y)).Perm
      (zs.map fun z => ((timing z).under d, value z)) := by
  have hslots : (t.slots.flatMap fun st => (g (t.content st)).map fun y =>
      (st.offset ε d, y)) = (t.slots.flatMap fun st =>
        zs.filter fun z => (timing z).slot d = st).map fun z =>
          ((timing z).under d, value z) := by
    rw [List.map_flatMap]
    refine List.flatMap_congr fun st _ => ?_
    rw [hg, List.map_map]
    refine List.map_congr_left fun z hz => ?_
    obtain rfl : (timing z).slot d = st := by simpa using (List.mem_filter.mp hz).2
    exact congrArg (·, value z) (timing z).offset_slot
  rw [hslots]
  -- a slot without an interval of its own would hold nothing
  refine (perm_flatMap_filter t.nodup_slots fun z hz => mem_slots ?_).map _
  intro hempty
  have hfree := hg ((timing z).slot d)
  rw [hempty, hnone, eq_comm, List.map_eq_nil_iff, List.filter_eq_nil_iff] at hfree
  exact hfree z hz (decide_eq_true rfl)

end Timeline

namespace Timeline.Collects

variable {ks : List TimedCondition} {es : List TimedEffect} {ss : List SimulatedEffect}
  {xs : List ContinuousEffect} {s : Span}

theorem perm_effects (h : t.Collects d ks es ss xs) :
    ((t.events c activity d).flatMap fun e => e.effects.map fun x => (e.offset, x)).Perm
      (es.map fun x => (x.timing.under d, x.effect)) :=
  (perm_carried (f := Event.effects) (g := SpanContent.effects) (fun _ _ _ _ => rfl)
    (fun _ _ => rfl) (fun _ _ _ _ => rfl) fun _ _ => rfl).trans (perm_slots rfl h.effects)

theorem perm_simulated (h : t.Collects d ks es ss xs) :
    ((t.events c activity d).flatMap fun e => e.simulated.toList.map fun x => (e.offset, x)).Perm
      (ss.map fun x => (x.timing.under d, x)) := by
  have hsimulated : ∀ st, (t.content st).simulated.toList =
      (ss.filter fun x => x.timing.slot d = st).map id := by
    intro st
    rw [List.map_id, h.simulated]
  exact (perm_carried (f := fun e => e.simulated.toList) (g := fun x => x.simulated.toList)
    (fun _ _ _ _ => rfl) (fun _ _ => rfl) (fun _ _ _ _ => rfl) fun _ _ => rfl).trans
    (perm_slots (g := fun x => x.simulated.toList) rfl hsimulated)

theorem mem_keys_of_continuous (h : t.Collects d ks es ss xs) {x : ContinuousEffect}
    (hx : x ∈ xs) (hs : x.BelongsTo d (.inner s)) : s ∈ t.spans.keys := by
  apply mem_keys_of_content
  intro hempty
  have hfree := h.continuous (.inner s)
  rw [hempty, eq_comm] at hfree
  exact List.filter_eq_nil_iff.mp hfree x hx (decide_eq_true hs)

theorem mem_keys_of_condition (h : t.Collects d ks es ss xs) {k : TimedCondition}
    (hk : k ∈ ks) (hs : k.BelongsTo d (.inner s)) : s ∈ t.spans.keys := by
  apply mem_keys_of_content
  intro hempty
  have hfree := h.conditions (.inner s)
  rw [hempty] at hfree
  have hnone := List.map_eq_nil_iff.mp hfree.symm
  exact List.filter_eq_nil_iff.mp hnone k hk (decide_eq_true hs)

theorem continuous_span (h : t.Collects d ks es ss xs) (s : Span) :
    (t.content (.inner s)).continuousEffects.map (fun x => (s, x)) =
      ((xs.filter fun x => (x.interval.under d).isEmpty = false).filter
        fun x => x.interval.under d = s).map fun x => (x.interval.under d, x) := by
  have hown : (xs.filter fun x => x.BelongsTo d (.inner s)) =
      (xs.filter fun x => (x.interval.under d).isEmpty = false).filter
        fun x => x.interval.under d = s := by
    rw [List.filter_filter]
    refine List.filter_congr fun x _ => ?_
    rw [Bool.and_comm, ← Bool.decide_and]
    exact decide_eq_decide.mpr Iff.rfl
  rw [h.continuous, hown]
  refine List.map_congr_left fun x hx => ?_
  obtain rfl : x.interval.under d = s := of_decide_eq_true (List.mem_filter.mp hx).2
  rfl

theorem perm_continuous (h : t.Collects d ks es ss xs) :
    (((t.events c activity d).filterMap Event.opened?).flatMap fun i =>
      i.continuousEffects.map fun x => (i.span, x)).Perm
    ((xs.filter fun x => (x.interval.under d).isEmpty = false).map fun x =>
      (x.interval.under d, x)) := by
  have hopened := t.perm_opened c activity d
    (f := fun i => i.continuousEffects.map fun x => (i.span, x))
    (g := fun e => e.2.continuousEffects.map fun x => (e.1, x)) fun _ _ _ => rfl
  have hspans : (t.spans.entries.map fun e => e.2.continuousEffects.map fun x => (e.1, x)) =
      t.spans.keys.map fun s => ((xs.filter fun x => (x.interval.under d).isEmpty = false).filter
        fun x => x.interval.under d = s).map fun x => (x.interval.under d, x) := by
    rw [OrderedMap.keys, List.map_map]
    refine List.map_congr_left fun e he => ?_
    rw [← content_of_mem he]
    exact h.continuous_span e.1
  rw [hspans] at hopened
  rw [List.flatMap_def]
  refine hopened.flatten.trans ?_
  rw [← List.flatMap_def, ← List.map_flatMap]
  refine (perm_flatMap_filter t.spans.nodup fun x hx => ?_).map _
  obtain ⟨hx, hroom⟩ := List.mem_filter.mp hx
  exact h.mem_keys_of_continuous hx ⟨of_decide_eq_true hroom, rfl⟩

theorem conjuncts_opened (h : t.Collects d ks es ss xs) {i : IntervalCondition}
    (hi : i ∈ (t.events c activity d).filterMap Event.opened?) : i.condition = .conjunction
      ((ks.filter fun k => k.Over d ∧ k.interval.under d = i.span).map (·.condition)) := by
  have hopened := t.perm_opened c activity d
    (f := fun i => (i.span, i.condition)) (g := fun e => (e.1, .conjunction e.2.conditions))
    fun _ _ _ => rfl
  have hmem := hopened.mem_iff.mp (List.mem_map_of_mem hi)
  obtain ⟨⟨s, x⟩, hx, heq⟩ := List.mem_map.mp hmem
  obtain ⟨rfl, hcondition⟩ := Prod.mk.inj heq
  rw [← hcondition, ← content_of_mem hx, h.conditions]
  rfl

theorem over_opened (h : t.Collects d ks es ss xs) {k : TimedCondition} (hk : k ∈ ks)
    (hover : k.Over d) : ∃ i ∈ (t.events c activity d).filterMap Event.opened?,
      i.span = k.interval.under d := by
  have hopened := t.perm_opened c activity d
    (f := IntervalCondition.span) (g := Prod.fst) fun _ _ _ => rfl
  exact List.mem_map.mp (hopened.mem_iff.mpr (h.mem_keys_of_condition hk ⟨hover, rfl⟩))

end Timeline.Collects

theorem bodiless_innerEvents {e : Event} (he : e ∈ innerEvents c activity n entries) :
    e.starting? = none ∧ e.finishing? = none := by
  obtain ⟨m, s, x, -, he, -⟩ := mem_innerEvents he
  rw [spanEvents_eq, List.mem_pair] at he
  rcases he with rfl | rfl
  · exact ⟨rfl, rfl⟩
  · exact ⟨rfl, rfl⟩

theorem Timeline.starting_events (t : Timeline) :
    (t.events c activity d).filterMap Event.starting? = [t.start] := by
  obtain ⟨p, q, committed, hperm, -⟩ := t.perm_events c activity d
  have hinner : (innerEvents c activity 1 t.spans.entries).filterMap Event.starting? = [] :=
    List.filterMap_eq_nil_iff.mpr fun e he => (bodiless_innerEvents he).1
  refine List.perm_singleton.mp ((hperm.filterMap _).trans (.of_eq ?_))
  rw [List.filterMap_cons, List.filterMap_append, hinner]
  rfl

theorem Timeline.finishing_events (t : Timeline) :
    (t.events c activity d).filterMap Event.finishing? = [t.finish] := by
  obtain ⟨p, q, committed, hperm, -⟩ := t.perm_events c activity d
  have hinner : (innerEvents c activity 1 t.spans.entries).filterMap Event.finishing? = [] :=
    List.filterMap_eq_nil_iff.mpr fun e he => (bodiless_innerEvents he).2
  refine List.perm_singleton.mp ((hperm.filterMap _).trans (.of_eq ?_))
  rw [List.filterMap_cons_none rfl, List.filterMap_append, hinner]
  rfl

variable {a : DurativeAction} {es : List Event}

theorem Timeline.carriedBy (h : ofAction a d = .ok t) :
    a.CarriedBy d (t.events c activity d) := by
  have hcollects := collects_ofAction h
  refine ⟨hcollects.perm_effects, hcollects.perm_simulated, ?_, hcollects.perm_continuous,
    fun i => hcollects.conjuncts_opened, fun k => hcollects.over_opened,
    fun _ _ => TimedCondition.routed, ⟨t.start, ?_, ?_⟩, ⟨t.finish, ?_, ?_⟩⟩
  · have hopened := t.perm_opened c activity d
      (f := IntervalCondition.span) (g := Prod.fst) fun _ _ _ => rfl
    exact hopened.nodup_iff.mpr t.spans.nodup
  · exact t.starting_events
  · exact hcollects.conditions .start
  · exact t.finishing_events
  · exact hcollects.conditions .finish

theorem foldlM_filter {α γ ε : Type} {f : α → γ → Except ε α} {p : γ → Bool}
    (hskip : ∀ a x b, p x = false → f a x = .ok b → b = a) {xs : List γ} {a b : α}
    (h : xs.foldlM f a = .ok b) : (xs.filter p).foldlM f a = .ok b := by
  induction xs generalizing a with
  | nil => exact h
  | cons x xs ih =>
      rw [List.foldlM_cons, except_bind_ok] at h
      obtain ⟨next, hx, h⟩ := h
      cases hp : p x with
      | false =>
          obtain rfl := hskip a x next hp hx
          rw [List.filter_cons_of_neg (by simp [hp])]
          exact ih h
      | true =>
          rw [List.filter_cons_of_pos hp, List.foldlM_cons, except_bind_ok]
          exact ⟨next, hx, ih h⟩

def DurativeAction.occupied (a : DurativeAction) (d : Rat) : DurativeAction :=
  { a with
    conditions := a.conditions.filter fun k => (k.interval.under d).isEmpty = false
    continuousEffects := a.continuousEffects.filter fun x => (x.interval.under d).isEmpty = false }

theorem Timeline.ofAction_occupied (h : ofAction a d = .ok t) :
    ofAction (a.occupied d) d = .ok t := by
  simp only [ofAction, except_bind_ok] at h ⊢
  obtain ⟨t₁, h₁, t₂, h₂, t₃, h₃, h₄⟩ := h
  refine ⟨t₁, foldlM_filter ?_ h₁, t₂, h₂, t₃, h₃, foldlM_filter ?_ h₄⟩
  · intro t k t' hk h
    exact addCondition_of_empty (by simpa using hk) h
  · intro t x t' hx h
    exact addContinuous_of_empty (by simpa using hx) h

theorem Action.events_carry (h : Action.events c activity (some d) (.durative a) = .ok es) :
    a.CarriedBy d es ∧
      Action.events c activity (some d) (.durative (a.occupied d)) = .ok es := by
  simp only [Action.events] at h ⊢
  split at h
  · simp at h
  · rename_i hd
    obtain ⟨t, ht, h⟩ := except_bind_ok.mp h
    obtain rfl := except_pure_ok.mp h
    refine ⟨Timeline.carriedBy ht, ?_⟩
    rw [if_neg hd, Timeline.ofAction_occupied ht]
    rfl

end Events

namespace Kiln

def closed : Expr := .fluent "closed" []

def lit : Expr := .fluent "lit" []

def heat : FluentTerm := ⟨"heat", []⟩

def halfway : Timing := ⟨.finish, 1⟩

def bake : DurativeAction :=
  { DurativeAction.ofLength "bake" 2
      [⟨.point ⟨.start, 0⟩, closed⟩,
        ⟨.closed ⟨.start, 0⟩ halfway, lit⟩,
        ⟨.leftOpened ⟨.start, 1⟩ halfway, .not closed⟩,
        ⟨.point halfway, lit⟩,
        ⟨.point ⟨.finish, 0⟩, closed⟩]
      [⟨⟨.start, 0⟩, .setFlag "lit" true⟩, ⟨⟨.start, 1⟩, .setFlag "closed" false⟩,
        ⟨⟨.finish, 0⟩, .setFlag "lit" false⟩] with
    continuousEffects := [
      ⟨.increase, .opened ⟨.start, 0⟩ ⟨.finish, 0⟩, heat, .number 1⟩,
      ⟨.decrease, .leftOpened ⟨.start, 1⟩ halfway, heat, .number 1⟩]
    simulatedEffects := [⟨halfway, [heat]⟩] }

def baking : Activity := ⟨0, 1, none⟩

def clock : Clock := ⟨1 / 10, 2⟩

def timeline : Timeline where
  start := ⟨[closed, lit], [.setFlag "lit" true], none⟩
  finish := ⟨[closed], [.setFlag "lit" false], none⟩
  spans := {
    entries := [
      (⟨0, 1, false, false⟩, ⟨[lit], [], [], none⟩),
      (.instant 1, ⟨[lit], [], [.setFlag "closed" false], some ⟨halfway, [heat]⟩⟩),
      (⟨0, 2, true, true⟩, ⟨[],
        [⟨.increase, .opened ⟨.start, 0⟩ ⟨.finish, 0⟩, heat, .number 1⟩], [], none⟩)]
    nodup := by decide +kernel }

theorem ofAction_bake : Timeline.ofAction bake 2 = .ok timeline := by
  with_unfolding_all rfl

theorem carried_bake :
    Action.events clock baking (some 2) (.durative bake) = .ok (timeline.events clock baking 2) ∧
    bake.CarriedBy 2 (timeline.events clock baking 2) ∧
    (bake.occupied 2).conditions.length = 4 ∧
    Action.events clock baking (some 2) (.durative (bake.occupied 2)) =
      .ok (timeline.events clock baking 2) := by
  have hevents : Action.events clock baking (some 2) (.durative bake) =
      .ok (timeline.events clock baking 2) := by
    rw [Action.events, if_neg (by decide), ofAction_bake]
    rfl
  obtain ⟨hcarried, hoccupied⟩ := Action.events_carry hevents
  exact ⟨hevents, hcarried, by decide +kernel, hoccupied⟩

end Kiln

end TemporalPlanning
