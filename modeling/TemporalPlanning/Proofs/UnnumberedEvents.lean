import TemporalPlanning.Proofs.ActivityOrder
import TemporalPlanning.Proofs.Snapshots
import TemporalPlanning.Proofs.StartOrder

namespace TemporalPlanning

open Simulator (checkDuration pointConditions)

def Activity.bare (a : Activity) : Activity := ⟨0, 0, a.ground⟩

def Placement.bare (n : Nat) (p : Placement) : Placement :=
  ⟨p.id - n, p.activity.bare, p.offset, p.fromEnd, ""⟩

def IntervalCondition.bare (n : Nat) (i : IntervalCondition) : IntervalCondition :=
  { i with id := i.id - n, activity := i.activity.bare, label := "" }

def Event.bare (n : Nat) : Event → Event
  | .startAction p b d _ => .startAction (p.bare n) b d []
  | .startCondition p i => .startCondition (p.bare n) (i.bare n)
  | .endCondition p i => .endCondition (p.bare n) (i.bare n)
  | .endAction p b => .endAction (p.bare n) b

def EffectProvider.Impartial (p : EffectProvider) : Prop :=
  ∀ e a a' s values, a.ground = a'.ground → p.values ⟨e, a, s⟩ = .ok values →
    p.values ⟨e, a', s⟩ = .ok values

theorem EffectProvider.impartial_ofTable (table : OrderedMap String (List Expr)) :
    (ofTable table).Impartial := by
  intro e a a' s values ha h
  simp only [ofTable, ha] at h ⊢
  exact h

section Bare

variable {sim : Simulator} {e : Event} {n : Nat} {v : Valuation} {fp : Footprint}
  {here : Situation}

namespace Event

@[simp] theorem id_bare (e : Event) (n : Nat) : (e.bare n).id = e.id - n := by cases e <;> rfl

@[simp] theorem kind_bare (e : Event) (n : Nat) : (e.bare n).kind = e.kind := by cases e <;> rfl

@[simp] theorem offset_bare (e : Event) (n : Nat) : (e.bare n).offset = e.offset := by
  cases e <;> rfl

@[simp] theorem activity_bare (e : Event) (n : Nat) : (e.bare n).activity = e.activity.bare := by
  cases e <;> rfl

@[simp] theorem interval?_bare (e : Event) (n : Nat) :
    (e.bare n).interval? = e.interval?.map (IntervalCondition.bare n) := by
  cases e <;> rfl

theorem compare_bare {f : Event} (he : n ≤ e.id) (hf : n ≤ f.id) :
    compare (e.bare n) (f.bare n) = compare e f := by
  have hids : ((e.id - n : Nat) : Int) - ((f.id - n : Nat) : Int) = (e.id : Int) - f.id := by
    omega
  simp only [compare, offset_bare, kind_bare, id_bare, hids]

theorem bare_sort {es : List Event} (h : ∀ e ∈ es, n ≤ e.id) :
    (sort es).map (bare n) = sort (es.map (bare n)) := by
  refine List.map_mergeSort fun e he f hf => ?_
  rw [compare_bare (h e he) (h f hf)]

end Event

theorem Firing.ofEvent_bare (hprovider : ∀ p ∈ sim.provider, p.Impartial) {f : Firing} :
    ofEvent sim.provider here (e.bare n) = .ok f ↔ ofEvent sim.provider here e = .ok f := by
  have heffects : (e.bare n).effects = e.effects := by cases e <;> rfl
  have hcontinuous : (e.bare n).continuousEffects = e.continuousEffects := by cases e <;> rfl
  have helapsed : elapsed (e.bare n) = elapsed e := by cases e <;> rfl
  have hsimulated : (e.bare n).simulated = e.simulated := by cases e <;> rfl
  have hfire (a a' : Activity) (ha : a.ground = a'.ground) (g : Firing) (x : SimulatedEffect)
      (h : fireSimulated sim.provider a here g x = .ok f) :
      fireSimulated sim.provider a' here g x = .ok f := by
    cases hp : sim.provider with
    | none => simp [fireSimulated, hp] at h
    | some p =>
        simp only [fireSimulated, hp, except_bind_ok] at h ⊢
        obtain ⟨values, hvalues, h⟩ := h
        refine ⟨values, hprovider p hp x a a' here values ha hvalues, ?_⟩
        split at h
        · rename_i hlength
          rw [if_pos hlength]
          exact h
        · simp at h
  have hground : (e.bare n).activity.ground = e.activity.ground := by
    rw [Event.activity_bare]
    rfl
  unfold ofEvent
  rw [heffects, hcontinuous, helapsed, hsimulated]
  simp only [except_bind_ok]
  refine exists_congr fun g => and_congr_right fun _ => exists_congr fun g' =>
    and_congr_right fun _ => ?_
  cases e.simulated with
  | none => rfl
  | some x => exact ⟨hfire _ _ hground g' x, hfire _ _ hground.symm g' x⟩

theorem performs_bare (hprovider : ∀ p ∈ sim.provider, p.Impartial) :
    (e.bare n).Performs sim v fp ↔ e.Performs sim v fp := by
  have hbindings : (e.bare n).activity.bindings = e.activity.bindings := by cases e <;> rfl
  have hduration : checkDuration (e.bare n) = checkDuration e := by
    cases e with
    | startAction p b d es =>
        obtain ⟨_, ⟨_, _, ground⟩, _, _, _⟩ := p
        cases ground with
        | none => rfl
        | some g =>
            obtain ⟨action, _, _⟩ := g
            cases action <;> rfl
    | _ => rfl
  have hpoint : pointConditions (e.bare n) = pointConditions e := by cases e <;> rfl
  have hopening : (e.bare n).openingReads sim v = e.openingReads sim v := by cases e <;> rfl
  simp only [Event.Performs, hbindings, hduration, hpoint, hopening,
    Firing.ofEvent_bare hprovider]

theorem unopposed_bare (numbers : IntervalCondition → Nat) (opened : Set IntervalCondition) :
    (e.bare n).Unopposed sim v ((fun i => i.bare (numbers i)) '' opened) ↔
      e.Unopposed sim v opened := by
  cases e with
  | startCondition p i =>
      refine exists_congr fun mine => and_congr_right fun _ => imp_congr_right fun _ => ?_
      rw [Set.forall_mem_image]
      rfl
  | _ => rfl

theorem writtenBy_bare (e : Event) (n : Nat) :
    writtenBy sim v (e.bare n) = writtenBy sim v e := by
  cases e <;> rfl

end Bare

section Steps

variable {c c' : Clock} {a a' : Activity} {es : List Event} {duration : Option Rat}

theorem Paired.exists_opening {e : Event} {i : IntervalCondition} (h : Paired es) (he : e ∈ es)
    (hi : e.interval? = some i) : ∃ p, .startCondition p i ∈ es := by
  cases e with
  | startCondition p j =>
      obtain rfl := Option.some.inj hi
      exact ⟨p, he⟩
  | endCondition q j =>
      obtain rfl := Option.some.inj hi
      exact h.opened q j he
  | startAction p b d es => cases hi
  | endAction q b => cases hi

theorem Numbered.le_interval {n : Nat} {e : Event} {i : IntervalCondition} (h : Numbered n es)
    (he : e ∈ es) (hi : e.interval? = some i) : n ≤ i.id := by
  obtain ⟨p, hp⟩ := h.paired.exists_opening he hi
  rw [← h.paired.opening p i hp]
  exact h.le_id hp

theorem bare_innerEvents (hε : c.epsilon = c'.epsilon) (ha : a.ground = a'.ground) (n : Nat)
    (spans : List (Span × SpanContent)) :
    (Timeline.innerEvents c a n spans).map (Event.bare c.next) =
      (Timeline.innerEvents c' a' n spans).map (Event.bare c'.next) := by
  induction spans generalizing n with
  | nil => rfl
  | cons x spans ih =>
      obtain ⟨s, x⟩ := x
      have hfirst : (Timeline.spanEvents c a n s x).map (Event.bare c.next) =
          (Timeline.spanEvents c' a' n s x).map (Event.bare c'.next) := by
        simp [spanEvents_eq, spanInterval, Event.bare, Placement.bare, IntervalCondition.bare,
          Clock.place, Activity.bare, hε, ha]
      rw [Timeline.innerEvents, List.map_append, hfirst, ih, Timeline.innerEvents, List.map_append]

theorem bare_timeline (hε : c.epsilon = c'.epsilon) (ha : a.ground = a'.ground) (t : Timeline)
    (d : Rat) : (t.events c a d).map (Event.bare c.next) =
      (t.events c' a' d).map (Event.bare c'.next) := by
  have hlength (c : Clock) (a : Activity) (n : Nat) (spans : List (Span × SpanContent)) :
      (Timeline.innerEvents c a n spans).length = 2 * spans.length := by
    induction spans generalizing n with
    | nil => rfl
    | cons x spans ih =>
        rw [Timeline.innerEvents, List.length_append, ih, List.length_cons]
        simp [spanEvents_eq]
        omega
  have hids (c : Clock) (a : Activity) : ∀ e ∈ Timeline.innerEvents c a 1 t.spans.entries ++
      [.endAction (c.place (1 + (Timeline.innerEvents c a 1 t.spans.entries).length) a d false
        "end") t.finish], c.next ≤ e.id := by
    intro e he
    rcases List.mem_append.mp he with he | he
    · exact (Nat.le_add_right _ 1).trans (numbered_innerEvents.le_id he)
    · obtain rfl := List.mem_singleton.mp he
      exact Nat.le_add_right _ _
  have hsort (c : Clock) (a : Activity) := Event.bare_sort (hids c a)
  simp only [hlength, List.map_append] at hsort
  simp only [Timeline.events, List.map_cons, hlength, hsort, bare_innerEvents hε ha]
  simp [Event.bare, Placement.bare, Clock.place, Activity.bare, ha]

theorem Action.bare_events {x : Action} (h : x.events c a duration = .ok es) (c' : Clock)
    (a' : Activity) (hε : c.epsilon = c'.epsilon) (ha : a.ground = a'.ground) :
    ∃ es', x.events c' a' duration = .ok es' ∧
      es.map (Event.bare c.next) = es'.map (Event.bare c'.next) := by
  cases x with
  | instantaneous x =>
      have hbare : (x.events c a).map (Event.bare c.next) =
          (x.events c' a').map (Event.bare c'.next) := by
        simp [InstantaneousAction.events, Event.bare, Placement.bare, Clock.place, Activity.bare,
          ha]
      rcases Action.events_ok h with ⟨i, hi, rfl⟩ | ⟨b, d, t, hb, -⟩
      · obtain rfl := Action.instantaneous.inj hi
        refine ⟨_, ?_, hbare⟩
        cases duration with
        | none => rfl
        | some d =>
            simp only [Action.events] at h ⊢
            split at h
            · rename_i hd
              rw [if_pos hd]
            · simp at h
      · simp at hb
  | durative x =>
      cases duration with
      | none => simp [Action.events] at h
      | some d =>
          simp only [Action.events] at h ⊢
          split at h
          · simp at h
          · rename_i hd
            obtain ⟨t, ht, rfl⟩ := except_map_ok.mp h
            rw [if_neg hd]
            refine ⟨_, except_bind_ok.mpr ⟨t, ht, rfl⟩, bare_timeline hε ha t d⟩

end Steps

end TemporalPlanning
