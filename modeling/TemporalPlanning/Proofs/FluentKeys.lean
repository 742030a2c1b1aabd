import TemporalPlanning.Proofs.AssertedLiterals
import TemporalPlanning.Proofs.EventEffects

namespace TemporalPlanning

namespace Text

variable {c d : Char} {xs ys ys' zs xs' : List Char} {os os' : List (List Char)}

theorem eq_nil_of_marked (hcd : c ≠ d) (hfree : ¬ [c, d] <:+: xs ++ zs)
    (h : c :: d :: ys = zs ++ c :: d :: ys') : zs = [] := by
  cases zs with
  | nil => rfl
  | cons z zs =>
      obtain ⟨rfl, hrest⟩ := List.cons.inj h
      cases zs with
      | nil => exact absurd (List.cons.inj hrest).1.symm hcd
      | cons w zs =>
          obtain ⟨rfl, -⟩ := List.cons.inj hrest
          exact absurd ⟨xs, zs, by simp⟩ hfree

theorem append_mark_inj (hcd : c ≠ d) (hx : ¬ [c, d] <:+: xs) (hx' : ¬ [c, d] <:+: xs')
    (h : xs ++ c :: d :: ys = xs' ++ c :: d :: ys') : xs = xs' ∧ ys = ys' := by
  have hxs : xs = xs' := by
    rcases List.append_eq_append_iff.mp h with ⟨zs, rfl, hrest⟩ | ⟨zs, rfl, hrest⟩
    · rw [eq_nil_of_marked hcd hx' hrest, List.append_nil]
    · rw [eq_nil_of_marked hcd hx hrest, List.append_nil]
  subst hxs
  have hys := List.append_cancel_left h
  exact ⟨rfl, (List.cons.inj (List.cons.inj hys).2).2⟩

theorem intercalate_inj (hcd : c ≠ d) (hos : ∀ o ∈ os, ¬ [c, d] <:+: o)
    (hos' : ∀ o ∈ os', ¬ [c, d] <:+: o) (hne : os ≠ []) (hne' : os' ≠ [])
    (h : [c, d].intercalate os = [c, d].intercalate os') : os = os' := by
  induction os generalizing os' with
  | nil => exact absurd rfl hne
  | cons o os ih =>
      obtain ⟨o', os', rfl⟩ := List.exists_cons_of_ne_nil hne'
      obtain ⟨ho, hrest⟩ := List.forall_mem_cons.mp hos
      obtain ⟨ho', hrest'⟩ := List.forall_mem_cons.mp hos'
      cases os with
      | nil =>
          cases os' with
          | nil => simpa using h
          | cons p' os' =>
              rw [List.intercalate_singleton, List.intercalate_cons_cons] at h
              exact absurd ⟨o', _, h.symm⟩ ho
      | cons p os =>
          cases os' with
          | nil =>
              rw [List.intercalate_singleton, List.intercalate_cons_cons] at h
              exact absurd ⟨o, _, h⟩ ho'
          | cons p' os' =>
              rw [List.intercalate_cons_cons, List.intercalate_cons_cons, List.append_assoc,
                List.append_assoc] at h
              obtain ⟨rfl, hothers⟩ := append_mark_inj hcd ho ho' h
              rw [ih hrest hrest' (by simp) (by simp) hothers]

end Text

structure GroundFluent where
  name : String
  objects : List String
  unended : '(' ∉ name.toList
  undivided : ∀ o ∈ objects, ¬ [',', ' '] <:+: o.toList
  deriving DecidableEq

namespace GroundFluent

def key (f : GroundFluent) : String := fluentKey f.name f.objects

theorem toList_fluentKey {name : String} {args : List String} (hargs : args ≠ []) :
    (fluentKey name args).toList =
      name.toList ++ '(' :: ([',', ' '].intercalate (args.map String.toList) ++ [')']) := by
  cases args with
  | nil => exact absurd rfl hargs
  | cons o os => simp [fluentKey]

theorem objects_of_key {f g : GroundFluent} (hname : f.name = g.name) (h : f.key = g.key) :
    f.objects = g.objects := by
  have hchars := congrArg String.toList h
  unfold key at hchars
  rw [hname] at hchars
  by_cases hf : f.objects = []
  · by_cases hg : g.objects = []
    · rw [hf, hg]
    · rw [toList_fluentKey hg, hf] at hchars
      simp [fluentKey] at hchars
  · by_cases hg : g.objects = []
    · rw [toList_fluentKey hf, hg] at hchars
      simp [fluentKey] at hchars
    · rw [toList_fluentKey hf, toList_fluentKey hg] at hchars
      have hobjects := List.append_cancel_right (List.cons.inj (List.append_cancel_left hchars)).2
      refine List.map_injective_iff.mpr (fun _ _ => String.toList_inj.mp) ?_
      refine Text.intercalate_inj (by decide) ?_ ?_ (by simpa using hf) (by simpa using hg) hobjects
      · exact List.forall_mem_map.mpr f.undivided
      · exact List.forall_mem_map.mpr g.undivided

theorem key_injective : Function.Injective key := by
  intro f g h
  have hname : f.name = g.name := name_of_fluentKey f.unended g.unended h
  have hobjects := objects_of_key hname h
  cases f
  cases g
  simp only [mk.injEq]
  exact ⟨hname, hobjects⟩

end GroundFluent

theorem OrderedMap.get?_ofList_map {κ κ' ν : Type} [DecidableEq κ] [DecidableEq κ'] {name : κ → κ'}
    (h : Function.Injective name) (es : List (κ × ν)) (k : κ) :
    (ofList (es.map fun e => (name e.1, e.2))).get? (name k) = (ofList es).get? k := by
  have hall (m : OrderedMap κ' ν) (m' : OrderedMap κ ν) (hm : m.get? (name k) = m'.get? k) :
      (m.putAll (es.map fun e => (name e.1, e.2))).get? (name k) = (m'.putAll es).get? k := by
    induction es generalizing m m' with
    | nil => exact hm
    | cons e es ih => exact ih _ _ (by simp [h.eq_iff, hm])
  exact hall .empty .empty rfl

def FluentTerm.Denotes (s : Situation) (t : FluentTerm) (f : GroundFluent) : Prop :=
  f.name = t.name ∧ Expr.evaluateObjects s t.name t.args = .ok f.objects

namespace Expr

mutual

def applications : Expr → List FluentTerm
  | .constant _ => []
  | .param _ => []
  | .fluent name args => applicationsAll args ++ [⟨name, args⟩]
  | .not arg => applications arg
  | .junction _ args => applicationsAll args
  | .relation _ left right => applications left ++ applications right
  | .arithmetic _ args => applicationsAll args

def applicationsAll : List Expr → List FluentTerm
  | [] => []
  | e :: es => applications e ++ applicationsAll es

end

mutual

theorem reads_eq (s : Situation) : ∀ e : Expr,
    reads s e = e.applications.mapM (FluentTerm.ground s)
  | .constant _ => rfl
  | .param _ => rfl
  | .fluent name args => by
      simp [reads, applications, readsAll_eq s args]
  | .not arg => reads_eq s arg
  | .junction _ args => readsAll_eq s args
  | .relation _ left right => by
      rw [reads, applications, List.mapM_append, reads_eq s left, reads_eq s right]
  | .arithmetic _ args => readsAll_eq s args

theorem readsAll_eq (s : Situation) : ∀ es : List Expr,
    readsAll s es = (applicationsAll es).mapM (FluentTerm.ground s)
  | [] => rfl
  | e :: es => by
      rw [readsAll, applicationsAll, List.mapM_append, reads_eq s e, readsAll_eq s es]

end

end Expr

theorem mem_mapM_iff {α β : Type} {f : α → Except Fault β} {xs : List α} {ys : List β}
    (h : xs.mapM f = .ok ys) (y : β) : y ∈ ys ↔ ∃ x ∈ xs, f x = .ok y := by
  induction xs generalizing ys with
  | nil =>
      obtain rfl : [] = ys := Except.ok.inj h
      simp
  | cons x xs ih =>
      simp only [List.mapM_cons, except_bind_ok, except_pure_ok] at h
      obtain ⟨first, hfirst, rest, hrest, rfl⟩ := h
      simp [ih hrest, hfirst, eq_comm]

namespace Firing

variable {s : Situation} {e : Event} {f : Firing} {key : String} {provider : Option EffectProvider}
  {given : List (String × Value)}

theorem touches_simulateAll :
    (f.simulateAll given).Touches key ↔ key ∈ given.map Prod.fst ∨ f.Touches key := by
  induction given generalizing f with
  | nil => simp [simulateAll]
  | cons x given ih =>
      rw [simulateAll, List.foldl_cons, ← simulateAll, ih, touches_simulate, List.map_cons,
        List.mem_cons, or_left_comm, or_assoc]

theorem changed_of_discrete {es : List Effect} {parts : List Part}
    (h : List.Forall₂ (Discrete s) es parts) :
    key ∈ (parts.flatMap Part.changes).map Prod.fst ↔
      ∃ x ∈ es, (∀ g ∈ x.condition, g.holds s = .ok true) ∧ x.target.ground s = .ok key := by
  induction h with
  | nil => simp
  | cons hp _ ih =>
      rw [List.flatMap_cons, List.map_append, List.mem_append, ih, List.exists_mem_cons_iff]
      refine or_congr_left ?_
      cases hp with
      | skip hc _ hfails => simp [hc, hfails]
      | fire _ hholds _ _ hmakes =>
          rw [List.map_singleton, List.mem_singleton, hmakes.1, Except.ok.injEq, eq_comm]
          exact (and_iff_right hholds).symm

theorem changed_of_flowing {elapsed : Rat} {es : List ContinuousEffect} {parts : List Part}
    (h : List.Forall₂ (Flowing s elapsed) es parts) :
    key ∈ (parts.flatMap Part.changes).map Prod.fst ↔
      ∃ x ∈ es, x.target.ground s = .ok key := by
  induction h with
  | nil => simp
  | cons hp _ ih =>
      rw [List.flatMap_cons, List.map_append, List.mem_append, ih, List.exists_mem_cons_iff]
      refine or_congr_left ?_
      cases hp with
      | mk _ hmakes =>
          rw [List.map_singleton, List.mem_singleton, hmakes.1, Except.ok.injEq, eq_comm]

theorem given_of_targets {targets : List FluentTerm}
    (h : List.Forall₂ (fun t x => t.ground s = .ok x.1) targets given) :
    key ∈ given.map Prod.fst ↔ ∃ t ∈ targets, t.ground s = .ok key := by
  induction h with
  | nil => simp
  | cons hkey _ ih => simp [ih, hkey, eq_comm]

end Firing

namespace Event

inductive Targets (s : Situation) (e : Event) : FluentTerm → Prop
  | effect {x : Effect} (mem : x ∈ e.effects) (holds : ∀ g ∈ x.condition, g.holds s = .ok true) :
      Targets s e x.target
  | continuous {x : ContinuousEffect} (mem : x ∈ e.continuousEffects) : Targets s e x.target
  | simulated {x : SimulatedEffect} {t : FluentTerm} (has : e.simulated = some x)
      (mem : t ∈ x.targets) : Targets s e t

variable {s : Situation} {e : Event} {f : Firing} {key : String} {provider : Option EffectProvider}

theorem mem_updates_ofEvent (h : Firing.ofEvent provider s e = .ok f) :
    key ∈ f.updates.keys ↔ ∃ t, e.Targets s t ∧ t.ground s = .ok key := by
  obtain ⟨parts, given, ⟨⟨discrete, flowing, hd, hf, rfl⟩, hgiven⟩, rfl⟩ :=
    Firing.ofEvent_iff.mp h
  rw [Firing.mem_updates_iff, Firing.gather, Firing.touches_simulateAll,
    (Firing.gathers_parts _).reflects.touches, List.flatMap_append, List.map_append,
    List.mem_append, Firing.changed_of_discrete hd, Firing.changed_of_flowing hf]
  have hsimulated : key ∈ given.map Prod.fst ↔
      ∃ x t, e.simulated = some x ∧ t ∈ x.targets ∧ t.ground s = .ok key := by
    unfold Event.Gives at hgiven
    cases hsim : e.simulated with
    | none => simp [show given = [] by simpa [hsim] using hgiven]
    | some x =>
        rw [hsim] at hgiven
        obtain ⟨p, -, -, htargets⟩ := hgiven
        simp [Firing.given_of_targets htargets]
  rw [hsimulated]
  constructor
  · rintro (⟨x, t, hx, ht, hkey⟩ | ⟨x, hx, hholds, hkey⟩ | ⟨x, hx, hkey⟩)
    · exact ⟨t, .simulated hx ht, hkey⟩
    · exact ⟨_, .effect hx hholds, hkey⟩
    · exact ⟨_, .continuous hx, hkey⟩
  · rintro ⟨t, ht, hkey⟩
    cases ht with
    | effect hx hholds => exact .inr (.inl ⟨_, hx, hholds, hkey⟩)
    | continuous hx => exact .inr (.inr ⟨_, hx, hkey⟩)
    | simulated hx ht => exact .inl ⟨_, t, hx, ht, hkey⟩

end Event

namespace GroundFluent

theorem ground_key_iff {s : Situation} {t : FluentTerm} (h : ∃ f, t.Denotes s f)
    (g : GroundFluent) : t.ground s = .ok g.key ↔ t.Denotes s g := by
  have hground {f : GroundFluent} (hf : t.Denotes s f) : t.ground s = .ok f.key := by
    rw [FluentTerm.ground, hf.2, key, hf.1]
    rfl
  refine ⟨fun hg => ?_, hground⟩
  obtain ⟨f, hf⟩ := h
  obtain rfl : f = g := key_injective (Except.ok.inj ((hground hf).symm.trans hg))
  exact hf

theorem keys_apart :
    (∀ f g : GroundFluent, fluentKey f.name f.objects = fluentKey g.name g.objects →
      f.name = g.name ∧ f.objects = g.objects) ∧
    (∀ (v : Valuation) (changes : List (GroundFluent × Value)) (g : GroundFluent),
      (v.update (.ofList (changes.map fun x => (x.1.key, x.2)))).get? g.key =
        ((OrderedMap.ofList changes).get? g).or (v.get? g.key)) ∧
    (∀ (s : Situation) (e : Expr) (keys : List String), e.reads s = .ok keys →
      (∀ t ∈ e.applications, ∃ f, t.Denotes s f) →
      ∀ g : GroundFluent, g.key ∈ keys ↔ ∃ t ∈ e.applications, t.Denotes s g) ∧
    ∀ (provider : Option EffectProvider) (s : Situation) (e : Event) (firing : Firing),
      Firing.ofEvent provider s e = .ok firing → (∀ t, e.Targets s t → ∃ f, t.Denotes s f) →
      ∀ g : GroundFluent, g.key ∈ firing.updates.keys ↔ ∃ t, e.Targets s t ∧ t.Denotes s g := by
  refine ⟨fun f g h => ?_, fun v changes g => ?_, fun s e keys h hplain g => ?_,
    fun provider s e firing h hplain g => ?_⟩
  · rw [key_injective h]
    exact ⟨rfl, rfl⟩
  · rw [Valuation.get?_update, OrderedMap.get?_ofList_map key_injective]
  · rw [Expr.reads_eq] at h
    rw [mem_mapM_iff h]
    exact exists_congr fun t => and_congr_right fun ht => ground_key_iff (hplain t ht) g
  · rw [Event.mem_updates_ofEvent h]
    exact exists_congr fun t => and_congr_right fun ht => ground_key_iff (hplain t ht) g

end GroundFluent

example : fluentKey "at" ["a, b"] = fluentKey "at" ["a", "b"] := by decide

namespace Tank

def levelOf (tank : Char) : GroundFluent where
  name := "level"
  objects := [String.singleton tank]
  unended := by decide
  undivided := by simp [List.infix_cons_iff]

def valve : GroundFluent := ⟨"valve", [], by decide, by simp⟩

theorem denotes_targets {t : FluentTerm} (h : (drain [byArgument]).Targets filled t) :
    t.Denotes filled (levelOf 'a') ∨ t.Denotes filled valve := by
  cases h with
  | effect hx _ =>
      obtain rfl := List.mem_singleton.mp hx
      exact .inl ⟨rfl, rfl⟩
  | continuous hx =>
      obtain rfl := List.mem_singleton.mp hx
      exact .inl ⟨rfl, rfl⟩
  | simulated hx ht =>
      obtain rfl := Option.some.inj hx
      obtain rfl := List.mem_singleton.mp ht
      exact .inr ⟨rfl, rfl⟩

theorem keys_apart_drain : ∃ f, Firing.ofEvent (some opener) filled (drain [byArgument]) = .ok f ∧
    (levelOf 'a').key ∈ f.updates.keys ∧ (levelOf 'b').key ∉ f.updates.keys := by
  obtain ⟨f, hf⟩ : ∃ f, Firing.ofEvent (some opener) filled (drain [byArgument]) = .ok f :=
    ⟨_, rfl⟩
  obtain ⟨-, -, -, hwrites⟩ := GroundFluent.keys_apart
  have hmem := hwrites _ _ _ f hf fun t ht => (denotes_targets ht).elim
    (fun h => ⟨_, h⟩) fun h => ⟨_, h⟩
  refine ⟨f, hf, (hmem _).mpr ⟨_, .continuous List.mem_cons_self, rfl, rfl⟩, fun hb => ?_⟩
  obtain ⟨t, ht, hname, hobjects⟩ := (hmem _).mp hb
  rcases denotes_targets ht with ⟨-, ha⟩ | ⟨hvalve, -⟩
  · exact absurd (Except.ok.inj (hobjects.symm.trans ha)) (by decide)
  · exact absurd (hname.trans hvalve.symm) (by decide)

end Tank

end TemporalPlanning
