import Mathlib.Data.List.Perm.Basic
import TemporalPlanning.Proofs.Interchange

namespace TemporalPlanning

def ContinuousEffect.Makes (s : Situation) (elapsed : Rat) (e : ContinuousEffect) (key : String)
    (c : Change) : Prop :=
  e.target.ground s = .ok key ∧ ∃ rate base, e.rate.amount s = .ok rate ∧
    e.target.expr.amount s = .ok base ∧ c = .shift base (e.direction.apply (rate * elapsed))

def Event.Gives (provider : Option EffectProvider) (s : Situation) (e : Event)
    (given : List (String × Value)) : Prop :=
  match e.simulated with
  | none => given = []
  | some sim => ∃ p, provider = some p ∧
      p.values ⟨sim, e.activity, s⟩ = .ok (given.map Prod.snd) ∧
      List.Forall₂ (fun t x => t.ground s = .ok x.1) sim.targets given

structure Event.Rearranges (e' e : Event) : Prop where
  effects : e'.effects.Perm e.effects
  continuous : e'.continuousEffects.Perm e.continuousEffects
  elapsed : Firing.elapsed e' = Firing.elapsed e
  simulated : e'.simulated = e.simulated
  activity : e'.activity = e.activity

namespace Firing

variable {s : Situation} {e : Event} {f f' : Firing} {key : String}
  {given : List (String × Value)}

section Parts

structure Part where
  reads : List String
  changes : List (String × Change)

def take (f : Firing) (p : Part) : Firing :=
  p.changes.foldl (fun f x => f.make x.1 x.2) (f.read p.reads)

inductive Discrete (s : Situation) (e : Effect) : Part → Prop
  | skip {c guards} (condition : e.condition = some c) (reads : c.reads s = .ok guards)
      (fails : c.holds s = .ok false) : Discrete s e ⟨guards, []⟩
  | fire {guards values args key c} (reads : e.guardReads s = .ok guards)
      (holds : ∀ g ∈ e.condition, g.holds s = .ok true) (value : e.value.reads s = .ok values)
      (target : Expr.readsAll s e.target.args = .ok args) (makes : e.Makes s key c) :
      Discrete s e ⟨guards ++ values ++ args ++ e.rereads key, [(key, c)]⟩

inductive Flowing (s : Situation) (elapsed : Rat) (e : ContinuousEffect) : Part → Prop
  | mk {rates key c} (rate : e.rate.reads s = .ok rates) (makes : e.Makes s elapsed key c) :
      Flowing s elapsed e ⟨rates ++ [key], [(key, c)]⟩

theorem fireEffect_iff (e : Effect) (f f' : Firing) :
    fireEffect s f e = .ok f' ↔ ∃ p, Discrete s e p ∧ f' = f.take p := by
  simp only [fireEffect_eq, except_bind_ok]
  constructor
  · rintro ⟨guards, hguards, fires, hfires, h⟩
    cases fires with
    | false =>
        obtain ⟨c, hc, hfails⟩ := Effect.guard_false hfires
        rw [Effect.guardReads, hc] at hguards
        exact ⟨_, .skip hc hguards hfails, (except_pure_ok.mp h).symm⟩
    | true =>
        obtain ⟨values, args, key, c, hvalues, hargs, hmakes, rfl⟩ := takeEffect_ok.mp h
        exact ⟨_, .fire hguards (Effect.guard_true hfires) hvalues hargs hmakes, rfl⟩
  · rintro ⟨p, hp, rfl⟩
    cases hp with
    | skip hc hreads hfails =>
        refine ⟨_, ?_, false, ?_, rfl⟩
        · rwa [Effect.guardReads, hc]
        · rwa [Effect.guard, hc]
    | fire hguards hholds hvalues hargs hmakes =>
        refine ⟨_, hguards, true, ?_, takeEffect_ok.mpr ⟨_, _, _, _, hvalues, hargs, hmakes, rfl⟩⟩
        unfold Effect.guard
        split
        · rename_i g hg
          exact hholds g hg
        · rfl

theorem fireContinuous_iff {elapsed : Rat} (e : ContinuousEffect) (f f' : Firing) :
    fireContinuous s elapsed f e = .ok f' ↔ ∃ p, Flowing s elapsed e p ∧ f' = f.take p := by
  simp only [fireContinuous, except_bind_ok, except_pure_ok]
  constructor
  · rintro ⟨rates, hrates, key, hkey, rate, hrate, base, hbase, rfl⟩
    exact ⟨_, .mk hrates ⟨hkey, rate, base, hrate, hbase, rfl⟩, rfl⟩
  · rintro ⟨p, ⟨hrates, hkey, rate, base, hrate, hbase, rfl⟩, rfl⟩
    exact ⟨_, hrates, _, hkey, rate, hrate, base, hbase, rfl⟩

theorem foldlM_iff {α : Type} {step : Firing → α → Except Fault Firing} {T : α → Part → Prop}
    (hstep : ∀ x f f', step f x = .ok f' ↔ ∃ p, T x p ∧ f' = f.take p) {xs : List α} :
    xs.foldlM step f = .ok f' ↔ ∃ parts, List.Forall₂ T xs parts ∧ f' = parts.foldl take f := by
  induction xs generalizing f with
  | nil =>
      constructor
      · intro h
        exact ⟨[], .nil, (except_pure_ok.mp h).symm⟩
      · rintro ⟨_, ⟨⟩, rfl⟩
        rfl
  | cons x xs ih =>
      simp only [List.foldlM_cons, except_bind_ok, ih, hstep]
      constructor
      · rintro ⟨_, ⟨p, hp, rfl⟩, parts, hparts, rfl⟩
        exact ⟨p :: parts, .cons hp hparts, rfl⟩
      · rintro ⟨_, hall, rfl⟩
        cases hall with
        | cons hp hparts => exact ⟨_, ⟨_, hp, rfl⟩, _, hparts, rfl⟩

def simulateAll (f : Firing) (given : List (String × Value)) : Firing :=
  given.foldl (fun f x => f.simulate x.1 x.2) f

theorem fireTargets_iff {targets : List FluentTerm} {values : List Value}
    (hlength : values.length = targets.length) : fireTargets s f (targets.zip values) = .ok f' ↔
      ∃ given, values = given.map Prod.snd ∧
        List.Forall₂ (fun t x => t.ground s = .ok x.1) targets given ∧
        f' = f.simulateAll given := by
  induction targets generalizing values f with
  | nil =>
      obtain rfl := List.length_eq_zero_iff.mp hlength
      constructor
      · intro h
        exact ⟨[], rfl, .nil, (Except.ok.inj h).symm⟩
      · rintro ⟨_, -, ⟨⟩, rfl⟩
        rfl
  | cons t targets ih =>
      cases values with
      | nil => simp at hlength
      | cons v values =>
          simp only [List.zip_cons_cons, fireTargets, except_bind_ok, ih (Nat.succ.inj hlength)]
          constructor
          · rintro ⟨key, hkey, given, rfl, hgiven, rfl⟩
            exact ⟨(key, v) :: given, rfl, .cons hkey hgiven, rfl⟩
          · rintro ⟨_, hvalues, hall, rfl⟩
            cases hall with
            | cons hkey hgiven =>
                obtain ⟨rfl, rfl⟩ := List.cons.inj hvalues
                exact ⟨_, hkey, _, rfl, hgiven, rfl⟩

end Parts

section Events

variable {provider : Option EffectProvider}

structure Parts (provider : Option EffectProvider) (s : Situation) (e : Event)
    (parts : List Part) (given : List (String × Value)) : Prop where
  parts : ∃ discrete flowing, List.Forall₂ (Discrete s) e.effects discrete ∧
    List.Forall₂ (Flowing s (elapsed e)) e.continuousEffects flowing ∧ parts = discrete ++ flowing
  given : e.Gives provider s given

def gather (parts : List Part) (given : List (String × Value)) : Firing :=
  (parts.foldl take empty).simulateAll given

theorem simulated_iff : (match e.simulated with
      | none => pure f
      | some sim => fireSimulated provider e.activity s f sim) = .ok f' ↔
    ∃ given, e.Gives provider s given ∧ f' = f.simulateAll given := by
  unfold Event.Gives
  cases e.simulated with
  | none =>
      constructor
      · intro h
        exact ⟨[], rfl, (except_pure_ok.mp h).symm⟩
      · rintro ⟨_, rfl, rfl⟩
        rfl
  | some sim =>
      cases provider with
      | none => simp [fireSimulated]
      | some p =>
          simp only [fireSimulated, except_bind_ok]
          constructor
          · rintro ⟨values, hvalues, h⟩
            split at h
            · rename_i hlength
              obtain ⟨given, rfl, hgiven, rfl⟩ := (fireTargets_iff hlength).mp h
              exact ⟨given, ⟨p, rfl, hvalues, hgiven⟩, rfl⟩
            · simp at h
          · rintro ⟨given, ⟨_, hp, hvalues, hgiven⟩, rfl⟩
            obtain rfl := Option.some.inj hp
            have hlength : (given.map Prod.snd).length = sim.targets.length := by
              rw [List.length_map, hgiven.length_eq]
            refine ⟨_, hvalues, ?_⟩
            rw [if_pos hlength]
            exact (fireTargets_iff hlength).mpr ⟨given, rfl, hgiven, rfl⟩

theorem ofEvent_iff : ofEvent provider s e = .ok f ↔
    ∃ parts given, Parts provider s e parts given ∧ f = gather parts given := by
  have hdiscrete {f f' : Firing} : e.effects.foldlM (fireEffect s) f = .ok f' ↔
      ∃ parts, List.Forall₂ (Discrete s) e.effects parts ∧ f' = parts.foldl take f :=
    foldlM_iff fireEffect_iff
  have hflowing {f f' : Firing} :
      e.continuousEffects.foldlM (fireContinuous s (elapsed e)) f = .ok f' ↔
        ∃ parts, List.Forall₂ (Flowing s (elapsed e)) e.continuousEffects parts ∧
          f' = parts.foldl take f :=
    foldlM_iff fireContinuous_iff
  simp only [ofEvent, except_bind_ok, hdiscrete, hflowing]
  constructor
  · rintro ⟨_, ⟨discrete, hd, rfl⟩, _, ⟨flowing, hf, rfl⟩, h⟩
    obtain ⟨given, hgiven, rfl⟩ := simulated_iff.mp h
    refine ⟨_, given, ⟨⟨discrete, flowing, hd, hf, rfl⟩, hgiven⟩, ?_⟩
    rw [gather, List.foldl_append]
  · rintro ⟨_, given, ⟨⟨discrete, flowing, hd, hf, rfl⟩, hgiven⟩, rfl⟩
    refine ⟨_, ⟨discrete, hd, rfl⟩, _, ⟨flowing, hf, rfl⟩, ?_⟩
    exact simulated_iff.mpr ⟨given, hgiven, by rw [gather, List.foldl_append]⟩

end Events

section Agreement

variable {s' : Situation} {provider : Option EffectProvider}

theorem reads_take (f : Firing) (p : Part) : (f.take p).reads = f.reads ++ p.reads := by
  have hmake (xs : List (String × Change)) (f : Firing) :
      (xs.foldl (fun f x => f.make x.1 x.2) f).reads = f.reads := by
    induction xs generalizing f with
    | nil => rfl
    | cons x xs ih => rw [List.foldl_cons, ih, reads_make]
  rw [take, hmake]
  rfl

theorem reads_takeAll (f : Firing) (parts : List Part) :
    (parts.foldl take f).reads = f.reads ++ parts.flatMap Part.reads := by
  induction parts generalizing f with
  | nil => simp
  | cons p parts ih => rw [List.foldl_cons, ih, reads_take, List.flatMap_cons, List.append_assoc]

theorem Flowing.of_agrees {elapsed : Rat} {e : ContinuousEffect} {p : Part}
    (h : Flowing s elapsed e p) (hs : s.Agrees s' p.reads)
    (hargs : ∀ keys, Expr.readsAll s e.target.args = .ok keys → s.Agrees s' keys) :
    Flowing s' elapsed e p := by
  cases h with
  | mk hrates hmakes =>
      obtain ⟨hkey, rate, base, hrate, hbase, hshift⟩ := hmakes
      have hground := hkey
      simp only [FluentTerm.ground, except_bind_ok] at hground
      obtain ⟨objects, hobjects, -⟩ := hground
      obtain ⟨keys, hkeys⟩ := Expr.readsAll_of_objects _ hobjects
      obtain ⟨hsame, -⟩ := Expr.evaluateAll_of_agrees _ hkeys (hargs keys hkeys)
      have hown : e.target.expr.reads s = .ok (keys ++ [_]) :=
        except_bind_ok.mpr ⟨keys, hkeys, except_bind_ok.mpr ⟨_, hkey, rfl⟩⟩
      refine .mk (Expr.reads_of_agrees hrates hs.left) ⟨?_, rate, base, ?_, ?_, hshift⟩
      · rw [FluentTerm.ground, hsame, ← FluentTerm.ground, hkey]
      · rw [Expr.amount_of_agrees hrates hs.left, hrate]
      · rw [Expr.amount_of_agrees hown, hbase]
        exact ⟨hs.defaults, hs.bindings, fun k hk => (List.mem_append.mp hk).elim
          ((hargs keys hkeys).values k) (hs.right.values k)⟩

theorem flowing_of_agrees {elapsed : Rat} {es : List ContinuousEffect} {parts : List Part}
    (h : List.Forall₂ (Flowing s elapsed) es parts) (hs : s.Agrees s' (parts.flatMap Part.reads))
    (hargs : ∀ x ∈ es, ∀ keys, Expr.readsAll s x.target.args = .ok keys → s.Agrees s' keys) :
    List.Forall₂ (Flowing s' elapsed) es parts := by
  induction h with
  | nil => exact .nil
  | cons hp _ ih =>
      rw [List.forall_mem_cons] at hargs
      rw [List.flatMap_cons] at hs
      exact .cons (hp.of_agrees hs.left hargs.1) (ih hs.right hargs.2)

theorem ofEvent_of_agrees (h : ofEvent provider s e = .ok f) (he : e.simulated = none)
    (hs : s.Agrees s' f.reads) (hargs : ∀ x ∈ e.continuousEffects, ∀ keys,
      Expr.readsAll s x.target.args = .ok keys → s.Agrees s' keys) :
    ofEvent provider s' e = .ok f := by
  simp only [ofEvent, except_bind_ok, he, except_pure_ok] at h ⊢
  obtain ⟨first, hdiscrete, _, hflowing, rfl⟩ := h
  obtain ⟨parts, hparts, rfl⟩ := (foldlM_iff fireContinuous_iff).mp hflowing
  rw [reads_takeAll] at hs
  have hparts' := flowing_of_agrees hparts hs.right hargs
  exact ⟨first, foldlM_of_agrees hdiscrete hs.left, _,
    (foldlM_iff fireContinuous_iff).mpr ⟨parts, hparts', rfl⟩, rfl⟩

end Agreement

end Firing

namespace Event.Rearranges

variable {provider : Option EffectProvider} {s : Situation} {e e' : Event}

theorem gives {given : List (String × Value)} (h : e'.Rearranges e)
    (hgiven : e.Gives provider s given) : e'.Gives provider s given := by
  unfold Event.Gives at hgiven ⊢
  rwa [h.simulated, h.activity]

theorem parts {parts : List Firing.Part} {given : List (String × Value)} (h : e'.Rearranges e)
    (hparts : Firing.Parts provider s e parts given) :
    ∃ parts', parts'.Perm parts ∧ Firing.Parts provider s e' parts' given := by
  obtain ⟨discrete, flowing, hd, hf, rfl⟩ := hparts.parts
  obtain ⟨discrete', hd', hdperm⟩ := List.perm_comp_forall₂ h.effects hd
  obtain ⟨flowing', hf', hfperm⟩ := List.perm_comp_forall₂ h.continuous hf
  refine ⟨discrete' ++ flowing', hdperm.append hfperm, ⟨discrete', flowing', hd', ?_, rfl⟩,
    h.gives hparts.given⟩
  rwa [h.elapsed]

end Event.Rearranges

end TemporalPlanning
