import Mathlib.Algebra.BigOperators.Group.List.Basic
import Mathlib.Data.List.Duplicate
import TemporalPlanning.Proofs.EventParts

namespace TemporalPlanning

def Clash (changes : List (String × Change)) (key : String) : Prop :=
  ∃ c c', (key, c) ∈ changes ∧ (key, c') ∈ changes ∧ ¬ c.Compatible c'

structure Writes where
  changes : List (String × Change)
  given : List (String × Value)

namespace Writes

structure Of (provider : Option EffectProvider) (s : Situation) (e : Event) (w : Writes) :
    Prop where
  changes : ∃ discrete flowing, Fires s e.effects discrete ∧
    List.Forall₂ (fun c x => c.Makes s (Firing.elapsed e) x.1 x.2) e.continuousEffects flowing ∧
    w.changes = discrete ++ flowing
  given : e.Gives provider s w.given

inductive Contested (w : Writes) (key : String) : Prop
  | changes (clash : Clash w.changes key)
  | givenAndChanged (given : key ∈ w.given.map Prod.fst) (changed : key ∈ w.changes.map Prod.fst)
  | givenTwice (twice : (w.given.map Prod.fst).Duplicate key)

end Writes

def Event.Shifts (s : Situation) (e : Event) (key name : String) : Prop :=
  (∃ x ∈ e.effects, x.kind ≠ .assign ∧ (∀ g ∈ x.condition, g.holds s = .ok true) ∧
    x.target.ground s = .ok key ∧ x.target.name = name) ∨
  ∃ x ∈ e.continuousEffects, x.target.ground s = .ok key ∧ x.target.name = name

def Event.Unambiguous (s : Situation) (e : Event) (key : String) : Prop :=
  ∀ name name', e.Shifts s key name → e.Shifts s key name' → s.lookup key name = s.lookup key name'

structure Writes.Achieved (w : Writes) (s : Situation) (e : Event) (v : Valuation) : Prop where
  assigned : ∀ key value, (key, .become value) ∈ w.changes → v.get? key = some value
  given : ∀ key value, (key, value) ∈ w.given → v.get? key = some value
  shifted : ∀ key old amount, e.Unambiguous s key → (key, .shift old amount) ∈ w.changes →
    v.get? key = some (.number (old + ((shiftsOf key w.changes).map Prod.snd).sum))
  kept : ∀ key, key ∉ w.changes.map Prod.fst → key ∉ w.given.map Prod.fst →
    v.get? key = s.valuation.get? key

namespace Firing

variable {s : Situation} {e : Event} {f f' : Firing} {key : String} {c : Change}
  {changes : List (String × Change)} {given : List (String × Value)}

section Gathering

theorem mem_clash {b : Bool} {k : String} :
    k ∈ (f.clash key b).clashes ↔ k ∈ f.clashes ∨ k = key ∧ b = true := by
  unfold clash
  split
  · rename_i hb
    simp [hb]
  · rename_i hb
    simp [hb]

theorem clash_append {x : String × Change} : Clash (changes ++ [x]) key ↔
    Clash changes key ∨ key = x.1 ∧ ∃ c, (key, c) ∈ changes ∧ ¬ c.Compatible x.2 := by
  constructor
  · rintro ⟨c, c', hc, hc', hagainst⟩
    rw [List.mem_append, List.mem_singleton] at hc hc'
    rcases hc with hc | rfl
    · rcases hc' with hc' | rfl
      · exact .inl ⟨c, c', hc, hc', hagainst⟩
      · exact .inr ⟨rfl, c, hc, hagainst⟩
    · rcases hc' with hc' | heq
      · exact .inr ⟨rfl, c', hc', fun h => hagainst h.symm⟩
      · obtain rfl : c' = c := (Prod.mk.inj heq).2
        exact absurd (.refl c') hagainst
  · rintro (⟨c, c', hc, hc', hagainst⟩ | ⟨rfl, c, hc, hagainst⟩)
    · exact ⟨c, c', List.mem_append_left _ hc, List.mem_append_left _ hc', hagainst⟩
    · exact ⟨c, x.2, List.mem_append_left _ hc, by simp, hagainst⟩

structure Gathers (f : Firing) (changes : List (String × Change)) : Prop where
  reflects : f.Reflects changes
  clashes : ∀ key, key ∈ f.clashes ↔ Clash changes key

theorem gathers_empty : empty.Gathers [] :=
  ⟨reflects_empty, fun key => by simp [empty, Clash]⟩

namespace Gathers

theorem read (h : f.Gathers changes) (keys : List String) : (f.read keys).Gathers changes :=
  ⟨h.reflects.read keys, h.clashes⟩

theorem clashes_make (h : f.Gathers changes) (k : String) :
    k ∈ (f.make key c).clashes ↔ Clash (changes ++ [(key, c)]) k := by
  rw [clash_append, ← h.clashes]
  cases c with
  | become value =>
      change k ∈ (f.clash key _).clashes ↔ _
      rw [mem_clash, Bool.or_eq_true, h.reflects.contains_deltas]
      constructor
      · rintro (hk | ⟨rfl, ⟨base, amount, hshift⟩ | hother⟩)
        · exact .inl hk
        · exact .inr ⟨rfl, _, hshift, id⟩
        · obtain ⟨other, hget, hne⟩ := (Option.any_eq_true _ _).mp hother
          have hne : other ≠ value := by simpa using hne
          exact .inr ⟨rfl, _, h.reflects.assigned k other hget, hne⟩
      · rintro (hk | ⟨rfl, c, hc, hagainst⟩)
        · exact .inl hk
        · cases c with
          | shift base amount => exact .inr ⟨rfl, .inl ⟨base, amount, hc⟩⟩
          | become other =>
              -- the value that is kept may be a third one, which then clashes with `other` already
              obtain ⟨kept, hkept⟩ := Option.isSome_iff_exists.mp (h.reflects.contains k other hc)
              by_cases heq : kept = value
              · refine .inl ((h.clashes k).mpr ⟨_, _, hc, h.reflects.assigned k kept hkept, ?_⟩)
                exact fun hcompatible : other = kept => hagainst (hcompatible.trans heq)
              · exact .inr ⟨rfl, .inr (by simp [hkept, heq])⟩
  | shift base amount =>
      change k ∈ (f.clash key _).clashes ↔ _
      rw [mem_clash]
      refine or_congr_right (and_congr_right fun hk => ?_)
      subst hk
      constructor
      · intro hcontains
        obtain ⟨value, hvalue⟩ := Option.isSome_iff_exists.mp hcontains
        exact ⟨_, h.reflects.assigned k value hvalue, id⟩
      · rintro ⟨c, hc, hagainst⟩
        cases c with
        | become value => exact h.reflects.contains k value hc
        | shift base' amount' => exact absurd trivial hagainst

theorem make (h : f.Gathers changes) (key : String) (c : Change) :
    (f.make key c).Gathers (changes ++ [(key, c)]) :=
  ⟨h.reflects.make key c, h.clashes_make⟩

theorem take (h : f.Gathers changes) (p : Part) : (f.take p).Gathers (changes ++ p.changes) := by
  have hall (xs : List (String × Change)) {f : Firing} {changes : List (String × Change)}
      (h : f.Gathers changes) :
      (xs.foldl (fun f x => f.make x.1 x.2) f).Gathers (changes ++ xs) := by
    induction xs generalizing f changes with
    | nil => rwa [List.append_nil]
    | cons x xs ih => simpa using ih (h.make x.1 x.2)
  exact hall p.changes (h.read p.reads)

theorem takeAll (h : f.Gathers changes) (parts : List Part) :
    (parts.foldl Firing.take f).Gathers (changes ++ parts.flatMap Part.changes) := by
  induction parts generalizing f changes with
  | nil => rwa [List.flatMap_nil, List.append_nil]
  | cons p parts ih => simpa using ih (h.take p)

end Gathers

end Gathering

section Simulated

theorem assigned_clash {b : Bool} : (f.clash key b).assigned = f.assigned := by
  unfold clash
  split <;> rfl

theorem deltas_clash {b : Bool} : (f.clash key b).deltas = f.deltas := by
  unfold clash
  split <;> rfl

theorem assigned_simulate {x : String × Value} :
    (f.simulate x.1 x.2).assigned = f.assigned.put x.1 x.2 := by
  simp only [simulate, assigned_clash]

theorem deltas_simulate {x : String × Value} : (f.simulate x.1 x.2).deltas = f.deltas :=
  deltas_clash

theorem touches_simulate {x : String × Value} :
    (f.simulate x.1 x.2).Touches key ↔ key = x.1 ∨ f.Touches key := by
  simp only [Touches, assigned_simulate, deltas_simulate, OrderedMap.contains, OrderedMap.get?_put]
  by_cases hkey : key = x.1 <;> simp [hkey]

theorem clashes_simulateAll : key ∈ (f.simulateAll given).clashes ↔
    key ∈ f.clashes ∨ (key ∈ given.map Prod.fst ∧ f.Touches key) ∨
      (given.map Prod.fst).Duplicate key := by
  induction given generalizing f with
  | nil => simp [simulateAll]
  | cons x given ih =>
      have hclashes : key ∈ (f.simulate x.1 x.2).clashes ↔
          key ∈ f.clashes ∨ key = x.1 ∧ f.Touches key := by
        change key ∈ (f.clash x.1 _).clashes ↔ _
        rw [mem_clash]
        exact or_congr_right (and_congr_right fun hkey => hkey ▸ Iff.rfl)
      rw [simulateAll, List.foldl_cons, ← simulateAll, ih, hclashes, touches_simulate,
        List.map_cons, List.duplicate_cons_iff, List.mem_cons, eq_comm (a := x.1)]
      tauto

theorem assigned_simulateAll :
    (f.simulateAll given).assigned = f.assigned.putAll given := by
  induction given generalizing f with
  | nil => rfl
  | cons x given ih =>
      rw [simulateAll, List.foldl_cons, ← simulateAll, ih, assigned_simulate]
      rfl

theorem deltas_simulateAll : (f.simulateAll given).deltas = f.deltas := by
  induction given generalizing f with
  | nil => rfl
  | cons x given ih => rw [simulateAll, List.foldl_cons, ← simulateAll, ih, deltas_simulate]

theorem get?_updates_simulateAll (h : (given.map Prod.fst).Nodup) :
    (f.simulateAll given).updates.get? key =
      (OrderedMap.find key given).or (f.updates.get? key) := by
  rw [get?_updates, get?_updates, assigned_simulateAll, deltas_simulateAll, OrderedMap.contains,
    OrderedMap.get?_putAll _ h, OrderedMap.contains]
  cases OrderedMap.find key given with
  | none =>
      rw [Option.none_or, Option.none_or]
  | some value => simp

end Simulated

section Events

variable {provider : Option EffectProvider}

theorem fires_of_discrete {es : List Effect} {parts : List Part}
    (h : List.Forall₂ (Discrete s) es parts) : Fires s es (parts.flatMap Part.changes) := by
  induction h with
  | nil => exact .nil
  | cons hp _ ih =>
      cases hp with
      | skip hc _ hfails => exact .skip hc hfails ih
      | fire _ hholds _ _ hmakes => exact .fire hholds hmakes ih

theorem makes_of_flowing {elapsed : Rat} {es : List ContinuousEffect} {parts : List Part}
    (h : List.Forall₂ (Flowing s elapsed) es parts) :
    List.Forall₂ (fun c x => c.Makes s elapsed x.1 x.2) es (parts.flatMap Part.changes) := by
  induction h with
  | nil => exact .nil
  | cons hp _ ih =>
      cases hp with
      | mk _ hmakes => exact .cons hmakes ih

theorem Parts.writes {parts : List Part} (h : Parts provider s e parts given) :
    Writes.Of provider s e ⟨parts.flatMap Part.changes, given⟩ := by
  obtain ⟨discrete, flowing, hd, hf, rfl⟩ := h.parts
  exact ⟨⟨_, _, fires_of_discrete hd, makes_of_flowing hf, List.flatMap_append⟩, h.given⟩

theorem gathers_parts (parts : List Part) :
    (parts.foldl take empty).Gathers (parts.flatMap Part.changes) :=
  gathers_empty.takeAll parts

theorem mem_conflicts_gather {parts : List Part} : key ∈ (gather parts given).conflicts ↔
    Writes.Contested ⟨parts.flatMap Part.changes, given⟩ key := by
  have hgathers := gathers_parts parts
  rw [conflicts, List.mem_eraseDups, gather, clashes_simulateAll, hgathers.clashes,
    hgathers.reflects.touches]
  constructor
  · rintro (hclash | ⟨hgiven, hchanged⟩ | htwice)
    · exact .changes hclash
    · exact .givenAndChanged hgiven hchanged
    · exact .givenTwice htwice
  · intro h
    cases h with
    | changes hclash => exact .inl hclash
    | givenAndChanged hgiven hchanged => exact .inr (.inl ⟨hgiven, hchanged⟩)
    | givenTwice htwice => exact .inr (.inr htwice)

end Events

end Firing

namespace Writes

variable {provider : Option EffectProvider} {s : Situation} {e e' : Event} {w w' : Writes}
  {key : String} {v v' : Valuation}

theorem old_value {t : FluentTerm} {q : Rat} (hkey : t.ground s = .ok key)
    (hq : t.expr.amount s = .ok q) : s.lookup key t.name = .ok (.number q) := by
  simp only [FluentTerm.ground, except_bind_ok, except_pure_ok] at hkey
  obtain ⟨objects, hobjects, rfl⟩ := hkey
  simp only [Expr.amount, FluentTerm.expr, Expr.evaluate, except_bind_ok] at hq
  obtain ⟨value, ⟨_, hobjects', hvalue⟩, hq⟩ := hq
  obtain rfl := Except.ok.inj (hobjects.symm.trans hobjects')
  cases value with
  | number r => rw [hvalue, Except.ok.inj hq]
  | bool b => simp [Value.toNumber] at hq
  | object name => simp [Value.toNumber] at hq

theorem shift_of_fires {es : List Effect} {changes : List (String × Change)} {old amount : Rat}
    (h : Fires s es changes) (hmem : (key, .shift old amount) ∈ changes) :
    ∃ x ∈ es, x.kind ≠ .assign ∧ (∀ g ∈ x.condition, g.holds s = .ok true) ∧
      x.target.ground s = .ok key ∧ s.lookup key x.target.name = .ok (.number old) := by
  induction h with
  | nil => simp at hmem
  | skip _ _ _ ih =>
      obtain ⟨x, hx, hrest⟩ := ih hmem
      exact ⟨x, List.mem_cons_of_mem _ hx, hrest⟩
  | @fire e es changes k c hholds hmakes _ ih =>
      rcases List.mem_cons.mp hmem with heq | hmem
      · obtain ⟨rfl, rfl⟩ := Prod.mk.inj heq
        obtain ⟨hkey, hmakes⟩ := hmakes
        cases hkind : e.kind with
        | assign => simp [hkind] at hmakes
        | increase =>
            simp only [hkind] at hmakes
            exact ⟨e, List.mem_cons_self, by simp [hkind], hholds, hkey,
              old_value hkey hmakes.2⟩
        | decrease =>
            simp only [hkind] at hmakes
            obtain ⟨p, -, -, hbase⟩ := hmakes
            exact ⟨e, List.mem_cons_self, by simp [hkind], hholds, hkey, old_value hkey hbase⟩
      · obtain ⟨x, hx, hrest⟩ := ih hmem
        exact ⟨x, List.mem_cons_of_mem _ hx, hrest⟩

theorem shift_of_makes {elapsed : Rat} {es : List ContinuousEffect}
    {changes : List (String × Change)} {old amount : Rat}
    (h : List.Forall₂ (fun c x => c.Makes s elapsed x.1 x.2) es changes)
    (hmem : (key, .shift old amount) ∈ changes) :
    ∃ x ∈ es, x.target.ground s = .ok key ∧ s.lookup key x.target.name = .ok (.number old) := by
  induction h with
  | nil => simp at hmem
  | cons hmakes _ ih =>
      rcases List.mem_cons.mp hmem with rfl | hmem
      · obtain ⟨hkey, _, _, -, hbase, hshift⟩ := hmakes
        obtain ⟨rfl, -⟩ := Change.shift.inj hshift
        exact ⟨_, List.mem_cons_self, hkey, old_value hkey hbase⟩
      · obtain ⟨x, hx, hrest⟩ := ih hmem
        exact ⟨x, List.mem_cons_of_mem _ hx, hrest⟩

theorem Of.shifts {old amount : Rat} (h : w.Of provider s e)
    (hmem : (key, .shift old amount) ∈ w.changes) :
    ∃ name, e.Shifts s key name ∧ s.lookup key name = .ok (.number old) := by
  obtain ⟨discrete, flowing, hd, hf, heq⟩ := h.changes
  rw [heq] at hmem
  rcases List.mem_append.mp hmem with hmem | hmem
  · obtain ⟨x, hx, hkind, hholds, hkey, hold⟩ := shift_of_fires hd hmem
    exact ⟨_, .inl ⟨x, hx, hkind, hholds, hkey, rfl⟩, hold⟩
  · obtain ⟨x, hx, hkey, hold⟩ := shift_of_makes hf hmem
    exact ⟨_, .inr ⟨x, hx, hkey, rfl⟩, hold⟩

theorem Of.old_unique {old old' amount amount' : Rat} (h : w.Of provider s e)
    (hu : e.Unambiguous s key) (hmem : (key, .shift old amount) ∈ w.changes)
    (hmem' : (key, .shift old' amount') ∈ w.changes) : old = old' := by
  obtain ⟨name, hname, hold⟩ := h.shifts hmem
  obtain ⟨name', hname', hold'⟩ := h.shifts hmem'
  have heq := hu name name' hname hname'
  rw [hold, hold'] at heq
  exact Value.number.inj (Except.ok.inj heq)

theorem Contested.congr (hchanges : w'.changes.Perm w.changes) (hgiven : w'.given = w.given)
    (h : w.Contested key) : w'.Contested key := by
  cases h with
  | changes hclash =>
      obtain ⟨c, c', hc, hc', hagainst⟩ := hclash
      exact .changes ⟨c, c', hchanges.mem_iff.mpr hc, hchanges.mem_iff.mpr hc', hagainst⟩
  | givenAndChanged hg hc =>
      exact .givenAndChanged (hgiven ▸ hg) ((hchanges.map Prod.fst).mem_iff.mpr hc)
  | givenTwice htwice => exact .givenTwice (hgiven ▸ htwice)

theorem Achieved.unique (h : w.Achieved s e v) (h' : w'.Achieved s e' v')
    (hchanges : w'.changes.Perm w.changes) (hgiven : w'.given = w.given)
    (hu : e.Unambiguous s key) (hu' : e'.Unambiguous s key) : v'.get? key = v.get? key := by
  by_cases hg : key ∈ w.given.map Prod.fst
  · obtain ⟨⟨k, value⟩, hmem, rfl⟩ := List.mem_map.mp hg
    rw [h.given k value hmem, h'.given k value (hgiven ▸ hmem)]
  · by_cases hc : key ∈ w.changes.map Prod.fst
    · obtain ⟨⟨k, c⟩, hmem, rfl⟩ := List.mem_map.mp hc
      have hmem' := hchanges.mem_iff.mpr hmem
      cases c with
      | become value => rw [h.assigned k value hmem, h'.assigned k value hmem']
      | shift old amount =>
          have hsum : ((shiftsOf k w'.changes).map Prod.snd).sum =
              ((shiftsOf k w.changes).map Prod.snd).sum :=
            ((hchanges.filterMap _).map Prod.snd).sum_eq
          rw [h.shifted k old amount hu hmem, h'.shifted k old amount hu' hmem', hsum]
    · have hc' : key ∉ w'.changes.map Prod.fst := (hchanges.map Prod.fst).mem_iff.not.mpr hc
      rw [h.kept key hc hg, h'.kept key hc' (hgiven ▸ hg)]

end Writes

namespace Event.Rearranges

variable {provider : Option EffectProvider} {s : Situation} {e e' : Event} {key name : String}

theorem shifts_iff (h : e'.Rearranges e) : e'.Shifts s key name ↔ e.Shifts s key name := by
  simp only [Shifts, h.effects.mem_iff, h.continuous.mem_iff]

theorem unambiguous (h : e'.Rearranges e) (hu : e.Unambiguous s key) : e'.Unambiguous s key := by
  intro name name' hname hname'
  exact hu name name' (h.shifts_iff.mp hname) (h.shifts_iff.mp hname')

end Event.Rearranges

namespace Firing

variable {provider : Option EffectProvider} {s : Situation} {e : Event} {f : Firing}
  {parts : List Part} {given : List (String × Value)}

theorem gather_achieves (h : Parts provider s e parts given)
    (hfree : (gather parts given).conflicts = []) :
    Writes.Achieved ⟨parts.flatMap Part.changes, given⟩ s e
      (s.valuation.update (gather parts given).updates) := by
  have hcontested (key : String) : ¬ Writes.Contested ⟨parts.flatMap Part.changes, given⟩ key := by
    rw [← mem_conflicts_gather, hfree]
    exact List.not_mem_nil
  have hnodup : (given.map Prod.fst).Nodup :=
    List.nodup_iff_forall_not_duplicate.mpr fun key htwice => hcontested key (.givenTwice htwice)
  have hgathers := gathers_parts parts
  have hcompatible : Compatible (parts.flatMap Part.changes) :=
    hgathers.reflects.clashes.mp <| List.eq_nil_iff_forall_not_mem.mpr fun key hkey =>
      hcontested key (.changes ((hgathers.clashes key).mp hkey))
  have hparallel := hgathers.reflects.parallel hcompatible s.valuation
  have hget (key : String) : (s.valuation.update (gather parts given).updates).get? key =
      (OrderedMap.find key given).or
        ((s.valuation.update (parts.foldl take empty).updates).get? key) := by
    rw [Valuation.get?_update, gather, get?_updates_simulateAll hnodup, Valuation.get?_update,
      Option.or_assoc]
  have hchanged {key : String} {c : Change} (hmem : (key, c) ∈ parts.flatMap Part.changes) :
      OrderedMap.find key given = none :=
    OrderedMap.find_eq_none_iff.mpr fun hgiven =>
      hcontested key (.givenAndChanged hgiven (List.mem_map_of_mem hmem))
  refine ⟨fun key value hmem => ?_, fun key value hmem => ?_, fun key old amount hu hmem => ?_,
    fun key hc hg => ?_⟩
  · rw [hget, hchanged hmem, Option.none_or, hparallel.assigned key value hmem]
  · rw [hget, (OrderedMap.mem_iff_find hnodup).mp hmem, Option.some_or]
  · have hne : shiftsOf key (parts.flatMap Part.changes) ≠ [] :=
      List.ne_nil_of_mem (mem_shiftsOf.mpr hmem)
    have hlast := List.getLast?_eq_some_getLast hne
    have hold := h.writes.old_unique hu hmem (mem_shiftsOf.mp (List.mem_of_getLast? hlast))
    rw [hget, hchanged hmem, Option.none_or, hparallel.shifted key _ _ hlast, hold]
  · rw [hget, OrderedMap.find_eq_none_iff.mpr hg, Option.none_or, hparallel.kept key hc]

theorem ofEvent_exact (h : ofEvent provider s e = .ok f) :
    (∃ w : Writes, w.Of provider s e ∧ (∀ key, key ∈ f.conflicts ↔ w.Contested key) ∧
      (f.conflicts = [] → w.Achieved s e (s.valuation.update f.updates))) ∧
    ∀ e' : Event, e'.Rearranges e → ∃ f', ofEvent provider s e' = .ok f' ∧
      (∀ key, key ∈ f'.conflicts ↔ key ∈ f.conflicts) ∧
      (f.conflicts = [] → ∀ key, e.Unambiguous s key →
        (s.valuation.update f'.updates).get? key = (s.valuation.update f.updates).get? key) := by
  obtain ⟨parts, given, hparts, rfl⟩ := ofEvent_iff.mp h
  refine ⟨⟨_, hparts.writes, fun key => mem_conflicts_gather, gather_achieves hparts⟩,
    fun e' he' => ?_⟩
  obtain ⟨parts', hperm, hparts'⟩ := he'.parts hparts
  have hchanges := hperm.flatMap_right Part.changes
  have hconflicts (key : String) :
      key ∈ (gather parts' given).conflicts ↔ key ∈ (gather parts given).conflicts := by
    rw [mem_conflicts_gather, mem_conflicts_gather]
    exact ⟨Writes.Contested.congr hchanges.symm rfl, Writes.Contested.congr hchanges rfl⟩
  refine ⟨_, ofEvent_iff.mpr ⟨parts', given, hparts', rfl⟩, hconflicts, fun hfree key hu => ?_⟩
  have hfree' : (gather parts' given).conflicts = [] :=
    List.eq_nil_iff_forall_not_mem.mpr fun key hkey => by simp [hconflicts, hfree] at hkey
  exact (gather_achieves hparts hfree).unique (gather_achieves hparts' hfree') hchanges rfl hu
    (he'.unambiguous hu)

end Firing

theorem Event.unambiguous_of_stored {s : Situation} {e : Event} {key : String} {v : Value}
    (h : s.valuation.get? key = some v) : e.Unambiguous s key := by
  intro name name' _ _
  simp only [Situation.lookup, h]

namespace Tank

def unset : Situation :=
  ⟨.ofList [("level", .number 1), ("level(a)", .number 100)], .ofMap .empty, .empty⟩

def byArgument : Effect := ⟨.increase, ⟨"level", [.object "a"]⟩, .number 1, none⟩

def byName : Effect := ⟨.increase, ⟨"level(a)", []⟩, .number 1, none⟩

def fill (effects : List Effect) : Event :=
  .startAction ⟨1, .plan 0, 0, false, "fill"⟩ ⟨[], effects, none⟩ 0 []

theorem order_matters : (fill [byName, byArgument]).Rearranges (fill [byArgument, byName]) ∧
    ∃ f f', Firing.ofEvent none unset (fill [byArgument, byName]) = .ok f ∧
      Firing.ofEvent none unset (fill [byName, byArgument]) = .ok f' ∧
      f.conflicts = [] ∧ f'.conflicts = [] ∧
      (unset.valuation.update f.updates).get? "level(a)" = some (.number 102) ∧
      (unset.valuation.update f'.updates).get? "level(a)" = some (.number 3) := by
  refine ⟨⟨.swap _ _ [], .refl _, rfl, rfl, rfl⟩, _, _, rfl, rfl, ?_⟩
  decide +kernel

def filled : Situation :=
  ⟨.empty, .ofMap (.ofList [("level(a)", .number 5), ("valve", .bool false)]), .empty⟩

def opener : EffectProvider := ⟨fun _ => .ok [.bool true]⟩

def drain (effects : List Effect) : Event :=
  .endCondition ⟨2, .plan 0, 2, false, "drain"⟩
    ⟨1, .plan 0, .bool true, 0, 2, false, false,
      [⟨.decrease, ⟨⟨.start, 0⟩, ⟨.finish, 0⟩, false, false⟩, ⟨"level", [.object "a"]⟩, .number 3⟩],
      effects, some ⟨⟨.finish, 0⟩, [⟨"valve", []⟩]⟩, "[0, 2]"⟩

theorem exact_drain : ∃ f,
    Firing.ofEvent (some opener) filled (drain [byName, byArgument]) = .ok f ∧ f.conflicts = [] ∧
      (filled.valuation.update f.updates).get? "level(a)" = some (.number 1) ∧
      (filled.valuation.update f.updates).get? "valve" = some (.bool true) := by
  have hf : ∃ f, Firing.ofEvent (some opener) filled (drain [byArgument, byName]) = .ok f ∧
      f.conflicts = [] ∧
      (filled.valuation.update f.updates).get? "level(a)" = some (.number 1) ∧
      (filled.valuation.update f.updates).get? "valve" = some (.bool true) := by
    refine ⟨_, rfl, ?_⟩
    decide +kernel
  obtain ⟨f, hf, hfree, hlevel, hvalve⟩ := hf
  obtain ⟨-, hsame⟩ := Firing.ofEvent_exact hf
  obtain ⟨f', hf', hconflicts, hvalue⟩ := hsame (drain [byName, byArgument])
    ⟨.swap _ _ [], .refl _, rfl, rfl, rfl⟩
  refine ⟨f', hf', ?_, ?_, ?_⟩
  · exact List.eq_nil_iff_forall_not_mem.mpr fun key hkey => by simp [hconflicts, hfree] at hkey
  · have hstored : filled.valuation.get? "level(a)" = some (.number 5) := by decide +kernel
    rw [hvalue hfree _ (Event.unambiguous_of_stored hstored), hlevel]
  · have hstored : filled.valuation.get? "valve" = some (.bool false) := by decide +kernel
    rw [hvalue hfree _ (Event.unambiguous_of_stored hstored), hvalve]

end Tank

end TemporalPlanning
