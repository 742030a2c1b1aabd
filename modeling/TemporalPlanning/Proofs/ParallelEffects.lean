import Mathlib.Algebra.Order.Ring.Rat
import Mathlib.Data.List.Pairwise
import TemporalPlanning.Proofs.ReadsAndWrites
import TemporalPlanning.Validation.Schedule

namespace TemporalPlanning

inductive Change where
  | become (value : Value)
  | shift (base amount : Rat)

def Change.Compatible : Change → Change → Prop
  | .become v, .become w => v = w
  | .shift _ _, .shift _ _ => True
  | _, _ => False

def Compatible (changes : List (String × Change)) : Prop :=
  changes.Pairwise fun a b => a.1 = b.1 → a.2.Compatible b.2

def Effect.Makes (s : Situation) (e : Effect) (key : String) (c : Change) : Prop :=
  e.target.ground s = .ok key ∧ match e.kind, c with
    | .assign, .become v => e.value.evaluate s = .ok v
    | .increase, .shift base q =>
        e.value.evaluate s = .ok (.number q) ∧ e.target.expr.amount s = .ok base
    | .decrease, .shift base q => ∃ p, q = -p ∧
        e.value.evaluate s = .ok (.number p) ∧ e.target.expr.amount s = .ok base
    | _, _ => False

inductive Fires (s : Situation) : List Effect → List (String × Change) → Prop
  | nil : Fires s [] []
  | skip {e es changes c} (condition : e.condition = some c) (fails : c.holds s = .ok false)
      (rest : Fires s es changes) : Fires s (e :: es) changes
  | fire {e es changes key c} (holds : ∀ g ∈ e.condition, g.holds s = .ok true)
      (makes : e.Makes s key c) (rest : Fires s es changes) :
      Fires s (e :: es) ((key, c) :: changes)

def shiftsOf (key : String) (changes : List (String × Change)) : List (Rat × Rat) :=
  changes.filterMap fun
    | (k, .shift base amount) => if k = key then some (base, amount) else none
    | _ => none

structure Parallel (changes : List (String × Change)) (v w : Valuation) : Prop where
  assigned : ∀ key value, (key, .become value) ∈ changes → w.get? key = some value
  shifted : ∀ key base amount, (shiftsOf key changes).getLast? = some (base, amount) →
    w.get? key = some (.number (base + ((shiftsOf key changes).map Prod.snd).sum))
  kept : ∀ key, key ∉ changes.map Prod.fst → w.get? key = v.get? key

section Spec

variable {s : Situation} {e : Effect} {es : List Effect} {key : String} {c c' : Change}
  {changes changes' : List (String × Change)} {v w w' : Valuation}

theorem Change.Compatible.refl (c : Change) : c.Compatible c := by
  cases c with
  | become v => rfl
  | shift base amount => trivial

theorem Change.Compatible.symm (h : c.Compatible c') : c'.Compatible c := by
  cases c with
  | become v =>
      cases c' with
      | become w => exact Eq.symm h
      | shift base amount => exact h
  | shift base amount =>
      cases c' with
      | become w => exact h
      | shift base' amount' => trivial

theorem Compatible.at_most {key' : String} (h : Compatible changes) (hc : (key, c) ∈ changes)
    (hc' : (key', c') ∈ changes) (hkey : key = key') : c.Compatible c' := by
  refine h.forall_of_forall_of_flip (fun a _ _ => .refl a.2) ?_ hc hc' hkey
  exact h.imp fun {a b} hab hba => (hab hba.symm).symm

theorem Effect.Makes.unique {key' : String} (h : e.Makes s key c) (h' : e.Makes s key' c') :
    key = key' ∧ c = c' := by
  obtain ⟨hkey, h⟩ := h
  obtain ⟨hkey', h'⟩ := h'
  refine ⟨Except.ok.inj (hkey.symm.trans hkey'), ?_⟩
  cases hkind : e.kind with
  | assign =>
      cases c <;> cases c' <;> simp only [hkind] at h h'
      rw [Except.ok.inj (h.symm.trans h')]
  | increase =>
      cases c <;> cases c' <;> simp only [hkind] at h h'
      rw [Except.ok.inj (h.2.symm.trans h'.2),
        Value.number.inj (Except.ok.inj (h.1.symm.trans h'.1))]
  | decrease =>
      cases c <;> cases c' <;> simp only [hkind] at h h'
      obtain ⟨p, rfl, hp, hbase⟩ := h
      obtain ⟨p', rfl, hp', hbase'⟩ := h'
      rw [Except.ok.inj (hbase.symm.trans hbase'),
        Value.number.inj (Except.ok.inj (hp.symm.trans hp'))]

theorem Fires.unique (h : Fires s es changes) (h' : Fires s es changes') : changes = changes' := by
  induction h generalizing changes' with
  | nil =>
      cases h'
      rfl
  | skip hc hfails _ ih =>
      cases h' with
      | skip _ _ hrest => exact ih hrest
      | fire hholds _ _ => simp [hholds _ hc] at hfails
  | fire hholds hmakes _ ih =>
      cases h' with
      | skip hc hfails _ => simp [hholds _ hc] at hfails
      | fire _ hmakes' hrest =>
          obtain ⟨rfl, rfl⟩ := hmakes.unique hmakes'
          rw [ih hrest]

theorem Effect.Makes.congr {s' : Situation} (hs : s.Same s') (h : e.Makes s key c) :
    e.Makes s' key c := by
  unfold Effect.Makes at h ⊢
  rwa [Expr.ground_congr hs, Expr.evaluate_congr hs, Expr.amount_congr hs]

theorem Fires.congr {s' : Situation} (hs : s.Same s') (h : Fires s es changes) :
    Fires s' es changes := by
  induction h with
  | nil => exact .nil
  | skip hc hfails _ ih => exact .skip hc ((Expr.holds_congr hs _).trans hfails) ih
  | fire hholds hmakes _ ih =>
      exact .fire (fun g hg => (Expr.holds_congr hs g).trans (hholds g hg)) (hmakes.congr hs) ih

theorem mem_shiftsOf {base amount : Rat} :
    (base, amount) ∈ shiftsOf key changes ↔ (key, .shift base amount) ∈ changes := by
  simp only [shiftsOf, List.mem_filterMap]
  constructor
  · rintro ⟨⟨k, c⟩, hmem, h⟩
    cases c with
    | become v => simp at h
    | shift b q =>
        obtain ⟨rfl, rfl, rfl⟩ : k = key ∧ b = base ∧ q = amount := by simpa using h
        exact hmem
  · intro h
    exact ⟨_, h, by simp⟩

theorem Parallel.unique (h : Parallel changes v w) (h' : Parallel changes v w') :
    w.get? key = w'.get? key := by
  by_cases hkey : key ∈ changes.map Prod.fst
  · obtain ⟨⟨k, c⟩, hmem, rfl⟩ := List.mem_map.mp hkey
    cases c with
    | become value => rw [h.assigned k value hmem, h'.assigned k value hmem]
    | shift base amount =>
        have hne : shiftsOf k changes ≠ [] := List.ne_nil_of_mem (mem_shiftsOf.mpr hmem)
        have hlast := List.getLast?_eq_some_getLast hne
        rw [h.shifted k _ _ hlast, h'.shifted k _ _ hlast]
  · rw [h.kept key hkey, h'.kept key hkey]

theorem effectTargets_of_fires (h : Fires s es changes) :
    effectTargets s es = .ok (changes.map Prod.fst) := by
  induction h with
  | nil => rfl
  | skip hc hfails _ ih =>
      simp [effectTargets, hc, hfails, ih, bind, Except.bind, pure, Except.pure]
  | @fire e es changes key c hholds hmakes _ ih =>
      cases hc : e.condition with
      | none => simp [effectTargets, hc, hmakes.1, ih, bind, Except.bind, pure, Except.pure]
      | some g =>
          simp [effectTargets, hc, hholds g hc, hmakes.1, ih, bind, Except.bind, pure, Except.pure]

end Spec

theorem OrderedMap.find_filter_key {ν : Type} (p : String → Bool) (key : String)
    (es : List (String × ν)) :
    find key (es.filter fun e => p e.1) = if p key then find key es else none := by
  induction es with
  | nil => simp [find]
  | cons e es ih =>
      by_cases hkey : e.1 = key
      · subst hkey
        cases hp : p e.1 with
        | true => simp [hp, find]
        | false => simpa [hp] using ih
      · cases hp : p e.1 with
        | true => simp [hp, find, hkey, ih]
        | false => simp [hp, find, hkey, ih]

namespace Effect

variable {s : Situation} {e : Effect}

def guardReads (s : Situation) (e : Effect) : Except Fault (List String) :=
  match e.condition with
  | some c => c.reads s
  | none => .ok []

def guard (s : Situation) (e : Effect) : Except Fault Bool :=
  match e.condition with
  | some c => c.holds s
  | none => .ok true

def rereads (e : Effect) (key : String) : List String := if e.kind = .assign then [] else [key]

theorem guard_false (h : e.guard s = .ok false) :
    ∃ c, e.condition = some c ∧ c.holds s = .ok false := by
  unfold guard at h
  cases hc : e.condition with
  | none => simp [hc] at h
  | some c =>
      rw [hc] at h
      exact ⟨c, rfl, h⟩

theorem guard_true (h : e.guard s = .ok true) : ∀ g ∈ e.condition, g.holds s = .ok true := by
  intro g hg
  rw [guard, Option.mem_def.mp hg] at h
  exact h

end Effect

namespace Firing

variable {s : Situation} {e : Effect} {es : List Effect} {key : String} {c : Change}
  {changes : List (String × Change)} {f f' : Firing} {v : Valuation}

def make (f : Firing) (key : String) : Change → Firing
  | .become v => f.assign key v
  | .shift base amount => f.change key base amount

def takeEffect (s : Situation) (f : Firing) (e : Effect) (guards : List String) :
    Except Fault Firing := do
  let valueReads ← e.value.reads s
  let argReads ← Expr.readsAll s e.target.args
  let key ← e.target.ground s
  let v ← e.value.evaluate s
  let f := f.read (guards ++ valueReads ++ argReads)
  match e.kind, v with
  | .assign, v => return f.assign key v
  | kind, .number q =>
      let base ← e.target.expr.amount s
      return (f.read [key]).change key base (if kind = .increase then q else -q)
  | kind, v => .error (.changeByNonNumber kind key v.text)

theorem fireEffect_eq : fireEffect s f e = e.guardReads s >>= fun guards =>
    e.guard s >>= fun fires =>
      if !fires then pure (f.read guards) else takeEffect s f e guards := by
  unfold fireEffect Effect.guardReads Effect.guard takeEffect
  cases e.condition <;> rfl

theorem read_read (f : Firing) (keys others : List String) :
    (f.read keys).read others = f.read (keys ++ others) := by
  simp [read]

theorem takeEffect_ok {guards : List String} : takeEffect s f e guards = .ok f' ↔
    ∃ values args key c, e.value.reads s = .ok values ∧ Expr.readsAll s e.target.args = .ok args ∧
      e.Makes s key c ∧ f' = (f.read (guards ++ values ++ args ++ e.rereads key)).make key c := by
  simp only [takeEffect, except_bind_ok]
  constructor
  · rintro ⟨values, hvalues, args, hargs, key, hkey, value, hvalue, h⟩
    split at h
    · rename_i hkind
      refine ⟨values, args, key, .become _, hvalues, hargs,
        ⟨hkey, by simpa only [hkind] using hvalue⟩, ?_⟩
      rw [Effect.rereads, if_pos hkind, List.append_nil]
      exact (except_pure_ok.mp h).symm
    · rename_i kind q hkind
      obtain ⟨base, hbase, h⟩ := except_bind_ok.mp h
      rw [read_read] at h
      refine ⟨values, args, key, .shift base (if e.kind = .increase then q else -q), hvalues,
        hargs, ⟨hkey, ?_⟩, ?_⟩
      · cases hk : e.kind with
        | assign => exact absurd hk hkind
        | increase => exact ⟨hvalue, hbase⟩
        | decrease => exact ⟨q, rfl, hvalue, hbase⟩
      · rw [Effect.rereads, if_neg hkind]
        exact (except_pure_ok.mp h).symm
    · simp at h
  · rintro ⟨values, args, key, c, hvalues, hargs, ⟨hkey, hmakes⟩, rfl⟩
    refine ⟨values, hvalues, args, hargs, key, hkey, ?_⟩
    cases hkind : e.kind with
    | assign =>
        cases c <;> simp only [hkind] at hmakes
        exact ⟨_, hmakes, by simp [Effect.rereads, hkind, make, except_pure_ok]⟩
    | increase =>
        cases c <;> simp only [hkind] at hmakes
        obtain ⟨hvalue, hbase⟩ := hmakes
        refine ⟨_, hvalue, except_bind_ok.mpr ⟨_, hbase, ?_⟩⟩
        simp [Effect.rereads, hkind, make, read_read, except_pure_ok]
    | decrease =>
        cases c <;> simp only [hkind] at hmakes
        obtain ⟨q, rfl, hvalue, hbase⟩ := hmakes
        refine ⟨_, hvalue, except_bind_ok.mpr ⟨_, hbase, ?_⟩⟩
        simp [Effect.rereads, hkind, make, read_read, except_pure_ok]

theorem fireEffect_ok (h : fireEffect s f e = .ok f') :
    (∃ c keys, e.condition = some c ∧ c.holds s = .ok false ∧ f' = f.read keys) ∨
    ∃ keys key c, (∀ g ∈ e.condition, g.holds s = .ok true) ∧ e.Makes s key c ∧
      f' = (f.read keys).make key c := by
  simp only [fireEffect_eq, except_bind_ok] at h
  obtain ⟨guards, -, fires, hfires, h⟩ := h
  cases fires with
  | false =>
      obtain ⟨c, hc, hfails⟩ := Effect.guard_false hfires
      exact .inl ⟨c, guards, hc, hfails, (except_pure_ok.mp h).symm⟩
  | true =>
      obtain ⟨values, args, key, c, -, -, hmakes, hf⟩ := takeEffect_ok.mp h
      exact .inr ⟨_, key, c, Effect.guard_true hfires, hmakes, hf⟩

structure Reflects (f : Firing) (changes : List (String × Change)) : Prop where
  assigned : ∀ key v, f.assigned.get? key = some v → (key, .become v) ∈ changes
  contains : ∀ key v, (key, .become v) ∈ changes → f.assigned.contains key = true
  deltas : ∀ key, f.deltas.get? key = (shiftsOf key changes).getLast?.map fun x =>
    ⟨x.1, ((shiftsOf key changes).map Prod.snd).sum⟩
  clashes : f.clashes = [] ↔ Compatible changes

theorem compatible_append {x : String × Change} : Compatible (changes ++ [x]) ↔
    Compatible changes ∧ ∀ a ∈ changes, a.1 = x.1 → a.2.Compatible x.2 := by
  simp [Compatible, List.pairwise_append]

theorem shiftsOf_append {x : String × Change} :
    shiftsOf key (changes ++ [x]) = shiftsOf key changes ++ shiftsOf key [x] :=
  List.filterMap_append

theorem reflects_empty : empty.Reflects [] where
  assigned key v h := by simp [empty] at h
  contains := by simp
  deltas key := by simp [empty, shiftsOf]
  clashes := by simp [empty, Compatible]

theorem assigned_assign (f : Firing) (key : String) (value : Value) :
    (f.assign key value).assigned = f.assigned.put key value := by
  unfold assign clash
  dsimp only
  split <;> rfl

theorem deltas_assign (f : Firing) (key : String) (value : Value) :
    (f.assign key value).deltas = f.deltas := by
  unfold assign clash
  dsimp only
  split <;> rfl

theorem clashes_assign (f : Firing) (key : String) (value : Value) :
    (f.assign key value).clashes = [] ↔ f.clashes = [] ∧ (f.deltas.contains key ||
      (f.assigned.get? key).any fun w => !decide (w = value)) = false := by
  unfold assign clash
  dsimp only
  split
  · rename_i hclash
    simp [hclash]
  · rename_i hclash
    simp [hclash]

theorem assigned_change (f : Firing) (key : String) (base amount : Rat) :
    (f.change key base amount).assigned = f.assigned := by
  unfold change clash
  dsimp only
  split <;> rfl

theorem deltas_change (f : Firing) (key : String) (base amount : Rat) :
    (f.change key base amount).deltas = f.deltas.put key
      ⟨base, ((f.deltas.get? key).map Delta.amount).getD 0 + amount⟩ := by
  unfold change clash
  dsimp only
  split <;> rfl

theorem clashes_change (f : Firing) (key : String) (base amount : Rat) :
    (f.change key base amount).clashes = [] ↔
      f.clashes = [] ∧ f.assigned.contains key = false := by
  unfold change clash
  dsimp only
  split
  · rename_i hclash
    simp [hclash]
  · rename_i hclash
    simp [hclash]

namespace Reflects

theorem contains_deltas (h : f.Reflects changes) :
    f.deltas.contains key = true ↔ ∃ base amount, (key, .shift base amount) ∈ changes := by
  rw [OrderedMap.contains, h.deltas, Option.isSome_map]
  constructor
  · intro hsome
    obtain ⟨⟨base, amount⟩, hlast⟩ := Option.isSome_iff_exists.mp hsome
    exact ⟨base, amount, mem_shiftsOf.mp (List.mem_of_getLast? hlast)⟩
  · rintro ⟨base, amount, hmem⟩
    have hne := List.ne_nil_of_mem (mem_shiftsOf.mpr hmem)
    rw [List.getLast?_eq_some_getLast hne]
    rfl

theorem assigned_iff {value : Value} (h : f.Reflects changes) (hc : Compatible changes) :
    f.assigned.get? key = some value ↔ (key, .become value) ∈ changes := by
  refine ⟨h.assigned key value, fun hmem => ?_⟩
  obtain ⟨other, hother⟩ := Option.isSome_iff_exists.mp (h.contains key value hmem)
  have heq : value = other := hc.at_most hmem (h.assigned key other hother) rfl
  rw [hother, heq]

theorem read (h : f.Reflects changes) (keys : List String) : (f.read keys).Reflects changes :=
  ⟨h.assigned, h.contains, h.deltas, h.clashes⟩

theorem assign (h : f.Reflects changes) (key : String) (value : Value) :
    (f.assign key value).Reflects (changes ++ [(key, .become value)]) where
  assigned k v hk := by
    rw [assigned_assign, OrderedMap.get?_put] at hk
    split at hk
    · rename_i hkey
      obtain rfl := Option.some.inj hk
      simp [hkey]
    · exact List.mem_append_left _ (h.assigned k v hk)
  contains k v hk := by
    rw [assigned_assign, OrderedMap.contains, OrderedMap.get?_put]
    split
    · rfl
    · rename_i hkey
      rcases List.mem_append.mp hk with hk | hk
      · exact h.contains k v hk
      · simp [hkey] at hk
  deltas k := by
    have hnone : shiftsOf k [(key, .become value)] = [] := rfl
    rw [deltas_assign, h.deltas, shiftsOf_append, hnone, List.append_nil]
  clashes := by
    rw [clashes_assign, h.clashes, compatible_append]
    refine and_congr_right fun hc => ?_
    rw [Bool.or_eq_false_iff]
    constructor
    · rintro ⟨hdeltas, hother⟩ ⟨k, c⟩ hmem rfl
      cases c with
      | become v =>
          rw [(h.assigned_iff hc).mpr hmem] at hother
          exact show v = value by simpa using hother
      | shift base amount => simp [h.contains_deltas.mpr ⟨base, amount, hmem⟩] at hdeltas
    · intro hall
      constructor
      · rw [← Bool.not_eq_true, h.contains_deltas]
        rintro ⟨base, amount, hmem⟩
        exact hall _ hmem rfl
      · cases hv : f.assigned.get? key with
        | none => rfl
        | some v =>
            have heq : v = value := hall _ (h.assigned key v hv) rfl
            simp [heq]

theorem change (h : f.Reflects changes) (key : String) (base amount : Rat) :
    (f.change key base amount).Reflects (changes ++ [(key, .shift base amount)]) where
  assigned k v hk := by
    rw [assigned_change] at hk
    exact List.mem_append_left _ (h.assigned k v hk)
  contains k v hk := by
    rw [assigned_change]
    rcases List.mem_append.mp hk with hk | hk
    · exact h.contains k v hk
    · simp at hk
  deltas k := by
    rw [deltas_change, OrderedMap.get?_put, shiftsOf_append, h.deltas, h.deltas]
    split
    · rename_i hkey
      subst hkey
      have hone : shiftsOf k [(k, .shift base amount)] = [(base, amount)] := by simp [shiftsOf]
      rw [hone]
      cases hlast : (shiftsOf k changes).getLast? with
      | none => simp [List.getLast?_eq_none_iff.mp hlast, add_comm]
      | some x => simp [add_comm]
    · rename_i hkey
      have hnone : shiftsOf k [(key, .shift base amount)] = [] := by
        simp [shiftsOf, Ne.symm hkey]
      rw [hnone, List.append_nil]
  clashes := by
    rw [clashes_change, h.clashes, compatible_append]
    refine and_congr_right fun hc => ?_
    constructor
    · rintro hnone ⟨k, c⟩ hmem rfl
      cases c with
      | become v => simp [h.contains k v hmem] at hnone
      | shift base amount => trivial
    · intro hall
      rw [OrderedMap.contains, ← Bool.not_eq_true]
      intro hsome
      obtain ⟨v, hv⟩ := Option.isSome_iff_exists.mp hsome
      exact hall _ (h.assigned key v hv) rfl

theorem make (h : f.Reflects changes) (key : String) (c : Change) :
    (f.make key c).Reflects (changes ++ [(key, c)]) := by
  cases c with
  | become value => exact h.assign key value
  | shift base amount => exact h.change key base amount

end Reflects

theorem reflects_foldlM (h : es.foldlM (fireEffect s) f = .ok f') (hf : f.Reflects changes) :
    ∃ more, Fires s es more ∧ f'.Reflects (changes ++ more) := by
  induction es generalizing f changes with
  | nil =>
      obtain rfl := except_pure_ok.mp h
      exact ⟨[], .nil, by rwa [List.append_nil]⟩
  | cons e es ih =>
      rw [List.foldlM_cons, except_bind_ok] at h
      obtain ⟨next, he, h⟩ := h
      rcases fireEffect_ok he with ⟨c, keys, hc, hfails, rfl⟩ | ⟨keys, key, c, hholds, hmakes, rfl⟩
      · obtain ⟨more, hmore, hf'⟩ := ih h (hf.read keys)
        exact ⟨more, .skip hc hfails hmore, hf'⟩
      · obtain ⟨more, hmore, hf'⟩ := ih h ((hf.read keys).make key c)
        exact ⟨(key, c) :: more, .fire hholds hmakes hmore, by simpa using hf'⟩

theorem get?_updates (f : Firing) (key : String) : f.updates.get? key =
    if f.assigned.contains key then f.assigned.get? key
    else (f.deltas.get? key).map fun d => .number (d.base + d.amount) := by
  have hnodup : (((f.deltas.entries.filter fun e => !f.assigned.contains e.1).map fun e =>
      (e.1, Value.number (e.2.base + e.2.amount))).map Prod.fst).Nodup := by
    rw [List.map_map]
    exact f.deltas.nodup.sublist (List.filter_sublist.map Prod.fst)
  rw [updates, OrderedMap.get?_putAll _ hnodup,
    OrderedMap.find_map key fun d : Delta => Value.number (d.base + d.amount),
    OrderedMap.find_filter_key fun k => !f.assigned.contains k]
  cases hkey : f.assigned.contains key with
  | true => simp
  | false =>
      have hnone : f.assigned.get? key = none := by simpa [OrderedMap.contains] using hkey
      rw [hnone, Option.or_none]
      simp [OrderedMap.get?]

def Touches (f : Firing) (key : String) : Prop :=
  (f.assigned.contains key || f.deltas.contains key) = true

theorem mem_updates_iff : key ∈ f.updates.keys ↔ f.Touches key := by
  rw [← Decidable.not_not (p := key ∈ f.updates.keys), ← OrderedMap.get?_eq_none_iff, get?_updates,
    Touches, Bool.or_eq_true]
  by_cases hassigned : f.assigned.contains key = true
  · simpa [hassigned] using Option.isSome_iff_ne_none.mp hassigned
  · rw [if_neg hassigned, Option.map_eq_none_iff, or_iff_right hassigned, OrderedMap.contains,
      Option.isSome_iff_ne_none]

theorem conflicts_isEmpty : f.conflicts.isEmpty = true ↔ f.clashes = [] := by
  rw [conflicts]
  cases f.clashes with
  | nil => simp
  | cons key keys => simp [List.eraseDups_cons]

namespace Reflects

theorem not_contains (h : f.Reflects changes) (hc : Compatible changes) {base amount : Rat}
    (hmem : (key, .shift base amount) ∈ changes) : f.assigned.contains key = false := by
  rw [← Bool.not_eq_true]
  intro hsome
  obtain ⟨value, hvalue⟩ := Option.isSome_iff_exists.mp hsome
  exact hc.at_most (h.assigned key value hvalue) hmem rfl

theorem touches (h : f.Reflects changes) : f.Touches key ↔ key ∈ changes.map Prod.fst := by
  rw [Touches, Bool.or_eq_true, h.contains_deltas]
  constructor
  · rintro (hassigned | ⟨base, amount, hmem⟩)
    · obtain ⟨value, hvalue⟩ := Option.isSome_iff_exists.mp hassigned
      exact List.mem_map_of_mem (h.assigned key value hvalue)
    · exact List.mem_map_of_mem hmem
  · intro hkey
    obtain ⟨⟨k, c⟩, hmem, rfl⟩ := List.mem_map.mp hkey
    cases c with
    | become value => exact .inl (h.contains k value hmem)
    | shift base amount => exact .inr ⟨base, amount, hmem⟩

theorem mem_updates (h : f.Reflects changes) :
    key ∈ f.updates.keys ↔ key ∈ changes.map Prod.fst :=
  mem_updates_iff.trans h.touches

theorem parallel (h : f.Reflects changes) (hc : Compatible changes) (v : Valuation) :
    Parallel changes v (v.update f.updates) where
  assigned key value hmem := by
    rw [Valuation.get?_update, get?_updates, if_pos (h.contains key value hmem),
      (h.assigned_iff hc).mpr hmem, Option.some_or]
  shifted key base amount hlast := by
    have hmem := mem_shiftsOf.mp (List.mem_of_getLast? hlast)
    rw [Valuation.get?_update, get?_updates, h.not_contains hc hmem, h.deltas, hlast]
    rfl
  kept key hkey := by
    rw [← h.mem_updates] at hkey
    exact Valuation.get?_update_of_notMem v hkey

end Reflects

end Firing

end TemporalPlanning
