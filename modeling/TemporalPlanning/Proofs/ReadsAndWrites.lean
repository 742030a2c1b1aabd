import TemporalPlanning.Evaluation.Basic
import TemporalPlanning.Proofs.Attempts

namespace TemporalPlanning

namespace OrderedMap

variable {κ ν : Type} [DecidableEq κ]

theorem get?_putAll (m : OrderedMap κ ν) {es : List (κ × ν)} (hes : (es.map Prod.fst).Nodup)
    (k : κ) : (m.putAll es).get? k = (find k es).or (m.get? k) := by
  induction es generalizing m with
  | nil => rfl
  | cons e es ih =>
      obtain ⟨hn, hes⟩ := List.nodup_cons.mp hes
      rw [putAll, List.foldl_cons]
      refine (ih (m.put e.1 e.2) hes).trans ?_
      rw [get?_put, find]
      by_cases hk : k = e.1
      · have hnone : find k es = none := find_eq_none_iff.mpr (hk ▸ hn)
        simp [hk ▸ hnone, hk]
      · simp [hk, Ne.symm hk]

theorem get?_putAll_entries (m m' : OrderedMap κ ν) (k : κ) :
    (m.putAll m'.entries).get? k = (m'.get? k).or (m.get? k) :=
  get?_putAll m m'.nodup k

end OrderedMap

namespace Valuation

theorem get?_toMap (v : Valuation) (key : String) : v.toMap.get? key = v.get? key := by
  have h (layers : List (OrderedMap String Value)) :
      (joinLayers v.base layers).get? key = getFrom v.base key layers := by
    induction layers with
    | nil => rfl
    | cons l ls ih =>
        rw [joinLayers, OrderedMap.get?_putAll_entries, ih, getFrom]
        cases l.get? key <;> rfl
  exact h v.layers

theorem get?_update (v : Valuation) (changes : OrderedMap String Value) (key : String) :
    (v.update changes).get? key = (changes.get? key).or (v.get? key) := by
  unfold update
  split
  · rename_i hempty
    have hnone : changes.get? key = none := by
      rw [OrderedMap.get?_eq_none_iff, OrderedMap.keys, List.isEmpty_iff.mp hempty]
      simp
    rw [hnone, Option.none_or]
  · split
    · change (v.toMap.putAll changes.entries).get? key = _
      rw [OrderedMap.get?_putAll_entries, get?_toMap]
    · change getFrom v.base key (changes :: v.layers) = _
      rw [getFrom]
      cases changes.get? key <;> rfl

theorem get?_update_of_notMem (v : Valuation) {changes : OrderedMap String Value} {key : String}
    (h : key ∉ changes.keys) : (v.update changes).get? key = v.get? key := by
  rw [get?_update, OrderedMap.get?_eq_none_iff.mpr h, Option.none_or]

end Valuation

structure Situation.Agrees (s s' : Situation) (keys : List String) : Prop where
  defaults : s'.defaults = s.defaults
  bindings : s'.bindings = s.bindings
  values : ∀ key ∈ keys, s'.valuation.get? key = s.valuation.get? key

namespace Situation.Agrees

variable {s s' : Situation} {keys others : List String}

theorem left (h : s.Agrees s' (keys ++ others)) : s.Agrees s' keys :=
  ⟨h.defaults, h.bindings, fun key hk => h.values key (List.mem_append_left _ hk)⟩

theorem right (h : s.Agrees s' (keys ++ others)) : s.Agrees s' others :=
  ⟨h.defaults, h.bindings, fun key hk => h.values key (List.mem_append_right _ hk)⟩

theorem lookup {key : String} (h : s.Agrees s' keys) (hk : key ∈ keys) (name : String) :
    s'.lookup key name = s.lookup key name := by
  rw [Situation.lookup, h.values key hk, h.defaults, Situation.lookup]

end Situation.Agrees

structure Situation.Same (s s' : Situation) : Prop where
  defaults : s'.defaults = s.defaults
  bindings : s'.bindings = s.bindings
  values : ∀ key, s'.valuation.get? key = s.valuation.get? key

theorem Situation.Same.lookup {s s' : Situation} (h : s.Same s') (key name : String) :
    s'.lookup key name = s.lookup key name := by
  rw [Situation.lookup, h.values key, h.defaults, Situation.lookup]

namespace Expr

variable {s s' : Situation}

mutual

theorem evaluate_congr (h : s.Same s') : ∀ e : Expr, evaluate s' e = evaluate s e
  | .constant _ => rfl
  | .param name => by simp only [evaluate, h.bindings]
  | .fluent name args => by
      obtain ⟨hobjects, -⟩ := evaluateAll_congr h args
      simp only [evaluate, hobjects, h.lookup]
  | .not arg => by simp only [evaluate, evaluate_congr h arg]
  | .junction .and args => by
      obtain ⟨-, -, hall, -⟩ := evaluateAll_congr h args
      simp only [evaluate, hall]
  | .junction .or args => by
      obtain ⟨-, -, -, hany⟩ := evaluateAll_congr h args
      simp only [evaluate, hany]
  | .relation r left right => by
      cases r <;> simp only [evaluate, evaluate_congr h left, evaluate_congr h right]
  | .arithmetic op args => by
      obtain ⟨-, hnumbers, -⟩ := evaluateAll_congr h args
      simp only [evaluate, hnumbers]

theorem evaluateAll_congr (h : s.Same s') : ∀ es : List Expr,
    (∀ name, evaluateObjects s' name es = evaluateObjects s name es) ∧
    evaluateNumbers s' es = evaluateNumbers s es ∧ evaluateAll s' es = evaluateAll s es ∧
    evaluateAny s' es = evaluateAny s es
  | [] => ⟨fun _ => rfl, rfl, rfl, rfl⟩
  | e :: es => by
      obtain ⟨hobjects, hnumbers, hall, hany⟩ := evaluateAll_congr h es
      have he := evaluate_congr h e
      refine ⟨fun name => ?_, ?_, ?_, ?_⟩
      · simp only [evaluateObjects, he, hobjects name]
      · simp only [evaluateNumbers, he, hnumbers]
      · simp only [evaluateAll, he, hall]
      · simp only [evaluateAny, he, hany]

end

theorem holds_congr (h : s.Same s') (e : Expr) : e.holds s' = e.holds s := by
  rw [holds, evaluate_congr h, holds]

theorem amount_congr (h : s.Same s') (e : Expr) : e.amount s' = e.amount s := by
  rw [amount, evaluate_congr h, amount]

theorem ground_congr (h : s.Same s') (f : FluentTerm) : f.ground s' = f.ground s := by
  rw [FluentTerm.ground, (evaluateAll_congr h f.args).1, FluentTerm.ground]

theorem readsAll_cons {e : Expr} {es : List Expr} {keys : List String} :
    readsAll s (e :: es) = .ok keys ↔ ∃ first rest,
      reads s e = .ok first ∧ readsAll s es = .ok rest ∧ keys = first ++ rest := by
  simp only [readsAll, except_bind_ok, except_pure_ok]
  constructor
  · rintro ⟨first, hf, rest, hr, rfl⟩
    exact ⟨first, rest, hf, hr, rfl⟩
  · rintro ⟨first, rest, hf, hr, rfl⟩
    exact ⟨first, hf, rest, hr, rfl⟩

mutual

theorem evaluate_of_agrees : ∀ (e : Expr) {keys : List String}, reads s e = .ok keys →
    s.Agrees s' keys → evaluate s' e = evaluate s e ∧ reads s' e = reads s e
  | .constant _, _, _, _ => ⟨rfl, rfl⟩
  | .param name, _, _, h => by
      simp only [evaluate, reads, h.bindings, and_self]
  | .fluent name args, keys, hr, h => by
      simp only [reads, except_bind_ok, except_pure_ok] at hr
      obtain ⟨inner, hinner, key, hkey, rfl⟩ := hr
      obtain ⟨hobjects, -, -, -, hreads⟩ := evaluateAll_of_agrees args hinner h.left
      have hground : FluentTerm.ground s' ⟨name, args⟩ = FluentTerm.ground s ⟨name, args⟩ := by
        simp only [FluentTerm.ground, hobjects]
      refine ⟨?_, by simp only [reads, hreads, hground]⟩
      simp only [FluentTerm.ground, except_bind_ok, except_pure_ok] at hkey
      obtain ⟨objects, ho, rfl⟩ := hkey
      simp only [evaluate, hobjects, ho]
      exact h.right.lookup (List.mem_singleton_self _) name
  | .not arg, keys, hr, h => by
      obtain ⟨hv, hreads⟩ := evaluate_of_agrees arg hr h
      exact ⟨by simp only [evaluate, hv], hreads⟩
  | .junction .and args, keys, hr, h => by
      obtain ⟨-, -, hv, -, hreads⟩ := evaluateAll_of_agrees args hr h
      exact ⟨by simp only [evaluate, hv], hreads⟩
  | .junction .or args, keys, hr, h => by
      obtain ⟨-, -, -, hv, hreads⟩ := evaluateAll_of_agrees args hr h
      exact ⟨by simp only [evaluate, hv], hreads⟩
  | .relation r left right, keys, hr, h => by
      simp only [reads, except_bind_ok, except_pure_ok] at hr
      obtain ⟨a, ha, b, hb, rfl⟩ := hr
      obtain ⟨hleft, hra⟩ := evaluate_of_agrees left ha h.left
      obtain ⟨hright, hrb⟩ := evaluate_of_agrees right hb h.right
      refine ⟨?_, by simp only [reads, hra, hrb]⟩
      cases r <;> simp only [evaluate, hleft, hright]
  | .arithmetic op args, keys, hr, h => by
      obtain ⟨-, hv, -, -, hreads⟩ := evaluateAll_of_agrees args hr h
      exact ⟨by simp only [evaluate, hv], hreads⟩

theorem evaluateAll_of_agrees : ∀ (es : List Expr) {keys : List String}, readsAll s es = .ok keys →
    s.Agrees s' keys →
      (∀ name, evaluateObjects s' name es = evaluateObjects s name es) ∧
      evaluateNumbers s' es = evaluateNumbers s es ∧ evaluateAll s' es = evaluateAll s es ∧
      evaluateAny s' es = evaluateAny s es ∧ readsAll s' es = readsAll s es
  | [], _, _, _ => ⟨fun _ => rfl, rfl, rfl, rfl, rfl⟩
  | e :: es, keys, hr, h => by
      obtain ⟨first, rest, hfirst, hrest, rfl⟩ := readsAll_cons.mp hr
      obtain ⟨hv, hreads⟩ := evaluate_of_agrees e hfirst h.left
      obtain ⟨hobjects, hnumbers, hall, hany, hreadsAll⟩ := evaluateAll_of_agrees es hrest h.right
      refine ⟨fun name => ?_, ?_, ?_, ?_, ?_⟩
      · simp only [evaluateObjects, hv, hobjects name]
      · simp only [evaluateNumbers, hv, hnumbers]
      · simp only [evaluateAll, hv, hall]
      · simp only [evaluateAny, hv, hany]
      · simp only [readsAll, hreads, hreadsAll]

end

theorem reads_of_agrees {e : Expr} {keys : List String} (hr : reads s e = .ok keys)
    (h : s.Agrees s' keys) : e.reads s' = .ok keys := by
  rw [(evaluate_of_agrees e hr h).2]
  exact hr

theorem holds_of_agrees {e : Expr} {keys : List String} (hr : reads s e = .ok keys)
    (h : s.Agrees s' keys) : e.holds s' = e.holds s := by
  simp only [holds, (evaluate_of_agrees e hr h).1]

theorem amount_of_agrees {e : Expr} {keys : List String} (hr : reads s e = .ok keys)
    (h : s.Agrees s' keys) : e.amount s' = e.amount s := by
  rw [amount, (evaluate_of_agrees e hr h).1, amount]

theorem holds_junction {es : List Expr} (h : (Expr.junction .and es).holds s = .ok true) :
    ∀ e ∈ es, e.holds s = .ok true := by
  have hall : evaluateAll s es = .ok true := by
    simp only [holds, evaluate, except_bind_ok, except_map_ok] at h
    obtain ⟨_, ⟨b, hb, rfl⟩, hv⟩ := h
    obtain rfl : b = true := by simpa [Value.toBool] using hv
    exact hb
  clear h
  induction es with
  | nil => simp
  | cons e es ih =>
      simp only [evaluateAll, except_bind_ok] at hall
      obtain ⟨value, hvalue, b, hb, hall⟩ := hall
      cases b with
      | false => simp [except_pure_ok] at hall
      | true =>
          have he : e.holds s = .ok true := except_bind_ok.mpr ⟨value, hvalue, hb⟩
          exact List.forall_mem_cons.mpr ⟨he, ih hall⟩

theorem holds_of_conjunction {es : List Expr} (h : (conjunction es).holds s = .ok true) :
    ∀ e ∈ es, e.holds s = .ok true := by
  cases es with
  | nil => simp
  | cons e es =>
      cases es with
      | nil => simpa [conjunction] using h
      | cons e' es => exact holds_junction h

theorem reads_of_readsAll {es : List Expr} {keys : List String} (h : readsAll s es = .ok keys) :
    ∀ e ∈ es, ∃ mine, e.reads s = .ok mine ∧ ∀ key ∈ mine, key ∈ keys := by
  induction es generalizing keys with
  | nil => simp
  | cons e es ih =>
      obtain ⟨first, rest, hfirst, hrest, rfl⟩ := readsAll_cons.mp h
      refine List.forall_mem_cons.mpr ⟨⟨first, hfirst, fun key hk => ?_⟩, fun e' he' => ?_⟩
      · exact List.mem_append_left _ hk
      · obtain ⟨mine, hmine, hsub⟩ := ih hrest e' he'
        exact ⟨mine, hmine, fun key hk => List.mem_append_right _ (hsub key hk)⟩

theorem reads_of_conjunction {es : List Expr} {keys : List String}
    (h : (conjunction es).reads s = .ok keys) :
    ∀ e ∈ es, ∃ mine, e.reads s = .ok mine ∧ ∀ key ∈ mine, key ∈ keys := by
  cases es with
  | nil => simp
  | cons e es =>
      cases es with
      | nil => exact List.forall_mem_singleton.mpr ⟨keys, h, fun _ hk => hk⟩
      | cons e' es => exact reads_of_readsAll h

mutual

theorem reads_of_object : ∀ (e : Expr) {o : String}, evaluate s e = .ok (.object o) →
    ∃ keys, reads s e = .ok keys
  | .constant _, _, _ => ⟨[], rfl⟩
  | .param _, _, _ => ⟨[], rfl⟩
  | .fluent name args, _, h => by
      simp only [evaluate, except_bind_ok] at h
      obtain ⟨objects, hobjects, -⟩ := h
      obtain ⟨keys, hkeys⟩ := readsAll_of_objects args hobjects
      refine ⟨keys ++ [fluentKey name objects], except_bind_ok.mpr ⟨keys, hkeys, ?_⟩⟩
      exact except_bind_ok.mpr ⟨_, except_bind_ok.mpr ⟨objects, hobjects, rfl⟩, rfl⟩
  | .not _, _, h => by simp [evaluate, except_bind_ok, except_map_ok] at h
  | .junction .and _, _, h => by simp [evaluate, except_map_ok] at h
  | .junction .or _, _, h => by simp [evaluate, except_map_ok] at h
  | .relation r _ _, _, h => by
      cases r with
      | implies =>
          simp only [evaluate, except_bind_ok] at h
          obtain ⟨_, _, b, _, h⟩ := h
          cases b <;> simp [except_bind_ok, except_pure_ok, except_map_ok] at h
      | _ => simp [evaluate, except_bind_ok, except_map_ok] at h
  | .arithmetic _ _, _, h => by simp [evaluate, except_bind_ok, except_map_ok] at h

theorem readsAll_of_objects : ∀ (es : List Expr) {name : String} {objects : List String},
    evaluateObjects s name es = .ok objects → ∃ keys, readsAll s es = .ok keys
  | [], _, _, _ => ⟨[], rfl⟩
  | e :: es, name, _, h => by
      simp only [evaluateObjects, except_bind_ok] at h
      obtain ⟨v, hv, o, ho, objects, hobjects, -⟩ := h
      obtain ⟨keys, hkeys⟩ := readsAll_of_objects es hobjects
      cases v with
      | object o' =>
          obtain ⟨mine, hmine⟩ := reads_of_object e hv
          exact ⟨_, readsAll_cons.mpr ⟨mine, keys, hmine, hkeys, rfl⟩⟩
      | bool b => simp [Value.toObject] at ho
      | number q => simp [Value.toObject] at ho

end

end Expr

end TemporalPlanning
