import TemporalPlanning.Proofs.ReadsAndWrites
import TemporalPlanning.Proofs.Replays

namespace TemporalPlanning

section Keys

variable {name name' : String} {args args' : List String}

theorem takeWhile_fluentKey (h : '(' ∉ name.toList) :
    (fluentKey name args).toList.takeWhile (fun c => !decide (c = '(')) = name.toList := by
  have hname : ∀ c ∈ name.toList, (!decide (c = '(')) = true := by
    intro c hc
    simpa using ne_of_mem_of_not_mem hc h
  cases args with
  | nil => exact (List.append_nil name.toList ▸ List.takeWhile_append_of_pos hname)
  | cons o os => simp [fluentKey, List.takeWhile_append_of_pos hname]

theorem name_of_fluentKey (h : '(' ∉ name.toList) (h' : '(' ∉ name'.toList)
    (hkey : fluentKey name args = fluentKey name' args') : name = name' := by
  refine String.toList_inj.mp ?_
  rw [← takeWhile_fluentKey h, hkey, takeWhile_fluentKey h']

end Keys

theorem Problem.declared_of_default {problem : Problem} {name : String} {v : Value}
    (h : problem.defaults.get? name = some v) : ∃ d ∈ problem.fluents, d.name = name := by
  unfold defaults at h
  refine List.foldlRecOn (motive := fun m : OrderedMap String Value =>
    m.get? name = some v → ∃ d ∈ problem.fluents, d.name = name) problem.fluents _ (by simp) ?_ h
  intro m hm d hd hput
  cases hdefault : d.default with
  | none => exact hm (by simpa [hdefault] using hput)
  | some w =>
      by_cases hname : name = d.name
      · exact ⟨d, hd, hname.symm⟩
      · exact hm (by simpa [hdefault, hname] using hput)

theorem Situation.lookup_name {s : Situation} {name name' : String} {args args' : List String}
    {v v' : Value} (hnames : ∀ name v, s.defaults.get? name = some v → '(' ∉ name.toList)
    (hkey : fluentKey name args = fluentKey name' args')
    (hv : s.lookup (fluentKey name args) name = .ok v)
    (hv' : s.lookup (fluentKey name args) name' = .ok v') : v = v' := by
  unfold lookup at hv hv'
  cases hstored : s.valuation.get? (fluentKey name args) with
  | some w =>
      rw [hstored] at hv hv'
      exact Except.ok.inj (hv.symm.trans hv')
  | none =>
      simp only [hstored] at hv hv'
      cases hd : s.defaults.get? name with
      | none => simp [hd] at hv
      | some w =>
          cases hd' : s.defaults.get? name' with
          | none => simp [hd'] at hv'
          | some w' =>
              obtain rfl : name = name' :=
                name_of_fluentKey (hnames _ _ hd) (hnames _ _ hd') hkey
              exact Except.ok.inj (hv.symm.trans hv')

namespace FluentLiteral

def Holds (s : Situation) (l : FluentLiteral) : Prop :=
  ∃ name args, l.fluent = fluentKey name args ∧ s.lookup l.fluent name = .ok (.bool l.positive)

theorem Holds.not_contradicts {l m : FluentLiteral} {s : Situation} (hl : l.Holds s)
    (hm : m.Holds s) (hnames : ∀ name v, s.defaults.get? name = some v → '(' ∉ name.toList) :
    l.contradicts m = false := by
  obtain ⟨name, args, hkey, hvalue⟩ := hl
  obtain ⟨name', args', hkey', hvalue'⟩ := hm
  rw [contradicts, Bool.and_eq_false_imp, decide_eq_true_eq]
  intro hsame
  rw [← hsame] at hkey' hvalue'
  rw [hkey] at hkey' hvalue hvalue'
  have hsign := Situation.lookup_name hnames hkey' hvalue hvalue'
  simpa using hsign

end FluentLiteral

namespace Expr

variable {s : Situation}

theorem holds_iff {e : Expr} : e.holds s = .ok true ↔ e.evaluate s = .ok (.bool true) := by
  rw [holds, except_bind_ok]
  constructor
  · rintro ⟨v, hv, htrue⟩
    cases v with
    | bool b =>
        obtain rfl : b = true := by simpa [Value.toBool] using htrue
        exact hv
    | number q => simp [Value.toBool] at htrue
    | object name => simp [Value.toBool] at htrue
  · intro h
    exact ⟨_, h, rfl⟩

theorem holds_of_ground {name : String} {args : List Expr} {key : String} {v : Value}
    (hkey : FluentTerm.ground s ⟨name, args⟩ = .ok key)
    (h : (Expr.fluent name args).evaluate s = .ok v) :
    ∃ objects, key = fluentKey name objects ∧ s.lookup key name = .ok v := by
  simp only [FluentTerm.ground, except_bind_ok, except_pure_ok] at hkey
  obtain ⟨objects, hobjects, rfl⟩ := hkey
  rw [evaluate, hobjects] at h
  exact ⟨objects, rfl, h⟩

theorem evaluate_of_not {e : Expr} (h : (Expr.not e).holds s = .ok true) :
    e.evaluate s = .ok (.bool false) := by
  have hnot := holds_iff.mp h
  simp only [evaluate, except_bind_ok, except_pure_ok] at hnot
  obtain ⟨v, hv, b, hb, hvalue⟩ := hnot
  cases v with
  | bool c =>
      obtain rfl : c = b := Except.ok.inj hb
      obtain rfl : c = false := by simpa using hvalue
      exact hv
  | number q => simp [Value.toBool] at hb
  | object name => simp [Value.toBool] at hb

theorem literals_hold (e : Expr) : ∀ ls, e.literals s = .ok ls → e.holds s = .ok true →
    ∀ l ∈ ls, l.Holds s := by
  refine literals.induct (fun e => ∀ ls, e.literals s = .ok ls → e.holds s = .ok true →
      ∀ l ∈ ls, l.Holds s)
    (fun es => ∀ ls, literalsAll s es = .ok ls → (∀ e ∈ es, e.holds s = .ok true) →
      ∀ l ∈ ls, l.Holds s) ?asserted ?denied ?conjunction ?other ?nil ?cons e
  case asserted =>
    intro name args ls hls h
    simp only [literals, except_bind_ok, except_pure_ok] at hls
    obtain ⟨key, hkey, rfl⟩ := hls
    obtain ⟨objects, hname, hvalue⟩ := holds_of_ground hkey (holds_iff.mp h)
    exact List.forall_mem_singleton.mpr ⟨name, objects, hname, hvalue⟩
  case denied =>
    intro name args ls hls h
    simp only [literals, except_bind_ok, except_pure_ok] at hls
    obtain ⟨key, hkey, rfl⟩ := hls
    obtain ⟨objects, hname, hvalue⟩ := holds_of_ground hkey (evaluate_of_not h)
    exact List.forall_mem_singleton.mpr ⟨name, objects, hname, hvalue⟩
  case conjunction =>
    intro es ih ls hls h
    rw [literals] at hls
    exact ih ls hls (holds_junction h)
  case other =>
    intro e hasserted hdenied hconjunction ls hls h
    rw [literals] at hls
    · obtain rfl : [] = ls := Except.ok.inj hls
      simp
    · exact hasserted
    · exact hdenied
    · exact hconjunction
  case nil =>
    intro ls hls h
    obtain rfl : [] = ls := Except.ok.inj hls
    simp
  case cons =>
    intro e es ihe ihes ls hls h
    simp only [literalsAll, except_bind_ok, except_pure_ok] at hls
    obtain ⟨first, hfirst, rest, hrest, rfl⟩ := hls
    obtain ⟨he, hes⟩ := List.forall_mem_cons.mp h
    exact List.forall_mem_append.mpr ⟨ihe first hfirst he, ihes rest hrest hes⟩

end Expr

namespace Simulator

variable {sim : Simulator} {s : State} {log : RunLog} {e : Event} {time : Option Rat}
  {i o : IntervalCondition} {c : Cause}

section Refusals

open Attempt

theorem contradictedBy_some {v : Valuation} {mine : List FluentLiteral}
    {is : List IntervalCondition} (h : sim.contradictedBy v mine is = .ok (some o)) :
    o ∈ is ∧ ∃ theirs, o.condition.literals (sim.situation v o.activity.bindings) = .ok theirs ∧
      ∃ m ∈ mine, ∃ n ∈ theirs, m.contradicts n = true := by
  induction is with
  | nil => cases h
  | cons i is ih =>
      rw [contradictedBy, except_bind_ok] at h
      obtain ⟨theirs, htheirs, h⟩ := h
      split at h
      · rename_i hclash
        obtain rfl : i = o := by simpa [except_pure_ok] using h
        exact ⟨List.mem_cons_self, theirs, htheirs, by simpa using hclash⟩
      · obtain ⟨ho, hliterals⟩ := ih h
        exact ⟨List.mem_cons_of_mem _ ho, hliterals⟩

theorem checkOpening_refuses {p : Placement}
    (h : (sim.checkOpening (.startCondition p i) s).Refuses c) : ∃ mine o,
      i.condition.literals (sim.situation s.valuation i.activity.bindings) = .ok mine ∧
      sim.contradictedBy s.valuation mine s.openConditions = .ok (some o) := by
  simp only [checkOpening, refuses_bind, not_refuses_ofExcept, gives_ofExcept, false_or] at h
  obtain ⟨keys, -, mine, hmine, clash, hclash, h⟩ := h
  cases clash with
  | none => exact absurd h not_refuses_pure
  | some o =>
      refine ⟨mine, o, hmine, ?_⟩
      split at hclash
      · cases hclash
      · exact hclash

theorem opening_of_contradicts (h : (sim.examine e s).Refuses (.contradicts i o)) :
    (sim.checkOpening e s).Refuses (.contradicts i o) := by
  let Other : Cause → Prop := fun c => c ≠ .contradicts i o
  rcases examine_refuses h with h | h | h | h | ⟨firing, -, -, h⟩ | ⟨v, h⟩
  · exact (refusesOnly_checkLifecycle e s _ h).elim
  · exact absurd rfl (refusesOnly_checkDuration (P := Other) (by simp [Other]) e _ _ h)
  · exact absurd rfl (refusesOnly_checkConditions (P := Other) (by simp [Other]) _ _ _ h)
  · exact h
  · cases h
  · exact absurd rfl (refusesOnly_checkOpen (P := Other) (by simp [Other]) sim v _ _ h)

theorem opening_of_incompatible {r : Refusal}
    (h : (sim.tryApply e s time).outcome.1 = .ok (.error r))
    (hr : r.kind = .incompatibleOpenCondition) :
    ∃ i o, (sim.checkOpening e s).Refuses (.contradicts i o) := by
  obtain ⟨-, hx | ⟨⟨w, hw⟩, -⟩⟩ := refused_by h
  · cases hc : r.cause with
    | contradicts i o => exact ⟨i, o, opening_of_contradicts (hc ▸ hx)⟩
    | _ => simp [Refusal.kind, hc] at hr
  · simp [Refusal.kind, hw] at hr

end Refusals

theorem Run.defaults_eq (h : Run sim log s) : sim.defaults = sim.problem.defaults := by
  induction h with
  | initial h =>
      obtain ⟨goals, -, rfl⟩ := new_iff.mp h
      rfl
  | request g duration _ ih =>
      rw [(SameRules.eventsOf _ g duration).defaults, (SameRules.eventsOf _ g duration).problem, ih]
  | timed _ ih =>
      rw [(SameRules.timedActivities _).defaults, (SameRules.timedActivities _).problem, ih]
  | apply _ _ ih => exact ih

theorem Run.openHold (h : Run sim log s) : OpenHold sim s := by
  induction h with
  | initial h => exact fun i hi => absurd hi List.not_mem_nil
  | request g duration _ ih =>
      intro i hi
      rw [situation, (SameRules.eventsOf _ g duration).defaults]
      exact ih i hi
  | timed _ ih =>
      intro i hi
      rw [situation, (SameRules.timedActivities _).defaults]
      exact ih i hi
  | apply _ happ _ => exact openHold_of_tryApply happ

theorem Run.contradicted_fails {p : Placement} {r : Refusal} (h : Run sim log s)
    (hnames : ∀ d ∈ sim.problem.fluents, '(' ∉ d.name.toList)
    (hr : (sim.tryApply (.startCondition p i) s time).outcome.1 = .ok (.error r))
    (hkind : r.kind = .incompatibleOpenCondition) :
    i.condition.evaluate (sim.situation s.valuation i.activity.bindings) ≠ .ok (.bool true) ∧
    ∃ firing, Firing.ofEvent sim.provider
        (sim.situation s.valuation (Event.startCondition p i).activity.bindings)
        (.startCondition p i) = .ok firing ∧
      ¬ (sim.checkOpen (s.valuation.update firing.updates)
        (openAfter (.startCondition p i) s.openConditions)).Gives () := by
  have hdefaults : ∀ name v, sim.defaults.get? name = some v → '(' ∉ name.toList := by
    intro name v hv
    obtain ⟨d, hd, rfl⟩ := Problem.declared_of_default (h.defaults_eq ▸ hv)
    exact hnames d hd
  obtain ⟨i', o', hopening⟩ := opening_of_incompatible hr hkind
  obtain ⟨mine, o, hmine, hclash⟩ := checkOpening_refuses hopening
  obtain ⟨ho, theirs, htheirs, m, hm, n, hn, hopposed⟩ := contradictedBy_some hclash
  have hfails : i.condition.holds (sim.situation s.valuation i.activity.bindings) ≠ .ok true := by
    intro hholds
    have hmholds := Expr.literals_hold _ _ hmine hholds m hm
    have hnholds := Expr.literals_hold _ _ htheirs (h.openHold o ho) n hn
    -- the value of a fluent does not depend on the bindings of the two activities
    have hfree : m.contradicts n = false := hmholds.not_contradicts hnholds hdefaults
    rw [hopposed] at hfree
    cases hfree
  refine ⟨fun hvalue => hfails (Expr.holds_iff.mpr hvalue), .empty,
    Firing.ofEvent_of_noEffects rfl rfl rfl, fun hopen => ?_⟩
  exact hfails (holds_of_checkOpen hopen i (List.mem_append_right _ List.mem_cons_self))

end Simulator

namespace Corridor

def free : Expr := .junction .and [.fluent "lit" [], .not (.fluent "taken" [.object "hall"])]

def taken : Expr := .junction .and [.junction .and [.fluent "taken" [.object "hall"]]]

def problem : Problem :=
  { Problem.ofActions "corridor" [.flag "lit" true,
      { FluentDeclaration.flag "taken" false with parameters := ["room"] }] [] with
    objects := [⟨"hall", "room"⟩]
    timedGoals := [⟨⟨⟨.planStart, 0⟩, ⟨.planStart, 4⟩, false, false⟩, free⟩,
      ⟨⟨⟨.planStart, 0⟩, ⟨.planStart, 3⟩, true, false⟩, taken⟩] }

def freeOver : IntervalCondition :=
  ⟨2, .plan 0, free, 0, 4, false, false, [], [], none, "[start+0..start+4]"⟩

def takenOver : IntervalCondition :=
  ⟨4, .plan 0, taken, 0, 3, true, false, [], [], none, "(start+0..start+3]"⟩

def place (n : Nat) (offset : Rat) (suffix : String) : Placement :=
  Clock.place ⟨1, 0⟩ n (.plan 0) offset false suffix

def openFree : Event := .startCondition (place 2 0 "open[start+0..start+4]") freeOver

def openTaken : Event := .startCondition (place 4 1 "open(start+0..start+3]") takenOver

def sim : Simulator := .unused 0 problem 1 none "simulator" [
  openFree, .endCondition (place 3 4 "close[start+0..start+4]") freeOver,
  openTaken, .endCondition (place 5 3 "close(start+0..start+3]") takenOver]

theorem new_problem : Simulator.new 0 problem 1 none "simulator" = .ok sim := by
  with_unfolding_all rfl

theorem contradicted_taken : (∀ d ∈ problem.fluents, '(' ∉ d.name.toList) ∧
    ∃ s log r, Simulator.Run sim log s ∧
      (sim.tryApply openTaken s none).outcome.1 = .ok (.error r) ∧
      r.kind = .incompatibleOpenCondition ∧
      taken.evaluate (sim.situation s.valuation .empty) ≠ .ok (.bool true) := by
  have hnames : ∀ d ∈ problem.fluents, '(' ∉ d.name.toList := by decide +kernel
  have hcheck : ((sim.tryApply openFree sim.initialState none).outcome.1.toOption.bind
      Except.toOption).any (fun s => (sim.tryApply openTaken s none).outcome.1.toOption.any
        fun answer => (answer.mapError Refusal.kind).map (fun _ => ()) =
          .error .incompatibleOpenCondition) = true := by
    decide +kernel
  obtain ⟨s, hs, hrefused⟩ := (Option.any_eq_true _ _).mp hcheck
  have happ := except_ok_of_toOption hs
  have hrun : Simulator.Run sim [(s.last, none)] s := .apply (.initial new_problem) happ
  obtain ⟨answer, hanswer, hkind⟩ := (Option.any_eq_true _ _).mp hrefused
  cases answer with
  | ok next => cases of_decide_eq_true hkind
  | error r =>
      have hr := except_toOption.mp hanswer
      have hkind : r.kind = .incompatibleOpenCondition :=
        Except.error.inj (of_decide_eq_true hkind)
      exact ⟨hnames, s, _, r, hrun, hr, hkind, (hrun.contradicted_fails hnames hr hkind).1⟩

end Corridor

end TemporalPlanning
