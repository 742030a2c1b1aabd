import Mathlib.Data.List.SplitBy
import TemporalPlanning.Proofs.Records
import TemporalPlanning.Proofs.Replays

namespace TemporalPlanning

open Logged

variable {sim : Simulator} {p p' q : Progress} {xs ys : List Scheduled}
  {violation : Option Violation}

def Violation.refusal? : Violation → Option (Rat × Refusal)
  | .inapplicable t r => some (t, r)
  | .cannotEnd t r => some (t, r)
  | _ => none

def Refused (sim : Simulator) (x : Scheduled) (s : State) (r : Refusal) : Prop :=
  (sim.tryApply x.event s (some x.time)).outcome.1 = .ok (.error r)

def Scheduled.entry (x : Scheduled) : Rat × String := (x.time, x.event.label)

theorem step_of_gives {x : Scheduled} {s s' : State}
    (h : (sim.tryApply x.event s (some x.time)).Gives (.ok s')) : Step sim x s s' :=
  (steady_tryApply sim x.event s _).gives_iff.mp h

theorem refused_of_gives {x : Scheduled} {s : State} {r : Refusal}
    (h : (sim.tryApply x.event s (some x.time)).Gives (.error r)) : Refused sim x s r :=
  (steady_tryApply sim x.event s _).gives_iff.mp h

inductive Halts (sim : Simulator) (p : Progress) (xs : List Scheduled) (p' : Progress)
    (violation : Option Violation) : Prop
  | at (before after : List Scheduled) (split : xs = before ++ after)
      (run : Replays sim p.state before p'.state)
      (trace : p'.trace = p.trace ++ before.map Scheduled.entry)
      (whole : violation = none → after = [])
      (refused : ∀ t r, violation.bind Violation.refusal? = some (t, r) →
        ∃ x rest, after = x :: rest ∧ t = x.time ∧ Refused sim x p'.state r)

namespace Halts

theorem stop {w : Violation} (hstate : p'.state = p.state) (htrace : p'.trace = p.trace)
    (hw : w.refusal? = none) : Halts sim p xs p' (some w) := by
  refine .at [] _ rfl (hstate ▸ .nil) (by simp [htrace]) (by simp) fun t r h => ?_
  simp [hw] at h

theorem nil : Halts sim p [] p none := .at [] _ rfl .nil (by simp) (by simp) (by simp)

theorem refuse {x : Scheduled} {r : Refusal} {w : Violation} (h : Refused sim x p.state r)
    (hw : w.refusal? = some (x.time, r)) : Halts sim p (x :: xs) p (some w) := by
  refine .at [] _ rfl .nil (by simp) (by simp) fun t r' ht => ?_
  obtain ⟨rfl, rfl⟩ : x.time = t ∧ r = r' := by simpa [hw] using ht
  exact ⟨x, xs, rfl, rfl, h⟩

theorem cons {x : Scheduled} (hx : Step sim x p.state q.state)
    (htrace : q.trace = p.trace ++ [x.entry]) (h : Halts sim q xs p' violation) :
    Halts sim p (x :: xs) p' violation := by
  obtain ⟨before, after, hsplit, hrun, htrace', hwhole, hrefused⟩ := h
  refine .at (x :: before) after (by rw [hsplit]; rfl) (.cons hx hrun) ?_ hwhole hrefused
  simp [htrace', htrace]

theorem of_none (h : Halts sim p xs p' none) :
    Replays sim p.state xs p'.state ∧ p'.trace = p.trace ++ xs.map Scheduled.entry := by
  obtain ⟨before, after, hsplit, hrun, htrace, hwhole, -⟩ := h
  obtain rfl := hwhole rfl
  rw [List.append_nil] at hsplit
  rw [hsplit]
  exact ⟨hrun, htrace⟩

theorem append (h : Halts sim p xs q none) (h' : Halts sim q ys p' violation) :
    Halts sim p (xs ++ ys) p' violation := by
  obtain ⟨hrun, htrace⟩ := h.of_none
  obtain ⟨before, after, hsplit, hrun', htrace', hwhole, hrefused⟩ := h'
  refine .at (xs ++ before) after (by rw [hsplit, List.append_assoc])
    (Replays.append_iff.mpr ⟨_, hrun, hrun'⟩) ?_ hwhole hrefused
  simp [htrace', htrace]

theorem of_same (hstate : q.state = p.state) (htrace : q.trace = p.trace)
    (h : Halts sim q xs p' violation) : Halts sim p xs p' violation := by
  obtain ⟨before, after, hsplit, hrun, htrace', hwhole, hrefused⟩ := h
  exact .at before after hsplit (hstate ▸ hrun) (htrace ▸ htrace') hwhole hrefused

theorem extend {w : Violation} (h : Halts sim p xs p' (some w)) (ys : List Scheduled) :
    Halts sim p (xs ++ ys) p' (some w) := by
  obtain ⟨before, after, hsplit, hrun, htrace, -, hrefused⟩ := h
  refine .at before (after ++ ys) (by rw [hsplit, List.append_assoc]) hrun htrace (by simp)
    fun t r ht => ?_
  obtain ⟨x, rest, rfl, htime, hx⟩ := hrefused t r ht
  exact ⟨x, rest ++ ys, rfl, htime, hx⟩

end Halts

theorem Monitor.visit_trajectory {holds : Expr → Except Fault Bool} {time : Rat} {m m' : Monitor}
    {w : Violation} (h : m.visit holds time = .ok (m', some w)) : ∃ c, w = .trajectory c time := by
  induction m generalizing m' with
  | nil => simp [visit] at h
  | cons x m ih =>
      simp only [visit, except_bind_ok] at h
      obtain ⟨b, -, h⟩ := h
      split at h
      · obtain ⟨-, rfl⟩ : _ ∧ Violation.trajectory _ (some time) = w := by
          simpa [except_pure_ok] using h
        exact ⟨_, rfl⟩
      · simp only [except_bind_ok, except_pure_ok, Prod.mk.injEq] at h
        obtain ⟨⟨rest, violation⟩, hrest, -, rfl⟩ := h
        exact ih hrest

theorem refusal_of_simultaneousWrites {v : Valuation} {writers : OrderedMap String Scheduled}
    {w : Violation} (h : simultaneousWrites sim v xs writers = .ok (some w)) :
    w.refusal? = none := by
  have hnote {x : Scheduled} {keys : List String} {writers later : OrderedMap String Scheduled}
      (h : noteWriter x keys writers = (later, some w)) : w.refusal? = none := by
    induction keys generalizing writers with
    | nil => simp [noteWriter] at h
    | cons key keys ih =>
        unfold noteWriter at h
        split at h
        · split at h
          · obtain rfl := Option.some.inj (Prod.mk.inj h).2
            rfl
          · exact ih h
        · exact ih h
  induction xs generalizing writers with
  | nil => simp [simultaneousWrites] at h
  | cons x xs ih =>
      simp only [simultaneousWrites, except_bind_ok] at h
      obtain ⟨keys, -, h⟩ := h
      split at h
      · rename_i later violation hx
        obtain rfl : violation = w := by simpa [except_pure_ok] using h
        exact hnote hx
      · exact ih h

section Writers

variable {x : Scheduled} {writers : OrderedMap String Scheduled}

theorem noteWriter_none (keys : List String) (h : ∀ key ∈ keys, ∀ y, writers.get? key = some y →
    y.event.activity.id = x.event.activity.id) :
    ∃ later, noteWriter x keys writers = (later, none) ∧
      ∀ key y, later.get? key = some y → (y = x ∧ key ∈ keys) ∨ writers.get? key = some y := by
  induction keys generalizing writers with
  | nil => exact ⟨writers, rfl, fun _ _ hy => .inr hy⟩
  | cons key keys ih =>
      obtain ⟨hkey, hkeys⟩ := List.forall_mem_cons.mp h
      have hput : ∀ k y, (writers.put key x).get? k = some y →
          (y = x ∧ k = key) ∨ writers.get? k = some y := by
        intro k y hy
        rw [OrderedMap.get?_put] at hy
        split at hy
        · rename_i hk
          exact .inl ⟨(Option.some.inj hy).symm, hk⟩
        · exact .inr hy
      have hmine : ∀ k ∈ keys, ∀ y, (writers.put key x).get? k = some y →
          y.event.activity.id = x.event.activity.id := by
        intro k hk y hy
        rcases hput k y hy with ⟨rfl, -⟩ | hy
        · rfl
        · exact hkeys k hk y hy
      obtain ⟨later, hlater, hnoted⟩ := ih hmine
      have hnote : noteWriter x (key :: keys) writers = noteWriter x keys (writers.put key x) := by
        rw [noteWriter]
        cases hy : writers.get? key with
        | none => rfl
        | some y => simp [hkey y hy]
      refine ⟨later, hnote.trans hlater, fun k y hy => ?_⟩
      rcases hnoted k y hy with ⟨rfl, hk⟩ | hy
      · exact .inl ⟨rfl, List.mem_cons_of_mem _ hk⟩
      · rcases hput k y hy with ⟨rfl, rfl⟩ | hy
        · exact .inl ⟨rfl, List.mem_cons_self⟩
        · exact .inr hy

theorem simultaneousWrites_none {v : Valuation} {clash : Option Violation}
    (h : simultaneousWrites sim v xs writers = .ok clash) (W : Scheduled → String → Prop)
    (hkeys : ∀ x ∈ xs, ∀ keys, writtenBy sim v x.event = .ok keys → ∀ key ∈ keys, W x key)
    (hxs : xs.Pairwise fun x y => ∀ key, W x key → W y key →
      x.event.activity.id = y.event.activity.id)
    (hwriters : ∀ key y, writers.get? key = some y → ∀ x ∈ xs, W x key →
      y.event.activity.id = x.event.activity.id) : clash = none := by
  induction xs generalizing writers with
  | nil => exact (Except.ok.inj h).symm
  | cons x xs ih =>
      obtain ⟨hx, hkeys⟩ := List.forall_mem_cons.mp hkeys
      obtain ⟨hfirst, hxs⟩ := List.pairwise_cons.mp hxs
      simp only [simultaneousWrites, except_bind_ok] at h
      obtain ⟨keys, hmine, h⟩ := h
      obtain ⟨later, hlater, hnoted⟩ := noteWriter_none keys fun key hk y hy =>
        hwriters key y hy x List.mem_cons_self (hx keys hmine key hk)
      rw [hlater] at h
      refine ih h hkeys hxs fun key y hy x' hx' hwrites => ?_
      rcases hnoted key y hy with ⟨rfl, hk⟩ | hy
      · exact hfirst x' hx' key (hx keys hmine key hk) hwrites
      · exact hwriters key y hy x' (List.mem_cons_of_mem _ hx') hwrites

theorem simultaneousWrites_total {v : Valuation}
    (h : ∀ x ∈ xs, ∃ keys, writtenBy sim v x.event = .ok keys) :
    ∃ clash, simultaneousWrites sim v xs writers = .ok clash := by
  induction xs generalizing writers with
  | nil => exact ⟨none, rfl⟩
  | cons x xs ih =>
      obtain ⟨⟨keys, hkeys⟩, h⟩ := List.forall_mem_cons.mp h
      simp only [simultaneousWrites, except_bind_ok]
      cases hnote : noteWriter x keys writers with
      | mk later clash =>
          cases clash with
          | some clash => exact ⟨some clash, keys, hkeys, by rw [hnote]; rfl⟩
          | none =>
              obtain ⟨clash, hclash⟩ : ∃ clash,
                  simultaneousWrites sim v xs later = .ok clash := ih h
              exact ⟨clash, keys, hkeys, by rw [hnote]; exact hclash⟩

end Writers

namespace Validator

theorem visit_ok {time : Rat} (h : visit sim time p = .ok (p', violation)) :
    p'.state = p.state ∧ p'.trace = p.trace ∧ ∀ w ∈ violation, w.refusal? = none := by
  simp only [visit, except_bind_ok, except_pure_ok, Prod.mk.injEq] at h
  obtain ⟨⟨m, violation'⟩, hvisit, rfl, rfl⟩ := h
  refine ⟨rfl, rfl, fun w hw => ?_⟩
  obtain rfl : violation' = some w := hw
  obtain ⟨c, rfl⟩ := Monitor.visit_trajectory hvisit
  rfl

theorem halts_of_applyEvents (h : (applyEvents sim xs p).Gives (p', violation)) :
    Halts sim p xs p' violation := by
  induction xs generalizing p with
  | nil =>
      obtain ⟨rfl, rfl⟩ := Prod.mk.inj (gives_pure h)
      exact .nil
  | cons x xs ih =>
      obtain ⟨r, hr, h⟩ := gives_bind h
      cases r with
      | error r =>
          obtain ⟨rfl, rfl⟩ := Prod.mk.inj (gives_pure h)
          exact .refuse (refused_of_gives hr) rfl
      | ok s =>
          obtain ⟨-, -, h⟩ := gives_bind h
          obtain ⟨⟨q, clash⟩, hq, h⟩ := gives_bind h
          obtain ⟨hstate, htrace, hclash⟩ := visit_ok (gives_ofExcept hq)
          refine .cons (q := q) (hstate ▸ step_of_gives hr) htrace ?_
          cases clash with
          | some clash =>
              obtain ⟨rfl, rfl⟩ := Prod.mk.inj (gives_pure h)
              exact .stop rfl rfl (hclash clash rfl)
          | none => exact ih h

theorem halts_of_applyInstants {xss : List (List Scheduled)}
    (h : (applyInstants sim xss p).Gives (p', violation)) :
    Halts sim p xss.flatten p' violation := by
  induction xss generalizing p with
  | nil =>
      obtain ⟨rfl, rfl⟩ := Prod.mk.inj (gives_pure h)
      exact .nil
  | cons xs xss ih =>
      obtain ⟨clash, hclash, h⟩ := gives_bind h
      cases clash with
      | some clash =>
          obtain ⟨rfl, rfl⟩ := Prod.mk.inj (gives_pure h)
          exact .stop rfl rfl (refusal_of_simultaneousWrites (gives_ofExcept hclash))
      | none =>
          obtain ⟨⟨q, clash⟩, hq, h⟩ := gives_bind h
          have hq := halts_of_applyEvents hq
          cases clash with
          | some clash =>
              obtain ⟨rfl, rfl⟩ := Prod.mk.inj (gives_pure h)
              exact hq.extend _
          | none => exact hq.append (ih h)

end Validator

def Schedule.whole (sched : Schedule) : List Scheduled :=
  sched.events ++ [⟨sched.sim.planEnd, sched.makespan, .goal⟩]

namespace Validator

theorem halts_of_applyEnd {makespan : Rat} (h : (applyEnd sim makespan p).Gives (p', violation)) :
    Halts sim p [⟨sim.planEnd, makespan, .goal⟩] p' violation := by
  unfold applyEnd at h
  split at h
  · rename_i w hw
    obtain ⟨rfl, rfl⟩ := Prod.mk.inj (gives_pure h)
    refine .stop rfl rfl ?_
    obtain ⟨x, -, rfl⟩ := Option.map_eq_some_iff.mp hw
    rfl
  · obtain ⟨r, hr, h⟩ := gives_bind h
    cases r with
    | error r =>
        obtain ⟨rfl, rfl⟩ := Prod.mk.inj (gives_pure h)
        exact .refuse (x := ⟨sim.planEnd, makespan, .goal⟩) (refused_of_gives hr) rfl
    | ok s =>
        obtain ⟨rfl, rfl⟩ := Prod.mk.inj (gives_pure h)
        exact .cons (step_of_gives hr) rfl .nil

theorem halts_of_execute {sched : Schedule} (h : (execute sched.sim sched).Gives (p, violation)) :
    Halts sched.sim ⟨sched.sim.initialState, .start sched.sim.problem.trajectory, []⟩ sched.whole p
      violation := by
  obtain ⟨⟨first, clash⟩, hvisit, h⟩ := gives_bind h
  obtain ⟨hstate, htrace, hclash⟩ := visit_ok (gives_ofExcept hvisit)
  cases clash with
  | some clash =>
      obtain ⟨rfl, rfl⟩ := Prod.mk.inj (gives_pure h)
      exact .stop hstate htrace (hclash clash rfl)
  | none =>
      refine Halts.of_same hstate htrace ?_
      obtain ⟨⟨q, clash⟩, hq, h⟩ := gives_bind h
      have hq := halts_of_applyInstants hq
      rw [Scheduled.instants, List.flatten_splitBy] at hq
      cases clash with
      | some clash =>
          obtain ⟨rfl, rfl⟩ := Prod.mk.inj (gives_pure h)
          exact hq.extend _
      | none => exact hq.append (halts_of_applyEnd h)

theorem violation_of_report {sched : Schedule} {steps : List TimedStep} {r : Report}
    (h : report sched.sim sched steps p violation = .ok r) : r.trace = p.trace ∧
      (r.isValid = true → violation = none) ∧
      r.violation.bind Violation.refusal? = violation.bind Violation.refusal? := by
  simp only [report, except_bind_ok] at h
  obtain ⟨goals, -, h⟩ := h
  cases violation with
  | some w =>
      obtain rfl := except_pure_ok.mp h
      exact ⟨rfl, by simp [Report.isValid], rfl⟩
  | none =>
      cases hgoals : goals.isEmpty with
      | true =>
          simp only [hgoals, Option.none_or, if_true, except_bind_ok, except_pure_ok] at h
          obtain ⟨metrics, -, rfl⟩ := h
          exact ⟨rfl, fun _ => rfl, rfl⟩
      | false =>
          simp only [hgoals, Option.none_or, Bool.false_eq_true, if_false] at h
          obtain rfl := except_pure_ok.mp h
          exact ⟨rfl, fun _ => rfl, rfl⟩

theorem valid_of_report {sched : Schedule} {steps : List TimedStep} {r : Report}
    (h : report sched.sim sched steps p violation = .ok r) : r.isValid = true ↔
      violation = none ∧ sched.sim.unsatisfiedGoals p.state = .ok [] := by
  simp only [report, except_bind_ok] at h
  obtain ⟨goals, hgoals, h⟩ := h
  rw [hgoals]
  cases violation with
  | some w =>
      obtain rfl := except_pure_ok.mp h
      simp [Report.isValid]
  | none =>
      cases goals with
      | nil =>
          simp only [List.isEmpty_nil, Option.none_or, if_true, except_bind_ok,
            except_pure_ok] at h
          obtain ⟨metrics, -, rfl⟩ := h
          simp [Report.isValid]
      | cons g goals =>
          obtain rfl := except_pure_ok.mp h
          simp [Report.isValid]

theorem report_none {sched : Schedule} {steps : List TimedStep} {r : Report}
    (hgoals : sched.sim.unsatisfiedGoals p.state = .ok []) :
    report sched.sim sched steps p none = .ok r ↔ ∃ metrics,
      sched.sim.problem.metricValues ⟨sched.sim.defaults, .ofMap sched.sim.problem.initial,
        p.state.valuation, sched.makespan, steps⟩ = .ok metrics ∧
      r = ⟨none, [], metrics,
        [⟨.info, s!"Plan is valid with makespan {Number.text sched.makespan}"⟩], p.trace⟩ := by
  simp only [report, hgoals, except_bind_ok]
  constructor
  · rintro ⟨goals, hnil, h⟩
    obtain rfl := Except.ok.inj hnil
    simp only [List.isEmpty_nil, Option.none_or, if_true, except_bind_ok, except_pure_ok] at h
    obtain ⟨metrics, hmetrics, rfl⟩ := h
    exact ⟨metrics, hmetrics, rfl⟩
  · rintro ⟨metrics, hmetrics, rfl⟩
    refine ⟨[], rfl, ?_⟩
    simp only [List.isEmpty_nil, Option.none_or, if_true, except_bind_ok, except_pure_ok]
    exact ⟨metrics, hmetrics, rfl⟩

def schedule (v : Validator) (problem : Problem) (steps : List TimedStep) :
    Except Fault Schedule := do
  let sim ← Simulator.new 0 problem v.epsilon v.provider component
  Schedule.ofSteps sim steps

variable {v : Validator} {problem : Problem} {steps : List TimedStep} {r : Report}

theorem validate_sequence_ok {l : List ActionInstance} :
    (v.validate problem (.sequence l)).outcome.1 = .ok r ↔
      (∀ s ∈ l, s.action.isDurative = false) ∧
        (v.validate problem (.timed (spaced l))).outcome.1 = .ok r := by
  have hdispatch : (v.dispatch problem (.sequence l)).result =
      (v.validateSequence problem l).result := rfl
  rw [validate_ok, validate_ok, hdispatch]
  unfold validateSequence
  cases hfind : l.find? fun s => s.action.isDurative with
  | some s =>
      have hdurative := List.find?_some hfind
      have hmem := List.mem_of_find?_eq_some hfind
      simp only [Logged.result_ofExcept]
      exact iff_of_false (by simp) fun h => by simp [h.1 s hmem] at hdurative
  | none =>
      have hinst : ∀ s ∈ l, s.action.isDurative = false := by simpa using hfind
      exact ⟨fun h => ⟨hinst, h⟩, fun h => h.2⟩

theorem execution_of_validate (hr : (v.validate problem (.timed steps)).outcome.1 = .ok r) :
    ∃ sim sched p violation, Simulator.new 0 problem v.epsilon v.provider component = .ok sim ∧
      Schedule.ofSteps sim steps = .ok sched ∧
      (execute sched.sim sched).Gives (p, violation) ∧
      report sched.sim sched steps p violation = .ok r := by
  have hgives := gives_of_outcome ((validate_ok v problem).mp hr).2
  obtain ⟨sim, hsim, h⟩ := gives_bind hgives
  obtain ⟨sched, hsched, h⟩ := gives_bind h
  obtain ⟨⟨p, violation⟩, hp, h⟩ := gives_bind h
  exact ⟨sim, sched, p, violation, gives_ofExcept hsim, gives_ofExcept hsched, hp,
    gives_ofExcept h⟩

theorem halts_of_validate (hr : (v.validate problem (.timed steps)).outcome.1 = .ok r) :
    ∃ sim sched, Simulator.new 0 problem v.epsilon v.provider component = .ok sim ∧
      Schedule.ofSteps sim steps = .ok sched ∧ ∃ p violation,
        Halts sched.sim ⟨sched.sim.initialState, .start sched.sim.problem.trajectory, []⟩
          sched.whole p violation ∧ report sched.sim sched steps p violation = .ok r := by
  obtain ⟨sim, sched, p, violation, hsim, hsched, hp, hreport⟩ := execution_of_validate hr
  exact ⟨sim, sched, hsim, hsched, p, violation, halts_of_execute hp, hreport⟩

theorem whole_of_valid (hr : (v.validate problem (.timed steps)).outcome.1 = .ok r)
    (hvalid : r.isValid = true) : ∃ sim sched final,
      Simulator.new 0 problem v.epsilon v.provider component = .ok sim ∧
      Schedule.ofSteps sim steps = .ok sched ∧
      Replays sched.sim sched.sim.initialState sched.whole final ∧
      r.trace = sched.whole.map Scheduled.entry := by
  obtain ⟨sim, sched, hsim, hsched, p, violation, hp, hreport⟩ := halts_of_validate hr
  obtain ⟨htrace, hnone, -⟩ := violation_of_report hreport
  obtain rfl := hnone hvalid
  obtain ⟨hall, hentries⟩ := hp.of_none
  exact ⟨sim, sched, p.state, hsim, hsched, hall, by simpa [htrace] using hentries⟩

theorem replays_of_valid (hr : (v.validate problem (.timed steps)).outcome.1 = .ok r)
    (hvalid : r.isValid = true) : ∃ sim sched final,
      Simulator.new 0 problem v.epsilon v.provider component = .ok sim ∧
      Schedule.ofSteps sim steps = .ok sched ∧
      Replays sched.sim sched.sim.initialState sched.events final := by
  obtain ⟨sim, sched, last, hsim, hsched, hall, -⟩ := whole_of_valid hr hvalid
  obtain ⟨final, hfinal, -⟩ := Replays.append_iff.mp hall
  exact ⟨sim, sched, final, hsim, hsched, hfinal⟩

end Validator

end TemporalPlanning
