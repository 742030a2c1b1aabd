import TemporalPlanning.Proofs.InstantaneousPlans
import TemporalPlanning.Proofs.Interchange
import TemporalPlanning.Proofs.Trajectories

namespace TemporalPlanning

open Logged

section Runs

/--
The preconditions of an action hold in `v`, and its effects that fire there do not conflict and lead
to `w` if they are applied in parallel.
-/
def GroundAction.Leads (defaults : OrderedMap String Value) (g : GroundAction) (v w : Valuation) :
    Prop :=
  ∃ a changes, g.action = .instantaneous a ∧
    (∀ c ∈ a.preconditions, c.holds ⟨defaults, v, g.bindings⟩ = .ok true) ∧
    Fires ⟨defaults, v, g.bindings⟩ a.effects changes ∧ Compatible changes ∧ Parallel changes v w

inductive ClassicalRun (defaults : OrderedMap String Value) :
    Valuation → List GroundAction → List Valuation → Valuation → Prop
  | nil (v : Valuation) : ClassicalRun defaults v [] [v] v
  | cons {v w last : Valuation} {g : GroundAction} {gs : List GroundAction}
      {states : List Valuation} (leads : g.Leads defaults v w)
      (rest : ClassicalRun defaults w gs states last) :
      ClassicalRun defaults v (g :: gs) (v :: states) last

variable {defaults : OrderedMap String Value} {g : GroundAction} {gs : List GroundAction}
  {v v' w w' last last' : Valuation} {states states' : List Valuation}

namespace GroundAction.Leads

theorem from_same (h : g.Leads defaults v w) (hv : v.Same v') : g.Leads defaults v' w := by
  obtain ⟨a, changes, ha, hholds, hfires, hcompatible, hparallel⟩ := h
  have hs : Situation.Same ⟨defaults, v, g.bindings⟩ ⟨defaults, v', g.bindings⟩ := ⟨rfl, rfl, hv⟩
  refine ⟨a, changes, ha, fun c hc => (Expr.holds_congr hs c).trans (hholds c hc),
    hfires.congr hs, hcompatible, hparallel.assigned, hparallel.shifted, fun key hkey => ?_⟩
  exact (hparallel.kept key hkey).trans (hv key).symm

theorem unique (h : g.Leads defaults v w) (h' : g.Leads defaults v w') : w.Same w' := by
  obtain ⟨a, changes, ha, -, hfires, -, hparallel⟩ := h
  obtain ⟨a', changes', ha', -, hfires', -, hparallel'⟩ := h'
  obtain rfl := Action.instantaneous.inj (ha.symm.trans ha')
  obtain rfl := hfires.unique hfires'
  exact fun key => hparallel'.unique hparallel

end GroundAction.Leads

namespace ClassicalRun

theorem head (h : ClassicalRun defaults v gs states last) : ∃ later, states = v :: later := by
  cases h with
  | nil => exact ⟨[], rfl⟩
  | cons _ rest => exact ⟨_, rfl⟩

theorem from_same (h : ClassicalRun defaults v gs states last) (hv : v.Same v') :
    ∃ states' last', ClassicalRun defaults v' gs states' last' ∧
      List.Forall₂ Valuation.Same states states' := by
  cases h with
  | nil => exact ⟨[v'], v', .nil v', .cons hv .nil⟩
  | @cons _ w _ _ _ states leads rest =>
      exact ⟨v' :: states, last, .cons (leads.from_same hv) rest,
        .cons hv (List.forall₂_same.mpr fun x _ => .refl x)⟩

theorem unique (h : ClassicalRun defaults v gs states last) (hv : v.Same v')
    (h' : ClassicalRun defaults v' gs states' last') :
    List.Forall₂ Valuation.Same states states' ∧ last.Same last' := by
  induction h generalizing v' states' with
  | nil =>
      cases h' with
      | nil => exact ⟨.cons hv .nil, hv⟩
  | cons leads _ ih =>
      cases h' with
      | cons leads' rest' =>
          obtain ⟨hstates, hlast⟩ := ih ((leads.from_same hv).unique leads') rest'
          exact ⟨.cons hv hstates, hlast⟩

end ClassicalRun

theorem TrajectoryConstraint.holdsOver_congr (c : TrajectoryConstraint) (before : List Situation)
    (h : List.Forall₂ Valuation.Same states states') :
    c.HoldsOver (before ++ states.map fun v => ⟨defaults, v, .empty⟩) ↔
      c.HoldsOver (before ++ states'.map fun v => ⟨defaults, v, .empty⟩) := by
  have hmap : (states.map fun v => c.condition.isTrue ⟨defaults, v, .empty⟩) =
      states'.map fun v => c.condition.isTrue ⟨defaults, v, .empty⟩ := by
    induction h with
    | nil => rfl
    | @cons v v' _ _ hv _ ih =>
        have hs : Situation.Same ⟨defaults, v, .empty⟩ ⟨defaults, v', .empty⟩ := ⟨rfl, rfl, hv⟩
        rw [List.map_cons, List.map_cons, ih, Expr.isTrue, ← Expr.holds_congr hs, ← Expr.isTrue]
  simp only [HoldsOver, List.map_append, List.map_map, Function.comp_def, hmap]

end Runs

section Steps

variable {here : Situation} {cs : List Expr} {keys : List String} {cause : Cause}

theorem Simulator.holds_of_checkConditions (h : (checkConditions here cs).Gives keys) :
    ∀ c ∈ cs, c.holds here = .ok true := by
  induction cs generalizing keys with
  | nil => simp
  | cons c cs ih =>
      simp only [checkConditions, Attempt.gives_bind, Attempt.gives_ofExcept,
        Attempt.gives_require, Attempt.gives_pure] at h
      obtain ⟨mine, -, b, hb, -, rfl, rest, hrest, -⟩ := h
      exact List.forall_mem_cons.mpr ⟨hb, ih hrest⟩

theorem Simulator.fails_of_checkConditions (h : (checkConditions here cs).Refuses cause) :
    ∃ c ∈ cs, c.holds here = .ok false := by
  induction cs with
  | nil => exact absurd h Attempt.not_refuses_pure
  | cons c cs ih =>
      simp only [checkConditions, Attempt.refuses_bind, Attempt.not_refuses_ofExcept,
        Attempt.gives_ofExcept, Attempt.refuses_require, Attempt.gives_require,
        Attempt.not_refuses_pure, false_or, and_false, exists_false, or_false] at h
      obtain ⟨mine, -, b, hb, ⟨rfl, -⟩ | ⟨-, -, hrest⟩⟩ := h
      · exact ⟨c, List.mem_cons_self, hb⟩
      · obtain ⟨c', hc', hfails⟩ := ih hrest
        exact ⟨c', List.mem_cons_of_mem _ hc', hfails⟩

variable {sim : Simulator} {o : Occurrence} {s : State} {fp : Footprint}

theorem InstantaneousAction.Performs.leads {g : GroundAction} {a : InstantaneousAction}
    {defaults : OrderedMap String Value} {v : Valuation} (ha : g.action = .instantaneous a)
    (h : a.Performs ⟨defaults, v, g.bindings⟩ fp) : g.Leads defaults v (v.update fp.updates) := by
  obtain ⟨reads, firing, hreads, hfiring, hconflicts, rfl⟩ := h
  obtain ⟨changes, hfires, hreflects⟩ := Firing.reflects_foldlM hfiring Firing.reflects_empty
  rw [List.nil_append] at hreflects
  have hcompatible := hreflects.clashes.mp (Firing.conflicts_isEmpty.mp hconflicts)
  exact ⟨a, changes, ha, Simulator.holds_of_checkConditions hreads, hfires, hcompatible,
    hreflects.parallel hcompatible v⟩

theorem not_leads_of_refuses (hplain : o.action.simulated = none) (hclosed : s.openConditions = [])
    (hlife : (Simulator.checkLifecycle o.start s).Gives ())
    (h : (sim.examine o.start s).Refuses cause) (w : Valuation) :
    ¬ o.ground.Leads sim.defaults s.valuation w := by
  rintro ⟨a, changes, ha, hholds, hfires, hcompatible, -⟩
  obtain rfl := Action.instantaneous.inj (o.instantaneous.symm.trans ha)
  have hafter : Simulator.openAfter o.start s.openConditions = [] := hclosed
  rcases Simulator.examine_refuses h with h | h | h | h | ⟨firing, hfiring, hconflicts, -⟩ | ⟨v, h⟩
  · exact absurd (hlife.symm.trans h) (by simp)
  · rw [checkDuration_start] at h
    exact Attempt.not_refuses_pure h
  · obtain ⟨c, hc, hfails⟩ := Simulator.fails_of_checkConditions h
    exact absurd ((hholds c hc).symm.trans hfails) (by simp)
  · exact Attempt.not_refuses_pure h
  · rw [ofEvent_start _ _ hplain] at hfiring
    obtain ⟨changes', hfires', hreflects⟩ :=
      Firing.reflects_foldlM hfiring Firing.reflects_empty
    rw [List.nil_append] at hreflects
    obtain rfl := hfires.unique hfires'
    rw [Firing.conflicts_isEmpty.mpr (hreflects.clashes.mpr hcompatible)] at hconflicts
    exact absurd hconflicts (by simp)
  · rw [hafter] at h
    exact Attempt.not_refuses_pure h

variable {sched : Schedule} {done : List (Applied × Rat)} {rest : List Scheduled} {x : Scheduled}

theorem Poised.not_leads (h : Poised sched done (x :: rest) s) (hid : x.event.activity.id ≠ 0)
    (ho : x.event = o.start) (hrefuses : (sched.sim.examine x.event s).Refuses cause)
    (w : Valuation) : ¬ o.ground.Leads sched.sim.defaults s.valuation w := by
  obtain ⟨-, hplain, hlife⟩ := h.started hid ho
  rw [ho] at hrefuses
  exact not_leads_of_refuses hplain h.ready.closed hlife hrefuses w

end Steps

section Executions

variable {sched : Schedule} {o : Occurrence} {os : List Occurrence} {x : Scheduled}
  {xs rest : List Scheduled} {done : List (Applied × Rat)} {p q p' : Progress}
  {prev : List Situation} {violation : Option Violation}

def Schedule.view (sched : Schedule) (v : Valuation) : Situation := ⟨sched.sim.defaults, v, .empty⟩

structure Underway (sched : Schedule) (done : List (Applied × Rat)) (rest : List Scheduled)
    (prev : List Situation) (p : Progress) : Prop where
  poised : Poised sched done rest p.state
  apart : done.Pairwise (Apart sched.sim.epsilon)
  saw : Monitor.Saw (prev ++ [sched.view p.state.valuation]) sched.sim.problem.trajectory p.monitor

def Schedule.Breaks (sched : Schedule) (prev : List Situation) (w : Valuation) : Prop :=
  ∃ c ∈ sched.sim.problem.trajectory, ∀ later, ¬ c.HoldsOver (prev ++ [sched.view w] ++ later)

theorem Schedule.Breaks.from_same {v w : Valuation} (h : sched.Breaks prev v) (hv : v.Same w) :
    sched.Breaks prev w := by
  obtain ⟨c, hc, hbroken⟩ := h
  refine ⟨c, hc, fun later hholds => hbroken later ?_⟩
  have hs : Situation.Same (sched.view v) (sched.view w) := ⟨rfl, rfl, hv⟩
  have htrue : c.condition.isTrue (sched.view w) = c.condition.isTrue (sched.view v) := by
    rw [Expr.isTrue, Expr.holds_congr hs, Expr.isTrue]
  simpa only [TrajectoryConstraint.HoldsOver, List.map_append, List.map_singleton, htrue]
    using hholds

def Schedule.Excludes (sched : Schedule) (prev : List Situation) (v : Valuation)
    (gs : List GroundAction) : Prop :=
  ∀ states last, ClassicalRun sched.sim.defaults v gs states last →
    ∃ c ∈ sched.sim.problem.trajectory, ¬ c.HoldsOver (prev ++ states.map sched.view)

section Exclusions

variable {v w : Valuation} {g : GroundAction} {gs : List GroundAction} {states : List Valuation}

theorem Schedule.Breaks.excludes (h : sched.Breaks prev v) (gs : List GroundAction) :
    sched.Excludes prev v gs := by
  intro states last hrun
  obtain ⟨later, rfl⟩ := hrun.head
  obtain ⟨c, hc, hnever⟩ := h
  refine ⟨c, hc, fun hholds => hnever (later.map sched.view) ?_⟩
  simpa using hholds

theorem Schedule.Excludes.from_same (h : sched.Excludes prev v gs) (hv : v.Same w) :
    sched.Excludes prev w gs := by
  intro states last hrun
  obtain ⟨states', last', hrun', hstates⟩ := hrun.from_same hv.symm
  obtain ⟨c, hc, hbroken⟩ := h states' last' hrun'
  exact ⟨c, hc, fun hholds => hbroken ((c.holdsOver_congr _ hstates).mp hholds)⟩

theorem Schedule.excludes_cons
    (h : ∀ w, g.Leads sched.sim.defaults v w → sched.Excludes (prev ++ [sched.view v]) w gs) :
    sched.Excludes prev v (g :: gs) := by
  intro states last hrun
  cases hrun with
  | @cons _ w _ _ _ states leads hrun =>
      obtain ⟨c, hc, hbroken⟩ := h w leads states last hrun
      refine ⟨c, hc, fun hholds => hbroken ?_⟩
      rwa [List.map_cons, ← List.singleton_append, ← List.append_assoc] at hholds

theorem Schedule.excludes_of_run (h : ClassicalRun sched.sim.defaults v gs states w)
    (hbroken : ¬ ∀ c ∈ sched.sim.problem.trajectory,
      c.HoldsOver (prev ++ states.map sched.view)) : sched.Excludes prev v gs := by
  intro states' last hrun
  obtain ⟨c, hc, hnot⟩ : ∃ c ∈ sched.sim.problem.trajectory,
      ¬ c.HoldsOver (prev ++ states.map sched.view) := by simpa using hbroken
  have hstates := (h.unique (.refl _) hrun).1
  exact ⟨c, hc, fun hholds => hnot ((c.holdsOver_congr prev hstates).mpr hholds)⟩

end Exclusions

theorem visit_saw {sim : Simulator} {cs : List TrajectoryConstraint} {time : Rat}
    (h : Validator.visit sim time p = .ok (q, violation)) (hsaw : Monitor.Saw prev cs p.monitor) :
    q.state = p.state ∧
      ((violation = none ∧
        Monitor.Saw (prev ++ [sim.situation p.state.valuation .empty]) cs q.monitor) ∨
      (∃ w, violation = some w) ∧ ∃ c ∈ cs, ∀ later,
        ¬ c.HoldsOver (prev ++ [sim.situation p.state.valuation .empty] ++ later)) := by
  simp only [Validator.visit, except_bind_ok, except_pure_ok, Prod.mk.injEq] at h
  obtain ⟨⟨m, clash⟩, hvisit, rfl, rfl⟩ := h
  exact ⟨rfl, Monitor.saw_visit hsaw hvisit⟩

theorem visit_same {sim : Simulator} {cs : List TrajectoryConstraint} {time : Rat}
    (h : Validator.visit sim time p = .ok (q, violation))
    (hsaw : Monitor.Saw (prev ++ [sim.situation p.state.valuation .empty]) cs p.monitor) :
    q = p ∧ violation = none := by
  simp only [Validator.visit, except_bind_ok, except_pure_ok, Prod.mk.injEq] at h
  obtain ⟨⟨m, clash⟩, hvisit, rfl, rfl⟩ := h
  obtain ⟨rfl, rfl⟩ := Monitor.visit_again hsaw hvisit
  exact ⟨rfl, rfl⟩

theorem apart_of_later {epsilon : Rat} {a b : Applied × Rat} (h : a.2 + epsilon ≤ b.2) :
    Apart epsilon b a := by
  intro _ _ _ _
  exact (le_sub_iff_add_le'.mpr h).trans (le_abs_self _)

namespace Underway

theorem start (h : Underway sched done (x :: rest) prev p) (hs : sched.Regular)
    (hid : x.event.activity.id ≠ 0) (ho : x.event = o.start)
    (hlater : ∀ a ∈ done, a.2 + sched.sim.epsilon ≤ x.time)
    (hgives : (Validator.applyEvents sched.sim (x :: xs) p).Gives (p', violation)) :
    (∃ q, o.ground.Leads sched.sim.defaults p.state.valuation q.state.valuation ∧
      Underway sched ((q.state.last, x.time) :: done) rest
        (prev ++ [sched.view p.state.valuation]) q ∧
      (Validator.applyEvents sched.sim xs q).Gives (p', violation)) ∨
    (∃ w, violation = some w) ∧ ∀ w, o.ground.Leads sched.sim.defaults p.state.valuation w →
      sched.Breaks (prev ++ [sched.view p.state.valuation]) w := by
  have hapart (a : Applied) : ((a, x.time) :: done).Pairwise (Apart sched.sim.epsilon) :=
    List.pairwise_cons.mpr ⟨fun b hb => apart_of_later (hlater b hb), h.apart⟩
  obtain ⟨r, hr, hgives⟩ := gives_bind hgives
  cases r with
  | error r =>
      obtain ⟨rfl, rfl⟩ := Prod.mk.inj (gives_pure hgives)
      obtain ⟨cause, hrefuses⟩ :=
        h.poised.refused hs (refused_of_gives hr) fun _ a _ => hapart a
      exact .inr ⟨⟨_, rfl⟩, fun w hw => absurd hw (h.poised.not_leads hid ho hrefuses w)⟩
  | ok s =>
      have hstep := step_of_gives hr
      have hpoised := (h.poised.step hid hstep).1
      obtain ⟨v, a, hexamined, -, hs'⟩ := hstep.examined
      obtain ⟨fp, hperforms, hv, -⟩ := (h.poised.examine_started hid ho).mp hexamined
      have hleads : o.ground.Leads sched.sim.defaults p.state.valuation s.valuation := by
        have hvaluation : s.valuation = p.state.valuation.update fp.updates := by
          rw [hs', ← hv]
          rfl
        exact hvaluation ▸ hperforms.leads o.instantaneous
      obtain ⟨-, -, hgives⟩ := gives_bind hgives
      obtain ⟨⟨q, clash⟩, hvisit, hgives⟩ := gives_bind hgives
      obtain ⟨hq, ⟨rfl, hsaw⟩ | ⟨⟨w, rfl⟩, hbroken⟩⟩ := visit_saw (gives_ofExcept hvisit) h.saw
      · have hq : q.state = s := hq
        exact .inl ⟨q, hq ▸ hleads, ⟨hq ▸ hpoised, hq ▸ hapart _, hq ▸ hsaw⟩, hgives⟩
      · obtain ⟨-, rfl⟩ := Prod.mk.inj (gives_pure hgives)
        exact .inr ⟨⟨w, rfl⟩, fun w' hw' => Schedule.Breaks.from_same hbroken (hleads.unique hw')⟩

theorem finish (h : Underway sched done (x :: rest) prev p) (hs : sched.Regular)
    (hid : x.event.activity.id ≠ 0) (ho : x.event = o.finish)
    (hgives : (Validator.applyEvents sched.sim (x :: xs) p).Gives (p', violation)) :
    ∃ q a, q.state.valuation = p.state.valuation ∧
      Underway sched ((a, x.time) :: done) rest prev q ∧
      (Validator.applyEvents sched.sim xs q).Gives (p', violation) := by
  have hapart := apart_cons_idle h.apart x.event x.time
  have hstep := h.poised.accepts hs (h.poised.examine_finished hid ho) hapart
  obtain ⟨r, hr, hgives⟩ := gives_bind hgives
  cases r with
  | error r => exact absurd (hstep.symm.trans (refused_of_gives hr)) (by simp)
  | ok s =>
      obtain rfl := hstep.unique (step_of_gives hr)
      obtain ⟨-, -, hgives⟩ := gives_bind hgives
      obtain ⟨⟨q, clash⟩, hvisit, hgives⟩ := gives_bind hgives
      obtain ⟨rfl, rfl⟩ := visit_same (gives_ofExcept hvisit) h.saw
      refine ⟨_, ⟨x.event, [], []⟩, ?_, ?_, hgives⟩
      · rfl
      · exact ⟨(h.poised.step hid hstep).1, hapart, h.saw⟩

theorem instants (h : Underway sched done (os.flatMap Occurrence.events ++ rest) prev p)
    (hs : sched.Regular) (hids : ∀ o ∈ os, o.id ≠ 0)
    (hspaced : os.Pairwise fun a b => a.time + sched.sim.epsilon ≤ b.time)
    (hlater : ∀ a ∈ done, ∀ o ∈ os, a.2 + sched.sim.epsilon ≤ o.time)
    (hgives : (Validator.applyInstants sched.sim (os.map Occurrence.events) p).Gives
      (p', violation)) :
    (violation = none ∧ ∃ states done' prev',
      ClassicalRun sched.sim.defaults p.state.valuation (os.map Occurrence.ground) states
        p'.state.valuation ∧ Underway sched done' rest prev' p' ∧
      prev' ++ [sched.view p'.state.valuation] = prev ++ states.map sched.view) ∨
    (∃ w, violation = some w) ∧
      sched.Excludes prev p.state.valuation (os.map Occurrence.ground) := by
  induction os generalizing done prev p with
  | nil =>
      obtain ⟨rfl, rfl⟩ := Prod.mk.inj (gives_pure hgives)
      exact .inl ⟨rfl, _, done, prev, .nil _, h, rfl⟩
  | cons o os ih =>
      obtain ⟨hid, hids⟩ := List.forall_mem_cons.mp hids
      obtain ⟨hfirst, hspaced⟩ := List.pairwise_cons.mp hspaced
      have hdone : ∀ a ∈ done, a.2 + sched.sim.epsilon ≤ o.time := fun a ha =>
        hlater a ha o List.mem_cons_self
      obtain ⟨clash, hclash, hgives⟩ := gives_bind hgives
      obtain rfl := simultaneousWrites_none (gives_ofExcept hclash) (fun _ _ => True) (by simp)
        (List.pairwise_pair.mpr fun _ _ _ => rfl) (by simp)
      obtain ⟨⟨q, violation'⟩, hq, hgives⟩ := gives_bind hgives
      rcases h.start hs hid rfl hdone hq with ⟨q₁, hleads, h₁, hq⟩ | ⟨⟨w, rfl⟩, hbroken⟩
      · obtain ⟨q₂, a, hsame, h₂, hq⟩ := h₁.finish hs hid rfl hq
        obtain ⟨rfl, rfl⟩ := Prod.mk.inj (gives_pure hq)
        rw [← hsame] at hleads
        have hlater' : ∀ b ∈ (a, o.time) :: (q₁.state.last, o.time) :: done, ∀ o' ∈ os,
            b.2 + sched.sim.epsilon ≤ o'.time :=
          List.forall_mem_cons.mpr ⟨hfirst, List.forall_mem_cons.mpr ⟨hfirst, fun b hb o' ho' =>
            hlater b hb o' (List.mem_cons_of_mem _ ho')⟩⟩
        rcases ih h₂ hids hspaced hlater' hgives with
          ⟨rfl, states, done', prev', hrun, h', hprev⟩ | ⟨hsome, hnone⟩
        · refine .inl ⟨rfl, p.state.valuation :: states, done', prev', .cons hleads hrun, h', ?_⟩
          rw [hprev, List.append_assoc]
          rfl
        · exact .inr ⟨hsome, Schedule.excludes_cons fun w hw =>
            Schedule.Excludes.from_same hnone (hleads.unique hw)⟩
      · obtain ⟨-, rfl⟩ := Prod.mk.inj (gives_pure hgives)
        exact .inr ⟨⟨w, rfl⟩, Schedule.excludes_cons fun w hw => (hbroken w hw).excludes _⟩

end Underway

theorem applyEnd_classical
    (h : Underway sched done [⟨sched.sim.planEnd, sched.makespan, .goal⟩] prev p)
    (hs : sched.Regular)
    (hgives : (Validator.applyEnd sched.sim sched.makespan p).Gives (p', violation)) :
    p'.state.valuation = p.state.valuation ∧ (violation = none ↔
      ∀ c ∈ sched.sim.problem.trajectory,
        c.HoldsOver (prev ++ [sched.view p.state.valuation])) := by
  rw [← Monitor.finish_eq_none h.saw]
  unfold Validator.applyEnd at hgives
  cases hfinish : p.monitor.finish with
  | some w =>
      rw [hfinish] at hgives
      obtain ⟨rfl, rfl⟩ := Prod.mk.inj (gives_pure hgives)
      exact ⟨rfl, by simp⟩
  | none =>
      rw [hfinish] at hgives
      obtain ⟨q, hend, -, hactivity⟩ := hs.timely.finish
      have hstep := h.poised.accepts hs (h.poised.examine_end rfl hend hactivity)
        (apart_cons_idle h.apart _ _)
      obtain ⟨r, hr, hgives⟩ := gives_bind hgives
      cases r with
      | error r => exact absurd (hstep.symm.trans (refused_of_gives hr)) (by simp)
      | ok s =>
          obtain rfl := hstep.unique (step_of_gives hr)
          obtain ⟨rfl, rfl⟩ := Prod.mk.inj (gives_pure hgives)
          exact ⟨rfl, by simp⟩

theorem execute_classical (hos : sched.Consists os) (hs : sched.Regular)
    (hrun : Simulator.Run sched.sim [] sched.sim.initialState)
    (hevents : sched.events = os.flatMap Occurrence.events)
    (htimes : os.Pairwise fun a b => a.time < b.time)
    (hspaced : os.Pairwise fun a b => a.time + sched.sim.epsilon ≤ b.time)
    (hgives : (Validator.execute sched.sim sched).Gives (p, violation)) :
    (violation = none ∧ ∃ states,
      ClassicalRun sched.sim.defaults (.ofMap sched.sim.problem.initial)
        (os.map Occurrence.ground) states p.state.valuation ∧
      ∀ c ∈ sched.sim.problem.trajectory, c.HoldsOver (states.map sched.view)) ∨
    (∃ w, violation = some w) ∧
      sched.Excludes [] (.ofMap sched.sim.problem.initial) (os.map Occurrence.ground) := by
  obtain ⟨⟨p₀, clash⟩, hvisit, hgives⟩ := gives_bind hgives
  obtain ⟨hstate, ⟨rfl, hsaw⟩ | ⟨⟨w, rfl⟩, hbroken⟩⟩ :=
    visit_saw (gives_ofExcept hvisit) (Monitor.saw_start sched.sim.problem.trajectory)
  · have hstate : p₀.state = sched.sim.initialState := hstate
    have hpoised := hos.poised hs.timely hrun
    rw [Schedule.whole, hevents] at hpoised
    have hstart : Underway sched [] (os.flatMap Occurrence.events ++ _) [] p₀ :=
      ⟨hstate ▸ hpoised, .nil, hstate ▸ hsaw⟩
    obtain ⟨⟨q, clash⟩, hq, hgives⟩ := gives_bind hgives
    rw [hevents, instants_flatMap htimes] at hq
    have hinitial : p₀.state.valuation = .ofMap sched.sim.problem.initial := by rw [hstate]; rfl
    rcases hstart.instants hs (fun o ho => (hos.each o ho).1) hspaced (by simp) hq with
      ⟨rfl, states, done, prev, hstates, hend, hprev⟩ | ⟨⟨w, rfl⟩, hnone⟩
    · obtain ⟨hsame, hviolation⟩ := applyEnd_classical hend hs hgives
      rw [hprev, List.nil_append] at hviolation
      rw [hinitial, ← hsame] at hstates
      cases violation with
      | none => exact .inl ⟨rfl, states, hstates, hviolation.mp rfl⟩
      | some w =>
          exact .inr ⟨⟨w, rfl⟩, Schedule.excludes_of_run hstates fun hall => by
            simpa using hviolation.mpr hall⟩
    · obtain ⟨-, rfl⟩ := Prod.mk.inj (gives_pure hgives)
      exact .inr ⟨⟨w, rfl⟩, hinitial ▸ hnone⟩
  · obtain ⟨-, rfl⟩ := Prod.mk.inj (gives_pure hgives)
    exact .inr ⟨⟨w, rfl⟩, Schedule.Breaks.excludes hbroken _⟩

end Executions

theorem unsatisfiedIn_nil {here : Situation} {gs rest : List Expr}
    (h : Simulator.unsatisfiedIn here gs = .ok rest) :
    rest = [] ↔ ∀ g ∈ gs, g.holds here = .ok true := by
  induction gs generalizing rest with
  | nil => simp [← Except.ok.inj h]
  | cons g gs ih =>
      simp only [Simulator.unsatisfiedIn, except_bind_ok, except_pure_ok] at h
      obtain ⟨b, hb, others, hothers, rfl⟩ := h
      rw [List.forall_mem_cons, ← ih hothers, hb]
      cases b <;> simp

namespace Validator

variable {v : Validator} {problem : Problem} {steps : List ActionInstance} {r : Report}

theorem execution_of_sequence (hr : (v.validate problem (.sequence steps)).outcome.1 = .ok r)
    (hepsilon : v.epsilon ≤ 1) (hgoals : problem.timedGoals = [])
    (heffects : problem.timedEffects = [])
    (hplain : ∀ a, .instantaneous a ∈ problem.actions → a.simulated = none) :
    ∃ sched p violation, sched.sim.problem = problem ∧ sched.sim.defaults = problem.defaults ∧
      report sched.sim sched (spaced steps) p violation = .ok r ∧
      ((violation = none ∧ ∃ states,
        ClassicalRun problem.defaults (.ofMap problem.initial) (steps.map ActionInstance.ground)
          states p.state.valuation ∧
        ∀ c ∈ problem.trajectory, c.HoldsOver (states.map sched.view)) ∨
      (∃ w, violation = some w) ∧
        sched.Excludes [] (.ofMap problem.initial) (steps.map ActionInstance.ground)) := by
  obtain ⟨hinst, hr⟩ := validate_sequence_ok.mp hr
  obtain ⟨sim, sched, p, violation, hsim, hsched, hp, hreport⟩ := execution_of_validate hr
  have hinst : ∀ s ∈ spaced steps, s.step.action.isDurative = false := by
    intro s hs
    obtain ⟨x, hx, rfl⟩ := List.mem_map.mp hs
    exact hinst x.1 (List.fst_mem_of_mem_zipIdx hx)
  have hl := laid_ofSteps hsim hsched
  obtain ⟨os, timed, hos, hevents, hsteps, htimed⟩ :=
    consists_ofSteps hsim hsched hgoals hplain hinst
  obtain rfl := htimed heffects
  obtain ⟨hapart, hnonneg, hgrounds⟩ := occurrences_of_spaced hsteps
  have htimes : os.Pairwise fun a b => a.time < b.time :=
    hapart.imp fun {a b} h => (lt_add_one a.time).trans_le h
  rw [List.append_nil] at hos hevents
  rw [Scheduled.sort, List.mergeSort_of_pairwise (sorted_flatMap htimes)] at hevents
  have hs : sched.Regular := by
    refine ⟨timely_ofSteps hsim hsched (by simp [hgoals]), fun x hx => ?_, hos.not_crosses⟩
    obtain ⟨o, ho, rfl | rfl⟩ := hos.mem_events hx
    · exact hnonneg o ho
    · exact hnonneg o ho
  have hspaced : os.Pairwise fun a b => a.time + sched.sim.epsilon ≤ b.time := by
    rw [hl.rules.epsilon, Simulator.epsilon_new hsim]
    exact hapart.imp fun {a b} h => (add_le_add_right hepsilon a.time).trans h
  have hproblem : sched.sim.problem = problem := hl.rules.problem.trans (problem_new hsim).1
  have hdefaults : sched.sim.defaults = problem.defaults :=
    hl.rules.defaults.trans (problem_new hsim).2
  have hexecution := execute_classical hos hs hl.run hevents htimes hspaced hp
  rw [hgrounds, hproblem, hdefaults] at hexecution
  exact ⟨sched, p, violation, hproblem, hdefaults, hreport, hexecution⟩

theorem sequence_classical (hr : (v.validate problem (.sequence steps)).outcome.1 = .ok r)
    (hepsilon : v.epsilon ≤ 1) (hgoals : problem.timedGoals = [])
    (heffects : problem.timedEffects = [])
    (hplain : ∀ a, .instantaneous a ∈ problem.actions → a.simulated = none) :
    r.isValid = true ↔ ∃ states last,
      ClassicalRun problem.defaults (.ofMap problem.initial) (steps.map ActionInstance.ground)
        states last ∧
      (∀ c ∈ problem.trajectory,
        c.HoldsOver (states.map fun v => ⟨problem.defaults, v, .empty⟩)) ∧
      ∀ g ∈ problem.goals, g.holds ⟨problem.defaults, last, .empty⟩ = .ok true := by
  obtain ⟨sched, p, violation, hproblem, hdefaults, hreport, hexecution⟩ :=
    execution_of_sequence hr hepsilon hgoals heffects hplain
  have hview : sched.view = fun v => ⟨problem.defaults, v, .empty⟩ := by
    funext v
    rw [Schedule.view, hdefaults]
  rw [hview] at hexecution
  obtain ⟨goals, hunsatisfied, -⟩ := except_bind_ok.mp hreport
  have hin : Simulator.unsatisfiedIn ⟨problem.defaults, p.state.valuation, .empty⟩ problem.goals =
      .ok goals := by
    rwa [Simulator.unsatisfiedGoals, Simulator.situation, hproblem, hdefaults] at hunsatisfied
  have hvalid : r.isValid = true ↔ violation = none ∧ goals = [] := by
    rw [valid_of_report hreport, hunsatisfied, Except.ok.injEq]
  rw [hvalid, unsatisfiedIn_nil hin]
  constructor
  · rintro ⟨rfl, hlast⟩
    obtain ⟨-, states, hstates, hholds⟩ | ⟨⟨w, hw⟩, -⟩ := hexecution
    · exact ⟨states, p.state.valuation, hstates, hholds, hlast⟩
    · exact nomatch hw
  · rintro ⟨states, last, hstates, hholds, hlast⟩
    obtain ⟨rfl, states', hstates', -⟩ | ⟨-, hnone⟩ := hexecution
    · have hsame : Situation.Same ⟨problem.defaults, last, .empty⟩
          ⟨problem.defaults, p.state.valuation, .empty⟩ :=
        ⟨rfl, rfl, (hstates.unique (.refl _) hstates').2⟩
      exact ⟨rfl, fun g hg => (Expr.holds_congr hsame g).trans (hlast g hg)⟩
    · rw [← hdefaults] at hstates
      obtain ⟨c, hc, hnot⟩ := hnone states last hstates
      rw [hproblem] at hc
      rw [hview] at hnot
      exact absurd (hholds c hc) hnot

end Validator

namespace Door

def visit : List ActionInstance := [opening, entering]

theorem ofSteps_visit : Schedule.ofSteps (sim 1) (Validator.spaced visit) =
    .ok (sched 1 (Validator.spaced visit)) :=
  ofSteps_of_sorted (by with_unfolding_all rfl) rfl rfl rfl (by decide +kernel)

theorem valid_visit : ∃ r,
    ((validator 1).validate problem (.sequence visit)).outcome.1 = .ok r ∧ r.isValid = true := by
  obtain ⟨r, hr, hvalid⟩ := exists_report (P := Report.isValid) ofSteps_visit (by decide +kernel)
  exact ⟨r, Validator.validate_sequence_ok.mpr ⟨by simp [visit, instantaneous], hr⟩, hvalid⟩

theorem classical_visit : ∃ r,
    ((validator 1).validate problem (.sequence visit)).outcome.1 = .ok r ∧ r.isValid = true ∧
    ∃ states last,
      ClassicalRun problem.defaults (.ofMap problem.initial) (visit.map ActionInstance.ground)
        states last ∧
      ∀ g ∈ problem.goals, g.holds ⟨problem.defaults, last, .empty⟩ = .ok true := by
  obtain ⟨r, hr, hvalid⟩ := valid_visit
  obtain ⟨states, last, hrun, -, hgoals⟩ :=
    (Validator.sequence_classical hr (by decide +kernel) rfl rfl plain).mp hvalid
  exact ⟨r, hr, hvalid, states, last, hrun, hgoals⟩

end Door

end TemporalPlanning
