import TemporalPlanning.Proofs.ScheduledTimes

namespace TemporalPlanning

section Times

variable {sim : Simulator} {sched : Schedule} {done : List (Applied × Rat)} {x : Scheduled}
  {rest : List Scheduled} {τ : EventRef → Rat} {epsilon : Rat}

/-- Far enough from each other, unless they do not interfere or are of one instant or the plan. -/
def Apart (epsilon : Rat) (a b : Applied × Rat) : Prop :=
  a.1.event.activity.id ≠ 0 → b.1.event.activity.id ≠ 0 →
  ¬ (a.1.event.activity.id = b.1.event.activity.id ∧ a.1.event.offset = b.1.event.offset) →
  a.1.Interferes b.1 → epsilon ≤ |a.2 - b.2|

theorem Apart.symm {a b : Applied × Rat} (h : Apart epsilon a b) : Apart epsilon b a := by
  intro hb ha hother hinterferes
  rw [abs_sub_comm]
  exact h ha hb (fun hsame => hother ⟨hsame.1.symm, hsame.2.symm⟩) hinterferes.symm

theorem apart_of_idle {time : Rat} {e : Event} (b : Applied × Rat) :
    Apart epsilon (⟨e, [], []⟩, time) b := by
  rintro _ _ _ ⟨key, h⟩
  simp at h

theorem apart_cons_idle (h : done.Pairwise (Apart epsilon)) (e : Event) (time : Rat) :
    ((⟨e, [], []⟩, time) :: done).Pairwise (Apart epsilon) :=
  List.pairwise_cons.mpr ⟨fun b _ => apart_of_idle b, h⟩

def Schedule.Crosses (sched : Schedule) : Prop :=
  ∃ p q i, .startCondition p i ∈ sched.sim.goalEvents ∧ .endCondition q i ∈ sched.sim.goalEvents ∧
    (sched.goal (.endCondition q i)).time < (sched.goal (.startCondition p i)).time

theorem applied_pinned (sim : Simulator) (done : List (Applied × Rat)) :
    sim.applied (pinned done) = done.map Prod.fst ++ [⟨sim.planStart, [], []⟩] := by
  simp [Simulator.applied, pinned, Function.comp_def]

theorem apart_of_allows (hτ : sim.Allows (pinned done) τ) :
    (∀ a ∈ done, 0 ≤ a.2) ∧ done.Pairwise (Apart sim.epsilon) := by
  have hpinned : ∀ a ∈ done, τ a.1.event.ref - τ sim.planStart.ref = a.2 := fun a ha =>
    hτ.pinned (a.1, some a.2) (List.mem_map_of_mem ha) a.2 rfl
  have horder := hτ.order
  have hseparated := hτ.separated
  rw [applied_pinned, List.pairwise_append] at horder hseparated
  refine ⟨fun a ha => ?_, ?_⟩
  · have hstart : τ sim.planStart.ref ≤ τ a.1.event.ref :=
      horder.2.2 a.1 (List.mem_map_of_mem ha) _ (List.mem_singleton_self _)
    rw [← hpinned a ha]
    exact sub_nonneg.mpr hstart
  · refine (List.pairwise_map.mp hseparated.1).imp_of_mem fun {a b} ha hb h => ?_
    intro haid hbid hother hinterferes
    have hinstant : Simulator.sameInstant b.1.event a.1.event = false := by
      rw [Bool.eq_false_iff]
      intro hsame
      simp only [Simulator.sameInstant, Bool.and_eq_true, decide_eq_true_eq] at hsame
      exact hother ⟨hsame.1.1.symm, hsame.2.symm⟩
    have hfar := h _ (separation_of_interferes hinstant hbid haid hinterferes)
    rw [← hpinned a ha, ← hpinned b hb, sub_sub_sub_cancel_right]
    exact hfar.trans (le_abs_self _)

namespace Schedule.Follows

theorem ordered (h : sched.Follows done rest) (ht : Timely sched)
    (hnonneg : ∀ x ∈ sched.events, 0 ≤ x.time) :
    (sched.sim.applied (pinned done)).Pairwise fun later earlier =>
      sched.timeOf earlier.event.ref ≤ sched.timeOf later.event.ref := by
  rw [applied_pinned, List.pairwise_append, List.pairwise_map]
  refine ⟨(h.descending ht).imp_of_mem fun {a b} ha hb hab => ?_, List.pairwise_singleton _ _,
    fun _ hmem b hb => ?_⟩
  · rw [h.timeOf_eq ht ha, h.timeOf_eq ht hb]
    exact hab
  · obtain ⟨a, ha, rfl⟩ := List.mem_map.mp hmem
    rw [List.mem_singleton.mp hb, ht.timeOf_start, h.timeOf_eq ht ha]
    exact h.nonneg ht hnonneg a ha

theorem separated (h : sched.Follows done rest) (ht : Timely sched)
    (hnonneg : ∀ x ∈ sched.events, 0 ≤ x.time)
    (hapart : done.Pairwise (Apart sched.sim.epsilon)) :
    (sched.sim.applied (pinned done)).Pairwise fun later earlier =>
      ∀ d ∈ Simulator.separation sched.sim.epsilon later earlier,
        d ≤ sched.timeOf later.event.ref - sched.timeOf earlier.event.ref := by
  rw [applied_pinned, List.pairwise_append, List.pairwise_map]
  refine ⟨((h.descending ht).and hapart).imp_of_mem fun {a b} ha hb hab d hd => ?_,
    List.pairwise_singleton _ _, fun _ hmem b hb d hd => ?_⟩
  · obtain ⟨hle, hfar⟩ := hab
    rw [h.timeOf_eq ht ha, h.timeOf_eq ht hb]
    rcases separation_some hd with rfl | ⟨rfl, hinstant, hbid, haid, hinterferes⟩
    · exact sub_nonneg.mpr hle
    · rw [← abs_of_nonneg (sub_nonneg.mpr hle)]
      refine hfar haid hbid (fun hsame => ?_) hinterferes
      simp [Simulator.sameInstant, hsame.1, hsame.2, h.fromStart ht ha haid,
        h.fromStart ht hb hbid] at hinstant
  · obtain ⟨a, ha, rfl⟩ := List.mem_map.mp hmem
    obtain rfl := List.mem_singleton.mp hb
    rw [ht.timeOf_start, h.timeOf_eq ht ha, sub_zero]
    rcases separation_some hd with rfl | ⟨-, -, hplan, -⟩
    · exact h.nonneg ht hnonneg a ha
    · exact absurd ht.start.2 hplan

theorem allows (h : sched.Follows done rest) (ht : Timely sched)
    (hnonneg : ∀ x ∈ sched.events, 0 ≤ x.time) (hgoals : ¬ sched.Crosses)
    (hapart : done.Pairwise (Apart sched.sim.epsilon)) :
    sched.sim.Allows (pinned done) sched.timeOf where
  ends := by
    rw [ht.timeOf_start, ht.timeOf_finish]
    exact ht.makespan_nonneg
  goals e he := by
    rw [ht.timeOf_start, ht.timeOf_finish, ht.timeOf_goal he]
    cases hfrom : e.fromEnd <;> simp [Schedule.goal, hfrom]
  goalOrder p q i hp hq := by
    rw [ht.timeOf_goal hp, ht.timeOf_goal hq]
    exact not_lt.mp fun hlt => hgoals ⟨p, q, i, hp, hq, hlt⟩
  committed := by
    intro _ hx c hc
    obtain ⟨a, ha, rfl⟩ := List.mem_map.mp hx
    obtain ⟨x, hx, hevent, htime⟩ := h.mem ha
    obtain ⟨y, hy, rfl, hat⟩ := ht.committed_whole x hx c (hevent ▸ hc)
    rw [ht.timeOf_ref (List.mem_cons_of_mem _ hy), h.timeOf_eq ht ha, hat, htime]
    exact add_sub_cancel_left _ _
  order := h.ordered ht hnonneg
  separated := h.separated ht hnonneg hapart
  pinned := by
    intro _ hx time htime
    obtain ⟨a, ha, rfl⟩ := List.mem_map.mp hx
    rw [ht.timeOf_start, h.timeOf_eq ht ha, sub_zero]
    exact Option.some.inj htime

end Schedule.Follows

namespace Validator

variable {v : Validator} {problem : Problem} {steps : List TimedStep} {r : Report} {s : State}

theorem network_check_of_whole {s' : State} (h : Replays sim s sched.whole s') :
    s'.network.check = true := by
  obtain ⟨t, -, hlast⟩ := Replays.append_iff.mp h
  obtain ⟨t', hstep, hnil⟩ := Replays.cons_iff.mp hlast
  cases hnil
  exact hstep.consistent

theorem clash_of_refused (h : sched.Follows done (x :: rest)) (ht : Timely sched)
    (hrun : Simulator.Run sched.sim (pinned done) s) {refusal : Refusal}
    (hx : Refused sched.sim x s refusal) (hkind : refusal.kind = .temporalInconsistency) :
    ∃ w a, (sched.sim.examine refusal.event s).Gives (w, a) ∧
      ((∃ y ∈ sched.events, y.time < 0) ∨
        ¬ ((a, x.time) :: done).Pairwise (Apart sched.sim.epsilon) ∨ sched.Crosses) := by
  obtain ⟨hevent, w, a, hgives⟩ := Simulator.examined_of_inconsistent hx hkind
  refine ⟨w, a, hevent ▸ hgives, ?_⟩
  by_contra hnot
  obtain ⟨hnonneg, hapart, hgoals⟩ : (∀ y ∈ sched.events, 0 ≤ y.time) ∧
      ((a, x.time) :: done).Pairwise (Apart sched.sim.epsilon) ∧ ¬ sched.Crosses := by
    simpa using hnot
  have hallows := (h.next (Simulator.event_of_examine hgives)).allows ht hnonneg hgoals hapart
  have haccepted := (Simulator.tryApply_of_examine hgives
    (Simulator.represents_networkAfter hrun.history_eq hrun.represents a (some x.time))).1
    ⟨_, hallows⟩
  rw [Refused, haccepted] at hx
  simp at hx

theorem times_checked (hr : (v.validate problem (.timed steps)).outcome.1 = .ok r)
    (hdelays : ∀ g ∈ problem.timedGoals,
      0 ≤ g.interval.lower.delay ∧ 0 ≤ g.interval.upper.delay) :
    ∃ sched done rest s, v.schedule problem steps = .ok sched ∧ sched.Follows done rest ∧
      Simulator.Run sched.sim (pinned done) s ∧
      r.trace = done.reverse.map (fun a => (a.2, a.1.event.label)) ∧
      (r.isValid = true → rest = [] ∧ (∀ a ∈ done, 0 ≤ a.2) ∧ done.Pairwise (Apart v.epsilon)) ∧
      ∀ time refusal, r.violation.bind Violation.refusal? = some (time, refusal) →
        refusal.kind = .temporalInconsistency →
        ∃ w a, (sched.sim.examine refusal.event s).Gives (w, a) ∧
          ((∃ x ∈ sched.events, x.time < 0) ∨
            ¬ ((a, time) :: done).Pairwise (Apart v.epsilon) ∨ sched.Crosses) := by
  obtain ⟨sim, sched, hsim, hsched, p, violation, hp, hreport⟩ := halts_of_validate hr
  obtain ⟨htrace, hvalid, hviolation⟩ := violation_of_report hreport
  have hl := laid_ofSteps hsim hsched
  have ht := timely_ofSteps hsim hsched hdelays
  have hepsilon : sched.sim.epsilon = v.epsilon :=
    hl.rules.epsilon.trans (Simulator.epsilon_new hsim)
  obtain ⟨before, after, hsplit, hreplay, hentries, hwhole, hrefused⟩ := hp
  obtain ⟨done, hrun, hdone⟩ := hreplay.logged hl.run
  rw [List.append_nil] at hrun
  have hfollows : sched.Follows done after := ⟨before, hsplit, hdone⟩
  refine ⟨sched, done, after, p.state, except_bind_ok.mpr ⟨sim, hsim, hsched⟩, hfollows, hrun,
    ?_, fun h => ?_, fun time refusal h hkind => ?_⟩
  · have hall := congrArg (fun l => (l.reverse.map fun x : Event × Rat => (x.2, x.1.label))) hdone
    have hentry : Scheduled.entry = fun x => (x.time, x.event.label) := rfl
    rw [htrace, hentries, hentry]
    simpa [Function.comp_def] using hall.symm
  · have hnil := hwhole (hvalid h)
    rw [hnil, List.append_nil] at hsplit
    obtain ⟨τ, hτ⟩ := hrun.represents.check_iff.mp (network_check_of_whole (hsplit ▸ hreplay))
    exact ⟨hnil, hepsilon ▸ apart_of_allows hτ⟩
  · rw [hviolation] at h
    obtain ⟨x, rest, rfl, rfl, hx⟩ := hrefused time refusal h
    exact hepsilon ▸ clash_of_refused hfollows ht hrun hx hkind

end Validator

end Times

namespace Door

def opened : Expr := .fluent "open" []

def openUp : Action := .instantaneous ⟨"open", [], [], [.setFlag "open" true], none⟩

def knock : Action := .instantaneous ⟨"knock", [], [], [.setFlag "heard" true], none⟩

def enter : Action := .instantaneous ⟨"enter", [], [opened], [.setFlag "inside" true], none⟩

def problem : Problem :=
  { Problem.ofActions "door" (["open", "heard", "inside"].map (.flag · false))
      [openUp, knock, enter] with
    goals := [opened] }

def sim (epsilon : Rat) : Simulator := .unused 0 problem epsilon none Validator.component []

def validator (epsilon : Rat) : Validator := ⟨epsilon, none, none, false⟩

theorem plain : ∀ a, .instantaneous a ∈ problem.actions → a.simulated = none := by
  simp [problem, Problem.ofActions, openUp, knock, enter]

def opening : ActionInstance := ⟨0, .ofAction openUp⟩

def knocking : ActionInstance := ⟨1, .ofAction knock⟩

def entering : ActionInstance := ⟨2, .ofAction enter⟩

theorem instantaneous {s : ActionInstance} (hs : s ∈ [opening, knocking, entering]) :
    s.action.isDurative = false := by
  simp only [List.mem_cons, List.not_mem_nil, or_false] at hs
  rcases hs with rfl | rfl | rfl <;> rfl

def haste : List TimedStep := [⟨0, opening, none⟩, ⟨1 / 100, entering, none⟩]

def sched (epsilon : Rat) (steps : List TimedStep) : Schedule :=
  .ofStepEvents (stepEvents (sim epsilon) 0 steps).1 (stepped (sim epsilon) steps)

theorem ofSteps_haste : Schedule.ofSteps (sim (1 / 10)) haste = .ok (sched (1 / 10) haste) :=
  ofSteps_of_sorted (by with_unfolding_all rfl) rfl rfl rfl (by decide +kernel)

theorem exists_report {epsilon : Rat} {steps : List TimedStep} {P : Report → Bool}
    (hsched : Schedule.ofSteps (sim epsilon) steps = .ok (sched epsilon steps))
    (h : ((Validator.execute (sched epsilon steps).sim (sched epsilon steps)).result >>= fun x =>
      Validator.report (sched epsilon steps).sim (sched epsilon steps) steps x.1 x.2).toOption.any
        P = true) :
    ∃ r, ((validator epsilon).validate problem (.timed steps)).outcome.1 = .ok r ∧ P r = true :=
  Validator.exists_report_of rfl (Simulator.new_unused rfl) hsched h

theorem refused_haste : ∃ r time refusal,
    ((validator (1 / 10)).validate problem (.timed haste)).outcome.1 = .ok r ∧
    r.violation.bind Violation.refusal? = some (time, refusal) ∧
    refusal.kind = .temporalInconsistency := by
  obtain ⟨r, hr, h⟩ := exists_report (P := fun r => (r.violation.bind Violation.refusal?).any
    fun x => x.2.kind = .temporalInconsistency) ofSteps_haste (by decide +kernel)
  obtain ⟨⟨time, refusal⟩, hviolation, hkind⟩ := (Option.any_eq_true _ _).mp h
  exact ⟨r, time, refusal, hr, hviolation, of_decide_eq_true hkind⟩

theorem too_close_haste : ∃ r time refusal,
    ((validator (1 / 10)).validate problem (.timed haste)).outcome.1 = .ok r ∧
    r.violation.bind Violation.refusal? = some (time, refusal) ∧
    refusal.kind = .temporalInconsistency ∧ ∃ sched done s w a,
      (validator (1 / 10)).schedule problem haste = .ok sched ∧
      Simulator.Run sched.sim (pinned done) s ∧ (sched.sim.examine refusal.event s).Gives (w, a) ∧
      ((∃ x ∈ sched.events, x.time < 0) ∨ ¬ ((a, time) :: done).Pairwise (Apart (1 / 10)) ∨
        sched.Crosses) := by
  obtain ⟨r, time, refusal, hr, hviolation, hkind⟩ := refused_haste
  obtain ⟨sched, done, rest, s, hsched, -, hrun, -, -, hrefused⟩ :=
    Validator.times_checked hr (by simp [problem, Problem.ofActions])
  obtain ⟨w, a, hgives, hclash⟩ := hrefused time refusal hviolation hkind
  exact ⟨r, time, refusal, hr, hviolation, hkind, sched, done, s, w, a, hsched, hrun, hgives,
    hclash⟩

end Door

end TemporalPlanning
