import TemporalPlanning.Proofs.OpenIntervals

namespace TemporalPlanning

section Conditions

theorem Span.shifted_closed {s : Span} (epsilon : Rat) (hroom : s.lower < s.upper)
    (hclosed : s.rightOpen = false) :
    (s.leftOpen = false ∧ s.shifted epsilon = (s.lower, s.upper)) ∨
    (s.leftOpen = true ∧ epsilon ≤ s.upper - s.lower ∧
      s.shifted epsilon = (s.lower + epsilon, s.upper)) ∨
    (s.leftOpen = true ∧ s.upper - s.lower < epsilon ∧
      s.shifted epsilon = ((s.lower + s.upper) / 2, (s.lower + s.upper) / 2)) := by
  cases hleft : s.leftOpen with
  | false =>
      refine .inl ⟨rfl, ?_⟩
      simp [shifted, hleft, hclosed, not_lt.mpr hroom.le]
  | true =>
      refine .inr ?_
      by_cases hshort : s.upper < s.lower + epsilon
      · exact .inr ⟨rfl, by linarith, by simp [shifted, hleft, hclosed, hshort]⟩
      · exact .inl ⟨rfl, by linarith, by simp [shifted, hleft, hclosed, hshort]⟩

/--
After so much time of the step the interval is closed again, as it is open on the left and leaves
too little room to move that end inwards.
-/
def Interval.IsPast (i : Interval) (epsilon lower upper elapsed : Rat) : Prop :=
  i.leftOpen = true ∧ upper - lower < epsilon ∧ (lower + upper) / 2 < elapsed

variable {v : Validator} {problem : Problem} {steps : List TimedStep} {r : Report}

theorem LaidOut.window {sim : Simulator} {sched : Schedule} {k : Nat} {s : TimedStep}
    {a : DurativeAction} {d l u : Rat} {c : TimedCondition} {final : State}
    (hl : LaidOut sim steps sched)
    (hall : Replays sched.sim sched.sim.initialState sched.events final) (hs : steps[k]? = some s)
    (ha : s.step.action = .durative a) (hd : s.duration = some d) (hc : c ∈ a.conditions)
    (hlower : a.offset d c.interval.lower = .ok l) (hupper : a.offset d c.interval.upper = .ok u)
    (hroom : l < u) : ∃ p q i before after b b' keys cs, Window sim steps sched k s p q i ∧
      Opens sched k s p i before after b b' keys ∧
      (p.offset, q.offset) = (⟨l, u, c.interval.leftOpen, c.interval.rightOpen⟩ : Span).shifted
        sched.sim.epsilon ∧
      i.condition = .conjunction cs ∧ c.condition ∈ cs := by
  have hspan : Timeline.span a d c.interval =
      .ok ⟨l, u, c.interval.leftOpen, c.interval.rightOpen⟩ :=
    except_bind_ok.mpr ⟨l, hlower, except_bind_ok.mpr ⟨u, hupper, rfl⟩⟩
  obtain ⟨clock, es, hepsilon, hes, hmem⟩ := hl.eachStep k s hs
  have ha : s.step.ground.action = .durative a := ha
  rw [ha, hd] at hes
  obtain ⟨p, q, i, cs, hp, hq, hactivity, -, -, hat, hcs, hmine⟩ :=
    Action.condition_events hes hc hspan hroom
  rw [hepsilon, ← hl.rules.epsilon] at hat
  have hw : Window sim steps sched k s p q i := ⟨hs, hmem _ hp, hmem _ hq, hactivity⟩
  obtain ⟨before, after, b, b', keys, ho⟩ := hw.opens hall
  exact ⟨p, q, i, before, after, b, b', keys, cs, hw, ho, hat, hcs, hmine⟩

theorem Validator.laidOut_of_valid (hr : (v.validate problem (.timed steps)).outcome.1 = .ok r)
    (hvalid : r.isValid = true) : ∃ sim sched final, v.schedule problem steps = .ok sched ∧
      LaidOut sim steps sched ∧ sched.sim.epsilon = v.epsilon ∧
      Replays sched.sim sched.sim.initialState sched.events final := by
  obtain ⟨sim, sched, final, hsim, hsched, hall⟩ := Validator.replays_of_valid hr hvalid
  have hl := laid_ofSteps hsim hsched
  exact ⟨sim, sched, final, except_bind_ok.mpr ⟨sim, hsim, hsched⟩, hl,
    hl.rules.epsilon.trans (Simulator.epsilon_new hsim), hall⟩

theorem Validator.condition_holds_inside
    (hr : (v.validate problem (.timed steps)).outcome.1 = .ok r) (hvalid : r.isValid = true)
    (hε : 0 < v.epsilon) : ∃ sched, v.schedule problem steps = .ok sched ∧
    ∀ (k : Nat) (s : TimedStep) (a : DurativeAction) (d : Rat) (c : TimedCondition) (l u τ : Rat),
      steps[k]? = some s → s.step.action = .durative a → s.duration = some d → c ∈ a.conditions →
      c.interval.rightOpen = false → a.offset d c.interval.lower = .ok l →
      a.offset d c.interval.upper = .ok u → s.start + l < τ → τ < s.start + u →
      ∃ st, sched.ReachesBefore τ st ∧
        ((c.interval.IsPast v.epsilon l u (τ - s.start) →
            ¬ sched.Changes k ((l + u) / 2) s c.condition) →
          c.condition.holds (sched.situation s st) = .ok true) ∧
        (c.interval.IsPast v.epsilon l u (τ - s.start) →
          ∃ first last, sched.ReachesBefore (s.start + (l + u) / 2) first ∧
            sched.ReachesAfter k ((l + u) / 2) last ∧
            (c.condition.reads (sched.situation s last) =
                c.condition.reads (sched.situation s first) →
              (c.condition.holds (sched.situation s st) = .ok true ↔
                c.condition.holds (sched.situation s last) = .ok true))) := by
  obtain ⟨sim, sched, final, hsched, hl, hepsilon, hall⟩ := Validator.laidOut_of_valid hr hvalid
  refine ⟨sched, hsched, ?_⟩
  intro k s a d c l u τ hs ha hd hc hclosed hlower hupper hlow hhigh
  have hroom : l < u := by linarith
  have hnonneg := (DurativeAction.offset_within hlower).1
  obtain ⟨p, q, i, before, after, b, b', keys, cs, hw, ho, hat, hcs, hmine⟩ :=
    hl.window hall hs ha hd hc hlower hupper hroom
  obtain ⟨st, hst⟩ := hl.reaches hall τ
  refine ⟨st, hst, ?_⟩
  have hbetween (hopen : s.start + p.offset < τ) (hclose : τ ≤ s.start + q.offset) :
      c.condition.holds (sched.situation s st) = .ok true :=
    Expr.holds_of_conjunction (hcs ▸ hw.holds_between hl hst hopen hclose) _ hmine
  rw [hepsilon] at hat
  rcases Span.shifted_closed v.epsilon
      (s := ⟨l, u, c.interval.leftOpen, c.interval.rightOpen⟩) hroom hclosed with
    ⟨hleft, hshift⟩ | ⟨-, hlong, hshift⟩ | ⟨hleft, hshort, hshift⟩
  · obtain ⟨hp, hq⟩ := Prod.mk.inj (hat.trans hshift)
    have hleft : c.interval.leftOpen = false := hleft
    refine ⟨fun _ => hbetween (by rw [hp]; exact hlow) (by rw [hq]; exact hhigh.le), ?_⟩
    rintro ⟨hopen, -⟩
    simp [hleft] at hopen
  · obtain ⟨hp, hq⟩ := Prod.mk.inj (hat.trans hshift)
    have hlong : v.epsilon ≤ u - l := hlong
    refine ⟨fun _ => ?_, fun ⟨_, hshort, _⟩ => absurd hshort (not_lt.mpr hlong)⟩
    rcases lt_or_ge (s.start + p.offset) τ with hopen | hopen
    · exact hbetween hopen (by rw [hq]; exact hhigh.le)
    · refine ho.holds_before hw hl ?_ hcs hmine hst hopen ?_
      · rw [hp]
        linarith
      · rw [hp, hepsilon]
        linarith
  · obtain ⟨hp, -⟩ := Prod.mk.inj (hat.trans hshift)
    have hshort : u - l < v.epsilon := hshort
    have hp : p.offset = (l + u) / 2 := hp
    have hoffset : 0 < p.offset := by
      rw [hp]
      linarith
    obtain ⟨first, hfirst⟩ := hl.reaches hall (s.start + p.offset)
    have hnear := ho.near hw hl hoffset (by rwa [hepsilon]) hcs hmine hfirst hst
      (by rw [hp, hepsilon]; linarith) (by rw [hp, hepsilon]; linarith)
    rw [hp] at hnear hfirst
    have hpast : c.interval.IsPast v.epsilon l u (τ - s.start) ↔ s.start + (l + u) / 2 < τ := by
      rw [Interval.IsPast, lt_sub_iff_add_lt', and_iff_right hleft, and_iff_right hshort]
    rw [hpast]
    refine ⟨hnear.1, fun hopen => ?_⟩
    obtain ⟨last, hlast, hsame⟩ := hnear.2 hopen
    exact ⟨first, last, hfirst, hlast, hsame⟩

end Conditions

namespace Blink

def p : Expr := .fluent "p" []

def condition : TimedCondition := ⟨⟨⟨.start, 2 / 5⟩, ⟨.start, 3 / 5⟩, true, false⟩, p⟩

def dimming : Effect := .setFlag "p" false

def action : DurativeAction := .ofLength "blink" 1 [condition] [⟨⟨.start, 1 / 2⟩, dimming⟩]

def problem : Problem := .ofActions "blink" [.flag "p" true] [.durative action]

def ground : GroundAction := .ofAction (.durative action)

def step : TimedStep := ⟨0, ⟨0, ground⟩, some 1⟩

def validator : Validator := ⟨1, none, none, false⟩

def sim : Simulator := .unused 0 problem 1 none Validator.component []

def blinking : Activity := ⟨0, 1, some ground⟩

def waits : IntervalCondition :=
  ⟨3, blinking, p, 2 / 5, 3 / 5, true, false, [], [], none, "(2/5, 3/5]"⟩

def dims : IntervalCondition :=
  ⟨5, blinking, .conjunction [], 1 / 2, 1 / 2, false, false, [], [dimming], none, "[1/2, 1/2]"⟩

def place (n : Nat) (offset : Rat) (suffix : String) : Placement :=
  sim.clock.place n blinking offset false suffix

def openWaits : Event := .startCondition (place 1 (1 / 2) "open(2/5, 3/5]") waits

def closeWaits : Event := .endCondition (place 2 (1 / 2) "close(2/5, 3/5]") waits

def openDims : Event := .startCondition (place 3 (1 / 2) "open[1/2, 1/2]") dims

def closeDims : Event := .endCondition (place 4 (1 / 2) "close[1/2, 1/2]") dims

def finish : Event := .endAction (place 5 1 "end") .empty

def committed : List Event := [openWaits, openDims, closeWaits, closeDims, finish]

def start : Event := .startAction (place 0 0 "start") .empty 1 committed

def numbered : Simulator := sim.afterMaking (start :: committed)

def sched : Schedule :=
  .ofStepEvents numbered ((start :: committed).map fun e => ⟨e, step.start + e.offset, .step 0⟩)

theorem sort_inner :
    Event.sort [openWaits, closeWaits, openDims, closeDims, finish] = committed :=
  Event.sort_eq (.cons _ (.swap _ _ _)) (by decide) (by decide +kernel)

theorem events_ground :
    ground.action.events sim.clock blinking (some 1) = .ok (start :: committed) := by
  rw [start, ← sort_inner]
  with_unfolding_all rfl

theorem ofSteps_step : Schedule.ofSteps sim [step] = .ok sched :=
  ofSteps_of_events (List.mem_singleton_self _) events_ground rfl rfl rfl (by decide +kernel)

theorem schedule_step : validator.schedule problem [step] = .ok sched :=
  except_bind_ok.mpr ⟨sim, Simulator.new_unused rfl, ofSteps_step⟩

theorem valid_step : ∃ r, (validator.validate problem (.timed [step])).outcome.1 = .ok r ∧
    r.isValid = true :=
  Validator.exists_report_of rfl (Simulator.new_unused rfl) ofSteps_step (by decide +kernel)

theorem lit_before : ∃ st, sched.ReachesBefore (9 / 20) st ∧
    p.holds (sched.situation step st) = .ok true := by
  obtain ⟨r, hr, hvalid⟩ := valid_step
  obtain ⟨_, hsched, h⟩ := Validator.condition_holds_inside hr hvalid (by decide)
  obtain rfl := Except.ok.inj (hsched.symm.trans schedule_step)
  obtain ⟨st, hst, hholds, -⟩ := h 0 step action 1 condition (2 / 5) (3 / 5) (9 / 20) rfl rfl rfl
    (List.mem_singleton_self _) rfl (by with_unfolding_all rfl) (by with_unfolding_all rfl)
    (by decide +kernel) (by decide +kernel)
  refine ⟨st, hst, hholds ?_⟩
  rintro ⟨-, -, hpast⟩
  exact absurd hpast (by decide +kernel)

theorem dark_after : (∃ r, (validator.validate problem (.timed [step])).outcome.1 = .ok r ∧
      r.isValid = true) ∧
    validator.schedule problem [step] = .ok sched ∧ condition ∈ action.conditions ∧
    condition.interval.rightOpen = false ∧
    action.offset 1 condition.interval.lower = .ok (2 / 5) ∧
    action.offset 1 condition.interval.upper = .ok (3 / 5) ∧
    step.start + 2 / 5 < 11 / 20 ∧ 11 / 20 < step.start + 3 / 5 ∧
    (∀ x ∈ sched.events, x.time ≠ 11 / 20) ∧
    ∃ st, sched.ReachesBefore (11 / 20) st ∧
      condition.condition.holds (sched.situation step st) = .ok false := by
  have hdark : (replay sched.sim sched.sim.initialState
      (sched.events.filter fun x => x.time < 11 / 20)).any
      (fun st => (p.holds (sched.situation step st)).toOption = some false) = true := by
    decide +kernel
  obtain ⟨st, hst, hp⟩ := (Option.any_eq_true _ _).mp hdark
  refine ⟨valid_step, schedule_step, List.mem_singleton_self _, rfl, by with_unfolding_all rfl,
    by with_unfolding_all rfl, by decide +kernel, by decide +kernel, by decide +kernel, ?_⟩
  exact ⟨st, Replays.of_replay hst, except_toOption.mp (of_decide_eq_true hp)⟩

end Blink

end TemporalPlanning
