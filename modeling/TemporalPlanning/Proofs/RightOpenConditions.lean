import TemporalPlanning.Proofs.ConditionsInside

namespace TemporalPlanning

theorem Replays.exists_change {sim : Simulator} {P : State → Prop} {xs : List Scheduled}
    {s s' : State} (h : Replays sim s xs s') (hs : P s) (hs' : ¬ P s') :
    ∃ before x after a b, xs = before ++ x :: after ∧ Replays sim s before a ∧ Step sim x a b ∧
      P a ∧ ¬ P b := by
  induction h with
  | nil => exact absurd hs hs'
  | @cons s t _ x xs hx _ ih =>
      by_cases ht : P t
      · obtain ⟨before, y, after, a, b, rfl, hbefore, hy, ha, hb⟩ := ih ht hs'
        exact ⟨x :: before, y, after, a, b, rfl, .cons hx hbefore, hy, ha, hb⟩
      · exact ⟨[], x, xs, s, t, rfl, .nil, hx, hs, ht⟩

theorem Span.shifted_rightOpen {s : Span} {epsilon : Rat} (hroom : s.lower < s.upper)
    (hopen : s.rightOpen = true) :
    (s.shifted epsilon = (s.lower, s.upper - epsilon) ∧ epsilon ≤ s.upper - s.lower) ∨
    (s.shifted epsilon = (s.lower + epsilon, s.upper - epsilon) ∧
      2 * epsilon ≤ s.upper - s.lower) ∨
    (s.shifted epsilon = ((s.lower + s.upper) / 2, (s.lower + s.upper) / 2) ∧
      s.upper - s.lower < 2 * epsilon) := by
  cases hleft : s.leftOpen with
  | false =>
      by_cases hshort : s.upper - epsilon < s.lower
      · exact .inr (.inr ⟨by simp [shifted, hleft, hopen, hshort], by linarith⟩)
      · exact .inl ⟨by simp [shifted, hleft, hopen, hshort], by linarith⟩
  | true =>
      by_cases hshort : s.upper - epsilon < s.lower + epsilon
      · exact .inr (.inr ⟨by simp [shifted, hleft, hopen, hshort], by linarith⟩)
      · exact .inr (.inl ⟨by simp [shifted, hleft, hopen, hshort], by linarith⟩)

def Schedule.Falsifies (sched : Schedule) (s : TimedStep) (c : Expr) (x : Scheduled) : Prop :=
  ∃ before after a b, sched.events = before ++ x :: after ∧
    Replays sched.sim sched.sim.initialState before a ∧ Step sched.sim x a b ∧
    c.holds (sched.situation s a) = .ok true ∧ c.holds (sched.situation s b) ≠ .ok true

section Broken

variable {sim : Simulator} {steps : List TimedStep} {sched : Schedule} {k : Nat} {s : TimedStep}
  {p q : Placement} {i : IntervalCondition} {final st : State} {t τ : Rat} {c : Expr}
  {before after : List Scheduled} {a b : State} {keys : List String}

theorem Schedule.holds_or_falsified {xs : List Scheduled}
    (hevents : sched.events = before ++ xs ++ after)
    (hbefore : Replays sched.sim sched.sim.initialState before a) (h : Replays sched.sim a xs st)
    (ha : c.holds (sched.situation s a) = .ok true) :
    c.holds (sched.situation s st) = .ok true ∨ ∃ x ∈ xs, sched.Falsifies s c x := by
  by_contra hnot
  obtain ⟨hst, hnone⟩ := not_or.mp hnot
  obtain ⟨front, x, back, d, e, rfl, hfront, hx, hd, he⟩ :=
    h.exists_change (P := fun t => c.holds (sched.situation s t) = .ok true) ha hst
  refine hnone ⟨x, by simp, before ++ front, back ++ after, d, e, by simp [hevents], ?_, hx, hd, he⟩
  exact Replays.append_iff.mpr ⟨a, hbefore, hfront⟩

theorem LaidOut.holds_or_falsified (h : LaidOut sim steps sched) (hat : sched.ReachesBefore t a)
    (hst : sched.ReachesBefore τ st) (hle : t ≤ τ)
    (ha : c.holds (sched.situation s a) = .ok true) :
    c.holds (sched.situation s st) = .ok true ∨
      ∃ x, sched.Falsifies s c x ∧ t ≤ x.time ∧ x.time < τ := by
  have hsorted := h.sorted_time
  have hearly : (sched.events.filter fun x => x.time < τ).filter (fun x => x.time < t) =
      sched.events.filter fun x => x.time < t := by
    rw [List.filter_filter]
    refine List.filter_congr fun x _ => ?_
    rw [← Bool.decide_and, decide_eq_decide]
    exact and_iff_left_of_imp fun hx => hx.trans_le hle
  have hsplit := Scheduled.split_at (hsorted.filter fun x => x.time < τ) t
  rw [hearly] at hsplit
  have hevents := Scheduled.split_at hsorted τ
  rw [hsplit] at hevents
  rw [Schedule.ReachesBefore, hsplit] at hst
  obtain ⟨a', hat', hst⟩ := Replays.append_iff.mp hst
  obtain rfl := hat.unique hat'
  rcases Schedule.holds_or_falsified hevents hat hst ha with hholds | ⟨x, hx, hfalse⟩
  · exact .inl hholds
  · obtain ⟨hx, ht⟩ := List.mem_filter.mp hx
    obtain ⟨-, hτ⟩ := List.mem_filter.mp hx
    exact .inr ⟨x, hfalse, of_decide_eq_true ht, of_decide_eq_true hτ⟩

theorem Window.holds_at_closing (h : Window sim steps sched k s p q i)
    (hl : LaidOut sim steps sched) {cs : List Expr} (hcs : i.condition = .conjunction cs)
    (hc : c ∈ cs) (hlt : p.offset < q.offset) (hst : sched.ReachesBefore (s.start + q.offset) st) :
    c.holds (sched.situation s st) = .ok true :=
  Expr.holds_of_conjunction (hcs ▸ h.holds_between hl hst (by linarith) le_rfl) c hc

namespace Opens

theorem holds_or_falsified_at (ho : Opens sched k s p i before after a b keys)
    (hl : LaidOut sim steps sched) {cs : List Expr} (hcs : i.condition = .conjunction cs)
    (hc : c ∈ cs) (hst : sched.ReachesBefore τ st) (hopen : s.start + p.offset < τ) :
    c.holds (sched.situation s st) = .ok true ∨
      ∃ x, sched.Falsifies s c x ∧ s.start + p.offset ≤ x.time ∧ x.time < τ := by
  have hevents : sched.events = (before ++ [.opening k s p i]) ++
      after.filter (fun x => x.time < τ) ++ after.filter (fun x => τ ≤ x.time) := by
    rw [ho.events_eq hl τ]
    simp
  have hbefore := Replays.append_iff.mpr ⟨a, ho.run, .cons ho.step .nil⟩
  have hsorted := hl.sorted_time
  rw [ho.events, List.pairwise_append, List.pairwise_cons] at hsorted
  have hrest := ho.reaches hl hopen hst
  rcases Schedule.holds_or_falsified hevents hbefore hrest (ho.each hcs hc).1 with
    hholds | ⟨x, hx, hfalse⟩
  · exact .inl hholds
  · obtain ⟨hx, hτ⟩ := List.mem_filter.mp hx
    exact .inr ⟨x, hfalse, hsorted.2.1.1 x hx, of_decide_eq_true hτ⟩

theorem holds_or_falsified_after (ho : Opens sched k s p i before after a b keys)
    (h : Window sim steps sched k s p q i) (hl : LaidOut sim steps sched)
    (hall : Replays sched.sim sched.sim.initialState sched.events final) (hle : p.offset ≤ q.offset)
    {cs : List Expr} (hcs : i.condition = .conjunction cs) (hc : c ∈ cs)
    (hst : sched.ReachesBefore τ st) (hclose : s.start + q.offset < τ) :
    c.holds (sched.situation s st) = .ok true ∨
      ∃ x, sched.Falsifies s c x ∧ s.start + q.offset ≤ x.time ∧ x.time < τ := by
  rcases hle.lt_or_eq with hlt | heq
  · obtain ⟨mid, hmid⟩ := hl.reaches hall (s.start + q.offset)
    exact hl.holds_or_falsified hmid hst hclose.le (h.holds_at_closing hl hcs hc hlt hmid)
  · rw [← heq] at hclose ⊢
    exact ho.holds_or_falsified_at hl hcs hc hst hclose

theorem holds_or_falsified_late (ho : Opens sched k s p i before after a b keys)
    (h : Window sim steps sched k s p q i) (hl : LaidOut sim steps sched)
    (hall : Replays sched.sim sched.sim.initialState sched.events final)
    (hε : 0 < sched.sim.epsilon) {cs : List Expr} (hcs : i.condition = .conjunction cs)
    (hc : c ∈ cs) (hquiet : ¬ sched.Changes k p.offset s c) (hst : sched.ReachesBefore τ st)
    (hopen : s.start + p.offset < τ) (hclose : s.start + q.offset < τ) :
    c.holds (sched.situation s st) = .ok true ∨
      ∃ x, sched.Falsifies s c x ∧ s.start + q.offset ≤ x.time ∧ x.time < τ ∧
        s.start + p.offset + sched.sim.epsilon ≤ x.time := by
  rcases le_or_gt τ (s.start + p.offset + sched.sim.epsilon) with hnear | hfar
  · exact .inl (ho.holds_after h hl hcs hc hst hopen hnear hquiet)
  · have hlater {t : Rat} {mid : State} (hmid : sched.ReachesBefore t mid) (ht : t < τ)
        (hholds : c.holds (sched.situation s mid) = .ok true) (hq : s.start + q.offset ≤ t)
        (hp : s.start + p.offset + sched.sim.epsilon ≤ t) :
        c.holds (sched.situation s st) = .ok true ∨
          ∃ x, sched.Falsifies s c x ∧ s.start + q.offset ≤ x.time ∧ x.time < τ ∧
            s.start + p.offset + sched.sim.epsilon ≤ x.time := by
      rcases hl.holds_or_falsified hmid hst ht.le hholds with hholds | ⟨x, hx, htx, hxτ⟩
      · exact .inl hholds
      · exact .inr ⟨x, hx, hq.trans htx, hxτ, hp.trans htx⟩
    rcases le_or_gt (s.start + q.offset) (s.start + p.offset + sched.sim.epsilon) with hle | hlt
    · obtain ⟨mid, hmid⟩ := hl.reaches hall (s.start + p.offset + sched.sim.epsilon)
      have hholds := ho.holds_after h hl hcs hc hmid (by linarith) le_rfl hquiet
      exact hlater hmid hfar hholds hle le_rfl
    · obtain ⟨mid, hmid⟩ := hl.reaches hall (s.start + q.offset)
      exact hlater hmid hclose (h.holds_at_closing hl hcs hc (by linarith) hmid) le_rfl hlt.le

end Opens

variable {v : Validator} {problem : Problem} {r : Report}

theorem Validator.condition_holds_until_falsified
    (hr : (v.validate problem (.timed steps)).outcome.1 = .ok r) (hvalid : r.isValid = true)
    (hε : 0 < v.epsilon) : ∃ sched, v.schedule problem steps = .ok sched ∧
    ∀ (k : Nat) (s : TimedStep) (a : DurativeAction) (d : Rat) (c : TimedCondition)
      (l u opens closes τ : Rat),
      steps[k]? = some s → s.step.action = .durative a → s.duration = some d → c ∈ a.conditions →
      c.interval.rightOpen = true → a.offset d c.interval.lower = .ok l →
      a.offset d c.interval.upper = .ok u →
      (⟨l, u, c.interval.leftOpen, c.interval.rightOpen⟩ : Span).shifted v.epsilon =
        (opens, closes) →
      s.start + l < τ → τ < s.start + u →
      ∃ st, sched.ReachesBefore τ st ∧
        (c.condition.holds (sched.situation s st) = .ok true ∨
          ∃ x, sched.Falsifies s c.condition x ∧ s.start + closes ≤ x.time ∧ x.time < τ ∧
            (sched.Changes k opens s c.condition ∨ s.start + opens + v.epsilon ≤ x.time)) := by
  obtain ⟨sim, sched, final, hsched, hl, hepsilon, hall⟩ := Validator.laidOut_of_valid hr hvalid
  refine ⟨sched, hsched, ?_⟩
  intro k s a d c l u opens closes τ hs ha hd hc hrightOpen hlower hupper hshift hlow hhigh
  have hroom : l < u := by linarith
  have hnonneg := (DurativeAction.offset_within hlower).1
  obtain ⟨p, q, i, before, after, b, b', keys, cs, hw, ho, hat, hcs, hmine⟩ :=
    hl.window hall hs ha hd hc hlower hupper hroom
  obtain ⟨st, hst⟩ := hl.reaches hall τ
  refine ⟨st, hst, ?_⟩
  rw [hepsilon, hshift] at hat
  obtain ⟨rfl, rfl⟩ := Prod.mk.inj hat
  obtain ⟨hle, hnear⟩ : p.offset ≤ q.offset ∧
      (τ ≤ s.start + p.offset → 0 < p.offset ∧ s.start + p.offset - v.epsilon < τ) := by
    rcases Span.shifted_rightOpen (s := ⟨l, u, _, _⟩) hroom hrightOpen with
      ⟨h, hlong⟩ | ⟨h, hlong⟩ | ⟨h, hshort⟩ <;>
    · obtain ⟨hp, hq⟩ := Prod.mk.inj (hshift.symm.trans h)
      dsimp only at hp hq
      refine ⟨by linarith, fun hopen => ⟨by linarith, by linarith⟩⟩
  rw [← hepsilon] at hε hnear ⊢
  rcases lt_or_ge (s.start + p.offset) τ with hopen | hopen
  · rcases lt_or_ge (s.start + q.offset) τ with hclose | hclose
    · by_cases hquiet : sched.Changes k p.offset s c.condition
      · refine (ho.holds_or_falsified_after hw hl hall hle hcs hmine hst hclose).imp_right ?_
        rintro ⟨x, hx, hqx, hxτ⟩
        exact ⟨x, hx, hqx, hxτ, .inl hquiet⟩
      · have hlate := ho.holds_or_falsified_late hw hl hall hε hcs hmine hquiet hst hopen hclose
        refine hlate.imp_right ?_
        rintro ⟨x, hx, hqx, hxτ, hpx⟩
        exact ⟨x, hx, hqx, hxτ, .inr hpx⟩
    · exact .inl (Expr.holds_of_conjunction (hcs ▸ hw.holds_between hl hst hopen hclose) _ hmine)
  · obtain ⟨hoffset, hnear⟩ := hnear hopen
    exact .inl (ho.holds_before hw hl hoffset hcs hmine hst hopen hnear)

end Broken

namespace Glow

def condition : TimedCondition := ⟨⟨⟨.start, 0⟩, ⟨.finish, 0⟩, false, true⟩, Blink.p⟩

def action : DurativeAction := .ofLength "glow" 1 [condition] [⟨⟨.start, 3 / 4⟩, Blink.dimming⟩]

def problem : Problem := .ofActions "glow" [.flag "p" true] [.durative action]

def ground : GroundAction := .ofAction (.durative action)

def step : TimedStep := ⟨0, ⟨0, ground⟩, some 1⟩

def validator : Validator := ⟨1 / 2, none, none, false⟩

def sim : Simulator := .unused 0 problem (1 / 2) none Validator.component []

def glowing : Activity := ⟨0, 1, some ground⟩

def lasts : IntervalCondition :=
  ⟨3, glowing, Blink.p, 0, 1, false, true, [], [], none, "[0, 1)"⟩

def dims : IntervalCondition :=
  ⟨5, glowing, .conjunction [], 3 / 4, 3 / 4, false, false, [], [Blink.dimming], none,
    "[3/4, 3/4]"⟩

def place (n : Nat) (offset : Rat) (suffix : String) : Placement :=
  sim.clock.place n glowing offset false suffix

def committed : List Event := [
  .startCondition (place 1 0 "open[0, 1)") lasts,
  .endCondition (place 2 (1 / 2) "close[0, 1)") lasts,
  .startCondition (place 3 (3 / 4) "open[3/4, 3/4]") dims,
  .endCondition (place 4 (3 / 4) "close[3/4, 3/4]") dims,
  .endAction (place 5 1 "end") .empty]

def start : Event := .startAction (place 0 0 "start") ⟨[Blink.p], [], none⟩ 1 committed

def sched : Schedule := .ofStepEvents (sim.afterMaking (start :: committed))
  ((start :: committed).map fun e => ⟨e, step.start + e.offset, .step 0⟩)

theorem sort_committed : Event.sort committed = committed :=
  Event.sort_eq .rfl (by decide) (by decide +kernel)

theorem events_ground :
    ground.action.events sim.clock glowing (some 1) = .ok (start :: committed) := by
  rw [start, ← sort_committed]
  with_unfolding_all rfl

theorem ofSteps_step : Schedule.ofSteps sim [step] = .ok sched :=
  ofSteps_of_events (List.mem_singleton_self _) events_ground rfl rfl rfl (by decide +kernel)

theorem schedule_step : validator.schedule problem [step] = .ok sched :=
  except_bind_ok.mpr ⟨sim, Simulator.new_unused rfl, ofSteps_step⟩

theorem valid_step : ∃ r, (validator.validate problem (.timed [step])).outcome.1 = .ok r ∧
    r.isValid = true :=
  Validator.exists_report_of rfl (Simulator.new_unused rfl) ofSteps_step (by decide +kernel)

theorem lit_until_closing : ∃ st, sched.ReachesBefore (1 / 4) st ∧
    Blink.p.holds (sched.situation step st) = .ok true := by
  obtain ⟨r, hr, hvalid⟩ := valid_step
  obtain ⟨_, hsched, h⟩ := Validator.condition_holds_until_falsified hr hvalid (by decide +kernel)
  obtain rfl := Except.ok.inj (hsched.symm.trans schedule_step)
  obtain ⟨st, hst, hholds | ⟨x, -, hclose, hx, -⟩⟩ := h 0 step action 1 condition 0 1 0 (1 / 2)
    (1 / 4) rfl rfl rfl (List.mem_singleton_self _) rfl (by with_unfolding_all rfl)
    (by with_unfolding_all rfl) (by decide +kernel) (by decide +kernel) (by decide +kernel)
  · exact ⟨st, hst, hholds⟩
  · have hlate : step.start + 1 / 2 < 1 / 4 := hclose.trans_lt hx
    exact absurd hlate (by decide +kernel)

theorem dark_before_end : (∃ r, (validator.validate problem (.timed [step])).outcome.1 = .ok r ∧
      r.isValid = true) ∧
    validator.schedule problem [step] = .ok sched ∧ condition ∈ action.conditions ∧
    condition.interval.rightOpen = true ∧
    action.offset 1 condition.interval.lower = .ok 0 ∧
    action.offset 1 condition.interval.upper = .ok 1 ∧
    step.start + 0 < 7 / 8 ∧ 7 / 8 < step.start + 1 ∧
    (∀ x ∈ sched.events, x.time ≠ 7 / 8) ∧
    ∃ st, sched.ReachesBefore (7 / 8) st ∧
      condition.condition.holds (sched.situation step st) = .ok false := by
  have hdark : (replay sched.sim sched.sim.initialState
      (sched.events.filter fun x => x.time < 7 / 8)).any
      (fun st => (Blink.p.holds (sched.situation step st)).toOption = some false) = true := by
    decide +kernel
  obtain ⟨st, hst, hp⟩ := (Option.any_eq_true _ _).mp hdark
  refine ⟨valid_step, schedule_step, List.mem_singleton_self _, rfl, by with_unfolding_all rfl,
    by with_unfolding_all rfl, by decide +kernel, by decide +kernel, by decide +kernel, ?_⟩
  exact ⟨st, Replays.of_replay hst, except_toOption.mp (of_decide_eq_true hp)⟩

end Glow

end TemporalPlanning
