import TemporalPlanning.Proofs.Relistings

namespace TemporalPlanning

namespace StnPlan

theorem not_sublist_swapped {α : Type} {l : List α} (h : l.Nodup) {a b : α}
    (hab : [a, b].Sublist l) : ¬ [b, a].Sublist l := by
  intro hba
  induction l with
  | nil => cases hab
  | cons x l ih =>
      obtain ⟨hx, h⟩ := List.nodup_cons.mp h
      cases hab with
      | cons _ hab =>
          cases hba with
          | cons _ hba => exact ih h hab hba
          | cons_cons _ _ => exact hx (hab.subset (by simp))
      | cons_cons _ hab =>
          cases hba with
          | cons _ hba => exact hx (hba.subset (by simp))
          | cons_cons _ hba => exact hx (hba.subset (by simp))

theorem start_lt_of_inverted {steps : List TimedStep} (h : steps.Nodup) {s s' : TimedStep}
    (hsub : [s, s'].Sublist steps) (hsub' : [s', s].Sublist (byStart steps)) :
    s'.start < s.start := by
  by_contra hle
  have hstable : [s, s'].Sublist (byStart steps) :=
    List.pair_sublist_mergeSort TimedStep.start_trans TimedStep.start_total (by simpa using hle)
      hsub
  exact not_sublist_swapped ((List.mergeSort_perm _ _).nodup_iff.mpr h) hstable hsub'

theorem validate_ofTimedSteps {steps : List TimedStep} (h : Placeable steps) :
    ∃ p, ofTimedSteps steps = .ok p ∧ p.schedule = .ok (byStart steps) ∧
      ∀ (v : Validator) (problem : Problem),
        (∀ r, (v.validate problem (.stn p)).outcome.1 = .ok r ↔
          (v.validate problem (.timed (byStart steps))).outcome.1 = .ok r) ∧
        (0 < v.epsilon → (∀ p ∈ v.provider, p.Impartial) →
          (steps.Pairwise fun s s' => s'.start < s.start → s.Calm v.epsilon s') →
          ∀ r r', (v.validate problem (.timed steps)).outcome.1 = .ok r →
            (v.validate problem (.stn p)).outcome.1 = .ok r' → r.status = r'.status) := by
  have hsame (v : Validator) (problem : Problem) (r : Report) :
      (v.validate problem (.stn (ofConstraints (steps.flatMap timing)))).outcome.1 = .ok r ↔
        (v.validate problem (.timed (byStart steps))).outcome.1 = .ok r :=
    Validator.validate_stn_ok (schedule_timing h)
  refine ⟨_, ofTimedSteps_eq h, schedule_timing h, fun v problem => ⟨hsame v problem, ?_⟩⟩
  intro hepsilon himpartial hcalm r r' hr hr'
  have hr' := (hsame v problem r').mp hr'
  have hperm : (byStart steps).Perm steps := List.mergeSort_perm _ _
  have hnodup : steps.Nodup := h.distinct.of_map
  have hlisted (s s' : TimedStep) (hsub : [s, s'].Sublist steps)
      (hsub' : [s', s].Sublist (byStart steps)) : s.Calm v.epsilon s' :=
    List.pairwise_iff_forall_sublist.mp hcalm hsub (start_lt_of_inverted hnodup hsub hsub')
  have hvalid : r.isValid = true ↔ r'.isValid = true := by
    constructor
    · intro hvalid
      exact Validator.valid_of_relisted hr hvalid hepsilon himpartial h.distinct hperm.symm hlisted
        hr'
    · intro hvalid
      refine Validator.valid_of_relisted hr' hvalid hepsilon himpartial
        ((hperm.map TimedStep.step).nodup_iff.mpr h.distinct) hperm (fun s s' hsub hsub' => ?_) hr
      exact (hlisted s' s hsub' hsub).symm
  rw [Report.status, Report.status, Bool.eq_iff_iff.mpr hvalid]

end StnPlan

section Runs

variable {v : Validator} {problem : Problem} {sim next : Simulator} {steps sorted : List TimedStep}
  {xs ys : List Scheduled} {places places' : List Nat} {a b : String}

def picked (next : Simulator) (xs : List Scheduled) (places : List Nat) : Schedule :=
  { Schedule.ofStepEvents next xs with events := pick xs places }

def Runs (next : Simulator) (steps : List TimedStep) (xs : List Scheduled) (places : List Nat)
    (a : String) : Prop :=
  (places.Perm (List.range xs.length) ∧
    (pick xs places).Pairwise fun x y => x.notAfter y = true) ∧
  ((Validator.execute (picked next xs places).sim (picked next xs places)).result >>= fun x =>
    Validator.report (picked next xs places).sim (picked next xs places) steps x.1 x.2
    ).toOption.any (·.status = a) = true

instance : Decidable (Runs next steps xs places a) :=
  inferInstanceAs (Decidable ((_ ∧ _) ∧ _))

theorem Runs.ofSteps (h : Runs next sorted xs places a)
    (hx : stepEvents sim 0 steps = (next, .ok xs)) (htimed : next.timed = none)
    (heffects : next.problem.timedEffects = []) (hgoals : next.goalEvents = []) :
    Schedule.ofSteps sim steps = .ok (picked next xs places) :=
  ofSteps_of_perm_sorted hx htimed heffects hgoals (perm_pick h.1.1) h.1.2

def Statuses (v : Validator) (problem : Problem) (steps : List TimedStep) (a b : String) : Prop :=
  ∃ p r r', StnPlan.ofTimedSteps steps = .ok p ∧
    (v.validate problem (.timed steps)).outcome.1 = .ok r ∧
    (v.validate problem (.stn p)).outcome.1 = .ok r' ∧ r.status = a ∧ r'.status = b

theorem statuses_of_runs (next : Simulator) (xs ys : List Scheduled) (places places' : List Nat)
    (hwritten : v.unwritten = false)
    (hsim : Simulator.new 0 problem v.epsilon v.provider Validator.component = .ok sim)
    (htimed : next.timed = none) (heffects : next.problem.timedEffects = [])
    (hgoals : next.goalEvents = []) (hbyStart : byStart steps = sorted)
    (hx : stepEvents sim 0 steps = (next, .ok xs)) (hy : stepEvents sim 0 sorted = (next, .ok ys))
    (h : Placeable steps ∧ Runs next steps xs places a ∧ Runs next sorted ys places' b) :
    Placeable steps ∧ Statuses v problem steps a b := by
  obtain ⟨hplaceable, hruns, hruns'⟩ := h
  subst hbyStart
  obtain ⟨r, hr, hra⟩ := Validator.exists_report_of hwritten hsim
    (hruns.ofSteps hx htimed heffects hgoals) hruns.2
  obtain ⟨r', hr', hrb⟩ := Validator.exists_report_of hwritten hsim
    (hruns'.ofSteps hy htimed heffects hgoals) hruns'.2
  exact ⟨hplaceable, _, r, r', StnPlan.ofTimedSteps_eq hplaceable, hr,
    (Validator.validate_stn_ok (StnPlan.schedule_timing hplaceable)).mpr hr',
    of_decide_eq_true hra, of_decide_eq_true hrb⟩

theorem byStart_swap {s s' : TimedStep} (h : s'.start < s.start) : byStart [s, s'] = [s', s] := by
  simp [byStart, List.mergeSort, List.MergeSort.Internal.splitInTwo, not_le.mpr h]

end Runs

namespace Handover

def ground (name : String) (fluents : List String) (length : Rat) : GroundAction :=
  .ofAction (.durative (.ofLength name length [] (fluents.map fun f =>
    ⟨⟨.finish, 0⟩, .setFlag f true⟩)))

def giving : GroundAction := ground "give" ["given"] 2

def taking : GroundAction := ground "take" ["taken"] 1

def waiting : GroundAction := ground "wait" [] 1

def problem : Problem :=
  { Problem.ofActions "handover" (["given", "taken"].map (.flag · false))
      [giving.action, taking.action, waiting.action] with
    trajectory := [⟨.always, .relation .implies (.fluent "taken" []) (.fluent "given" [])⟩] }

def device : EffectProvider := .ofTable .empty

def validator : Validator := ⟨1, none, some device, false⟩

def sim : Simulator := .unused 0 problem 1 (some device) Validator.component []

def numbered : Simulator := { sim with nextActivity := 3, nextEvent := 6 }

def steps (g : GroundAction) : List TimedStep := [⟨1, ⟨0, g⟩, some 1⟩, ⟨0, ⟨1, giving⟩, some 2⟩]

theorem byStart_steps (g : GroundAction) : byStart (steps g) = (steps g).reverse :=
  byStart_swap (zero_lt_one' Rat)

theorem statuses_taking : Placeable (steps taking) ∧
    Statuses validator problem (steps taking) "INVALID" "VALID" :=
  statuses_of_runs numbered (stepped sim (steps taking)) (stepped sim (steps taking).reverse)
    [2, 0, 1, 3] [0, 2, 1, 3] rfl (Simulator.new_unused rfl) rfl rfl rfl (byStart_steps taking)
    (by with_unfolding_all rfl) (by with_unfolding_all rfl) (by decide +kernel)

theorem statuses_waiting : Placeable (steps waiting) ∧
    Statuses validator problem (steps waiting) "VALID" "VALID" :=
  statuses_of_runs numbered (stepped sim (steps waiting)) (stepped sim (steps waiting).reverse)
    [2, 0, 1, 3] [0, 2, 1, 3] rfl (Simulator.new_unused rfl) rfl rfl rfl (byStart_steps waiting)
    (by with_unfolding_all rfl) (by with_unfolding_all rfl) (by decide +kernel)

theorem idle_waiting : ∀ a ∈ TimedStep.happenings 1 ⟨1, ⟨0, waiting⟩, some 1⟩,
    a.event.Idle ∧ ¬ a.event.ClosesOpen := by
  have hall : (TimedStep.happenings 1 ⟨1, ⟨0, waiting⟩, some 1⟩).all (fun a =>
      decide ((a.event.effects = [] ∧ a.event.continuousEffects = [] ∧ a.event.simulated = none) ∧
        a.event.kind ≠ .endCondition)) = true := by decide +kernel
  intro a ha
  obtain ⟨hidle, hkind⟩ := of_decide_eq_true (List.all_eq_true.mp hall a ha)
  exact ⟨hidle, Event.not_closesOpen hkind⟩

theorem validate_handover : Placeable (steps waiting) ∧ 0 < validator.epsilon ∧
    (∀ p ∈ validator.provider, p.Impartial) ∧
    ((steps waiting).Pairwise fun s s' => s'.start < s.start → s.Calm validator.epsilon s') ∧
    ∃ p r r', StnPlan.ofTimedSteps (steps waiting) = .ok p ∧
      p.schedule = .ok (byStart (steps waiting)) ∧
      (validator.validate problem (.timed (steps waiting))).outcome.1 = .ok r ∧
      (validator.validate problem (.stn p)).outcome.1 = .ok r' ∧ r.status = r'.status := by
  have himpartial : ∀ p ∈ validator.provider, p.Impartial := fun p hp =>
    Option.mem_some_iff.mp hp ▸ EffectProvider.impartial_ofTable _
  have hcalm : (steps waiting).Pairwise fun s s' => s'.start < s.start →
      s.Calm validator.epsilon s' :=
    List.pairwise_pair.mpr fun _ => TimedStep.calm_of_idle idle_waiting _
  obtain ⟨hplaceable, p', r, r', hp', hr, hr', -⟩ := statuses_waiting
  obtain ⟨p, hp, hschedule, hstatus⟩ := StnPlan.validate_ofTimedSteps hplaceable
  obtain rfl := Except.ok.inj (hp.symm.trans hp')
  exact ⟨hplaceable, zero_lt_one' Rat, himpartial, hcalm, p, r, r', hp, hschedule, hr, hr',
    (hstatus validator problem).2 (zero_lt_one' Rat) himpartial hcalm r r' hr hr'⟩

end Handover

namespace Lottery

def drawAction : InstantaneousAction := ⟨"draw", [], [], [], some ⟨⟨.start, 0⟩, [⟨"won", []⟩]⟩⟩

def passAction : InstantaneousAction := ⟨"pass", [], [], [], none⟩

def draw : GroundAction := .ofAction (.instantaneous drawAction)

def pass : GroundAction := .ofAction (.instantaneous passAction)

def problem : Problem :=
  { Problem.ofActions "lottery" [.flag "won" false] [draw.action, pass.action] with
    goals := [.fluent "won" []] }

def wheel : EffectProvider := ⟨fun r => .ok [.bool (decide (r.activity.id = 1))]⟩

def validator : Validator := ⟨1, none, some wheel, false⟩

def sim : Simulator := .unused 0 problem 1 (some wheel) Validator.component []

def numbered : Simulator := { sim with nextActivity := 3, nextEvent := 6 }

def steps : List TimedStep := [⟨1, ⟨0, draw⟩, none⟩, ⟨0, ⟨1, pass⟩, none⟩]

theorem statuses_steps : Placeable steps ∧ Statuses validator problem steps "VALID" "INVALID" :=
  statuses_of_runs numbered (stepped sim steps) (stepped sim steps.reverse) [2, 3, 0, 1]
    [0, 1, 2, 3] rfl (Simulator.new_unused rfl) rfl rfl rfl (byStart_swap (zero_lt_one' Rat))
    (by with_unfolding_all rfl) (by with_unfolding_all rfl) (by decide +kernel)

end Lottery

namespace Vigil

def lit : Expr := .fluent "lit" []

def dousing : Effect := .setFlag "lit" false

def watch : GroundAction := .ofAction (.durative
  (.ofLength "watch" 2 [⟨⟨⟨.start, 0⟩, ⟨.finish, 0⟩, false, true⟩, lit⟩] []))

def douse : GroundAction := .ofAction (.durative (.ofLength "douse" 3 [] [⟨⟨.start, 2⟩, dousing⟩]))

def problem : Problem := .ofActions "vigil" [.flag "lit" true] [watch.action, douse.action]

def validator : Validator := ⟨1, none, none, false⟩

def sim : Simulator := .unused 0 problem 1 none Validator.component []

def numbered : Simulator := { sim with nextActivity := 3, nextEvent := 10 }

def steps : List TimedStep := [⟨1, ⟨0, watch⟩, some 2⟩, ⟨0, ⟨1, douse⟩, some 3⟩]

section Events

variable (n : Nat) (a : Activity)

def kept : IntervalCondition :=
  ⟨n + 1, a, .conjunction [lit], 0, 2, false, true, [], [], none, "[0, 2)"⟩

def doused : IntervalCondition :=
  ⟨n + 1, a, .conjunction [], 2, 2, false, false, [], [dousing], none, "[2, 2]"⟩

def inner (i : IntervalCondition) (label : String) (opening closing length : Rat) : List Event :=
  [.startCondition (Clock.place ⟨1, n⟩ 1 a opening false ("open" ++ label)) i,
    .endCondition (Clock.place ⟨1, n⟩ 2 a closing false ("close" ++ label)) i,
    .endAction (Clock.place ⟨1, n⟩ 3 a length false "end") .empty]

def begin (body : ActionBody) (length : Rat) (committed : List Event) : Event :=
  .startAction (Clock.place ⟨1, n⟩ 0 a 0 false "start") body length committed

def watching : List Event := inner n a (kept n a) "[0, 2)" 0 1 2

def dousings : List Event := inner n a (doused n a) "[2, 2]" 2 2 3

theorem sort_inner (i : IntervalCondition) (label : String) {opening closing length : Rat}
    (h : opening ≤ closing) (h' : closing ≤ length) :
    Event.sort (inner n a i label opening closing length) =
      inner n a i label opening closing length := by
  refine List.mergeSort_of_pairwise ?_
  have hkeys : (inner n a i label opening closing length).Pairwise fun e f => e.key ≤ f.key := by
    refine List.pairwise_cons.mpr ⟨List.forall_mem_cons.mpr ⟨?_, List.forall_mem_singleton.mpr ?_⟩,
      List.pairwise_pair.mpr ?_⟩
    · exact Event.key_le_of_offset h (by simp [Event.kind, EventKind.rank])
    · exact Event.key_le_of_offset (h.trans h') (by simp [Event.kind, EventKind.rank])
    · exact Event.key_le_of_offset h' (by simp [Event.kind, EventKind.rank])
  exact hkeys.imp fun hkey => decide_eq_true (Event.compare_iff.mpr hkey)

theorem events_watch : watch.action.events ⟨1, n⟩ a (some 2) =
    .ok (begin n a ⟨[lit], [], none⟩ 2 (watching n a) :: watching n a) := by
  rw [watching, ← sort_inner n a _ _ (by decide +kernel) (by decide +kernel)]
  with_unfolding_all rfl

theorem events_douse : douse.action.events ⟨1, n⟩ a (some 3) =
    .ok (begin n a .empty 3 (dousings n a) :: dousings n a) := by
  rw [dousings, ← sort_inner n a _ _ (by decide +kernel) (by decide +kernel)]
  with_unfolding_all rfl

end Events

def watched (n m k : Nat) : List Scheduled :=
  (begin m ⟨0, n, some watch⟩ ⟨[lit], [], none⟩ 2 (watching m ⟨0, n, some watch⟩) ::
    watching m ⟨0, n, some watch⟩).map fun e => ⟨e, 1 + e.offset, .step k⟩

def put (n m k : Nat) : List Scheduled :=
  (begin m ⟨0, n, some douse⟩ .empty 3 (dousings m ⟨0, n, some douse⟩) ::
    dousings m ⟨0, n, some douse⟩).map fun e => ⟨e, 0 + e.offset, .step k⟩

theorem mem_watch : watch.action ∈ problem.actions := List.mem_cons_self

theorem mem_douse : douse.action ∈ problem.actions := List.mem_cons_of_mem _ List.mem_cons_self

theorem stepEvents_steps :
    stepEvents sim 0 steps = (numbered, .ok (watched 1 2 0 ++ (put 2 6 1 ++ []))) :=
  stepEvents_of_events mem_watch (events_watch 2 _)
    (stepEvents_of_events mem_douse (events_douse 6 _) rfl)

theorem stepEvents_sorted :
    stepEvents sim 0 steps.reverse = (numbered, .ok (put 1 2 0 ++ (watched 2 6 1 ++ []))) :=
  stepEvents_of_events mem_douse (events_douse 2 _)
    (stepEvents_of_events mem_watch (events_watch 6 _) rfl)

theorem statuses_steps : Placeable steps ∧ Statuses validator problem steps "VALID" "INVALID" :=
  statuses_of_runs numbered _ _ [4, 0, 1, 5, 2, 6, 3, 7] [0, 4, 5, 1, 2, 6, 3, 7] rfl
    (Simulator.new_unused rfl) rfl rfl rfl (byStart_swap (zero_lt_one' Rat)) stepEvents_steps
    stepEvents_sorted (by decide +kernel)

end Vigil

theorem statuses_differ :
    (Placeable (Handover.steps Handover.taking) ∧ 0 < Handover.validator.epsilon ∧
      Statuses Handover.validator Handover.problem (Handover.steps Handover.taking)
        "INVALID" "VALID") ∧
    (Placeable Vigil.steps ∧ 0 < Vigil.validator.epsilon ∧
      Statuses Vigil.validator Vigil.problem Vigil.steps "VALID" "INVALID") ∧
    (Placeable Lottery.steps ∧ 0 < Lottery.validator.epsilon ∧
      Statuses Lottery.validator Lottery.problem Lottery.steps "VALID" "INVALID") :=
  ⟨⟨Handover.statuses_taking.1, zero_lt_one' Rat, Handover.statuses_taking.2⟩,
    ⟨Vigil.statuses_steps.1, zero_lt_one' Rat, Vigil.statuses_steps.2⟩,
    ⟨Lottery.statuses_steps.1, zero_lt_one' Rat, Lottery.statuses_steps.2⟩⟩

end TemporalPlanning
