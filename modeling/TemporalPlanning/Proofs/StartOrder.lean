import TemporalPlanning.Proofs.EarliestSchedules

namespace TemporalPlanning

structure Placeable (steps : List TimedStep) : Prop where
  distinct : (steps.map TimedStep.step).Nodup
  start : ∀ s ∈ steps, 0 ≤ s.start
  durative : ∀ s ∈ steps, s.step.action.isDurative = true → ∃ d, s.duration = some d ∧ 0 ≤ d
  instantaneous : ∀ s ∈ steps, s.step.action.isDurative = false → s.duration = none

theorem placeable_iff {steps : List TimedStep} : Placeable steps ↔
    (steps.map TimedStep.step).Nodup ∧ ∀ s ∈ steps, 0 ≤ s.start ∧
      s.duration.isSome = s.step.action.isDurative ∧ 0 ≤ s.duration.getD 0 := by
  constructor
  · intro h
    refine ⟨h.distinct, fun s hs => ⟨h.start s hs, ?_⟩⟩
    cases hdurative : s.step.action.isDurative with
    | false => simp [h.instantaneous s hs hdurative]
    | true =>
        obtain ⟨d, hd, hnonneg⟩ := h.durative s hs hdurative
        simpa [hd] using hnonneg
  · rintro ⟨hdistinct, hall⟩
    refine ⟨hdistinct, fun s hs => (hall s hs).1, fun s hs hdurative => ?_, fun s hs hinst => ?_⟩
    · obtain ⟨-, hsome, hnonneg⟩ := hall s hs
      obtain ⟨d, hd⟩ := Option.isSome_iff_exists.mp (hsome.trans hdurative)
      exact ⟨d, hd, by simpa [hd] using hnonneg⟩
    · simpa using (hall s hs).2.1.trans hinst

instance {steps : List TimedStep} : Decidable (Placeable steps) :=
  decidable_of_iff _ placeable_iff.symm

def TimedStep.finish (s : TimedStep) : Rat := s.start + s.duration.getD 0

structure Measured (steps : List TimedStep) : Prop where
  distinct : (steps.map TimedStep.step).Nodup
  durative : ∀ s ∈ steps, s.duration.isSome = s.step.action.isDurative

theorem Placeable.measured {steps : List TimedStep} (h : Placeable steps) : Measured steps :=
  ⟨h.distinct, fun s hs => ((placeable_iff.mp h).2 s hs).2.1⟩

theorem Placeable.nonneg {steps : List TimedStep} {s : TimedStep} (h : Placeable steps)
    (hs : s ∈ steps) : 0 ≤ s.start ∧ 0 ≤ s.finish := by
  obtain ⟨hstart, -, hlength⟩ := (placeable_iff.mp h).2 s hs
  exact ⟨hstart, add_nonneg hstart hlength⟩

def byStart (steps : List TimedStep) : List TimedStep :=
  steps.mergeSort fun x y => x.start ≤ y.start

namespace StnPlan

variable {steps : List TimedStep} {s : TimedStep} {p : StnPlan ActionInstance}
  {x : ActionInstance} {t : Timepoint ActionInstance → Rat}

abbrev StepConstraints : Type := List (Timepoint ActionInstance × StnConstraint ActionInstance)

section Constraints

def timing (s : TimedStep) : StepConstraints :=
  [(.planStart, ⟨some s.start, some s.start, .start s.step⟩),
    (.start s.step, ⟨some (s.duration.getD 0), some (s.duration.getD 0), .finish s.step⟩)]

theorem mapM_eq_ok {α β : Type} {f : α → Except Fault β} {g : α → β} {xs : List α}
    (h : ∀ x ∈ xs, f x = .ok (g x)) : xs.mapM f = .ok (xs.map g) := by
  induction xs with
  | nil => rfl
  | cons x xs ih =>
      rw [List.forall_mem_cons] at h
      rw [List.mapM_cons, h.1, ih h.2]
      rfl

theorem length_of_measured (h : Measured steps) (hs : s ∈ steps) :
    s.length = .ok (s.duration.getD 0) := by
  have hdurative := h.durative s hs
  unfold TimedStep.length
  cases hd : s.duration with
  | none => simp [← hdurative, hd]
  | some d => simp [← hdurative, hd]

theorem ofTimedSteps_of_measured (h : Measured steps) :
    ofTimedSteps steps = .ok (ofConstraints (steps.flatMap timing)) := by
  have hsteps (s : TimedStep) (hs : s ∈ steps) : stepConstraints s = .ok (timing s) := by
    rw [stepConstraints, length_of_measured h hs]
    rfl
  rw [ofTimedSteps, mapM_eq_ok hsteps, List.flatMap]
  rfl

theorem ofTimedSteps_eq (h : Placeable steps) :
    ofTimedSteps steps = .ok (ofConstraints (steps.flatMap timing)) :=
  ofTimedSteps_of_measured h.measured

end Constraints

section Instances

def addStep (p : StnPlan ActionInstance) (s : TimedStep) : StnPlan ActionInstance :=
  (timing s).foldl (fun p c => p.addConstraint c.1 c.2) p

theorem nodes_addStep (hplan : .planStart ∈ p.nodes) (hstart : .start s.step ∉ p.nodes)
    (hfinish : .finish s.step ∉ p.nodes) :
    (p.addStep s).nodes = p.nodes ++ [.start s.step, .finish s.step] := by
  let q := p.addConstraint .planStart ⟨some s.start, some s.start, .start s.step⟩
  have hq : q.nodes = p.nodes ++ [.start s.step] := by
    rw [nodes_addConstraint, addNode_of_mem hplan, nodes_addNode_of_notMem hstart]
  have hmem : Timepoint.start s.step ∈ q.nodes := by
    rw [hq]
    exact List.mem_append_right _ (List.mem_singleton.mpr rfl)
  have hnew : Timepoint.finish s.step ∉ q.nodes := by
    rw [hq]
    simp [hfinish]
  change (q.addConstraint (.start s.step)
    ⟨some (s.duration.getD 0), some (s.duration.getD 0), .finish s.step⟩).nodes = _
  rw [nodes_addConstraint, addNode_of_mem hmem, nodes_addNode_of_notMem hnew, hq,
    List.append_assoc]
  rfl

theorem nodes_addSteps (hplan : .planStart ∈ p.nodes)
    (hnew : ∀ s ∈ steps, .start s.step ∉ p.nodes ∧ .finish s.step ∉ p.nodes)
    (hdistinct : (steps.map TimedStep.step).Nodup) : (steps.foldl addStep p).nodes =
      p.nodes ++ steps.flatMap fun s => [.start s.step, .finish s.step] := by
  induction steps generalizing p with
  | nil => simp
  | cons s steps ih =>
      rw [List.forall_mem_cons] at hnew
      rw [List.map_cons, List.nodup_cons] at hdistinct
      have hnodes := nodes_addStep hplan hnew.1.1 hnew.1.2
      rw [List.foldl_cons, ih ?_ (fun x hx => ?_) hdistinct.2, hnodes, List.flatMap_cons,
        List.append_assoc]
      · rw [hnodes]
        exact List.mem_append_left _ hplan
      · have hne : x.step ≠ s.step := by
          intro heq
          exact hdistinct.1 (List.mem_map.mpr ⟨x, hx, heq⟩)
        simp [hnodes, hnew.2 x hx, hne]

theorem eraseDups_doubled {α : Type} [DecidableEq α] {xs : List α} (h : xs.Nodup) :
    (xs.flatMap fun x => [x, x]).eraseDups = xs := by
  induction xs with
  | nil => rfl
  | cons x xs ih =>
      rw [List.nodup_cons] at h
      have hrest : (xs.flatMap fun y => [y, y]).filter (fun y => !y == x) =
          xs.flatMap fun y => [y, y] := by
        refine List.filter_eq_self.mpr fun y hy => ?_
        obtain ⟨z, hz, hy⟩ := List.mem_flatMap.mp hy
        obtain rfl : y = z := by simpa using hy
        have hne : y ≠ x := fun heq => h.1 (heq ▸ hz)
        simpa using hne
      rw [List.flatMap_cons, List.cons_append, List.cons_append, List.nil_append,
        List.eraseDups_cons, List.filter_cons_of_neg (by simp), hrest, ih h.2]

theorem ofConstraints_timing (steps : List TimedStep) :
    ofConstraints (steps.flatMap timing) = steps.foldl addStep anchors :=
  List.foldl_flatMap

theorem instances_timing (h : Measured steps) :
    (ofConstraints (steps.flatMap timing)).instances = steps.map TimedStep.step := by
  have hnodes := nodes_addSteps (p := anchors) (by simp [anchors])
    (fun s _ => by simp [anchors]) h.distinct
  have hsteps : (steps.flatMap fun s => [Timepoint.start s.step, .finish s.step]).filterMap
      Timepoint.step? = (steps.map TimedStep.step).flatMap fun x => [x, x] := by
    rw [List.filterMap_flatMap, List.flatMap_map]
    rfl
  rw [instances, ofConstraints_timing, hnodes, List.filterMap_append, hsteps]
  exact eraseDups_doubled h.distinct

end Instances

section Times

variable {D : Rows (Timepoint ActionInstance)} {E : Timepoint ActionInstance → Rat}

theorem keeps_timing : (∀ c ∈ timing s, Keeps t c.1 c.2) ↔ Between t .planStart ∧
    Between t (.start s.step) ∧ Between t (.finish s.step) ∧
    t (.start s.step) - t .planStart = s.start ∧
    t (.finish s.step) - t (.start s.step) = s.duration.getD 0 := by
  simp only [timing, List.forall_mem_cons, Keeps, within_exactly]
  constructor
  · rintro ⟨⟨⟨hplan, hstart⟩, hs⟩, ⟨⟨-, hfinish⟩, hd⟩, -⟩
    exact ⟨hplan, hstart, hfinish, hs, hd⟩
  · rintro ⟨hplan, hstart, hfinish, hs, hd⟩
    exact ⟨⟨⟨hplan, hstart⟩, hs⟩, ⟨⟨hstart, hfinish⟩, hd⟩, by simp⟩

theorem satisfies_timing : (ofConstraints (steps.flatMap timing)).Satisfies t ↔
    t .planStart ≤ t .planEnd ∧ ∀ s ∈ steps, ∀ c ∈ timing s, Keeps t c.1 c.2 := by
  rw [(demands_ofConstraints _).satisfies_iff, List.forall_mem_flatMap]

def placed (steps : List TimedStep) : Timepoint ActionInstance → Rat
  | .planStart => 0
  | .planEnd => (steps.flatMap fun s => [s.start, s.finish]).foldl Number.larger 0
  | .start x => ((steps.find? (·.step = x)).map TimedStep.start).getD 0
  | .finish x => ((steps.find? (·.step = x)).map TimedStep.finish).getD 0

theorem find?_step (h : Measured steps) (hs : s ∈ steps) :
    steps.find? (·.step = s.step) = some s := by
  cases hfind : steps.find? (·.step = s.step) with
  | none =>
      have hne := List.find?_eq_none.mp hfind s hs
      simp at hne
  | some x =>
      have hx : x.step = s.step := by simpa using List.find?_some hfind
      rw [List.inj_on_of_nodup_map h.distinct (List.mem_of_find?_eq_some hfind) hs hx]

theorem satisfies_placed (h : Measured steps) (hnonneg : ∀ s ∈ steps, 0 ≤ s.start ∧ 0 ≤ s.finish) :
    (ofConstraints (steps.flatMap timing)).Satisfies (placed steps) := by
  have hlast := Number.le_foldl_larger (steps.flatMap fun s => [s.start, s.finish]) 0
  refine satisfies_timing.mpr ⟨hlast.1, fun s hs => keeps_timing.mpr ?_⟩
  have hstart : placed steps (.start s.step) = s.start := by simp [placed, find?_step h hs]
  have hfinish : placed steps (.finish s.step) = s.finish := by simp [placed, find?_step h hs]
  have hbefore (q : Rat) (hq : q ∈ [s.start, s.finish]) : q ≤ placed steps .planEnd :=
    hlast.2 q (List.mem_flatMap.mpr ⟨s, hs, hq⟩)
  have hzero : placed steps .planStart = 0 := rfl
  rw [Between, Between, Between, hstart, hfinish, hzero]
  refine ⟨⟨le_rfl, hlast.1⟩, ⟨(hnonneg s hs).1, hbefore _ (by simp)⟩,
    ⟨(hnonneg s hs).2, hbefore _ (by simp)⟩, sub_zero _, ?_⟩
  rw [TimedStep.finish, add_sub_cancel_left]

theorem earliestStep_timing (hE : (ofConstraints (steps.flatMap timing)).Earliest (earliest D))
    (h : Measured steps) (hs : s ∈ steps) :
    (ofConstraints (steps.flatMap timing)).earliestStep D s.step = s := by
  obtain ⟨-, -, -, hstart, hfinish⟩ :=
    keeps_timing.mp ((satisfies_timing.mp hE.satisfies).2 s hs)
  rw [hE.zero, sub_zero] at hstart
  have hnode : Timepoint.finish s.step ∈ (ofConstraints (steps.flatMap timing)).nodes := by
    refine (mem_nodes_ofConstraints _).mpr (.inr ?_)
    exact ⟨_, List.mem_flatMap.mpr ⟨s, hs, List.mem_cons_of_mem _ List.mem_cons_self⟩, .inr rfl⟩
  unfold earliestStep
  dsimp only
  rw [if_pos hnode, hstart]
  rw [hstart] at hfinish
  rw [hfinish, ← h.durative s hs]
  obtain ⟨start, step, duration⟩ := s
  cases duration <;> rfl

theorem schedule_of_measured (h : Measured steps)
    (hc : (ofConstraints (steps.flatMap timing)).isConsistent = true) :
    (ofConstraints (steps.flatMap timing)).schedule = .ok (byStart steps) := by
  have hp := wellFormed_ofConstraints (steps.flatMap timing)
  obtain ⟨D, hD⟩ := closure_of_consistent hc
  have hsteps : (ofConstraints (steps.flatMap timing)).instances.map
      ((ofConstraints (steps.flatMap timing)).earliestStep D) = steps := by
    rw [instances_timing h, List.map_map]
    refine (List.map_congr_left fun s hs => ?_).trans (List.map_id steps)
    exact earliestStep_timing (hp.earliest hD) h hs
  rw [schedule_of_closure hD, earliestSteps, hsteps]
  rfl

theorem schedule_timing (h : Placeable steps) :
    (ofConstraints (steps.flatMap timing)).schedule = .ok (byStart steps) := by
  refine schedule_of_measured h.measured ?_
  rw [(wellFormed_ofConstraints _).isConsistent_iff]
  exact ⟨_, satisfies_placed h.measured fun s hs => h.nonneg hs⟩

end Times

end StnPlan

end TemporalPlanning
