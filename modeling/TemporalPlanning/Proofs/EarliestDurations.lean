import TemporalPlanning.Proofs.EarliestSchedules
import TemporalPlanning.Proofs.UnbuiltPlans

namespace TemporalPlanning

namespace StnPlan

variable {p : StnPlan ActionInstance} {D : Rows (Timepoint ActionInstance)}
  {E : Timepoint ActionInstance → Rat} {steps : List TimedStep}

def Forward (p : StnPlan ActionInstance) (t : Timepoint ActionInstance → Rat) : Prop :=
  ∀ s, s.action.isDurative = true → .start s ∈ p.nodes → .finish s ∈ p.nodes →
    t (.start s) ≤ t (.finish s)

structure Lasts (p : StnPlan ActionInstance) (E : Timepoint ActionInstance → Rat)
    (x : TimedStep) : Prop where
  isSome : x.duration.isSome = x.step.action.isDurative
  start : x.start = if .start x.step ∈ p.nodes then E (.start x.step) else 0
  duration : ∀ d ∈ x.duration,
    d = if .finish x.step ∈ p.nodes then E (.finish x.step) - x.start else 0

theorem duration_earliestStep (s : ActionInstance) : (p.earliestStep D s).duration =
    if s.action.isDurative then
      some (if .finish s ∈ p.nodes then earliest D (.finish s) - earliest D (.start s) else 0)
    else none := by
  by_cases hfinish : Timepoint.finish s ∈ p.nodes
  · simp [earliestStep, hfinish]
  · simp [earliestStep, hfinish]

theorem WellFormed.lasts_earliestStep (h : p.WellFormed) (hD : p.closure = .ok D)
    (s : ActionInstance) : p.Lasts (StnPlan.earliest D) (p.earliestStep D s) where
  isSome := by
    rw [duration_earliestStep, earliestStep]
    cases s.action.isDurative with
    | true => rfl
    | false => rfl
  start := by
    by_cases hstart : Timepoint.start s ∈ p.nodes
    · simp [earliestStep, hstart]
    · simp [earliestStep, hstart, h.earliest_of_notMem hD hstart]
  duration d hd := by
    rw [duration_earliestStep, Option.mem_def] at hd
    split at hd
    · exact (Option.some.inj hd).symm
    · cases hd

theorem Lasts.nonneg_iff {x : TimedStep} (h : p.Lasts E x) (hE : p.Earliest E) :
    (∀ d ∈ x.duration, 0 ≤ d) ↔ (x.step.action.isDurative = true → .start x.step ∈ p.nodes →
      .finish x.step ∈ p.nodes → E (.start x.step) ≤ E (.finish x.step)) := by
  constructor
  · intro hnonneg hdurative hstart hfinish
    obtain ⟨d, hd⟩ := Option.isSome_iff_exists.mp (h.isSome.trans hdurative)
    have hle := hnonneg d hd
    rw [h.duration d hd, if_pos hfinish, h.start, if_pos hstart] at hle
    exact sub_nonneg.mp hle
  · intro hforward d hd
    have hdurative : x.step.action.isDurative = true :=
      h.isSome.symm.trans (Option.isSome_iff_exists.mpr ⟨d, hd⟩)
    rw [h.duration d hd]
    split
    · rename_i hfinish
      rw [h.start]
      split
      · rename_i hstart
        exact sub_nonneg.mpr (hforward hdurative hstart hfinish)
      · -- no timepoint of the plan comes before the plan starts
        rw [sub_zero, ← hE.zero]
        exact (hE.satisfies.between _ hfinish).1
    · exact le_rfl

theorem nonneg_iff_forward (hE : p.Earliest E) (hlasts : ∀ x ∈ steps, p.Lasts E x)
    (hsteps : ∀ s ∈ p.instances, ∃ x ∈ steps, x.step = s) :
    (∀ x ∈ steps, ∀ d ∈ x.duration, 0 ≤ d) ↔ p.Forward E := by
  constructor
  · intro hnonneg s hdurative hstart hfinish
    obtain ⟨x, hx, rfl⟩ := hsteps s (mem_instances.mpr (.inl hstart))
    exact ((hlasts x hx).nonneg_iff hE).mp (hnonneg x hx) hdurative hstart hfinish
  · intro hforward x hx
    exact ((hlasts x hx).nonneg_iff hE).mpr (hforward x.step)

theorem Built.durations_earliest (h : p.Built) (hc : p.isConsistent = true) :
    ∃ steps E, p.schedule = .ok steps ∧ p.Earliest E ∧ (∀ x ∈ steps, p.Lasts E x) ∧
      ((∀ x ∈ steps, ∀ d ∈ x.duration, 0 ≤ d) ↔ p.Forward E) ∧
      ((∀ t, p.Satisfies t → p.Forward t) → p.Forward E) ∧
      ∀ (v : Validator) (problem : Problem),
        (∀ f, (v.validate problem (.stn p)).outcome.1 = .error f → f.kind = .invalidDuration →
          (∃ x ∈ steps, f.Denies x.step.action x.duration) ∨
            ∃ q ∈ v.provider, ∃ request, q.values request = .error f) ∧
        ∀ r, (v.validate problem (.stn p)).outcome.1 = .ok r → p.Forward E := by
  have hp := h.wellFormed
  obtain ⟨D, hD⟩ := closure_of_consistent hc
  have hschedule := schedule_of_closure hD
  have hearliest := hp.earliest hD
  have hlasts : ∀ x ∈ p.earliestSteps D, p.Lasts (earliest D) x := by
    intro x hx
    obtain ⟨s, -, rfl⟩ := mem_earliestSteps.mp hx
    exact hp.lasts_earliestStep hD s
  have hforward := nonneg_iff_forward hearliest hlasts fun s hs =>
    ⟨p.earliestStep D s, mem_earliestSteps.mpr ⟨s, hs, rfl⟩, rfl⟩
  refine ⟨p.earliestSteps D, earliest D, hschedule, hearliest, hlasts, hforward,
    fun hall => hall _ hearliest.satisfies, fun v problem => ⟨fun f hf hkind => ?_, fun r hr => ?_⟩⟩
  · rcases Validator.fault_of_plan hf with rfl | hf
    · exact absurd hkind (Fault.OfExecution.kind_ne trivial)
    · rw [Validator.dispatch_stn hschedule] at hf
      exact Validator.denies_of_dispatch (fun x hx => (hlasts x hx).isSome) hf hkind
  · have hr := (Validator.validate_stn_ok hschedule).mp hr
    exact hforward.mp fun x hx d hd => Validator.nonneg_of_validate hr hx hd

end StnPlan

namespace Blink

theorem forward_relay {t : Timepoint ActionInstance → Rat} (h : relay.Satisfies t) :
    relay.Forward t := by
  intro s _ hstart _
  have hnodes : relay.nodes =
      [.planStart, .planEnd, .start first, .finish first, .finish second] := by decide +kernel
  obtain rfl : s = first := by simpa [hnodes] using hstart
  have hweight : relay.rows.weight? (.finish first) (.start first) = some (-2) := by
    decide +kernel
  have hle := h.admits _ _ _ hweight
  linarith

theorem durations_earliest_relay : relay.isConsistent = true ∧
    (∃ steps, relay.schedule = .ok steps ∧ ∀ x ∈ steps, ∀ d ∈ x.duration, 0 ≤ d) ∧
    ∀ f, (validator.validate problem (.stn relay)).outcome.1 = .error f →
      f.kind ≠ .invalidDuration := by
  have hc : relay.isConsistent = true := by decide +kernel
  obtain ⟨steps, E, hsteps, -, -, hnonneg, hforward, hvalidate⟩ :=
    built_relay.durations_earliest hc
  have hall := hnonneg.mpr (hforward fun t => forward_relay)
  refine ⟨hc, ⟨steps, hsteps, hall⟩, fun f hf hkind => ?_⟩
  rcases (hvalidate validator problem).1 f hf hkind with ⟨x, hx, d, hd, hneg, -⟩ | ⟨q, hq, -⟩
  · exact hneg.not_ge (hall x hx d hd)
  · cases hq

def loose : StnPlan ActionInstance := .ofConstraints
  [(.planStart, ⟨some 5, none, .start first⟩), (.planStart, ⟨some 0, none, .finish first⟩)]

theorem schedule_loose : loose.schedule = .ok [⟨5, first, some (-5)⟩] :=
  StnPlan.schedule_of_sorted (by decide +kernel) (List.pairwise_singleton _ _)

theorem denied_loose : loose.Built ∧ loose.isConsistent = true ∧
    loose.schedule = .ok [⟨5, first, some (-5)⟩] ∧
    (validator.validate problem (.stn loose)).outcome.1 =
      .error (.negativeDuration "blink" (-5)) ∧
    (Fault.negativeDuration "blink" (-5)).kind = .invalidDuration := by
  refine ⟨.ofConstraints _, by decide +kernel, schedule_loose, ?_, rfl⟩
  rw [validator.result_validate problem rfl, Validator.dispatch_stn schedule_loose]
  with_unfolding_all rfl

end Blink

end TemporalPlanning
