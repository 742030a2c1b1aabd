import TemporalPlanning.Proofs.StartOrder

namespace TemporalPlanning

structure StablySorted {α : Type} (key : α → Rat) (xs ys : List α) : Prop where
  perm : ys.Perm xs
  increasing : ys.Pairwise fun x y => key x ≤ key y
  stable : ∀ q, ys.filter (fun y => key y = q) = xs.filter fun x => key x = q

variable {steps : List TimedStep}

theorem filter_byStart (steps : List TimedStep) (q : Rat) :
    (byStart steps).filter (fun x => x.start = q) = steps.filter fun x => x.start = q := by
  have hperm : (byStart steps).Perm steps := List.mergeSort_perm _ _
  have htied : (steps.filter fun x => x.start = q).Pairwise
      fun x y => decide (x.start ≤ y.start) = true := by
    refine List.pairwise_iff_forall_sublist.mpr fun {x y} hxy => ?_
    have hstart (z : TimedStep) (hz : z ∈ [x, y]) : z.start = q := by
      simpa using (List.mem_filter.mp (hxy.subset hz)).2
    rw [hstart x (by simp), hstart y (by simp)]
    exact decide_eq_true le_rfl
  have hsub : (steps.filter fun x => x.start = q).Sublist (byStart steps) :=
    List.sublist_mergeSort TimedStep.start_trans TimedStep.start_total htied List.filter_sublist
  have hkept := hsub.filter fun x => x.start = q
  rw [List.filter_filter] at hkept
  simp only [Bool.and_self] at hkept
  exact (hkept.eq_of_length_le (hperm.filter _).length_eq.le).symm

theorem stablySorted_byStart (steps : List TimedStep) :
    StablySorted TimedStep.start steps (byStart steps) where
  perm := List.mergeSort_perm _ _
  increasing := (List.pairwise_mergeSort TimedStep.start_trans TimedStep.start_total _).imp
    of_decide_eq_true
  stable := filter_byStart steps

namespace StnPlan

variable {s : TimedStep} {t : Timepoint ActionInstance → Rat}

theorem times_of_satisfies (ht : (ofConstraints (steps.flatMap timing)).Satisfies t)
    (hs : s ∈ steps) : t (.start s.step) = t .planStart + s.start ∧
      t (.finish s.step) = t .planStart + s.finish := by
  obtain ⟨-, -, -, hstart, hfinish⟩ := keeps_timing.mp ((satisfies_timing.mp ht).2 s hs)
  unfold TimedStep.finish
  constructor <;> linarith

theorem isConsistent_timing (h : Measured steps) :
    (ofConstraints (steps.flatMap timing)).isConsistent = true ↔
      ∀ s ∈ steps, 0 ≤ s.start ∧ 0 ≤ s.finish := by
  rw [(wellFormed_ofConstraints _).isConsistent_iff]
  constructor
  · rintro ⟨t, ht⟩ s hs
    obtain ⟨-, hstart, hfinish, -⟩ := keeps_timing.mp ((satisfies_timing.mp ht).2 s hs)
    obtain ⟨hs, hf⟩ := times_of_satisfies ht hs
    have hafter := hstart.1
    have hlate := hfinish.1
    constructor <;> linarith
  · exact fun hnonneg => ⟨_, satisfies_placed h hnonneg⟩

theorem ofTimedSteps_round_trip (h : Measured steps) :
    ∃ p, ofTimedSteps steps = .ok p ∧
      (p.isConsistent = true ↔ ∀ s ∈ steps, 0 ≤ s.start ∧ 0 ≤ s.finish) ∧
      (p.isConsistent = true →
        (∃ t, p.Satisfies t ∧ t .planStart = 0) ∧
        (∀ t, p.Satisfies t → t .planStart = 0 →
          ∀ s ∈ steps, t (.start s.step) = s.start ∧ t (.finish s.step) = s.finish) ∧
        ∃ sorted, p.schedule = .ok sorted ∧ StablySorted TimedStep.start steps sorted) := by
  refine ⟨_, ofTimedSteps_of_measured h, isConsistent_timing h, fun hc => ⟨?_, ?_, ?_⟩⟩
  · exact ⟨_, satisfies_placed h ((isConsistent_timing h).mp hc), rfl⟩
  · intro t ht hzero s hs
    obtain ⟨hstart, hfinish⟩ := times_of_satisfies ht hs
    rw [hstart, hfinish, hzero, zero_add, zero_add]
    exact ⟨rfl, rfl⟩
  · exact ⟨_, schedule_of_measured h hc, stablySorted_byStart steps⟩

end StnPlan

namespace Blink

def reversed : List TimedStep := [⟨3, second, some (-2)⟩, ⟨0, first, some 2⟩]

theorem round_trip_reversed : Measured reversed ∧
    ∃ p, StnPlan.ofTimedSteps reversed = .ok p ∧ p.isConsistent = true ∧
      (∀ t, p.Satisfies t → t .planStart = 0 → t (.finish second) = 1) ∧
      ∃ sorted, p.schedule = .ok sorted ∧ StablySorted TimedStep.start reversed sorted := by
  have h : Measured reversed := ⟨by decide, by decide +kernel⟩
  obtain ⟨p, hp, hconsistent, hrest⟩ := StnPlan.ofTimedSteps_round_trip h
  have hc : p.isConsistent = true := hconsistent.mpr (by decide +kernel)
  obtain ⟨-, htimes, hschedule⟩ := hrest hc
  refine ⟨h, p, hp, hc, fun t ht hzero => ?_, hschedule⟩
  have hfinish := (htimes t ht hzero ⟨3, second, some (-2)⟩ List.mem_cons_self).2
  rw [hfinish]
  decide +kernel

end Blink

end TemporalPlanning
