import TemporalPlanning.Proofs.ConditionsInside
import TemporalPlanning.Proofs.EarliestExecution
import TemporalPlanning.Proofs.ExactDistances
import TemporalPlanning.Proofs.Linearizations

namespace TemporalPlanning

theorem TimedStep.start_trans (x y z : TimedStep) (hxy : decide (x.start ≤ y.start) = true)
    (hyz : decide (y.start ≤ z.start) = true) : decide (x.start ≤ z.start) = true :=
  decide_eq_true ((of_decide_eq_true hxy).trans (of_decide_eq_true hyz))

theorem TimedStep.start_total (x y : TimedStep) :
    (decide (x.start ≤ y.start) || decide (y.start ≤ x.start)) = true := by
  simpa using le_total x.start y.start

namespace StnPlan

variable {p : StnPlan ActionInstance} {D : Rows (Timepoint ActionInstance)}
  {s : ActionInstance} {a : Timepoint ActionInstance}

theorem mem_instances : s ∈ p.instances ↔ .start s ∈ p.nodes ∨ .finish s ∈ p.nodes := by
  unfold instances
  rw [List.mem_eraseDups, List.mem_filterMap]
  constructor
  · rintro ⟨a, ha, hs⟩
    cases a with
    | planStart => simp [Timepoint.step?] at hs
    | planEnd => simp [Timepoint.step?] at hs
    | start s' => exact .inl (Option.some.inj hs ▸ ha)
    | finish s' => exact .inr (Option.some.inj hs ▸ ha)
  · rintro (hs | hs)
    · exact ⟨.start s, hs, rfl⟩
    · exact ⟨.finish s, hs, rfl⟩

def earliestSteps (p : StnPlan ActionInstance) (D : Rows (Timepoint ActionInstance)) :
    List TimedStep :=
  (p.instances.map (p.earliestStep D)).mergeSort fun x y => x.start ≤ y.start

theorem mem_earliestSteps {x : TimedStep} :
    x ∈ p.earliestSteps D ↔ ∃ s ∈ p.instances, p.earliestStep D s = x :=
  (List.mergeSort_perm _ _).mem_iff.trans List.mem_map

theorem schedule_of_closure (hD : p.closure = .ok D) : p.schedule = .ok (p.earliestSteps D) := by
  unfold schedule
  rw [if_pos (closure_ok hD).1, hD]
  rfl

theorem steps_earliestSteps : ((p.earliestSteps D).map TimedStep.step).Perm p.instances := by
  have hsteps : (p.instances.map (p.earliestStep D)).map TimedStep.step = p.instances := by
    rw [List.map_map]
    exact List.map_id p.instances
  exact hsteps ▸ (List.mergeSort_perm _ _).map TimedStep.step

theorem pairwise_earliestSteps :
    (p.earliestSteps D).Pairwise fun x y => x.start ≤ y.start :=
  (List.pairwise_mergeSort TimedStep.start_trans TimedStep.start_total _).imp of_decide_eq_true

theorem WellFormed.weight_planStart (h : p.WellFormed) (hD : p.closure = .ok D)
    (ha : a ∈ p.nodes) : D.weight? a .planStart = some (-StnPlan.earliest D a) := by
  obtain ⟨w, v, hv, -⟩ := (h.tightest hD).exists_bound h (closure_ok hD).1 ha
  simp [StnPlan.earliest, hv]

theorem Built.schedule_earliest (h : p.Built) (hc : p.isConsistent = true) :
    ∃ D steps E, p.closure = .ok D ∧ p.schedule = .ok steps ∧
      (∀ a ∈ p.nodes, D.weight? a .planStart = some (-E a)) ∧ p.Earliest E ∧
      (steps.map TimedStep.step).Perm p.instances ∧ p.instances.Nodup ∧
      (∀ s, s ∈ p.instances ↔ .start s ∈ p.nodes ∨ .finish s ∈ p.nodes) ∧
      steps.Pairwise (fun x y => x.start ≤ y.start) ∧
      ∀ x ∈ steps, (.start x.step ∈ p.nodes → x.start = E (.start x.step)) ∧
        (x.step.action.isDurative = true → .finish x.step ∈ p.nodes →
          ∃ d, x.duration = some d ∧ x.start + d = E (.finish x.step)) := by
  have hp := h.wellFormed
  obtain ⟨D, hD⟩ := closure_of_consistent hc
  refine ⟨D, p.earliestSteps D, earliest D, hD, schedule_of_closure hD,
    fun a ha => hp.weight_planStart hD ha, hp.earliest hD, steps_earliestSteps,
    PartialPlan.nodup_eraseDups _, fun s => mem_instances, pairwise_earliestSteps, fun x hx => ?_⟩
  obtain ⟨s, -, rfl⟩ := List.mem_map.mp ((List.mergeSort_perm _ _).mem_iff.mp hx)
  refine ⟨fun _ => rfl, fun hdurative hfinish => ?_⟩
  have hs : s.action.isDurative = true := hdurative
  have hn : Timepoint.finish s ∈ p.nodes := hfinish
  refine ⟨earliest D (.finish s) - earliest D (.start s), ?_, add_sub_cancel _ _⟩
  simp only [earliestStep, hs, if_true, if_pos hn]

end StnPlan

namespace Blink

def first : ActionInstance := ⟨0, ground⟩

def second : ActionInstance := ⟨1, ground⟩

def relay : StnPlan ActionInstance := .ofConstraints
  [(.start first, ⟨some 2, some 3, .finish first⟩), (.finish first, ⟨some 1, none, .finish second⟩)]

theorem built_relay : relay.Built := .ofConstraints _

theorem schedule_earliest_relay : relay.isConsistent = true ∧
    ∃ D steps E, relay.closure = .ok D ∧ relay.schedule = .ok steps ∧ relay.Earliest E ∧
      (∀ s, s ∈ steps.map TimedStep.step ↔ s = first ∨ s = second) ∧
      ∀ x ∈ steps, x.step = first →
        x.start = E (.start first) ∧
          ∃ d, x.duration = some d ∧ x.start + d = E (.finish first) := by
  have hc : relay.isConsistent = true := by decide +kernel
  obtain ⟨D, steps, E, hD, hsteps, -, hearliest, hperm, -, -, -, htimes⟩ :=
    built_relay.schedule_earliest hc
  have hinstances : relay.instances = [first, second] := by decide +kernel
  have hstart : Timepoint.start first ∈ relay.nodes := by decide +kernel
  have hfinish : Timepoint.finish first ∈ relay.nodes := by decide +kernel
  refine ⟨hc, D, steps, E, hD, hsteps, hearliest, fun s => ?_, fun x hx hfirst => ?_⟩
  · rw [hperm.mem_iff, hinstances, List.mem_pair]
  · have htimes := htimes x hx
    rw [hfirst] at htimes
    exact ⟨htimes.1 hstart, htimes.2 rfl hfinish⟩

end Blink

end TemporalPlanning
