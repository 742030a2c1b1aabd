import TemporalPlanning.Proofs.ConstraintTuples
import TemporalPlanning.Proofs.TightestDistances

namespace TemporalPlanning.StnPlan

variable {σ : Type} [DecidableEq σ] {p : StnPlan σ} {D : Rows (Timepoint σ)}
  {t : Timepoint σ → Rat} {a b x : Timepoint σ} {q w : Rat}

theorem Satisfies.shift (ht : p.Satisfies t) (q : Rat) : p.Satisfies fun x => t x + q where
  between a ha := by
    obtain ⟨hstart, hend⟩ := ht.between a ha
    exact ⟨by linarith, by linarith⟩
  admits a b w hab := by
    have hle := ht.admits a b w hab
    linarith

def latest (D : Rows (Timepoint σ)) (a : Timepoint σ) (t : Timepoint σ → Rat)
    (x : Timepoint σ) : Rat :=
  match D.weight? a x with
  | some w => min w (t x)
  | none => t x

theorem latest_le : latest D a t x ≤ t x := by
  unfold latest
  split
  · exact min_le_right _ _
  · exact le_rfl

theorem latest_le_of_bounds (h : D.Bounds a x w) : latest D a t x ≤ w := by
  obtain ⟨v, hv, hvw⟩ := h
  simpa only [latest, hv] using (min_le_left v (t x)).trans hvw

theorem latest_of_weight (h : D.weight? a x = some w) (hw : w ≤ t x) : latest D a t x = w := by
  simpa only [latest, h] using min_eq_left hw

namespace Tightest

theorem satisfies_latest (hD : p.Tightest D) (hp : p.WellFormed) (hc : p.isConsistent = true)
    (ha : a ∈ p.nodes) (ht : p.Satisfies t) : p.Satisfies (latest D a t) := by
  refine (hp.admits_toNetwork hc).mp fun x y w hxy => ?_
  have hle := (hp.admits_toNetwork hc).mpr ht x y w hxy
  have hx := (hp.known_toNetwork hc hxy).1
  have hty : latest D a t y ≤ t y := latest_le
  cases hv : D.weight? a x with
  | none =>
      have htx : latest D a t x = t x := by simp only [latest, hv]
      linarith
  | some v =>
      -- `y` is within reach of `a` through `x`
      have hax : D.Bounds a x v := Rows.bounds_of_weight hv
      have hvy := latest_le_of_bounds (t := t) (hD.through hx ha hax (hD.edges x y w hxy))
      have htx : latest D a t x = min v (t x) := by simp only [latest, hv]
      rcases min_choice v (t x) with hmin | hmin
      · linarith
      · linarith

theorem weight_self (hD : p.Tightest D) (ha : a ∈ p.nodes) (ht : p.Satisfies t) :
    D.weight? a a = some 0 := by
  obtain ⟨v, hv, hle⟩ := hD.closed.zero a ha
  have hback := hD.sound t ht a a v hv
  rw [sub_self] at hback
  rw [hv, le_antisymm hle hback]

theorem exists_at_distance (hD : p.Tightest D) (hp : p.WellFormed) (hc : p.isConsistent = true)
    (ha : a ∈ p.nodes) (hw : D.weight? a b = some w) : ∃ t, p.Satisfies t ∧ t b - t a = w := by
  obtain ⟨s, hs⟩ := hp.isConsistent_iff.mp hc
  let late (x : Timepoint σ) : Rat := s x + (max 0 (s a - s b + w) - s a)
  have hlate : p.Satisfies late := hs.shift _
  have hself : latest D a late a = 0 := by
    refine latest_of_weight (hD.weight_self ha hs) ?_
    have hmax := le_max_left 0 (s a - s b + w)
    simp only [late]
    linarith
  have hdistance : latest D a late b = w := by
    refine latest_of_weight hw ?_
    have hmax := le_max_right 0 (s a - s b + w)
    simp only [late]
    linarith
  refine ⟨latest D a late, hD.satisfies_latest hp hc ha hlate, ?_⟩
  rw [hself, hdistance, sub_zero]

theorem weight_iff_bounded (hD : p.Tightest D) (hp : p.WellFormed) (hc : p.isConsistent = true)
    (ha : a ∈ p.nodes) :
    (∃ w, D.weight? a b = some w) ↔ ∃ u, ∀ t, p.Satisfies t → t b - t a ≤ u := by
  constructor
  · rintro ⟨w, hw⟩
    exact ⟨w, fun t ht => hD.sound t ht a b w hw⟩
  · rintro ⟨u, hu⟩
    by_contra hfree
    have hbounds (w : Rat) : ¬ D.Bounds a b w := fun ⟨v, hv, _⟩ => hfree ⟨v, hv⟩
    obtain ⟨t, ht⟩ := hp.isConsistent_iff.mp hc
    have hq : 0 ≤ u - (t b - t a) + 1 := by
      have hle := hu t ht
      linarith
    obtain ⟨s, hs, heq⟩ := hD.exists_earlier hp hc ha hbounds ht hq
    have hle := hu s hs
    linarith

end Tightest

theorem closure_of_consistent (hc : p.isConsistent = true) : ∃ D, p.closure = .ok D := by
  unfold closure
  rw [if_pos hc]
  exact ⟨_, rfl⟩

theorem closure_error_iff {f : Fault} :
    p.closure = .error f ↔ f = .closingInconsistent ∧ ¬ p.isConsistent = true := by
  unfold closure
  split
  · rename_i hc
    simp [hc]
  · rename_i hc
    simp [hc, eq_comm]

theorem Built.closure_exact (h : p.Built) :
    (∀ f, p.closure = .error f → f = .closingInconsistent) ∧
    ((∃ f, p.closure = .error f) ↔ ¬ ∃ t, p.Satisfies t) ∧
    ∀ D, p.closure = .ok D → ∀ a ∈ p.nodes, ∀ b ∈ p.nodes,
      ((∃ w, D.weight? a b = some w) ↔ ∃ u, ∀ t, p.Satisfies t → t b - t a ≤ u) ∧
      ∀ w, D.weight? a b = some w →
        (∀ t, p.Satisfies t → t b - t a ≤ w) ∧ ∃ t, p.Satisfies t ∧ t b - t a = w := by
  have hp := h.wellFormed
  refine ⟨fun f hf => (closure_error_iff.mp hf).1, ?_, fun D hD a ha b _ => ?_⟩
  · simp only [closure_error_iff, exists_eq_left, hp.isConsistent_iff]
  · have hc := (closure_ok hD).1
    have htightest := hp.tightest hD
    refine ⟨htightest.weight_iff_bounded hp hc ha, fun w hw => ⟨fun t ht => ?_, ?_⟩⟩
    · exact htightest.sound t ht a b w hw
    · exact htightest.exists_at_distance hp hc ha hw

theorem closure_exact_chain : ∃ D, chain.closure = .ok D ∧
    D.weight? (.start 1) (.start 3) = some 7 ∧
    (∀ t, chain.Satisfies t → t (.start 3) - t (.start 1) ≤ 7) ∧
    ∃ t, chain.Satisfies t ∧ t (.start 3) - t (.start 1) = 7 := by
  have h := Built.closure_exact (.ofConstraints _ : Built chain)
  have hc : chain.isConsistent = true := by decide +kernel
  obtain ⟨D, hD⟩ := closure_of_consistent hc
  have hw : D.weight? (.start 1) (.start 3) = some 7 := by
    rw [(closure_ok hD).2]
    decide +kernel
  obtain ⟨-, hexact⟩ := h.2.2 D hD (.start 1) (by decide +kernel) (.start 3) (by decide +kernel)
  exact ⟨D, hD, hw, hexact 7 hw⟩

end TemporalPlanning.StnPlan
