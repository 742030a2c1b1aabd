import TemporalPlanning.Proofs.Attempts
import TemporalPlanning.Proofs.Elimination
import TemporalPlanning.Stn.Schedule

namespace TemporalPlanning.StnPlan

variable {σ : Type} [DecidableEq σ] {p : StnPlan σ} {t : Timepoint σ → Rat}
  {C : (Timepoint σ → Rat) → Prop}

structure Demands (p : StnPlan σ) (C : (Timepoint σ → Rat) → Prop) : Prop where
  wellFormed : p.WellFormed
  satisfies_iff : ∀ t, p.Satisfies t ↔ C t

namespace Demands

theorem congr {D : (Timepoint σ → Rat) → Prop} (h : p.Demands C) (hCD : ∀ t, C t ↔ D t) :
    p.Demands D :=
  ⟨h.wellFormed, fun t => (h.satisfies_iff t).trans (hCD t)⟩

theorem anchors : (anchors : StnPlan σ).Demands fun t => t .planStart ≤ t .planEnd :=
  ⟨wellFormed_anchors, fun _ => satisfies_anchors⟩

theorem addNode (h : p.Demands C) (a : Timepoint σ) :
    (p.addNode a).Demands fun t => C t ∧ Between t a :=
  ⟨h.wellFormed.addNode a, fun t => by rw [satisfies_addNode, h.satisfies_iff]⟩

theorem addBound (h : p.Demands C) (a b : Timepoint σ) (w : Rat) :
    (p.addBound a b w).Demands fun t => C t ∧ Between t a ∧ Between t b ∧ t b - t a ≤ w :=
  ⟨h.wellFormed.addBound a b w, fun t => by rw [h.wellFormed.satisfies_addBound, h.satisfies_iff]⟩

theorem foldl {α : Type} {f : StnPlan σ → α → StnPlan σ} {P : α → (Timepoint σ → Rat) → Prop}
    (xs : List α) (hf : ∀ x ∈ xs, ∀ {p : StnPlan σ} {C : (Timepoint σ → Rat) → Prop},
      p.Demands C → (f p x).Demands fun t => C t ∧ P x t) (h : p.Demands C) :
    (xs.foldl f p).Demands fun t => C t ∧ ∀ x ∈ xs, P x t :=
  foldl_collects (R := Demands) congr hf h

end Demands

section Drop

theorem WellFormed.dropNodes (h : p.WellFormed) {xs : List (Timepoint σ)}
    (hxs : ∀ x ∈ xs, x.isGlobal = false) : (xs.foldl StnPlan.dropNode p).WellFormed :=
  List.foldlRecOn (motive := WellFormed) xs StnPlan.dropNode h
    fun _ hp x hx => hp.dropNode (hxs x hx)

theorem WellFormed.satisfies_dropNodes (h : p.WellFormed) {xs : List (Timepoint σ)}
    (hxs : ∀ x ∈ xs, x.isGlobal = false) : (xs.foldl StnPlan.dropNode p).Satisfies t ↔
      ∃ s, p.Satisfies s ∧ ∀ a, a ∉ xs → s a = t a := by
  -- each elimination looks for one more time, with those found before in place
  induction xs generalizing p with
  | nil =>
      constructor
      · intro ht
        exact ⟨t, ht, fun _ _ => rfl⟩
      · rintro ⟨s, hs, heq⟩
        exact h.satisfies_congr (fun a _ => heq a (by simp)) hs
  | cons x xs ih =>
      rw [List.forall_mem_cons] at hxs
      rw [List.foldl_cons, ih (h.dropNode hxs.1) hxs.2]
      constructor
      · rintro ⟨s, hs, heq⟩
        obtain ⟨q, hq⟩ := (h.satisfies_dropNode hxs.1).mp hs
        refine ⟨_, hq, fun a ha => ?_⟩
        obtain ⟨hne, ha⟩ := not_or.mp (List.mem_cons.not.mp ha)
        rw [Function.update_of_ne hne, heq a ha]
      · rintro ⟨s, hs, heq⟩
        refine ⟨Function.update s x (t x), (h.satisfies_dropNode hxs.1).mpr ⟨s x, ?_⟩,
          fun a ha => ?_⟩
        · rwa [Function.update_idem, Function.update_eq_self]
        · by_cases hax : a = x
          · rw [hax, Function.update_self]
          · rw [Function.update_of_ne hax, heq a (List.mem_cons.not.mpr (not_or.mpr ⟨hax, ha⟩))]

def Dropped (f : σ → Option σ) (a : Timepoint σ) : Prop := ∃ s, a.step? = some s ∧ f s = none

def droppedTimepoints (p : StnPlan σ) (f : σ → Option σ) : List (Timepoint σ) :=
  (p.instances.filter fun s => (f s).isNone).flatMap fun s => [.start s, .finish s]

theorem dropSteps_eq (p : StnPlan σ) (f : σ → Option σ) :
    p.dropSteps f = (p.droppedTimepoints f).foldl StnPlan.dropNode p := by
  rw [droppedTimepoints, List.foldl_flatMap]
  rfl

theorem isGlobal_of_dropped {f : σ → Option σ} :
    ∀ x ∈ p.droppedTimepoints f, x.isGlobal = false := by
  intro x hx
  obtain ⟨s, -, hx⟩ := List.mem_flatMap.mp hx
  rcases List.mem_pair.mp hx with rfl | rfl
  · rfl
  · rfl

theorem mem_droppedTimepoints {f : σ → Option σ} {a : Timepoint σ} (ha : a ∈ p.nodes) :
    a ∈ p.droppedTimepoints f ↔ Dropped f a := by
  have hinstance {s : σ} (hs : a.step? = some s) : s ∈ p.instances :=
    List.mem_eraseDups.mpr (List.mem_filterMap.mpr ⟨a, ha, hs⟩)
  constructor
  · intro hx
    obtain ⟨s, hs, hx⟩ := List.mem_flatMap.mp hx
    have hf : f s = none := by simpa using (List.mem_filter.mp hs).2
    rcases List.mem_pair.mp hx with rfl | rfl
    · exact ⟨s, rfl, hf⟩
    · exact ⟨s, rfl, hf⟩
  · rintro ⟨s, hs, hf⟩
    refine List.mem_flatMap.mpr ⟨s, List.mem_filter.mpr ⟨hinstance hs, by simp [hf]⟩, ?_⟩
    cases a with
    | planStart => simp [Timepoint.step?] at hs
    | planEnd => simp [Timepoint.step?] at hs
    | start s' =>
        obtain rfl : s' = s := by simpa [Timepoint.step?] using hs
        simp
    | finish s' =>
        obtain rfl : s' = s := by simpa [Timepoint.step?] using hs
        simp

theorem WellFormed.dropSteps (h : p.WellFormed) (f : σ → Option σ) :
    (p.dropSteps f).WellFormed := by
  rw [dropSteps_eq]
  exact h.dropNodes isGlobal_of_dropped

theorem WellFormed.satisfies_dropSteps (h : p.WellFormed) (f : σ → Option σ) :
    (p.dropSteps f).Satisfies t ↔
      ∃ s, p.Satisfies s ∧ ∀ a ∈ p.nodes, ¬ Dropped f a → s a = t a := by
  rw [dropSteps_eq, h.satisfies_dropNodes isGlobal_of_dropped]
  constructor
  · rintro ⟨s, hs, heq⟩
    exact ⟨s, hs, fun a ha hkept => heq a ((mem_droppedTimepoints ha).not.mpr hkept)⟩
  · rintro ⟨s, hs, heq⟩
    classical
    refine ⟨fun a => if a ∈ p.droppedTimepoints f then s a else t a,
      h.satisfies_congr (fun a ha => ?_) hs, fun a ha => if_neg ha⟩
    split
    · rfl
    · rename_i hkept
      exact heq a ha ((mem_droppedTimepoints ha).not.mp hkept)

end Drop

section Rename

def renamed (p : StnPlan σ) (f : σ → Option σ) : StnPlan σ :=
  p.nodes.foldl (fun q a =>
    (p.rows.row a).entries.foldl
      (fun (q : StnPlan σ) e => q.addBound (rename f a) (rename f e.1) e.2) q)
    (p.nodes.foldl (fun (q : StnPlan σ) a => q.addNode (rename f a)) anchors)

theorem WellFormed.demands_renamed (h : p.WellFormed) (f : σ → Option σ) :
    (p.renamed f).Demands fun t => p.Satisfies fun a => t (rename f a) := by
  have hnodes := Demands.anchors.foldl p.nodes
    (f := fun (q : StnPlan σ) a => q.addNode (rename f a))
    (fun a _ _ _ h => h.addNode (rename f a))
  have hrow (a : Timepoint σ) {q : StnPlan σ} {C : (Timepoint σ → Rat) → Prop}
      (hq : q.Demands C) := hq.foldl (p.rows.row a).entries
    (f := fun (q : StnPlan σ) e => q.addBound (rename f a) (rename f e.1) e.2)
    (fun e _ _ _ h => h.addBound (rename f a) (rename f e.1) e.2)
  have hall := hnodes.foldl p.nodes (fun a _ _ _ h => hrow a h)
  refine hall.congr fun t => ?_
  constructor
  · rintro ⟨⟨-, hbetween⟩, hbounds⟩
    refine ⟨hbetween, fun a b w hw => ?_⟩
    have ha : a ∈ p.nodes := (h.rows.known a b w hw).1
    exact (hbounds a ha (b, w) (OrderedMap.mem_entries_iff.mpr hw)).2.2
  · intro ht
    have hends := h.ends ht
    refine ⟨⟨hends, ht.between⟩, fun a ha e he => ?_⟩
    have hw : p.rows.weight? a e.1 = some e.2 := OrderedMap.mem_entries_iff.mp he
    exact ⟨ht.between a ha, ht.between e.1 (h.rows.known _ _ _ hw).2, ht.admits _ _ _ hw⟩

theorem WellFormed.demands_replaceSteps (h : p.WellFormed) (f : σ → Option σ) :
    (p.replaceSteps f).Demands fun t =>
      ∃ s, p.Satisfies s ∧ ∀ a ∈ p.nodes, ¬ Dropped f a → s a = t (rename f a) :=
  ((h.dropSteps f).demands_renamed f).congr fun _ => h.satisfies_dropSteps f

end Rename

section Plans

inductive Built : StnPlan σ → Prop
  | ofConstraints (cs : List (Timepoint σ × StnConstraint σ)) : Built (ofConstraints cs)
  | ofConstraintMap (m : OrderedMap (Timepoint σ) (List (StnConstraint σ))) :
      Built (ofConstraintMap m)
  | replaceSteps {p : StnPlan σ} (h : Built p) (f : σ → Option σ) : Built (p.replaceSteps f)

theorem Built.wellFormed (h : Built p) : p.WellFormed := by
  induction h with
  | ofConstraints cs => exact wellFormed_ofConstraints cs
  | ofConstraintMap m => exact wellFormed_ofConstraintMap m
  | replaceSteps _ f ih => exact (ih.demands_replaceSteps f).wellFormed

theorem Built.replaceSteps_exact (h : Built p) (f : σ → Option σ) :
    (∀ t, (p.replaceSteps f).Satisfies t ↔
      ∃ s, p.Satisfies s ∧ ∀ a ∈ p.nodes, ¬ Dropped f a → s a = t (rename f a)) ∧
    ((p.replaceSteps f).isConsistent = true ↔
      ∃ s, p.Satisfies s ∧ ∀ a ∈ p.nodes, ∀ b ∈ p.nodes, ¬ Dropped f a → ¬ Dropped f b →
        rename f a = rename f b → s a = s b) := by
  have hreplaced := h.wellFormed.demands_replaceSteps f
  refine ⟨hreplaced.satisfies_iff, ?_⟩
  rw [hreplaced.wellFormed.isConsistent_iff]
  constructor
  · rintro ⟨t, ht⟩
    obtain ⟨s, hs, heq⟩ := (hreplaced.satisfies_iff t).mp ht
    refine ⟨s, hs, fun a ha b hb hka hkb hab => ?_⟩
    rw [heq a ha hka, heq b hb hkb, hab]
  · rintro ⟨s, hs, hsame⟩
    classical
    -- every new name takes the time of some timepoint that it stands for
    let t (c : Timepoint σ) : Rat :=
      if hc : ∃ a ∈ p.nodes, ¬ Dropped f a ∧ rename f a = c then s hc.choose else 0
    refine ⟨t, (hreplaced.satisfies_iff t).mpr ⟨s, hs, fun a ha hkept => ?_⟩⟩
    have hc : ∃ b ∈ p.nodes, ¬ Dropped f b ∧ rename f b = rename f a := ⟨a, ha, hkept, rfl⟩
    obtain ⟨hb, hkb, hab⟩ := hc.choose_spec
    have ht : t (rename f a) = s hc.choose := dif_pos hc
    rw [ht]
    exact hsame a ha _ hb hkept hkb hab.symm

def chain : StnPlan Nat :=
  ofConstraints [(.start 1, ⟨some 1, some 3, .start 2⟩), (.start 2, ⟨some 2, some 4, .start 3⟩)]

def skipSecond (s : Nat) : Option Nat := if s = 2 then none else some s

theorem replaceSteps_exact_chain : ∃ t s, (chain.replaceSteps skipSecond).Satisfies t ∧
    chain.Satisfies s ∧
      ∀ a ∈ chain.nodes, ¬ Dropped skipSecond a → s a = t (rename skipSecond a) := by
  have h := Built.replaceSteps_exact (.ofConstraints _ : Built chain) skipSecond
  have hconsistent : (chain.replaceSteps skipSecond).isConsistent = true := by decide +kernel
  have hwell := (Built.replaceSteps (.ofConstraints _ : Built chain) skipSecond).wellFormed
  obtain ⟨t, ht⟩ := hwell.isConsistent_iff.mp hconsistent
  obtain ⟨s, hs, heq⟩ := (h.1 t).mp ht
  exact ⟨t, s, ht, hs, heq⟩

end Plans

end TemporalPlanning.StnPlan
