import TemporalPlanning.Proofs.Feasibility
import TemporalPlanning.Stn.Plan

namespace TemporalPlanning

namespace Rows

variable {ν : Type} [DecidableEq ν] {rows : Rows ν} {nodes : List ν} {a b : ν} {w : Rat}

structure Over (rows : Rows ν) (nodes : List ν) : Prop where
  known : ∀ a b w, rows.weight? a b = some w → a ∈ nodes ∧ b ∈ nodes
  loopless : ∀ a, rows.weight? a a = none

theorem Over.mono {nodes' : List ν} (h : rows.Over nodes) (hsub : ∀ a ∈ nodes, a ∈ nodes') :
    rows.Over nodes' where
  known a b w hab := (h.known a b w hab).imp (hsub a) (hsub b)
  loopless := h.loopless

theorem Over.tighten (h : rows.Over nodes) (ha : a ∈ nodes) (hb : b ∈ nodes) (hab : a ≠ b) :
    (rows.tighten a b w).Over nodes where
  known c d v hv := by
    rw [weight?_tighten] at hv
    split at hv
    · rename_i hcd
      exact ⟨hcd.1 ▸ ha, hcd.2 ▸ hb⟩
    · exact h.known c d v hv
  loopless c := by
    have hc : ¬(c = a ∧ c = b) := fun hc => hab (hc.1 ▸ hc.2)
    rw [weight?_tighten, if_neg hc]
    exact h.loopless c

theorem admits_tighten (t : ν → Rat) :
    (rows.tighten a b w).Admits t ↔ rows.Admits t ∧ t b - t a ≤ w := by
  unfold Rows.tighten
  cases hv : rows.weight? a b with
  | none => exact admits_setWeight (by simp [hv]) t
  | some v =>
      simp only
      split
      · rename_i hlt
        refine admits_setWeight (fun u hu => ?_) t
        obtain rfl : v = u := by simpa [hv] using hu
        exact hlt.le
      · rename_i hle
        have hab (ht : rows.Admits t) : t b - t a ≤ w := (ht a b v hv).trans (not_lt.mp hle)
        exact ⟨fun ht => ⟨ht, hab ht⟩, And.left⟩

theorem Over.admits_congr (h : rows.Over nodes) {t t' : ν → Rat} (heq : ∀ a ∈ nodes, t a = t' a)
    (ht : rows.Admits t) : rows.Admits t' := by
  intro a b w hab
  obtain ⟨ha, hb⟩ := h.known a b w hab
  rw [← heq a ha, ← heq b hb]
  exact ht a b w hab

end Rows

namespace StnPlan

variable {σ : Type} [DecidableEq σ] {p : StnPlan σ} {t : Timepoint σ → Rat} {a b : Timepoint σ}
  {w : Rat}

def Between (t : Timepoint σ → Rat) (a : Timepoint σ) : Prop :=
  t .planStart ≤ t a ∧ t a ≤ t .planEnd

structure Satisfies (p : StnPlan σ) (t : Timepoint σ → Rat) : Prop where
  between : ∀ a ∈ p.nodes, Between t a
  admits : p.rows.Admits t

structure WellFormed (p : StnPlan σ) : Prop where
  planStart : .planStart ∈ p.nodes
  planEnd : .planEnd ∈ p.nodes
  rows : p.rows.Over p.nodes

theorem WellFormed.ends (h : p.WellFormed) (ht : p.Satisfies t) : t .planStart ≤ t .planEnd :=
  (ht.between _ h.planEnd).1

theorem WellFormed.satisfies_congr (h : p.WellFormed) {t' : Timepoint σ → Rat}
    (heq : ∀ a ∈ p.nodes, t a = t' a) (ht : p.Satisfies t) : p.Satisfies t' where
  between a ha := by
    have hab := ht.between a ha
    rw [Between, heq a ha, heq _ h.planStart, heq _ h.planEnd] at hab
    exact hab
  admits := h.rows.admits_congr heq ht.admits

section Growth

theorem wellFormed_anchors : (anchors : StnPlan σ).WellFormed where
  planStart := by simp [anchors]
  planEnd := by simp [anchors]
  rows := by
    have hw (a b : Timepoint σ) : (anchors : StnPlan σ).rows.weight? a b = none := rfl
    exact ⟨by simp [hw], fun a => hw a a⟩

theorem satisfies_anchors : (anchors : StnPlan σ).Satisfies t ↔ t .planStart ≤ t .planEnd := by
  constructor
  · intro ht
    exact wellFormed_anchors.ends ht
  · intro hle
    have hw (a b : Timepoint σ) : (anchors : StnPlan σ).rows.weight? a b = none := rfl
    refine ⟨fun a ha => ?_, fun a b w hab => by simp [hw] at hab⟩
    rcases List.mem_pair.mp ha with rfl | rfl
    · exact ⟨le_refl _, hle⟩
    · exact ⟨hle, le_refl _⟩

theorem mem_nodes_addNode {c : Timepoint σ} :
    c ∈ (p.addNode a).nodes ↔ c ∈ p.nodes ∨ c = a := by
  unfold addNode
  split
  · rename_i ha
    exact ⟨.inl, fun hc => hc.elim id (· ▸ ha)⟩
  · simp

@[simp] theorem rows_addNode : (p.addNode a).rows = p.rows := by
  unfold addNode
  split <;> rfl

theorem WellFormed.addNode (h : p.WellFormed) (a : Timepoint σ) : (p.addNode a).WellFormed where
  planStart := mem_nodes_addNode.mpr (.inl h.planStart)
  planEnd := mem_nodes_addNode.mpr (.inl h.planEnd)
  rows := by
    rw [rows_addNode]
    exact h.rows.mono fun c hc => mem_nodes_addNode.mpr (.inl hc)

theorem satisfies_addNode : (p.addNode a).Satisfies t ↔ p.Satisfies t ∧ Between t a := by
  constructor
  · intro ht
    have hb (c : Timepoint σ) (hc : c ∈ p.nodes ∨ c = a) : Between t c :=
      ht.between c (mem_nodes_addNode.mpr hc)
    exact ⟨⟨fun c hc => hb c (.inl hc), rows_addNode (p := p) ▸ ht.admits⟩, hb a (.inr rfl)⟩
  · rintro ⟨ht, ha⟩
    refine ⟨fun c hc => ?_, rows_addNode (p := p) ▸ ht.admits⟩
    rcases mem_nodes_addNode.mp hc with hc | rfl
    · exact ht.between c hc
    · exact ha

theorem over_tightenRows {rows : Rows (Timepoint σ)} {nodes : List (Timepoint σ)}
    (h : rows.Over nodes) (hs : .planStart ∈ nodes) (he : .planEnd ∈ nodes) (ha : a ∈ nodes)
    (hb : b ∈ nodes) : (tightenRows rows a b w).Over nodes := by
  unfold tightenRows
  split
  · split
    · exact h.tighten hs he (by simp)
    · exact h
  · rename_i hab
    exact h.tighten ha hb hab

theorem admits_tightenRows {rows : Rows (Timepoint σ)} (hends : t .planStart ≤ t .planEnd) :
    (tightenRows rows a b w).Admits t ↔ rows.Admits t ∧ t b - t a ≤ w := by
  unfold tightenRows
  split
  · rename_i hab
    subst hab
    rw [sub_self]
    split
    · rename_i hw
      rw [Rows.admits_tighten]
      have hlength : ¬ t .planEnd - t .planStart ≤ w := by linarith
      simp [hlength, not_le.mpr hw]
    · rename_i hw
      simp [not_lt.mp hw]
  · exact Rows.admits_tighten t

theorem WellFormed.addBound (h : p.WellFormed) (a b : Timepoint σ) (w : Rat) :
    (p.addBound a b w).WellFormed where
  planStart := ((h.addNode a).addNode b).planStart
  planEnd := ((h.addNode a).addNode b).planEnd
  rows := by
    have hab := (h.addNode a).addNode b
    exact over_tightenRows hab.rows hab.planStart hab.planEnd
      (mem_nodes_addNode.mpr (.inl (mem_nodes_addNode.mpr (.inr rfl))))
      (mem_nodes_addNode.mpr (.inr rfl))

theorem WellFormed.satisfies_addBound (h : p.WellFormed) (a b : Timepoint σ) (w : Rat) :
    (p.addBound a b w).Satisfies t ↔
      p.Satisfies t ∧ Between t a ∧ Between t b ∧ t b - t a ≤ w := by
  have hab := (h.addNode a).addNode b
  have hnodes : (p.addBound a b w).nodes = ((p.addNode a).addNode b).nodes := rfl
  constructor
  · intro ht
    have hends : t .planStart ≤ t .planEnd := (ht.between _ (hnodes ▸ hab.planEnd)).1
    obtain ⟨hr, hle⟩ := (admits_tightenRows hends).mp ht.admits
    have hq : ((p.addNode a).addNode b).Satisfies t := ⟨ht.between, hr⟩
    rw [satisfies_addNode, satisfies_addNode, and_assoc] at hq
    exact ⟨hq.1, hq.2.1, hq.2.2, hle⟩
  · rintro ⟨ht, ha, hb, hle⟩
    have hq : ((p.addNode a).addNode b).Satisfies t :=
      satisfies_addNode.mpr ⟨satisfies_addNode.mpr ⟨ht, ha⟩, hb⟩
    exact ⟨hq.between, (admits_tightenRows (h.ends ht)).mpr ⟨hq.admits, hle⟩⟩

theorem WellFormed.addUpper (h : p.WellFormed) (a b : Timepoint σ) (upper : Option Rat) :
    (p.addUpper a b upper).WellFormed := by
  cases upper with
  | none => exact h
  | some u => exact h.addBound a b u

theorem WellFormed.addLower (h : p.WellFormed) (a b : Timepoint σ) (lower : Option Rat) :
    (p.addLower a b lower).WellFormed := by
  cases lower with
  | none => exact h
  | some l => exact h.addBound b a (-l)

theorem WellFormed.addConstraint (h : p.WellFormed) (a : Timepoint σ) (c : StnConstraint σ) :
    (p.addConstraint a c).WellFormed :=
  (((h.addNode a).addNode c.target).addUpper a c.target c.upper).addLower a c.target c.lower

theorem WellFormed.foldl {α : Type} {f : StnPlan σ → α → StnPlan σ}
    (hf : ∀ (p : StnPlan σ) (x : α), p.WellFormed → (f p x).WellFormed) (h : p.WellFormed)
    (xs : List α) : (xs.foldl f p).WellFormed := by
  induction xs generalizing p with
  | nil => exact h
  | cons x xs ih => exact ih (hf p x h)

theorem wellFormed_ofConstraints (cs : List (Timepoint σ × StnConstraint σ)) :
    (ofConstraints cs).WellFormed :=
  wellFormed_anchors.foldl (fun _ c h => h.addConstraint c.1 c.2) cs

theorem wellFormed_ofConstraintMap (m : OrderedMap (Timepoint σ) (List (StnConstraint σ))) :
    (ofConstraintMap m).WellFormed := by
  refine wellFormed_anchors.foldl (fun p e h => ?_) m.entries
  exact (h.addNode e.1).foldl (fun _ c h => h.addConstraint e.1 c) e.2

end Growth

section Network

open TemporalPlanning.Network (Represents)

variable {net : Network (Timepoint σ)} {C : (Timepoint σ → Rat) → Prop}

theorem represents_addNodes (h : net.Represents C) (nodes : List (Timepoint σ)) :
    (nodes.foldl Network.addNode net).Represents C := by
  induction nodes generalizing net with
  | nil => exact h
  | cons a nodes ih => exact ih h.addNode

theorem represents_anchored (h : net.Represents C) (a : Timepoint σ) :
    ((net.add .planStart a (some 0) none).add a .planEnd (some 0) none).Represents fun t =>
      C t ∧ Between t a := by
  refine ((h.add .planStart a (some 0) none).add a .planEnd (some 0) none).congr fun t => ?_
  rw [within_lower, within_lower, sub_nonneg, sub_nonneg, and_assoc, Between]

theorem represents_anchorNetwork (nodes : List (Timepoint σ)) :
    (anchorNetwork nodes).Represents fun t =>
      t .planStart ≤ t .planEnd ∧ ∀ a ∈ nodes, a.isGlobal = false → Between t a := by
  have hends := (represents_addNodes Represents.empty nodes).add .planStart .planEnd (some 0) none
  have hinner := Represents.foldl (nodes.filter fun t => !t.isGlobal)
    (fun a _ _ _ h => represents_anchored h a) hends
  refine hinner.congr fun t => ?_
  rw [within_lower, sub_nonneg, true_and]
  simp only [List.mem_filter, Bool.not_eq_true', and_imp]

theorem represents_stored (h : net.Represents C) (e : Timepoint σ × Timepoint σ × Rat) :
    (net.add e.1 e.2.1 none (some e.2.2)).Represents fun t => C t ∧ t e.2.1 - t e.1 ≤ e.2.2 :=
  (h.add e.1 e.2.1 none (some e.2.2)).congr fun t => by rw [within_upper]

theorem WellFormed.represents_toNetwork (h : p.WellFormed) :
    p.toNetwork.Represents p.Satisfies := by
  have hall := Represents.foldl p.rows.triples
    (fun e _ _ _ h => represents_stored h e) (represents_anchorNetwork p.nodes)
  refine hall.congr fun t => ?_
  constructor
  · rintro ⟨⟨hends, hinner⟩, hrows⟩
    refine ⟨fun a ha => ?_, fun a b w hw => hrows (a, b, w) (Rows.mem_triples_iff.mpr hw)⟩
    cases a with
    | planStart => exact ⟨le_refl _, hends⟩
    | planEnd => exact ⟨hends, le_refl _⟩
    | start s => exact hinner _ ha rfl
    | finish s => exact hinner _ ha rfl
  · intro ht
    exact ⟨⟨h.ends ht, fun a ha _ => ht.between a ha⟩,
      fun e he => ht.admits e.1 e.2.1 e.2.2 (Rows.mem_triples_iff.mp he)⟩

theorem WellFormed.isConsistent_iff (h : p.WellFormed) :
    p.isConsistent = true ↔ ∃ t, p.Satisfies t :=
  h.represents_toNetwork.check_iff

end Network

end StnPlan

end TemporalPlanning
