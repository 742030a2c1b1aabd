import TemporalPlanning.Proofs.StepReplacement

namespace TemporalPlanning.StnPlan

variable {σ : Type} [DecidableEq σ] {p : StnPlan σ} {t : Timepoint σ → Rat}
  {C : (Timepoint σ → Rat) → Prop} {a b x : Timepoint σ}

section Nodes

theorem addNode_of_mem (h : a ∈ p.nodes) : p.addNode a = p := if_pos h

theorem nodes_addNode_of_notMem (h : a ∉ p.nodes) : (p.addNode a).nodes = p.nodes ++ [a] := by
  rw [addNode, if_neg h]

theorem nodes_addConstraint (p : StnPlan σ) (a : Timepoint σ) (c : StnConstraint σ) :
    (p.addConstraint a c).nodes = ((p.addNode a).addNode c.target).nodes := by
  have hmem (q : StnPlan σ) {b b' : Timepoint σ} (hb : b ∈ q.nodes) (hb' : b' ∈ q.nodes)
      (w : Rat) : (q.addBound b b' w).nodes = q.nodes := by
    change ((q.addNode b).addNode b').nodes = q.nodes
    rw [addNode_of_mem hb, addNode_of_mem hb']
  have hupper (q : StnPlan σ) (ha : a ∈ q.nodes) (hb : c.target ∈ q.nodes) :
      (q.addUpper a c.target c.upper).nodes = q.nodes := by
    cases c.upper with
    | none => rfl
    | some u => exact hmem q ha hb u
  have hlower (q : StnPlan σ) (ha : a ∈ q.nodes) (hb : c.target ∈ q.nodes) :
      (q.addLower a c.target c.lower).nodes = q.nodes := by
    cases c.lower with
    | none => rfl
    | some l => exact hmem q hb ha (-l)
  have ha : a ∈ ((p.addNode a).addNode c.target).nodes :=
    mem_nodes_addNode.mpr (.inl (mem_nodes_addNode.mpr (.inr rfl)))
  have hb : c.target ∈ ((p.addNode a).addNode c.target).nodes :=
    mem_nodes_addNode.mpr (.inr rfl)
  unfold addConstraint
  rw [hlower _ (by rwa [hupper _ ha hb]) (by rwa [hupper _ ha hb]), hupper _ ha hb]

theorem mem_nodes_addConstraint (c : StnConstraint σ) :
    x ∈ (p.addConstraint a c).nodes ↔ x ∈ p.nodes ∨ x = a ∨ x = c.target := by
  rw [nodes_addConstraint, mem_nodes_addNode, mem_nodes_addNode, or_assoc]

theorem mem_nodes_foldl (cs : List (Timepoint σ × StnConstraint σ)) :
    x ∈ (cs.foldl (fun p c => p.addConstraint c.1 c.2) p).nodes ↔
      x ∈ p.nodes ∨ ∃ c ∈ cs, x = c.1 ∨ x = c.2.target := by
  induction cs generalizing p with
  | nil => simp
  | cons c cs ih =>
      rw [List.foldl_cons, ih, mem_nodes_addConstraint, or_assoc]
      simp only [List.mem_cons, exists_eq_or_imp]

theorem mem_nodes_ofConstraints (cs : List (Timepoint σ × StnConstraint σ)) :
    x ∈ (ofConstraints cs).nodes ↔
      (x = .planStart ∨ x = .planEnd) ∨ ∃ c ∈ cs, x = c.1 ∨ x = c.2.target := by
  rw [ofConstraints, mem_nodes_foldl, anchors, List.mem_pair]

end Nodes

section Demands

/-- The times keep the constraint `c` that `a` owns, and the anchors of its two timepoints. -/
def Keeps (t : Timepoint σ → Rat) (a : Timepoint σ) (c : StnConstraint σ) : Prop :=
  (Between t a ∧ Between t c.target) ∧ Within c.lower c.upper (t c.target - t a)

theorem Demands.addUpper (h : p.Demands C) (upper : Option Rat) :
    (p.addUpper a b upper).Demands fun t =>
      C t ∧ ∀ u ∈ upper, Between t a ∧ Between t b ∧ t b - t a ≤ u := by
  cases upper with
  | none => exact h.congr fun t => by simp
  | some u => exact (h.addBound a b u).congr fun t => by simp

theorem Demands.addLower (h : p.Demands C) (lower : Option Rat) :
    (p.addLower a b lower).Demands fun t =>
      C t ∧ ∀ l ∈ lower, Between t b ∧ Between t a ∧ l ≤ t b - t a := by
  cases lower with
  | none => exact h.congr fun t => by simp
  | some l =>
      refine (h.addBound b a (-l)).congr fun t => ?_
      have hl : t a - t b ≤ -l ↔ l ≤ t b - t a := by
        rw [← neg_sub (t b) (t a), neg_le_neg_iff]
      simp [hl]

theorem Demands.addConstraint (h : p.Demands C) (a : Timepoint σ) (c : StnConstraint σ) :
    (p.addConstraint a c).Demands fun t => C t ∧ Keeps t a c := by
  refine ((((h.addNode a).addNode c.target).addUpper c.upper).addLower c.lower).congr fun t => ?_
  simp only [Keeps, Within]
  constructor
  · rintro ⟨⟨⟨⟨ht, ha⟩, hb⟩, hupper⟩, hlower⟩
    exact ⟨ht, ⟨ha, hb⟩, fun l hl => (hlower l hl).2.2, fun u hu => (hupper u hu).2.2⟩
  · rintro ⟨ht, ⟨ha, hb⟩, hlower, hupper⟩
    exact ⟨⟨⟨⟨ht, ha⟩, hb⟩, fun u hu => ⟨ha, hb, hupper u hu⟩⟩, fun l hl => ⟨hb, ha, hlower l hl⟩⟩

theorem demands_ofConstraints (cs : List (Timepoint σ × StnConstraint σ)) :
    (ofConstraints cs).Demands fun t =>
      t .planStart ≤ t .planEnd ∧ ∀ c ∈ cs, Keeps t c.1 c.2 :=
  Demands.anchors.foldl cs fun c _ _ _ h => h.addConstraint c.1 c.2

end Demands

theorem ofConstraints_consistent (cs : List (Timepoint σ × StnConstraint σ)) :
    (∀ x, x ∈ (ofConstraints cs).nodes ↔
      (x = .planStart ∨ x = .planEnd) ∨ ∃ c ∈ cs, x = c.1 ∨ x = c.2.target) ∧
    ((ofConstraints cs).isConsistent = true ↔ ∃ t : Timepoint σ → Rat,
      (∀ c ∈ cs, Within c.2.lower c.2.upper (t c.2.target - t c.1)) ∧
      (∀ n ∈ (ofConstraints cs).nodes, t .planStart ≤ t n ∧ t n ≤ t .planEnd) ∧
      t .planStart ≤ t .planEnd) := by
  have hdemands := demands_ofConstraints cs
  refine ⟨fun x => mem_nodes_ofConstraints cs, hdemands.wellFormed.isConsistent_iff.trans ?_⟩
  refine exists_congr fun t => ⟨fun ht => ?_, fun ht => ?_⟩
  · obtain ⟨hends, hkeeps⟩ := (hdemands.satisfies_iff t).mp ht
    exact ⟨fun c hc => (hkeeps c hc).2, ht.between, hends⟩
  · obtain ⟨hwithin, hbetween, hends⟩ := ht
    refine (hdemands.satisfies_iff t).mpr ⟨hends, fun c hc => ⟨⟨?_, ?_⟩, hwithin c hc⟩⟩
    · exact hbetween _ ((mem_nodes_ofConstraints cs).mpr (.inr ⟨c, hc, .inl rfl⟩))
    · exact hbetween _ ((mem_nodes_ofConstraints cs).mpr (.inr ⟨c, hc, .inr rfl⟩))

end TemporalPlanning.StnPlan
