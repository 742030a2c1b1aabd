import TemporalPlanning.Proofs.ConstraintMaps

namespace TemporalPlanning.StnPlan

variable {σ : Type} [DecidableEq σ] {p : StnPlan σ} {rows : Rows (Timepoint σ)}
  {nodes : List (Timepoint σ)} {a b : Timepoint σ} {x : Owned σ}

section Owners

/-- Both sides of the pair have a bound, and both bounds or neither are at most zero. -/
def Undecided (rows : Rows (Timepoint σ)) (a b : Timepoint σ) : Prop :=
  ∃ u v, rows.weight? a b = some u ∧ rows.weight? b a = some v ∧ (u ≤ 0 ↔ v ≤ 0)

instance : Decidable (Undecided rows a b) :=
  decidable_of_iff (((rows.weight? a b).any fun u => (rows.weight? b a).any fun v =>
    decide (u ≤ 0 ↔ v ≤ 0)) = true) (by simp [Undecided, Option.any_eq_true])

theorem Undecided.symm (h : Undecided rows a b) : Undecided rows b a := by
  obtain ⟨u, v, hu, hv, hiff⟩ := h
  exact ⟨v, u, hv, hu, hiff.symm⟩

theorem oriented_of_undecided (h : Undecided rows a b) :
    oriented a b (rows.weight? a b) (rows.weight? b a) = some (seen rows a b) := by
  obtain ⟨u, v, hu, hv, hiff⟩ := h
  by_cases h0 : v ≤ 0
  · simp [oriented, seen, hu, hv, h0]
  · simp [oriented, seen, hu, hv, h0, hiff]

theorem oriented_comm (h : ¬ Undecided rows a b) :
    oriented a b (rows.weight? a b) (rows.weight? b a) =
      oriented b a (rows.weight? b a) (rows.weight? a b) := by
  unfold Undecided at h
  cases hu : rows.weight? a b with
  | none =>
      cases hv : rows.weight? b a with
      | none => rfl
      | some v => by_cases h0 : v ≤ 0 <;> simp [oriented, h0]
  | some u =>
      cases hv : rows.weight? b a with
      | none => by_cases h0 : u ≤ 0 <;> simp [oriented, h0]
      | some v =>
          have hopposed : ¬ (u ≤ 0 ↔ v ≤ 0) := fun hiff => h ⟨u, v, hu, hv, hiff⟩
          by_cases h0 : u ≤ 0
          · have h1 : ¬ v ≤ 0 := fun h1 => hopposed (iff_of_true h0 h1)
            simp [oriented, h0, h1]
          · have h1 : v ≤ 0 := by
              by_contra h1
              exact hopposed (iff_of_false h0 h1)
            simp [oriented, h0, h1]

theorem pairs_asymm {α : Type} {xs : List α} (hxs : xs.Nodup) {x y : α} (h : (x, y) ∈ pairs xs) :
    (y, x) ∉ pairs xs := by
  intro h'
  have hinj := List.inj_on_of_nodup_map ((pairs_sublist_sym2 xs).nodup hxs.sym2)
  have hswap : (x, y) = (y, x) := hinj h h' Sym2.eq_swap
  exact ne_of_mem_pairs hxs h (congrArg Prod.fst hswap)

theorem nodup_listing (h : nodes.Nodup) : (constraintsOf nodes rows).listing.Nodup :=
  List.Nodup.of_map ends (once_constraintsOf h)

theorem known_of_oriented {nodes : List (Timepoint σ)}
    (h : ∀ a b w, rows.weight? a b = some w → a ∈ nodes ∧ b ∈ nodes)
    (hx : oriented a b (rows.weight? a b) (rows.weight? b a) = some x) : a ∈ nodes ∧ b ∈ nodes := by
  cases hab : rows.weight? a b with
  | some w => exact h a b w hab
  | none =>
      cases hba : rows.weight? b a with
      | some w => exact (h b a w hba).symm
      | none => simp [oriented, hab, hba] at hx

theorem constraintsOf_congr {rows' : Rows (Timepoint σ)}
    (h : ∀ a b, rows.weight? a b = rows'.weight? a b) :
    constraintsOf nodes rows = constraintsOf nodes rows' := by
  simp only [constraintsOf, h]

end Owners

section Order

variable {as : List (Timepoint σ)}

def mentioned (m : OrderedMap (Timepoint σ) (List (StnConstraint σ))) : List (Timepoint σ) :=
  m.entries.flatMap fun e => e.1 :: e.2.map StnConstraint.target

theorem nodes_addNode_concat (h : p.nodes = as.eraseDups) (a : Timepoint σ) :
    (p.addNode a).nodes = (as ++ [a]).eraseDups := by
  rw [List.eraseDups_append, ← h]
  by_cases ha : a ∈ as
  · rw [addNode_of_mem (h ▸ List.mem_eraseDups.mpr ha)]
    simp [List.removeAll, ha]
  · rw [nodes_addNode_of_notMem (h ▸ fun hmem => ha (List.mem_eraseDups.mp hmem))]
    simp [List.removeAll, ha, List.eraseDups_cons]

theorem nodes_foldl_concat (cs : List (StnConstraint σ)) (h : p.nodes = as.eraseDups)
    (ha : a ∈ as) : (cs.foldl (fun p c => p.addConstraint a c) p).nodes =
      (as ++ cs.map StnConstraint.target).eraseDups := by
  induction cs generalizing p as with
  | nil => simpa using h
  | cons c cs ih =>
      have hmem : a ∈ p.nodes := h ▸ List.mem_eraseDups.mpr ha
      have hc : (p.addConstraint a c).nodes = (as ++ [c.target]).eraseDups := by
        rw [nodes_addConstraint, addNode_of_mem hmem, nodes_addNode_concat h]
      rw [List.foldl_cons, ih hc (List.mem_append_left _ ha), List.append_assoc]
      rfl

theorem nodes_addOwned (cs : List (StnConstraint σ)) (h : p.nodes = as.eraseDups)
    (a : Timepoint σ) :
    (p.addOwned a cs).nodes = (as ++ a :: cs.map StnConstraint.target).eraseDups := by
  have hmem : a ∈ as ++ [a] := List.mem_append_right _ (List.mem_singleton_self a)
  rw [addOwned, nodes_foldl_concat cs (nodes_addNode_concat h a) hmem, List.append_assoc]
  rfl

theorem nodes_ofConstraintMap (m : OrderedMap (Timepoint σ) (List (StnConstraint σ))) :
    (ofConstraintMap m).nodes = (.planStart :: .planEnd :: mentioned m).eraseDups := by
  have hfold (es : List (Timepoint σ × List (StnConstraint σ))) (p : StnPlan σ)
      (as : List (Timepoint σ)) (h : p.nodes = as.eraseDups) :
      (es.foldl (fun p e => p.addOwned e.1 e.2) p).nodes =
        (as ++ es.flatMap fun e => e.1 :: e.2.map StnConstraint.target).eraseDups := by
    induction es generalizing p as with
    | nil => simpa using h
    | cons e es ih =>
        rw [List.foldl_cons, ih _ _ (nodes_addOwned e.2 h e.1), List.append_assoc]
        rfl
  exact hfold m.entries anchors [.planStart, .planEnd] (by simp [anchors, List.eraseDups_cons])

end Order

section Owners

variable {nodes' : List (Timepoint σ)}

theorem listed_again (ha : a ∈ nodes') (hb : b ∈ nodes') (hne : a ≠ b)
    (hx : oriented a b (rows.weight? a b) (rows.weight? b a) = some x) :
    x ∈ (constraintsOf nodes' rows).listing ∨ Undecided rows a b ∧ (b, a) ∈ pairs nodes' := by
  rcases pairs_total ha hb hne with hpair | hpair
  · exact .inl (mem_constraintsOf.mpr ⟨_, hpair, hx⟩)
  · by_cases hu : Undecided rows a b
    · exact .inr ⟨hu, hpair⟩
    · exact .inl (mem_constraintsOf.mpr ⟨_, hpair, oriented_comm hu ▸ hx⟩)

theorem seen_mem_iff (h : nodes.Nodup) (hu : Undecided rows a b) :
    seen rows a b ∈ (constraintsOf nodes rows).listing ↔ (a, b) ∈ pairs nodes := by
  rw [mem_constraintsOf]
  constructor
  · rintro ⟨⟨c, d⟩, hcd, hx⟩
    rcases Sym2.eq_iff.mp (ends_of_oriented hx) with ⟨rfl, rfl⟩ | ⟨rfl, rfl⟩
    · exact hcd
    · have howner := Option.some.inj ((oriented_of_undecided hu.symm).symm.trans hx)
      exact absurd (congrArg Prod.fst howner) (ne_of_mem_pairs h hcd)
  · intro hab
    exact ⟨_, hab, oriented_of_undecided hu⟩

theorem listing_perm_iff (h : nodes.Nodup) (h' : nodes'.Nodup) (hsub : ∀ a ∈ nodes', a ∈ nodes)
    (hknown : ∀ a b w, rows.weight? a b = some w → a ∈ nodes' ∧ b ∈ nodes') :
    (constraintsOf nodes' rows).listing.Perm (constraintsOf nodes rows).listing ↔
      ∀ ab ∈ pairs nodes, Undecided rows ab.1 ab.2 → ab ∈ pairs nodes' := by
  constructor
  · intro hperm ab hab hu
    exact (seen_mem_iff h' hu).mp (hperm.mem_iff.mpr ((seen_mem_iff h hu).mpr hab))
  · intro hkeep
    refine (List.perm_ext_iff_of_nodup (nodup_listing h') (nodup_listing h)).mpr fun x => ?_
    constructor
    · intro hx
      obtain ⟨ab, hab, hx⟩ := mem_constraintsOf.mp hx
      obtain ⟨ha, hb⟩ := mem_pairs hab
      rcases listed_again (hsub _ ha) (hsub _ hb) (ne_of_mem_pairs h' hab) hx with hx | ⟨hu, hba⟩
      · exact hx
      · exact absurd hab (pairs_asymm h' (hkeep _ hba hu.symm))
    · intro hx
      obtain ⟨ab, hab, hx⟩ := mem_constraintsOf.mp hx
      obtain ⟨ha, hb⟩ := known_of_oriented hknown hx
      rcases listed_again ha hb (ne_of_mem_pairs h hab) hx with hx | ⟨hu, hba⟩
      · exact hx
      · exact absurd hba (pairs_asymm h' (hkeep _ hab hu))

end Owners

theorem Built.constraints_rebuilt (h : Built p) :
    let q := StnPlan.ofConstraintMap p.constraints
    q.nodes = (.planStart :: .planEnd :: mentioned p.constraints).eraseDups ∧
    (q.constraints.listing.Perm p.constraints.listing ↔
      ∀ ab ∈ pairs p.nodes, Undecided p.rows ab.1 ab.2 → ab ∈ pairs q.nodes) ∧
    ∀ x ∈ p.constraints.listing, x ∈ q.constraints.listing ∨
      Undecided p.rows x.1 x.2.target ∧ seen p.rows x.2.target x.1 ∈ q.constraints.listing := by
  intro q
  have hp := h.wellFormed
  have hq : q.WellFormed := wellFormed_ofConstraintMap _
  have hnodup : q.nodes.Nodup := (Built.ofConstraintMap _).nodup
  have hweight : ∀ a b, q.rows.weight? a b = p.rows.weight? a b := h.weight?_rebuilt
  have hconstraints : q.constraints = constraintsOf q.nodes p.rows := constraintsOf_congr hweight
  have hsub : ∀ a ∈ q.nodes, a ∈ p.nodes := fun a ha =>
    nodes_rebuilt hp.planStart hp.planEnd h.nodup ha
  have hknown : ∀ a b w, p.rows.weight? a b = some w → a ∈ q.nodes ∧ b ∈ q.nodes := by
    intro a b w hw
    exact hq.rows.known a b w ((hweight a b).trans hw)
  rw [hconstraints]
  refine ⟨nodes_ofConstraintMap _, listing_perm_iff h.nodup hnodup hsub hknown, fun x hx => ?_⟩
  obtain ⟨⟨a, b⟩, hab, hx⟩ := mem_constraintsOf.mp hx
  obtain ⟨ha, hb⟩ := known_of_oriented hknown hx
  rcases listed_again ha hb (ne_of_mem_pairs h.nodup hab) hx with hx | ⟨hu, hba⟩
  · exact .inl hx
  · obtain rfl : seen p.rows a b = x :=
      Option.some.inj ((oriented_of_undecided hu).symm.trans hx)
    exact .inr ⟨hu, (seen_mem_iff hnodup hu.symm).mpr hba⟩

def tethered : StnPlan Nat :=
  ofConstraints [(.planStart, ⟨some 1, some 2, .start 1⟩),
    (.start 1, ⟨some (-5), some 5, .start 2⟩)]

theorem constraints_rebuilt_tethered : Built tethered ∧
    Undecided tethered.rows (.start 1) (.start 2) ∧
    (ofConstraintMap tethered.constraints).constraints.listing.Perm
      tethered.constraints.listing := by
  have hbuilt : Built tethered := .ofConstraints _
  obtain ⟨-, hperm, -⟩ := hbuilt.constraints_rebuilt
  exact ⟨hbuilt, by decide +kernel, hperm.mpr (by decide +kernel)⟩

def swung : StnPlan Nat :=
  ofConstraints [(.start 1, ⟨some (-5), some 5, .start 2⟩),
    (.planStart, ⟨some 0, none, .start 2⟩)]

theorem owner_swapped : Built swung ∧ swung.isConsistent = true ∧
    swung.constraints.get? (.start 1) = some [⟨some (-5), some 5, .start 2⟩] ∧
    (ofConstraintMap swung.constraints).constraints.get? (.start 1) = none ∧
    (ofConstraintMap swung.constraints).constraints.get? (.start 2) =
      some [⟨some (-5), some 5, .start 1⟩] ∧
    ¬ (ofConstraintMap swung.constraints).constraints.listing.Perm swung.constraints.listing :=
  ⟨.ofConstraints _, by decide +kernel, by decide +kernel, by decide +kernel, by decide +kernel,
    by decide +kernel⟩

end TemporalPlanning.StnPlan
