import Mathlib.Data.Finset.Max
import TemporalPlanning.Proofs.StnSolutions
import TemporalPlanning.Stn.Replacement

namespace TemporalPlanning

theorem exists_between_iff {lowers uppers : List Rat} (hne : lowers ≠ []) :
    (∃ q, (∀ l ∈ lowers, l ≤ q) ∧ ∀ u ∈ uppers, q ≤ u) ↔
      ∀ l ∈ lowers, ∀ u ∈ uppers, l ≤ u := by
  constructor
  · rintro ⟨q, hlower, hupper⟩ l hl u hu
    exact (hlower l hl).trans (hupper u hu)
  · intro h
    obtain ⟨q, hq, hmax⟩ := Finset.exists_max_image lowers.toFinset id
      (List.toFinset_nonempty_iff lowers |>.mpr hne)
    exact ⟨q, fun l hl => hmax l (List.mem_toFinset.mpr hl), h q (List.mem_toFinset.mp hq)⟩

theorem Rows.admits_foldl {ν α : Type} [DecidableEq ν] {t : ν → Rat} {f : Rows ν → α → Rows ν}
    {P : α → Prop} {xs : List α}
    (hf : ∀ x ∈ xs, ∀ rows : Rows ν, (f rows x).Admits t ↔ rows.Admits t ∧ P x) (rows : Rows ν) :
    (xs.foldl f rows).Admits t ↔ rows.Admits t ∧ ∀ x ∈ xs, P x := by
  induction xs generalizing rows with
  | nil => simp
  | cons x xs ih =>
      rw [List.forall_mem_cons] at hf ⊢
      rw [List.foldl_cons, ih hf.2, hf.1, and_assoc]

theorem Timepoint.ne_of_isGlobal {σ : Type} {x : Timepoint σ} (hx : x.isGlobal = false) :
    planStart ≠ x ∧ planEnd ≠ x := by
  constructor
  · rintro rfl
    simp [isGlobal, step?] at hx
  · rintro rfl
    simp [isGlobal, step?] at hx

namespace StnPlan

variable {σ : Type} [DecidableEq σ] {p : StnPlan σ} {rows : Rows (Timepoint σ)}
  {nodes : List (Timepoint σ)} {t : Timepoint σ → Rat} {a b x : Timepoint σ} {w : Rat}

section Bounds

theorem mem_incoming {e : Timepoint σ × Rat} : e ∈ incoming rows x ↔
    e = (.planEnd, 0) ∨ (e.1 ≠ x ∧ rows.weight? e.1 x = some e.2) := by
  obtain ⟨a, w⟩ := e
  rw [incoming, List.mem_cons, List.mem_filterMap]
  refine or_congr_right ⟨?_, ?_⟩
  · rintro ⟨r, hr, he⟩
    split at he
    · simp at he
    · rename_i hne
      obtain ⟨v, hv, he⟩ := Option.map_eq_some_iff.mp he
      obtain ⟨rfl, rfl⟩ : r.1 = a ∧ v = w := by simpa using he
      have hget : rows.get? r.1 = some r.2 := OrderedMap.mem_entries_iff.mp hr
      exact ⟨hne, by simpa [Rows.weight?, Rows.row, hget] using hv⟩
  · rintro ⟨hne, hw⟩
    cases hget : rows.get? a with
    | none => simp [Rows.weight?, Rows.row, hget] at hw
    | some r =>
        have hr : r.get? x = some w := by simpa [Rows.weight?, Rows.row, hget] using hw
        exact ⟨(a, r), OrderedMap.mem_entries_iff.mpr hget, by simp [hne, hr]⟩

theorem mem_outgoing {e : Timepoint σ × Rat} : e ∈ outgoing rows x ↔
    e = (.planStart, 0) ∨ (e.1 ≠ x ∧ rows.weight? x e.1 = some e.2) := by
  rw [outgoing, List.mem_cons, List.mem_filter, and_comm]
  simp only [Bool.not_eq_true', decide_eq_false_iff_not]
  refine or_congr_right (and_congr_right fun _ => ?_)
  exact OrderedMap.mem_entries_iff

theorem weight?_without (a b : Timepoint σ) :
    Rows.weight? ((rows.erase x).mapValues (·.erase x)) a b =
      if a = x ∨ b = x then none else rows.weight? a b := by
  simp only [Rows.weight?, Rows.row, OrderedMap.get?_mapValues, OrderedMap.get?_erase]
  by_cases ha : a = x
  · simp [ha]
  · cases hget : rows.get? a with
    | none => simp [ha]
    | some r => simp [ha]

theorem admits_tightenUnlessImplied (ha : Between t a) (hb : Between t b) :
    (tightenUnlessImplied rows a b w).Admits t ↔ rows.Admits t ∧ t b - t a ≤ w := by
  unfold tightenUnlessImplied
  split
  · rename_i hpass
    simp only [impliedByAnchors, ne_eq, Bool.and_eq_true, Bool.or_eq_true, decide_eq_true_eq]
      at hpass
    obtain ⟨-, hw, hends⟩ := hpass
    have hle : t b - t a ≤ w := by
      rcases hends with rfl | rfl
      · have := ha.1
        linarith
      · have := hb.2
        linarith
    simp [hle]
  · exact admits_tightenRows (ha.1.trans ha.2)

theorem over_tightenUnlessImplied (h : rows.Over nodes) (hs : .planStart ∈ nodes)
    (he : .planEnd ∈ nodes) (ha : a ∈ nodes) (hb : b ∈ nodes) :
    (tightenUnlessImplied rows a b w).Over nodes := by
  unfold tightenUnlessImplied
  split
  · exact h
  · exact over_tightenRows h hs he ha hb

end Bounds

section Eliminate

def without (nodes : List (Timepoint σ)) (x : Timepoint σ) : List (Timepoint σ) :=
  nodes.filter fun u => !decide (u = x)

theorem mem_without : a ∈ without nodes x ↔ a ∈ nodes ∧ a ≠ x := by simp [without]

theorem WellFormed.planStart_mem_without (h : p.WellFormed) (hx : x.isGlobal = false) :
    .planStart ∈ without p.nodes x :=
  mem_without.mpr ⟨h.planStart, (Timepoint.ne_of_isGlobal hx).1⟩

theorem WellFormed.planEnd_mem_without (h : p.WellFormed) (hx : x.isGlobal = false) :
    .planEnd ∈ without p.nodes x :=
  mem_without.mpr ⟨h.planEnd, (Timepoint.ne_of_isGlobal hx).2⟩

theorem WellFormed.incoming_mem (h : p.WellFormed) (hx : x.isGlobal = false)
    {e : Timepoint σ × Rat} (he : e ∈ incoming p.rows x) : e.1 ∈ without p.nodes x := by
  rcases mem_incoming.mp he with rfl | ⟨hne, hw⟩
  · exact h.planEnd_mem_without hx
  · exact mem_without.mpr ⟨(h.rows.known _ _ _ hw).1, hne⟩

theorem WellFormed.outgoing_mem (h : p.WellFormed) (hx : x.isGlobal = false)
    {e : Timepoint σ × Rat} (he : e ∈ outgoing p.rows x) : e.1 ∈ without p.nodes x := by
  rcases mem_outgoing.mp he with rfl | ⟨hne, hw⟩
  · exact h.planStart_mem_without hx
  · exact mem_without.mpr ⟨(h.rows.known _ _ _ hw).2, hne⟩

theorem WellFormed.over_eliminate (h : p.WellFormed) (hx : x.isGlobal = false) :
    (eliminate p.rows x).Over (without p.nodes x) := by
  have hs := h.planStart_mem_without hx
  have he := h.planEnd_mem_without hx
  have hrest : Rows.Over ((p.rows.erase x).mapValues (·.erase x)) (without p.nodes x) := by
    refine ⟨fun a b w hw => ?_, fun a => ?_⟩
    · rw [weight?_without] at hw
      split at hw
      · simp at hw
      · rename_i hab
        obtain ⟨hane, hbne⟩ := not_or.mp hab
        obtain ⟨ha, hb⟩ := h.rows.known a b w hw
        exact ⟨mem_without.mpr ⟨ha, hane⟩, mem_without.mpr ⟨hb, hbne⟩⟩
    · rw [weight?_without, h.rows.loopless]
      split <;> rfl
  refine List.foldlRecOn (motive := fun rows => Rows.Over rows (without p.nodes x)) _ _ hrest
    fun rows hrows a ha => ?_
  refine List.foldlRecOn (motive := fun rows => Rows.Over rows (without p.nodes x)) _ _ hrows
    fun rows hrows b hb => ?_
  exact over_tightenUnlessImplied hrows hs he (h.incoming_mem hx ha) (h.outgoing_mem hx hb)

theorem WellFormed.admits_eliminate (h : p.WellFormed) (hx : x.isGlobal = false)
    (ht : ∀ a ∈ without p.nodes x, Between t a) : (eliminate p.rows x).Admits t ↔
      (∀ a b w, a ≠ x → b ≠ x → p.rows.weight? a b = some w → t b - t a ≤ w) ∧
      ∀ a ∈ incoming p.rows x, ∀ b ∈ outgoing p.rows x, t b.1 - t a.1 ≤ a.2 + b.2 := by
  let demands (a b : Timepoint σ × Rat) : Prop := t b.1 - t a.1 ≤ a.2 + b.2
  have hjoin : ∀ a ∈ incoming p.rows x, ∀ rows : Rows (Timepoint σ),
      ((outgoing p.rows x).foldl
        (fun rows b => tightenUnlessImplied rows a.1 b.1 (a.2 + b.2)) rows).Admits t ↔
        rows.Admits t ∧ ∀ b ∈ outgoing p.rows x, demands a b := by
    intro a ha
    refine Rows.admits_foldl (P := demands a) fun b hb rows => ?_
    exact admits_tightenUnlessImplied (ht _ (h.incoming_mem hx ha)) (ht _ (h.outgoing_mem hx hb))
  rw [eliminate, Rows.admits_foldl hjoin]
  refine and_congr_left fun _ => forall_congr' fun a => forall_congr' fun b =>
    forall_congr' fun w => ?_
  rw [weight?_without]
  by_cases ha : a = x
  · simp [ha]
  · by_cases hb : b = x
    · simp [hb]
    · simp [ha, hb]

theorem exists_time_iff : (∃ q, (t .planStart ≤ q ∧ q ≤ t .planEnd) ∧
      (∀ a w, a ≠ x → rows.weight? a x = some w → q - t a ≤ w) ∧
      ∀ b w, b ≠ x → rows.weight? x b = some w → t b - q ≤ w) ↔
    ∀ a ∈ incoming rows x, ∀ b ∈ outgoing rows x, t b.1 - t a.1 ≤ a.2 + b.2 := by
  let earliest : List Rat := (outgoing rows x).map fun b => t b.1 - b.2
  let latest : List Rat := (incoming rows x).map fun a => t a.1 + a.2
  have hne : earliest ≠ [] := by simp [earliest, outgoing]
  have hfits : (∀ l ∈ earliest, ∀ u ∈ latest, l ≤ u) ↔
      ∀ a ∈ incoming rows x, ∀ b ∈ outgoing rows x, t b.1 - t a.1 ≤ a.2 + b.2 := by
    simp only [earliest, latest, List.forall_mem_map]
    constructor
    · intro h a ha b hb
      have := h b hb a ha
      linarith
    · intro h b hb a ha
      have := h a ha b hb
      linarith
  rw [← hfits, ← exists_between_iff hne]
  refine exists_congr fun q => ?_
  simp only [earliest, latest, List.forall_mem_map, mem_incoming, mem_outgoing]
  constructor
  · rintro ⟨⟨hs, he⟩, hinto, hout⟩
    constructor
    · rintro b (rfl | ⟨hne, hw⟩)
      · simpa using hs
      · have := hout _ _ hne hw
        linarith
    · rintro a (rfl | ⟨hne, hw⟩)
      · simpa using he
      · have := hinto _ _ hne hw
        linarith
  · rintro ⟨hout, hinto⟩
    refine ⟨⟨?_, ?_⟩, fun a w hne hw => ?_, fun b w hne hw => ?_⟩
    · simpa using hout (.planStart, 0) (.inl rfl)
    · simpa using hinto (.planEnd, 0) (.inl rfl)
    · have := hinto (a, w) (.inr ⟨hne, hw⟩)
      linarith
    · have := hout (b, w) (.inr ⟨hne, hw⟩)
      linarith

theorem WellFormed.satisfies_update (h : p.WellFormed) (hx : x.isGlobal = false)
    (hmem : x ∈ p.nodes) (q : Rat) : p.Satisfies (Function.update t x q) ↔
      ((∀ a ∈ without p.nodes x, Between t a) ∧
        ∀ a b w, a ≠ x → b ≠ x → p.rows.weight? a b = some w → t b - t a ≤ w) ∧
      (t .planStart ≤ q ∧ q ≤ t .planEnd) ∧
      (∀ a w, a ≠ x → p.rows.weight? a x = some w → q - t a ≤ w) ∧
      ∀ b w, b ≠ x → p.rows.weight? x b = some w → t b - q ≤ w := by
  obtain ⟨hsx, hex⟩ := Timepoint.ne_of_isGlobal hx
  have hbetween (a : Timepoint σ) (ha : a ≠ x) :
      Between (Function.update t x q) a ↔ Between t a := by
    simp [Between, Function.update_of_ne, ha, hsx, hex]
  have hself : Between (Function.update t x q) x ↔ t .planStart ≤ q ∧ q ≤ t .planEnd := by
    simp [Between, Function.update_of_ne, hsx, hex]
  constructor
  · intro ht
    refine ⟨⟨fun a ha => ?_, fun a b w ha hb hw => ?_⟩, hself.mp (ht.between x hmem),
      fun a w ha hw => ?_, fun b w hb hw => ?_⟩
    · obtain ⟨ha, hne⟩ := mem_without.mp ha
      exact (hbetween a hne).mp (ht.between a ha)
    · simpa [Function.update_of_ne, ha, hb] using ht.admits a b w hw
    · simpa [Function.update_of_ne, ha] using ht.admits a x w hw
    · simpa [Function.update_of_ne, hb] using ht.admits x b w hw
  · rintro ⟨⟨hothers, hrows⟩, hq, hinto, hout⟩
    refine ⟨fun a ha => ?_, fun a b w hw => ?_⟩
    · by_cases hne : a = x
      · exact hne ▸ hself.mpr hq
      · exact (hbetween a hne).mpr (hothers a (mem_without.mpr ⟨ha, hne⟩))
    · by_cases ha : a = x
      · subst ha
        have hb : b ≠ a := by
          rintro rfl
          simp [h.rows.loopless] at hw
        simpa [Function.update_of_ne, hb] using hout b w hb hw
      · by_cases hb : b = x
        · subst hb
          simpa [Function.update_of_ne, ha] using hinto a w ha hw
        · simpa [Function.update_of_ne, ha, hb] using hrows a b w ha hb hw

theorem WellFormed.dropNode (h : p.WellFormed) (hx : x.isGlobal = false) :
    (p.dropNode x).WellFormed := by
  unfold StnPlan.dropNode
  split
  · exact ⟨h.planStart_mem_without hx, h.planEnd_mem_without hx, h.over_eliminate hx⟩
  · exact h

theorem WellFormed.satisfies_dropNode (h : p.WellFormed) (hx : x.isGlobal = false) :
    (p.dropNode x).Satisfies t ↔ ∃ q, p.Satisfies (Function.update t x q) := by
  unfold StnPlan.dropNode
  split
  · rename_i hmem
    have hmem : x ∈ p.nodes := List.contains_iff_mem.mp hmem
    have hall (q : Rat) := h.satisfies_update (t := t) hx hmem q
    rw [exists_congr hall, exists_and_left, exists_time_iff]
    constructor
    · intro ht
      have hkept : ∀ a ∈ without p.nodes x, Between t a := ht.between
      obtain ⟨hrows, hfits⟩ := (h.admits_eliminate hx hkept).mp ht.admits
      exact ⟨⟨hkept, hrows⟩, hfits⟩
    · rintro ⟨⟨hkept, hrows⟩, hfits⟩
      exact ⟨hkept, (h.admits_eliminate hx hkept).mpr ⟨hrows, hfits⟩⟩
  · rename_i hmem
    have hmem : x ∉ p.nodes := fun hx => hmem (List.contains_iff_mem.mpr hx)
    have heq (q : Rat) : ∀ a ∈ p.nodes, Function.update t x q a = t a := by
      intro a ha
      have hne : a ≠ x := by
        rintro rfl
        exact hmem ha
      exact Function.update_of_ne hne q t
    constructor
    · intro ht
      exact ⟨0, h.satisfies_congr (fun a ha => (heq 0 a ha).symm) ht⟩
    · rintro ⟨q, ht⟩
      exact h.satisfies_congr (heq q) ht

end Eliminate

end StnPlan

end TemporalPlanning
