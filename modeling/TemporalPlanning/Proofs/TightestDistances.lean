import TemporalPlanning.Proofs.StnSolutions
import TemporalPlanning.Stn.Schedule

namespace TemporalPlanning

namespace Rows

variable {ν : Type} [DecidableEq ν] {rows : Rows ν} {a b c d k : ν} {u v w : Rat}
  {t : ν → Rat}

def Bounds (rows : Rows ν) (a b : ν) (w : Rat) : Prop := ∃ v, rows.weight? a b = some v ∧ v ≤ w

theorem Bounds.mono (h : rows.Bounds a b v) (hvw : v ≤ w) : rows.Bounds a b w := by
  obtain ⟨u, hu, huv⟩ := h
  exact ⟨u, hu, huv.trans hvw⟩

theorem bounds_of_weight (h : rows.weight? a b = some w) : rows.Bounds a b w := ⟨w, h, le_rfl⟩

theorem admits_iff_bounds : rows.Admits t ↔ ∀ a b w, rows.Bounds a b w → t b - t a ≤ w := by
  constructor
  · rintro h a b w ⟨v, hv, hvw⟩
    exact (h a b v hv).trans hvw
  · exact fun h a b w hw => h a b w (bounds_of_weight hw)

theorem bounds_tighten : (rows.tighten a b w).Bounds c d u ↔
    rows.Bounds c d u ∨ c = a ∧ d = b ∧ w ≤ u := by
  simp only [Bounds, weight?_tighten]
  by_cases hcd : c = a ∧ d = b
  · obtain ⟨rfl, rfl⟩ := hcd
    cases hv : rows.weight? c d with
    | none => simp
    | some v =>
        simp only [true_and, if_true, Option.some.injEq, exists_eq_left']
        split
        · rename_i hlt
          exact ⟨.inr, fun h => h.elim hlt.le.trans id⟩
        · rename_i hle
          exact ⟨.inl, fun h => h.elim id (not_lt.mp hle).trans⟩
  · have hcd' : ¬(c = a ∧ d = b ∧ w ≤ u) := fun h => hcd ⟨h.1, h.2.1⟩
    simp [hcd, hcd']

theorem bounds_tightenAll (es : List (ν × ν × Rat)) :
    (es.foldl (fun rows e => rows.tighten e.1 e.2.1 e.2.2) rows).Bounds c d u ↔
      rows.Bounds c d u ∨ ∃ w, (c, d, w) ∈ es ∧ w ≤ u := by
  induction es generalizing rows with
  | nil => simp
  | cons e es ih =>
      obtain ⟨a, b, v⟩ := e
      rw [List.foldl_cons, ih, bounds_tighten, or_assoc]
      refine or_congr_right ⟨?_, ?_⟩
      · rintro (⟨rfl, rfl, hv⟩ | ⟨w, hw, hwu⟩)
        · exact ⟨v, List.mem_cons_self, hv⟩
        · exact ⟨w, List.mem_cons_of_mem _ hw, hwu⟩
      · rintro ⟨w, hw, hwu⟩
        rcases List.mem_cons.mp hw with heq | hw
        · obtain ⟨rfl, rfl, rfl⟩ : c = a ∧ d = b ∧ w = v := by simpa using heq
          exact .inl ⟨rfl, rfl, hwu⟩
        · exact .inr ⟨w, hw, hwu⟩

def Via (rows : Rows ν) (k a b : ν) (u : Rat) : Prop :=
  ∃ v w, rows.Bounds a k v ∧ rows.Bounds k b w ∧ v + w ≤ u

def Circular (rows : Rows ν) (k : ν) : Prop := ∀ v, rows.Bounds k k v → 0 ≤ v

theorem circular_of_admits (h : rows.Admits t) : rows.Circular k := by
  intro v hv
  have hkk := admits_iff_bounds.mp h k k v hv
  linarith

/-- The distances over all timepoints, with no way through those of `ks` shorter than them. -/
structure Closed (rows : Rows ν) (nodes ks : List ν) : Prop where
  zero : ∀ a ∈ nodes, rows.Bounds a a 0
  through : ∀ k ∈ ks, ∀ a ∈ nodes, ∀ b u, rows.Via k a b u → rows.Bounds a b u

end Rows

namespace StnPlan

section Detours

variable {σ : Type} [DecidableEq σ] {rows : Rows (Timepoint σ)} {a b c d k : Timepoint σ}
  {u : Rat} {t : Timepoint σ → Rat} {nodes ks : List (Timepoint σ)}

theorem bounds_detour : (detour k rows a).Bounds c d u ↔
    rows.Bounds c d u ∨ c = a ∧ rows.Via k c d u := by
  unfold detour
  cases hk : rows.weight? a k with
  | none =>
      refine ⟨.inl, fun h => h.elim id ?_⟩
      rintro ⟨rfl, v, w, ⟨v', hv', -⟩, -⟩
      simp [hk] at hv'
  | some v =>
      have htriples : (rows.row k).entries.foldl (fun rows e => rows.tighten a e.1 (v + e.2)) rows =
          ((rows.row k).entries.map fun e => (a, e.1, v + e.2)).foldl
            (fun rows e => rows.tighten e.1 e.2.1 e.2.2) rows := by
        rw [List.foldl_map]
      dsimp only
      rw [htriples, Rows.bounds_tightenAll]
      refine or_congr_right ⟨?_, ?_⟩
      · rintro ⟨w, hw, hwu⟩
        obtain ⟨⟨e, x⟩, he, heq⟩ := List.mem_map.mp hw
        obtain ⟨rfl, rfl, rfl⟩ : a = c ∧ e = d ∧ v + x = w := by simpa using heq
        have hx : rows.weight? k e = some x := OrderedMap.mem_entries_iff.mp he
        exact ⟨rfl, v, x, Rows.bounds_of_weight hk, Rows.bounds_of_weight hx, hwu⟩
      · rintro ⟨rfl, v', w, ⟨v₀, hv₀, hv⟩, ⟨x, hx, hxw⟩, hsum⟩
        obtain rfl : v = v₀ := Option.some.inj (hk.symm.trans hv₀)
        refine ⟨v + x, List.mem_map.mpr ⟨(d, x), OrderedMap.mem_entries_iff.mpr hx, rfl⟩, ?_⟩
        linarith

theorem via_tail (hk : rows.Circular k) (h : rows.Via k c k u) : rows.Bounds c k u := by
  obtain ⟨v, w, hv, hw, hsum⟩ := h
  have hback := hk w hw
  exact hv.mono (by linarith)

theorem via_head (hk : rows.Circular k) (h : rows.Via k k d u) : rows.Bounds k d u := by
  obtain ⟨v, w, hv, hw, hsum⟩ := h
  have hback := hk v hv
  exact hw.mono (by linarith)

theorem bounds_detours (hk : rows.Circular k) (as : List (Timepoint σ)) :
    (as.foldl (detour k) rows).Bounds c d u ↔ rows.Bounds c d u ∨ c ∈ as ∧ rows.Via k c d u := by
  induction as generalizing rows with
  | nil => simp
  | cons a as ih =>
      have hto (e : Timepoint σ) (v : Rat) :
          (detour k rows a).Bounds e k v ↔ rows.Bounds e k v := by
        rw [bounds_detour]
        exact ⟨fun h => h.elim id fun h => via_tail hk h.2, .inl⟩
      have hfrom (e : Timepoint σ) (v : Rat) :
          (detour k rows a).Bounds k e v ↔ rows.Bounds k e v := by
        rw [bounds_detour]
        refine ⟨fun h => h.elim id ?_, .inl⟩
        rintro ⟨-, h⟩
        exact via_head hk h
      have hvia : (detour k rows a).Via k c d u ↔ rows.Via k c d u := by
        simp only [Rows.Via, hto, hfrom]
      rw [List.foldl_cons, ih fun v hv => hk v ((hto k v).mp hv), bounds_detour, hvia, or_assoc,
        List.mem_cons, or_and_right]

theorem bounds_mono (as : List (Timepoint σ)) (h : rows.Bounds a b u) :
    (as.foldl (detour k) rows).Bounds a b u :=
  List.foldlRecOn (motive := fun rows => Rows.Bounds rows a b u) as (detour k) h
    fun _ h _ _ => bounds_detour.mpr (.inl h)

theorem closed_detours (h : rows.Closed nodes ks) (hks : ∀ j ∈ ks, j ∈ nodes) (hknown : k ∈ nodes)
    (hk : rows.Circular k) : (nodes.foldl (detour k) rows).Closed nodes (k :: ks) where
  zero a ha := (bounds_detours hk nodes).mpr (.inl (h.zero a ha))
  through j hj a ha b u := by
    rintro ⟨v, w, hv, hw, hsum⟩
    rw [bounds_detours hk] at hv hw ⊢
    have hvia (hv : rows.Bounds a k v) (hw : rows.Bounds k b w) : a ∈ nodes ∧ rows.Via k a b u :=
      ⟨ha, v, w, hv, hw, hsum⟩
    rcases List.mem_cons.mp hj with rfl | hj
    · have hv := hv.elim id fun hv => via_tail hk hv.2
      have hw := hw.elim id fun hw => via_head hk hw.2
      exact .inr (hvia hv hw)
    -- a part that leads through `k` on its own, or both, are ways through `j` in all
    · have hjn := hks j hj
      rcases hv with hv | ⟨-, v₁, v₂, hv₁, hv₂, hv⟩
      · rcases hw with hw | ⟨-, w₁, w₂, hw₁, hw₂, hw⟩
        · exact .inl (h.through j hj a ha b u ⟨v, w, hv, hw, hsum⟩)
        · have hak := h.through j hj a ha k (v + w₁) ⟨v, w₁, hv, hw₁, le_rfl⟩
          exact .inr ⟨ha, v + w₁, w₂, hak, hw₂, by linarith⟩
      · rcases hw with hw | ⟨-, w₁, w₂, hw₁, hw₂, hw⟩
        · have hkb := h.through j hj k hknown b (v₂ + w) ⟨v₂, w, hv₂, hw, le_rfl⟩
          exact .inr ⟨ha, v₁, v₂ + w, hv₁, hkb, by linarith⟩
        · have hkk := hk _ (h.through j hj k hknown k (v₂ + w₁) ⟨v₂, w₁, hv₂, hw₁, le_rfl⟩)
          exact .inr ⟨ha, v₁, w₂, hv₁, hw₂, by linarith⟩

theorem admits_detours (h : rows.Admits t) (nodes : List (Timepoint σ)) :
    (nodes.foldl (detour k) rows).Admits t := by
  rw [Rows.admits_iff_bounds] at h ⊢
  intro a b u hab
  rcases (bounds_detours (Rows.circular_of_admits (Rows.admits_iff_bounds.mpr h)) nodes).mp hab with
    hab | ⟨-, v, w, hv, hw, hsum⟩
  · exact h a b u hab
  · have hak := h a k v hv
    have hkb := h k b w hw
    linarith

theorem closed_all (ht : rows.Admits t) (hrows : rows.Closed nodes ks)
    (hks : ∀ k ∈ ks, k ∈ nodes) {as : List (Timepoint σ)} (has : ∀ a ∈ as, a ∈ nodes) :
    (as.foldl (fun rows k => nodes.foldl (detour k) rows) rows).Closed nodes
      (as.reverse ++ ks) := by
  induction as generalizing rows ks with
  | nil => exact hrows
  | cons k as ih =>
      rw [List.forall_mem_cons] at has
      rw [List.foldl_cons, List.reverse_cons, List.append_assoc]
      have hk := closed_detours hrows hks has.1 (Rows.circular_of_admits ht)
      exact ih (admits_detours ht nodes) hk (List.forall_mem_cons.mpr ⟨has.1, hks⟩) has.2

theorem weight?_loops (nodes : List (Timepoint σ)) (rows : Rows (Timepoint σ)) :
    (nodes.foldl (fun (rows : Rows (Timepoint σ)) t => rows.put t (OrderedMap.empty.put t 0))
      rows).weight? a b = if a ∈ nodes then (if b = a then some 0 else none)
        else rows.weight? a b := by
  induction nodes generalizing rows with
  | nil => simp
  | cons c nodes ih =>
      rw [List.foldl_cons, ih]
      by_cases hac : a = c
      · by_cases hc : c ∈ nodes <;> simp [hac, hc, Rows.weight?, Rows.row]
      · simp [hac, Rows.weight?, Rows.row]

end Detours

section Closure

variable {σ : Type} [DecidableEq σ] {p : StnPlan σ} {D : Rows (Timepoint σ)}
  {a b c : Timepoint σ} {u w : Rat} {t : Timepoint σ → Rat}

theorem WellFormed.known_toNetwork (h : p.WellFormed) (hc : p.isConsistent = true)
    (hw : p.toNetwork.rows.weight? a b = some w) : a ∈ p.nodes ∧ b ∈ p.nodes := by
  have hcheck : p.toNetwork.failure = none := Option.isNone_iff_eq_none.mp hc
  obtain ⟨hfeasible, hadmits⟩ := h.represents_toNetwork.exact hcheck
  obtain ⟨t, ht⟩ := h.isConsistent_iff.mp hc
  have hab : a ≠ b := by
    rintro rfl
    simp [hfeasible.loopless a] at hw
  have hfree {c : Timepoint σ} (hcn : c ∉ p.nodes) (q : Rat) :
      Function.update t c q b - Function.update t c q a ≤ w := by
    refine (hadmits _).mpr (h.satisfies_congr (fun x hx => ?_) ht) a b w hw
    rw [Function.update_of_ne (ne_of_mem_of_not_mem hx hcn)]
  constructor
  · by_contra ha
    have hle := hfree ha (t b - w - 1)
    rw [Function.update_self, Function.update_of_ne hab.symm] at hle
    linarith
  · by_contra hb
    have hle := hfree hb (t a + w + 1)
    rw [Function.update_self, Function.update_of_ne hab] at hle
    linarith

theorem bounds_directDistances : p.directDistances.Bounds a b u ↔
    (a ∈ p.nodes ∧ b = a ∧ 0 ≤ u) ∨
      ∃ w, p.toNetwork.rows.weight? a b = some w ∧ w ≤ u := by
  unfold directDistances
  rw [Rows.bounds_tightenAll]
  refine or_congr ?_ (exists_congr fun w => and_congr_left' Rows.mem_triples_iff)
  rw [Rows.Bounds, weight?_loops]
  have hnone (c : Timepoint σ) : (Rows.weight? (.empty : Rows (Timepoint σ)) a c) = none := rfl
  by_cases ha : a ∈ p.nodes <;> by_cases hab : b = a <;> simp [ha, hab, hnone]

structure Tightest (p : StnPlan σ) (D : Rows (Timepoint σ)) : Prop where
  closed : D.Closed p.nodes p.nodes
  known : ∀ a b w, D.Bounds a b w → a ∈ p.nodes
  sound : ∀ t, p.Satisfies t → D.Admits t
  edges : ∀ a b w, p.toNetwork.rows.weight? a b = some w → D.Bounds a b w

theorem WellFormed.admits_toNetwork (h : p.WellFormed) (hc : p.isConsistent = true) :
    p.toNetwork.rows.Admits t ↔ p.Satisfies t :=
  (h.represents_toNetwork.exact (Option.isNone_iff_eq_none.mp hc)).2 t

theorem closure_ok (hD : p.closure = .ok D) : p.isConsistent = true ∧
    D = p.nodes.foldl (fun rows k => p.nodes.foldl (detour k) rows) p.directDistances := by
  unfold closure at hD
  split at hD
  · rename_i hc
    exact ⟨hc, (Except.ok.inj hD).symm⟩
  · simp at hD

theorem WellFormed.tightest (h : p.WellFormed) (hD : p.closure = .ok D) : p.Tightest D := by
  obtain ⟨hc, rfl⟩ := closure_ok hD
  have hdirect (s : Timepoint σ → Rat) (hs : p.Satisfies s) : p.directDistances.Admits s := by
    rw [Rows.admits_iff_bounds]
    intro a b u hab
    rcases bounds_directDistances.mp hab with ⟨-, rfl, hu⟩ | ⟨w, hw, hwu⟩
    · linarith
    · exact ((h.admits_toNetwork hc).mpr hs a b w hw).trans hwu
  obtain ⟨t, ht⟩ := h.isConsistent_iff.mp hc
  have hzero : p.directDistances.Closed p.nodes [] :=
    ⟨fun a ha => bounds_directDistances.mpr (.inl ⟨ha, rfl, le_rfl⟩), by simp⟩
  have hall := closed_all (hdirect t ht) hzero (by simp) fun _ (ha : _ ∈ p.nodes) => ha
  refine ⟨⟨hall.zero, fun k hk => hall.through k (by simpa using hk)⟩, fun a b w hw => ?_,
    fun s hs => ?_, fun a b w hw => ?_⟩
  · have hknown : ∀ a b w, p.directDistances.Bounds a b w → a ∈ p.nodes := by
      intro a b w hw
      rcases bounds_directDistances.mp hw with ⟨ha, -⟩ | ⟨v, hv, -⟩
      · exact ha
      · exact (h.known_toNetwork hc hv).1
    refine List.foldlRecOn (motive := fun rows => ∀ a b w, Rows.Bounds rows a b w → a ∈ p.nodes)
      p.nodes _ hknown (fun rows hrows k _ => ?_) a b w hw
    refine List.foldlRecOn (motive := fun rows => ∀ a b w, Rows.Bounds rows a b w → a ∈ p.nodes)
      p.nodes (detour k) hrows fun rows hrows c hc a b w hw => ?_
    rcases bounds_detour.mp hw with hw | ⟨rfl, -⟩
    · exact hrows a b w hw
    · exact hc
  · exact List.foldlRecOn (motive := fun rows => Rows.Admits rows s) p.nodes _ (hdirect s hs)
      fun _ hrows _ _ => admits_detours hrows p.nodes
  · exact List.foldlRecOn (motive := fun rows => Rows.Bounds rows a b w) p.nodes _
      (bounds_directDistances.mpr (.inr ⟨w, hw, le_rfl⟩)) fun _ h _ _ => bounds_mono p.nodes h

namespace Tightest

theorem through (hD : p.Tightest D) (hb : b ∈ p.nodes) (ha : a ∈ p.nodes) (hu : D.Bounds a b u)
    (hw : D.Bounds b c w) : D.Bounds a c (u + w) :=
  hD.closed.through b hb a ha c (u + w) ⟨u, w, hu, hw, le_rfl⟩

theorem exists_earlier (hD : p.Tightest D) (hp : p.WellFormed) (hc : p.isConsistent = true)
    (ha : a ∈ p.nodes) (hfree : ∀ w, ¬ D.Bounds a b w) (ht : p.Satisfies t) {q : Rat}
    (hq : 0 ≤ q) : ∃ s, p.Satisfies s ∧ s b - s a = t b - t a + q := by
  classical
  let s (x : Timepoint σ) : Rat := if ∃ w, D.Bounds a x w then t x - q else t x
  have hs : s a = t a - q := if_pos ⟨0, hD.closed.zero a ha⟩
  have hsb : s b = t b := if_neg fun ⟨w, hw⟩ => hfree w hw
  refine ⟨s, (hp.admits_toNetwork hc).mp fun x y w hxy => ?_, by linarith⟩
  have hle := (hp.admits_toNetwork hc).mpr ht x y w hxy
  have hx := (hp.known_toNetwork hc hxy).1
  by_cases hax : ∃ v, D.Bounds a x v
  · obtain ⟨v, hv⟩ := hax
    have hsx : s x = t x - q := if_pos ⟨v, hv⟩
    have hsy : s y = t y - q := if_pos ⟨_, hD.through hx ha hv (hD.edges x y w hxy)⟩
    linarith
  · have hsx : s x = t x := if_neg hax
    have hsy : s y ≤ t y := by
      simp only [s]
      split <;> linarith
    linarith

theorem exists_bound (hD : p.Tightest D) (hp : p.WellFormed) (hc : p.isConsistent = true)
    (ha : a ∈ p.nodes) : ∃ w, D.Bounds a .planStart w := by
  by_contra hfree
  obtain ⟨t, ht⟩ := hp.isConsistent_iff.mp hc
  have hq : 0 ≤ t a - t .planStart + 1 := by
    have hab := (ht.between a ha).1
    linarith
  obtain ⟨s, hs, heq⟩ := hD.exists_earlier hp hc ha (not_exists.mp hfree) ht hq
  have hsa := (hs.between a ha).1
  linarith

end Tightest

end Closure

section Earliest

variable {p : StnPlan ActionInstance} {D : Rows (Timepoint ActionInstance)}
  {a : Timepoint ActionInstance} {u : Rat} {t : Timepoint ActionInstance → Rat}

theorem Tightest.bounds_planStart (hD : p.Tightest D) (hp : p.WellFormed)
    (hc : p.isConsistent = true) (ha : a ∈ p.nodes) :
    D.Bounds a .planStart u ↔ -earliest D a ≤ u := by
  obtain ⟨w, v, hv, -⟩ := hD.exists_bound hp hc ha
  simp [Rows.Bounds, earliest, hv]

theorem Tightest.earliest (hD : p.Tightest D) (hp : p.WellFormed) (hc : p.isConsistent = true) :
    p.Satisfies (earliest D) ∧ earliest D .planStart = 0 ∧
      ∀ t, p.Satisfies t → t .planStart = 0 → ∀ a ∈ p.nodes, earliest D a ≤ t a := by
  have hbounds {a : Timepoint ActionInstance} {u : Rat} (ha : a ∈ p.nodes) :
      D.Bounds a .planStart u ↔ -StnPlan.earliest D a ≤ u := hD.bounds_planStart hp hc ha
  refine ⟨(hp.admits_toNetwork hc).mp fun a b w hab => ?_, le_antisymm ?_ ?_,
    fun t ht hzero a ha => ?_⟩
  · obtain ⟨ha, hb⟩ := hp.known_toNetwork hc hab
    have hway := hD.through hb ha (hD.edges a b w hab) ((hbounds hb).mpr le_rfl)
    have hle := (hbounds ha).mp hway
    linarith
  · obtain ⟨t, ht⟩ := hp.isConsistent_iff.mp hc
    have hself := Rows.admits_iff_bounds.mp (hD.sound t ht) _ _ _
      ((hbounds hp.planStart).mpr le_rfl)
    linarith
  · have hself := (hbounds hp.planStart).mp (hD.closed.zero _ hp.planStart)
    linarith
  · have hle := Rows.admits_iff_bounds.mp (hD.sound t ht) _ _ _ ((hbounds ha).mpr le_rfl)
    linarith

end Earliest

end StnPlan

end TemporalPlanning
