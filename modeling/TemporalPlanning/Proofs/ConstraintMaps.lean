import Mathlib.Data.List.Sym
import TemporalPlanning.Proofs.ExactDistances

namespace TemporalPlanning

namespace OrderedMap

variable {κ ν : Type}

def listing (m : OrderedMap κ (List ν)) : List (κ × ν) :=
  m.entries.flatMap fun e => e.2.map (e.1, ·)

variable [DecidableEq κ]

def push (m : OrderedMap κ (List ν)) (x : κ × ν) : OrderedMap κ (List ν) :=
  m.put x.1 ((m.get? x.1).getD [] ++ [x.2])

theorem listing_push (m : OrderedMap κ (List ν)) (x : κ × ν) :
    (m.push x).listing.Perm (m.listing ++ [x]) := by
  have hreplace (es : List (κ × List ν)) :
      ((replace x.1 ((find x.1 es).getD [] ++ [x.2]) es).flatMap fun e => e.2.map (e.1, ·)).Perm
        ((es.flatMap fun e => e.2.map (e.1, ·)) ++ [x]) := by
    induction es with
    | nil => simp [replace, find]
    | cons e es ih =>
        by_cases hk : e.1 = x.1
        · simp only [replace, find, hk, if_pos, Option.getD_some, List.flatMap_cons,
            List.map_append, List.map_cons, List.map_nil, List.append_assoc]
          exact List.perm_append_comm.append_left _
        · simp only [replace, find, if_neg hk, List.flatMap_cons, List.append_assoc]
          exact ih.append_left _
  exact hreplace m.entries

theorem listing_pushAll (m : OrderedMap κ (List ν)) (xs : List (κ × ν)) :
    (xs.foldl push m).listing.Perm (m.listing ++ xs) := by
  induction xs generalizing m with
  | nil => simp
  | cons x xs ih =>
      have happend := (listing_push m x).append_right xs
      rw [List.append_assoc] at happend
      exact (ih (m.push x)).trans happend

theorem mem_keys_pushAll {m : OrderedMap κ (List ν)} {xs : List (κ × ν)} {k : κ}
    (h : k ∈ (xs.foldl push m).keys) : k ∈ m.keys ∨ k ∈ xs.map Prod.fst := by
  induction xs generalizing m with
  | nil => exact .inl h
  | cons x xs ih =>
      rcases ih h with hk | hk
      · rw [push, keys_put] at hk
        split at hk
        · exact .inl hk
        · rcases List.mem_append.mp hk with hk | hk
          · exact .inl hk
          · exact .inr (List.mem_singleton.mp hk ▸ List.mem_cons_self)
      · exact .inr (List.mem_cons_of_mem _ hk)

end OrderedMap

theorem List.map_filterMap_sublist {α β γ : Type} {f : α → Option β} {g : β → γ} {h : α → γ}
    {xs : List α} (hf : ∀ x ∈ xs, ∀ y ∈ f x, g y = h x) :
    ((xs.filterMap f).map g).Sublist (xs.map h) := by
  induction xs with
  | nil => exact .slnil
  | cons x xs ih =>
      rw [List.forall_mem_cons] at hf
      cases hx : f x with
      | none =>
          rw [List.filterMap_cons_none hx]
          exact (ih hf.2).cons _
      | some y =>
          rw [List.filterMap_cons_some hx, List.map_cons, List.map_cons, hf.1 y hx]
          exact (ih hf.2).cons_cons _

namespace Rows

variable {ν : Type} [DecidableEq ν] {rows rows' : Rows ν} {a b : ν}

theorem weight?_eq_of_bounds (h : ∀ u, rows.Bounds a b u ↔ rows'.Bounds a b u) :
    rows.weight? a b = rows'.weight? a b := by
  have hle {r r' : Rows ν} (h : ∀ u, r.Bounds a b u → r'.Bounds a b u) {w : Rat}
      (hw : r.weight? a b = some w) : ∃ v, r'.weight? a b = some v ∧ v ≤ w :=
    h w (bounds_of_weight hw)
  cases hw : rows.weight? a b with
  | none =>
      cases hw' : rows'.weight? a b with
      | none => rfl
      | some w' =>
          obtain ⟨w, hsome, -⟩ := hle (fun u => (h u).mpr) hw'
          simp [hw] at hsome
  | some w =>
      obtain ⟨w', hw', hle'⟩ := hle (fun u => (h u).mp) hw
      obtain ⟨v, hv, hvw⟩ := hle (fun u => (h u).mpr) hw'
      obtain rfl : w = v := Option.some.inj (hw.symm.trans hv)
      rw [hw', le_antisymm hle' hvw]

end Rows

namespace StnPlan

variable {σ : Type} [DecidableEq σ] {p q : StnPlan σ} {rows : Rows (Timepoint σ)}
  {nodes : List (Timepoint σ)} {a b : Timepoint σ} {c : StnConstraint σ} {u w : Rat}

abbrev Owned (σ : Type) : Type := Timepoint σ × StnConstraint σ

section Pairs

theorem pairs_sublist_sym2 {α : Type} (xs : List α) :
    ((pairs xs).map fun x => s(x.1, x.2)).Sublist xs.sym2 := by
  induction xs with
  | nil => exact .slnil
  | cons x xs ih =>
      rw [pairs, List.map_append, List.map_map, List.sym2, List.map_cons, List.cons_append]
      exact ((List.Sublist.refl _).append ih).cons _

theorem mem_pairs {α : Type} {xs : List α} {x : α × α} (h : x ∈ pairs xs) :
    x.1 ∈ xs ∧ x.2 ∈ xs :=
  List.mk_mem_sym2_iff.mp ((pairs_sublist_sym2 xs).subset (List.mem_map_of_mem h))

theorem ne_of_mem_pairs {α : Type} {xs : List α} (hxs : xs.Nodup) {x : α × α}
    (h : x ∈ pairs xs) : x.1 ≠ x.2 := by
  induction xs with
  | nil => simp [pairs] at h
  | cons y xs ih =>
      obtain ⟨hy, hxs⟩ := List.nodup_cons.mp hxs
      rcases List.mem_append.mp h with h | h
      · obtain ⟨z, hz, rfl⟩ := List.mem_map.mp h
        exact fun heq : y = z => hy (heq ▸ hz)
      · exact ih hxs h

theorem pairs_total {α : Type} {xs : List α} {x y : α} (hx : x ∈ xs) (hy : y ∈ xs)
    (hne : x ≠ y) : (x, y) ∈ pairs xs ∨ (y, x) ∈ pairs xs := by
  induction xs with
  | nil => simp at hx
  | cons z xs ih =>
      have hhead {y : α} (hy : y ∈ xs) : (z, y) ∈ pairs (z :: xs) :=
        List.mem_append_left _ (List.mem_map_of_mem hy)
      rcases List.mem_cons.mp hx with rfl | hx
      · rcases List.mem_cons.mp hy with rfl | hy
        · exact absurd rfl hne
        · exact .inl (hhead hy)
      · rcases List.mem_cons.mp hy with heq | hy
        · exact .inr (heq ▸ hhead hx)
        · exact (ih hx hy).imp (List.mem_append_right _) (List.mem_append_right _)

end Pairs

section Listing

def seen (rows : Rows (Timepoint σ)) (a b : Timepoint σ) : Owned σ :=
  (a, ⟨(rows.weight? b a).map (- ·), rows.weight? a b, b⟩)

def ends (x : Owned σ) : Sym2 (Timepoint σ) := s(x.1, x.2.target)

def orientedPairs (nodes : List (Timepoint σ)) (rows : Rows (Timepoint σ)) : List (Owned σ) :=
  (pairs nodes).filterMap fun x => oriented x.1 x.2 (rows.weight? x.1 x.2) (rows.weight? x.2 x.1)

theorem constraintsOf_eq : constraintsOf nodes rows =
    (orientedPairs nodes rows).foldl OrderedMap.push .empty := by
  rw [orientedPairs, List.foldl_filterMap, constraintsOf]
  congr 1
  funext m x
  split <;> simp_all [OrderedMap.push]

theorem listing_constraintsOf :
    (constraintsOf nodes rows).listing.Perm (orientedPairs nodes rows) := by
  rw [constraintsOf_eq]
  exact OrderedMap.listing_pushAll .empty _

theorem exists_of_any {w : Option Rat} (h : w.any (· ≤ 0) = true) : ∃ l ∈ w.map (- ·), 0 ≤ l := by
  obtain ⟨v, rfl, hv⟩ := (Option.any_eq_true _ _).mp h
  exact ⟨-v, rfl, by simpa using hv⟩

theorem oriented_some {x : Owned σ}
    (h : oriented a b (rows.weight? a b) (rows.weight? b a) = some x) :
    (x = seen rows a b ∨ x = seen rows b a) ∧
      ((∃ w ≤ 0, rows.weight? a b = some w ∨ rows.weight? b a = some w) →
        ∃ l ∈ x.2.lower, 0 ≤ l) := by
  unfold seen
  generalize rows.weight? a b = ab at h ⊢
  generalize rows.weight? b a = ba at h ⊢
  unfold oriented at h
  split at h
  · simp at h
  · simp only at h
    split at h
    · rename_i hba
      obtain rfl := Option.some.inj h
      exact ⟨.inl rfl, fun _ => exists_of_any hba⟩
    · rename_i hba
      split at h
      · rename_i hab
        obtain rfl := Option.some.inj h
        exact ⟨.inr rfl, fun _ => exists_of_any hab⟩
      · rename_i hab
        have hneither : ¬ ∃ w ≤ 0, ab = some w ∨ ba = some w := by
          rintro ⟨w, hw, rfl | rfl⟩
          · simp [hw] at hab
          · simp [hw] at hba
        refine ⟨?_, fun hw => absurd hw hneither⟩
        split at h
        · rename_i hnone
          obtain rfl := Option.isNone_iff_eq_none.mp hnone
          exact .inr (Option.some.inj h).symm
        · exact .inl (Option.some.inj h).symm

theorem ends_of_oriented {x : Owned σ}
    (h : oriented a b (rows.weight? a b) (rows.weight? b a) = some x) : ends x = s(a, b) := by
  obtain ⟨rfl | rfl, -⟩ := oriented_some h
  · rfl
  · exact Sym2.eq_swap

theorem exists_oriented (h : rows.weight? a b = some w ∨ rows.weight? b a = some w) :
    ∃ x, oriented a b (rows.weight? a b) (rows.weight? b a) = some x := by
  unfold oriented
  split
  · rename_i hab hba
    rw [hab, hba] at h
    simp at h
  · simp only
    split_ifs <;> exact ⟨_, rfl⟩

/-- The pairs of timepoints that have a bound, each listed once, with both bounds on it. -/
structure Lists (nodes : List (Timepoint σ)) (rows : Rows (Timepoint σ))
    (m : OrderedMap (Timepoint σ) (List (StnConstraint σ))) : Prop where
  known : ∀ x ∈ m.listing, x.1 ∈ nodes ∧ x.2.target ∈ nodes
  loopless : ∀ x ∈ m.listing, x.1 ≠ x.2.target
  once : (m.listing.map ends).Nodup
  told : ∀ x ∈ m.listing, x = seen rows x.1 x.2.target
  complete : ∀ a ∈ nodes, ∀ b ∈ nodes, a ≠ b → ∀ w, rows.weight? a b = some w →
    ∃ x ∈ m.listing, ends x = s(a, b)
  forward : ∀ x ∈ m.listing, (∃ w ≤ 0, rows.weight? x.1 x.2.target = some w ∨
    rows.weight? x.2.target x.1 = some w) → ∃ l ∈ x.2.lower, 0 ≤ l

theorem mem_constraintsOf {x : Owned σ} : x ∈ (constraintsOf nodes rows).listing ↔
    ∃ ab ∈ pairs nodes,
      oriented ab.1 ab.2 (rows.weight? ab.1 ab.2) (rows.weight? ab.2 ab.1) = some x :=
  listing_constraintsOf.mem_iff.trans List.mem_filterMap

theorem once_constraintsOf (h : nodes.Nodup) :
    ((constraintsOf nodes rows).listing.map ends).Nodup := by
  have hsub : ((orientedPairs nodes rows).map ends).Sublist
      ((pairs nodes).map fun ab => s(ab.1, ab.2)) :=
    List.map_filterMap_sublist fun _ _ _ hx => ends_of_oriented hx
  exact (listing_constraintsOf.map ends).nodup_iff.mpr
    ((hsub.trans (pairs_sublist_sym2 nodes)).nodup h.sym2)

theorem complete_constraintsOf (ha : a ∈ nodes) (hb : b ∈ nodes) (hab : a ≠ b)
    (hw : rows.weight? a b = some w) :
    ∃ x ∈ (constraintsOf nodes rows).listing, ends x = s(a, b) := by
  rcases pairs_total ha hb hab with hpair | hpair
  · obtain ⟨x, hx⟩ := exists_oriented (.inl hw)
    exact ⟨x, mem_constraintsOf.mpr ⟨_, hpair, hx⟩, ends_of_oriented hx⟩
  · obtain ⟨x, hx⟩ := exists_oriented (.inr hw)
    exact ⟨x, mem_constraintsOf.mpr ⟨_, hpair, hx⟩, (ends_of_oriented hx).trans Sym2.eq_swap⟩

theorem lists_constraintsOf (h : nodes.Nodup) : Lists nodes rows (constraintsOf nodes rows) := by
  have hseen {x : Owned σ} (hx : x ∈ (constraintsOf nodes rows).listing) :
      ∃ a ∈ nodes, ∃ b ∈ nodes, a ≠ b ∧ x = seen rows a b ∧
        ((∃ w ≤ 0, rows.weight? a b = some w ∨ rows.weight? b a = some w) →
          ∃ l ∈ x.2.lower, 0 ≤ l) := by
    obtain ⟨ab, hab, hx⟩ := mem_constraintsOf.mp hx
    obtain ⟨ha, hb⟩ := mem_pairs hab
    have hne := ne_of_mem_pairs h hab
    obtain ⟨hside | hside, hforward⟩ := oriented_some hx
    · exact ⟨_, ha, _, hb, hne, hside, hforward⟩
    · exact ⟨_, hb, _, ha, hne.symm, hside, by simpa only [or_comm] using hforward⟩
  refine ⟨fun x hx => ?_, fun x hx => ?_, once_constraintsOf h, fun x hx => ?_,
    fun a ha b hb hab w hw => complete_constraintsOf ha hb hab hw, fun x hx => ?_⟩
  · obtain ⟨a, ha, b, hb, -, rfl, -⟩ := hseen hx
    exact ⟨ha, hb⟩
  · obtain ⟨a, -, b, -, hne, rfl, -⟩ := hseen hx
    exact hne
  · obtain ⟨a, -, b, -, -, rfl, -⟩ := hseen hx
    rfl
  · obtain ⟨a, -, b, -, -, rfl, hforward⟩ := hseen hx
    exact hforward

end Listing

section Rebuilt

def Puts (x : Owned σ) (a b : Timepoint σ) (u : Rat) : Prop :=
  (a = x.1 ∧ b = x.2.target ∧ ∃ w ∈ x.2.upper, w ≤ u) ∨
    (a = x.2.target ∧ b = x.1 ∧ ∃ l ∈ x.2.lower, -l ≤ u)

theorem foldl_or {α β : Type} {f : β → α → β} {B : β → Prop} {P : α → Prop} {xs : List α}
    (hf : ∀ x ∈ xs, ∀ y, B (f y x) ↔ B y ∨ P x) (y : β) :
    B (xs.foldl f y) ↔ B y ∨ ∃ x ∈ xs, P x := by
  induction xs generalizing y with
  | nil => simp
  | cons x xs ih =>
      rw [List.forall_mem_cons] at hf
      rw [List.foldl_cons, ih hf.2, hf.1, or_assoc, List.exists_mem_cons_iff]

theorem bounds_addBound {d e : Timepoint σ} (hab : a ≠ b) : (p.addBound a b w).rows.Bounds d e u ↔
    p.rows.Bounds d e u ∨ d = a ∧ e = b ∧ w ≤ u := by
  simp only [addBound, tightenRows, if_neg hab, rows_addNode, Rows.bounds_tighten]

theorem bounds_addConstraint {d e : Timepoint σ} (hac : a ≠ c.target) :
    (p.addConstraint a c).rows.Bounds d e u ↔ p.rows.Bounds d e u ∨ Puts (a, c) d e u := by
  have hupper (p : StnPlan σ) : (p.addUpper a c.target c.upper).rows.Bounds d e u ↔
      p.rows.Bounds d e u ∨ d = a ∧ e = c.target ∧ ∃ w ∈ c.upper, w ≤ u := by
    cases c.upper with
    | none => simp [addUpper]
    | some w => simp [addUpper, bounds_addBound hac]
  have hlower (p : StnPlan σ) : (p.addLower a c.target c.lower).rows.Bounds d e u ↔
      p.rows.Bounds d e u ∨ d = c.target ∧ e = a ∧ ∃ l ∈ c.lower, -l ≤ u := by
    cases c.lower with
    | none => simp [addLower]
    | some l => simp [addLower, bounds_addBound hac.symm]
  rw [addConstraint, hlower, hupper, rows_addNode, rows_addNode, Puts, or_assoc]

theorem bounds_ofConstraintMap {m : OrderedMap (Timepoint σ) (List (StnConstraint σ))}
    (hm : ∀ x ∈ m.listing, x.1 ≠ x.2.target) :
    (ofConstraintMap m).rows.Bounds a b u ↔ ∃ x ∈ m.listing, Puts x a b u := by
  have hnone : ¬ (anchors : StnPlan σ).rows.Bounds a b u := by
    rintro ⟨w, hw, -⟩
    simp [anchors, Rows.weight?, Rows.row] at hw
  have howned : ∀ e ∈ m.entries, ∀ p : StnPlan σ, (p.addOwned e.1 e.2).rows.Bounds a b u ↔
      p.rows.Bounds a b u ∨ ∃ c ∈ e.2, Puts (e.1, c) a b u := by
    intro e he p
    rw [addOwned, foldl_or (B := fun p : StnPlan σ => p.rows.Bounds a b u)
      (P := fun c => Puts (e.1, c) a b u), rows_addNode]
    intro c hc p
    exact bounds_addConstraint (hm (e.1, c) (List.mem_flatMap.mpr ⟨e, he, List.mem_map_of_mem hc⟩))
  rw [ofConstraintMap, foldl_or (B := fun p : StnPlan σ => p.rows.Bounds a b u) howned]
  simp only [hnone, false_or, OrderedMap.listing, List.mem_flatMap]
  constructor
  · rintro ⟨e, he, c, hc, hputs⟩
    exact ⟨_, ⟨e, he, List.mem_map_of_mem hc⟩, hputs⟩
  · rintro ⟨x, ⟨e, he, hx⟩, hputs⟩
    obtain ⟨c, hc, rfl⟩ := List.mem_map.mp hx
    exact ⟨e, he, c, hc, hputs⟩

theorem mem_nodes_ofConstraintMap {m : OrderedMap (Timepoint σ) (List (StnConstraint σ))}
    {x : Timepoint σ} (hx : x ∈ (ofConstraintMap m).nodes) :
    (x = .planStart ∨ x = .planEnd) ∨ x ∈ m.keys ∨ ∃ y ∈ m.listing, x = y.2.target := by
  have howned : ∀ e ∈ m.entries, ∀ p : StnPlan σ, x ∈ (p.addOwned e.1 e.2).nodes ↔
      x ∈ p.nodes ∨ x = e.1 ∨ ∃ c ∈ e.2, x = e.1 ∨ x = c.target := by
    intro e _ p
    rw [addOwned, foldl_or (B := fun p : StnPlan σ => x ∈ p.nodes)
      (P := fun c : StnConstraint σ => x = e.1 ∨ x = c.target), mem_nodes_addNode, or_assoc]
    exact fun c _ p => mem_nodes_addConstraint c
  rw [ofConstraintMap, foldl_or (B := fun p : StnPlan σ => x ∈ p.nodes) howned] at hx
  have hkey {e : Timepoint σ × List (StnConstraint σ)} (he : e ∈ m.entries) : e.1 ∈ m.keys :=
    List.mem_map_of_mem he
  rcases hx with hx | ⟨e, he, rfl | ⟨c, hc, rfl | rfl⟩⟩
  · exact .inl (List.mem_pair.mp hx)
  · exact .inr (.inl (hkey he))
  · exact .inr (.inl (hkey he))
  · exact .inr (.inr ⟨_, List.mem_flatMap.mpr ⟨e, he, List.mem_map_of_mem hc⟩, rfl⟩)

theorem Lists.weight?_ofConstraintMap {m : OrderedMap (Timepoint σ) (List (StnConstraint σ))}
    (h : Lists nodes rows m) (ha : a ∈ nodes) (hb : b ∈ nodes) (hab : a ≠ b) :
    (ofConstraintMap m).rows.weight? a b = rows.weight? a b := by
  refine Rows.weight?_eq_of_bounds fun u => ?_
  rw [bounds_ofConstraintMap h.loopless]
  constructor
  · rintro ⟨x, hx, ⟨rfl, rfl, w, hw, hwu⟩ | ⟨rfl, rfl, l, hl, hlu⟩⟩
    · rw [h.told x hx] at hw
      exact ⟨w, hw, hwu⟩
    · rw [h.told x hx] at hl
      obtain ⟨w, hw, rfl⟩ := Option.map_eq_some_iff.mp hl
      exact ⟨w, hw, by simpa using hlu⟩
  · rintro ⟨w, hw, hwu⟩
    obtain ⟨x, hx, hends⟩ := h.complete a ha b hb hab w hw
    have hseen := h.told x hx
    refine ⟨x, hx, ?_⟩
    rcases Sym2.eq_iff.mp hends with ⟨hx1, hx2⟩ | ⟨hx1, hx2⟩
    · rw [hx1, hx2] at hseen
      refine .inl ⟨hx1.symm, hx2.symm, w, ?_, hwu⟩
      rw [hseen]
      exact hw
    · rw [hx1, hx2] at hseen
      refine .inr ⟨hx2.symm, hx1.symm, -w, ?_, by simpa using hwu⟩
      rw [hseen]
      exact Option.map_eq_some_iff.mpr ⟨w, hw, rfl⟩

def rebuilt (nodes : List (Timepoint σ)) (rows : Rows (Timepoint σ)) : StnPlan σ :=
  ofConstraintMap (constraintsOf nodes rows)

theorem nodes_rebuilt (hs : .planStart ∈ nodes) (he : .planEnd ∈ nodes)
    (hnodes : nodes.Nodup) (ha : a ∈ (rebuilt nodes rows).nodes) : a ∈ nodes := by
  have hlists : Lists nodes rows (constraintsOf nodes rows) := lists_constraintsOf hnodes
  rcases mem_nodes_ofConstraintMap ha with (rfl | rfl) | ha | ⟨x, hx, rfl⟩
  · exact hs
  · exact he
  · rw [constraintsOf_eq] at ha
    rcases OrderedMap.mem_keys_pushAll ha with ha | ha
    · simp [OrderedMap.empty, OrderedMap.keys] at ha
    · obtain ⟨x, hx, rfl⟩ := List.mem_map.mp ha
      exact (hlists.known x (listing_constraintsOf.mem_iff.mpr hx)).1
  · exact (hlists.known x hx).2

end Rebuilt

section Distinct

theorem nodup_addNode (h : p.nodes.Nodup) (a : Timepoint σ) : (p.addNode a).nodes.Nodup := by
  unfold addNode
  split
  · exact h
  · rename_i ha
    refine List.nodup_append.mpr ⟨h, List.nodup_singleton a, ?_⟩
    rintro b hb c hc rfl
    exact ha (List.mem_singleton.mp hc ▸ hb)

theorem nodup_addBound (h : p.nodes.Nodup) (a b : Timepoint σ) (w : Rat) :
    (p.addBound a b w).nodes.Nodup :=
  nodup_addNode (nodup_addNode h a) b

theorem nodup_addConstraint (h : p.nodes.Nodup) (a : Timepoint σ) (c : StnConstraint σ) :
    (p.addConstraint a c).nodes.Nodup := by
  rw [nodes_addConstraint]
  exact nodup_addNode (nodup_addNode h a) c.target

theorem nodup_addOwned (h : p.nodes.Nodup) (a : Timepoint σ) (cs : List (StnConstraint σ)) :
    (p.addOwned a cs).nodes.Nodup :=
  List.foldlRecOn (motive := fun p : StnPlan σ => p.nodes.Nodup) cs _ (nodup_addNode h a)
    fun _ h c _ => nodup_addConstraint h a c

theorem nodup_renamed (p : StnPlan σ) (f : σ → Option σ) : (p.renamed f).nodes.Nodup := by
  refine List.foldlRecOn (motive := fun p : StnPlan σ => p.nodes.Nodup) _ _ ?_ fun _ h a _ => ?_
  · exact List.foldlRecOn (motive := fun p : StnPlan σ => p.nodes.Nodup) _ _ (by simp [anchors])
      fun _ h a _ => nodup_addNode h (rename f a)
  · exact List.foldlRecOn (motive := fun p : StnPlan σ => p.nodes.Nodup) _ _ h
      fun _ h e _ => nodup_addBound h (rename f a) (rename f e.1) e.2

theorem Built.nodup (h : Built p) : p.nodes.Nodup := by
  cases h with
  | ofConstraints cs =>
      exact List.foldlRecOn (motive := fun p : StnPlan σ => p.nodes.Nodup) cs _ (by simp [anchors])
        fun _ h c _ => nodup_addConstraint h c.1 c.2
  | ofConstraintMap m =>
      exact List.foldlRecOn (motive := fun p : StnPlan σ => p.nodes.Nodup) m.entries _
        (by simp [anchors]) fun _ h e _ => nodup_addOwned h e.1 e.2
  | replaceSteps _ f => exact nodup_renamed _ f

end Distinct

section RoundTrip

variable {D D' : Rows (Timepoint σ)}

theorem Built.weight?_rebuilt (h : Built p) (a b : Timepoint σ) :
    (rebuilt p.nodes p.rows).rows.weight? a b = p.rows.weight? a b := by
  have hp := h.wellFormed
  have hq : (rebuilt p.nodes p.rows).WellFormed := wellFormed_ofConstraintMap _
  have hnodes {x : Timepoint σ} (hx : x ∈ (rebuilt p.nodes p.rows).nodes) : x ∈ p.nodes :=
    nodes_rebuilt hp.planStart hp.planEnd h.nodup hx
  by_cases hab : a = b
  · rw [hab, hp.rows.loopless, hq.rows.loopless]
  · by_cases hmem : a ∈ p.nodes ∧ b ∈ p.nodes
    · exact (lists_constraintsOf h.nodup).weight?_ofConstraintMap hmem.1 hmem.2 hab
    · have hnone : p.rows.weight? a b = none :=
        Option.eq_none_iff_forall_ne_some.mpr fun w hw => hmem (hp.rows.known a b w hw)
      rw [hnone]
      refine Option.eq_none_iff_forall_ne_some.mpr fun w hw => hmem ?_
      exact (hq.rows.known a b w hw).imp hnodes hnodes

theorem Built.isConsistent_rebuilt (h : Built p) :
    (rebuilt p.nodes p.rows).isConsistent = true ↔ p.isConsistent = true := by
  have hp := h.wellFormed
  have hq : (rebuilt p.nodes p.rows).WellFormed := wellFormed_ofConstraintMap _
  rw [hp.isConsistent_iff, hq.isConsistent_iff]
  constructor
  · rintro ⟨t, ht⟩
    let s (a : Timepoint σ) : Rat :=
      if a ∈ (rebuilt p.nodes p.rows).nodes then t a else t .planStart
    have hkept {a : Timepoint σ} (ha : a ∈ (rebuilt p.nodes p.rows).nodes) : s a = t a := if_pos ha
    refine ⟨s, fun a _ => ?_, fun a b w hw => ?_⟩
    · rw [Between, hkept hq.planStart, hkept hq.planEnd]
      by_cases ha : a ∈ (rebuilt p.nodes p.rows).nodes
      · exact hkept ha ▸ ht.between a ha
      · have hfree : s a = t .planStart := if_neg ha
        rw [hfree]
        exact ⟨le_rfl, hq.ends ht⟩
    · rw [← h.weight?_rebuilt] at hw
      obtain ⟨ha, hb⟩ := hq.rows.known a b w hw
      rw [hkept ha, hkept hb]
      exact ht.admits a b w hw
  · rintro ⟨t, ht⟩
    refine ⟨t, fun a ha => ht.between a ?_, fun a b w hw => ht.admits a b w ?_⟩
    · exact nodes_rebuilt hp.planStart hp.planEnd h.nodup ha
    · rwa [← h.weight?_rebuilt]

namespace Tightest

theorem bounds_iff (hD : p.Tightest D) (hp : p.WellFormed) (hc : p.isConsistent = true) :
    D.Bounds a b u ↔ a ∈ p.nodes ∧ ∀ t, p.Satisfies t → t b - t a ≤ u := by
  constructor
  · intro h
    exact ⟨hD.known a b u h, fun t ht => Rows.admits_iff_bounds.mp (hD.sound t ht) a b u h⟩
  · rintro ⟨ha, hu⟩
    obtain ⟨w, hw⟩ := (hD.weight_iff_bounded hp hc ha).mpr ⟨u, hu⟩
    obtain ⟨t, ht, heq⟩ := hD.exists_at_distance hp hc ha hw
    exact ⟨w, hw, heq ▸ hu t ht⟩

theorem admits_iff (hD : p.Tightest D) (hp : p.WellFormed) (hc : p.isConsistent = true)
    {t : Timepoint σ → Rat} : D.Admits t ↔ p.Satisfies t := by
  refine ⟨fun ht => (hp.admits_toNetwork hc).mp fun a b w hw => ?_, hD.sound t⟩
  exact Rows.admits_iff_bounds.mp ht a b w (hD.edges a b w hw)

theorem known_target (hD : p.Tightest D) (hp : p.WellFormed) (hc : p.isConsistent = true)
    (hw : D.weight? a b = some w) : b ∈ p.nodes := by
  obtain ⟨s, hs⟩ := hp.isConsistent_iff.mp hc
  by_contra hb
  have ha : a ∈ p.nodes := hD.known a b w (Rows.bounds_of_weight hw)
  have hne {x : Timepoint σ} (hx : x ∈ p.nodes) : x ≠ b := fun heq => hb (heq ▸ hx)
  have hlate : p.Satisfies (Function.update s b (s a + w + 1)) :=
    hp.satisfies_congr (fun x hx => (Function.update_of_ne (hne hx) _ s).symm) hs
  have hle := hD.sound _ hlate a b w hw
  rw [Function.update_self, Function.update_of_ne (hne ha)] at hle
  linarith

end Tightest

section Closed

variable (h : Built p) (hD : p.closure = .ok D)
include h hD

theorem Built.mem_nodes_closed : a ∈ (rebuilt p.nodes D).nodes ↔ a ∈ p.nodes := by
  have hp := h.wellFormed
  have hq : (rebuilt p.nodes D).WellFormed := wellFormed_ofConstraintMap _
  refine ⟨nodes_rebuilt hp.planStart hp.planEnd h.nodup, fun ha => ?_⟩
  by_cases hstart : a = .planStart
  · exact hstart ▸ hq.planStart
  · -- every timepoint is bounded by the start of the plan
    obtain ⟨_, w, hw, -⟩ := (hp.tightest hD).exists_bound hp (closure_ok hD).1 ha
    rw [← (lists_constraintsOf h.nodup).weight?_ofConstraintMap ha hp.planStart hstart] at hw
    exact (hq.rows.known _ _ _ hw).1

theorem Built.satisfies_closed {t : Timepoint σ → Rat} :
    (rebuilt p.nodes D).Satisfies t ↔ p.Satisfies t := by
  have hp := h.wellFormed
  have hc := (closure_ok hD).1
  have htightest := hp.tightest hD
  have hlists : Lists p.nodes D (constraintsOf p.nodes D) := lists_constraintsOf h.nodup
  constructor
  · intro ht
    refine (htightest.admits_iff hp hc).mp fun a b w hw => ?_
    have ha : a ∈ p.nodes := htightest.known a b w (Rows.bounds_of_weight hw)
    have hb : b ∈ p.nodes := htightest.known_target hp hc hw
    by_cases hab : a = b
    · subst hab
      obtain ⟨s, hs⟩ := hp.isConsistent_iff.mp hc
      rw [htightest.weight_self ha hs] at hw
      rw [sub_self, ← Option.some.inj hw]
    · rw [← hlists.weight?_ofConstraintMap ha hb hab] at hw
      exact ht.admits a b w hw
  · intro ht
    have hq : (rebuilt p.nodes D).WellFormed := wellFormed_ofConstraintMap _
    refine ⟨fun a ha => ht.between a ((h.mem_nodes_closed hD).mp ha), fun a b w hw => ?_⟩
    obtain ⟨ha, hb⟩ := (hq.rows.known a b w hw).imp (h.mem_nodes_closed hD).mp
      (h.mem_nodes_closed hD).mp
    have hab : a ≠ b := by
      rintro rfl
      simp [hq.rows.loopless] at hw
    rw [rebuilt, hlists.weight?_ofConstraintMap ha hb hab] at hw
    exact htightest.sound t ht a b w hw

theorem Built.closure_closed : ∃ D', (rebuilt p.nodes D).closure = .ok D' ∧
    ∀ a b, D'.weight? a b = D.weight? a b := by
  have hp := h.wellFormed
  have hc := (closure_ok hD).1
  have hq : (rebuilt p.nodes D).WellFormed := wellFormed_ofConstraintMap _
  have hcq : (rebuilt p.nodes D).isConsistent = true := by
    rw [hq.isConsistent_iff]
    obtain ⟨t, ht⟩ := hp.isConsistent_iff.mp hc
    exact ⟨t, (h.satisfies_closed hD).mpr ht⟩
  obtain ⟨D', hD'⟩ := closure_of_consistent hcq
  refine ⟨D', hD', fun a b => Rows.weight?_eq_of_bounds fun u => ?_⟩
  rw [(hq.tightest hD').bounds_iff hq hcq, (hp.tightest hD).bounds_iff hp hc,
    h.mem_nodes_closed hD]
  exact and_congr_right fun _ => forall_congr' fun t => by rw [h.satisfies_closed hD]

end Closed

theorem Built.constraints_round_trip (h : Built p) :
    Lists p.nodes p.rows p.constraints ∧
    (∀ a b, (StnPlan.ofConstraintMap p.constraints).rows.weight? a b = p.rows.weight? a b) ∧
    ((StnPlan.ofConstraintMap p.constraints).isConsistent = true ↔ p.isConsistent = true) ∧
    (p.isConsistent = true → ∃ m D D', p.closedConstraints = .ok m ∧ p.closure = .ok D ∧
      Lists p.nodes D m ∧ (StnPlan.ofConstraintMap m).closure = .ok D' ∧
      (StnPlan.ofConstraintMap m).nodes.Perm p.nodes ∧
      ∀ a b, D'.weight? a b = D.weight? a b) := by
  refine ⟨lists_constraintsOf h.nodup, h.weight?_rebuilt, h.isConsistent_rebuilt, fun hc => ?_⟩
  obtain ⟨D, hD⟩ := closure_of_consistent hc
  obtain ⟨D', hD', hsame⟩ := h.closure_closed hD
  have hclosed : p.closedConstraints = .ok (constraintsOf p.nodes D) := by
    rw [closedConstraints, hD]
    rfl
  refine ⟨_, D, D', hclosed, hD, lists_constraintsOf h.nodup, hD', ?_, hsame⟩
  have hnodup : (StnPlan.ofConstraintMap (constraintsOf p.nodes D)).nodes.Nodup :=
    (Built.ofConstraintMap _).nodup
  exact (List.perm_ext_iff_of_nodup hnodup h.nodup).mpr fun a => h.mem_nodes_closed hD

theorem constraints_round_trip_chain :
    (∀ a b, (ofConstraintMap chain.constraints).rows.weight? a b = chain.rows.weight? a b) ∧
    ∃ m D, chain.closedConstraints = .ok m ∧ (ofConstraintMap m).closure = .ok D ∧
      D.weight? (.start 1) (.start 3) = some 7 := by
  obtain ⟨-, hrows, -, hclosed⟩ :=
    Built.constraints_round_trip (.ofConstraints _ : Built chain)
  obtain ⟨m, D, D', hm, hD, -, hD', -, hsame⟩ := hclosed (by decide +kernel)
  refine ⟨hrows, m, D', hm, hD', ?_⟩
  rw [hsame, (closure_ok hD).2]
  decide +kernel

end RoundTrip

end StnPlan

end TemporalPlanning
