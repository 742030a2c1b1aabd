import Mathlib.Order.Bounds.Basic
import TemporalPlanning.Proofs.ConstraintSequences
import TemporalPlanning.Proofs.TightestDistances

namespace TemporalPlanning

variable {ν : Type}

namespace Constraint

variable {c : Constraint ν} {a b : ν} {u : Rat}

def Bounds (c : Constraint ν) (a b : ν) (u : Rat) : Prop :=
  (c.first = a ∧ c.second = b ∧ u ∈ c.upper) ∨
    (c.first = b ∧ c.second = a ∧ ∃ l ∈ c.lower, u = -l)

def directed (c : Constraint ν) : List (ν × ν × Rat) :=
  c.upper.toList.map (fun u => (c.first, c.second, u)) ++
    c.lower.toList.map fun l => (c.second, c.first, -l)

theorem mem_directed : (a, b, u) ∈ c.directed ↔ c.Bounds a b u := by
  simp only [directed, Bounds, List.mem_append, List.mem_map, Option.mem_toList, Prod.mk.injEq]
  refine or_congr ⟨?_, ?_⟩ ⟨?_, ?_⟩
  · rintro ⟨v, hv, rfl, rfl, rfl⟩
    exact ⟨rfl, rfl, hv⟩
  · rintro ⟨rfl, rfl, hu⟩
    exact ⟨u, hu, rfl, rfl, rfl⟩
  · rintro ⟨l, hl, rfl, rfl, rfl⟩
    exact ⟨rfl, rfl, l, hl, rfl⟩
  · rintro ⟨rfl, rfl, l, hl, rfl⟩
    exact ⟨l, hl, rfl, rfl, rfl⟩

end Constraint

def boundsOn (cs : List (Constraint ν)) (a b : ν) : Set Rat := {u | ∃ c ∈ cs, c.Bounds a b u}

theorem mem_boundsOn {cs : List (Constraint ν)} {a b : ν} {u : Rat} :
    u ∈ boundsOn cs a b ↔ (a, b, u) ∈ cs.flatMap Constraint.directed := by
  rw [List.mem_flatMap]
  exact exists_congr fun c => and_congr_right fun _ => Constraint.mem_directed.symm

theorem boundsOn_of_perm {cs ds : List (Constraint ν)} (h : ds.Perm cs) (a b : ν) :
    boundsOn ds a b = boundsOn cs a b := by
  simp only [boundsOn, h.mem_iff]

variable [DecidableEq ν]

namespace Rows

variable {rows : Rows ν} {a b c d : ν} {u w : Rat}

def tightenBy (rows : Rows ν) (es : List (ν × ν × Rat)) : Rows ν :=
  (es.filter fun e => e.1 ≠ e.2.1).foldl (fun rows e => rows.tighten e.1 e.2.1 e.2.2) rows

theorem tightenBy_append (es fs : List (ν × ν × Rat)) :
    rows.tightenBy (es ++ fs) = (rows.tightenBy es).tightenBy fs := by
  rw [tightenBy, List.filter_append, List.foldl_append, ← tightenBy, ← tightenBy]

theorem bounds_tightenBy (es : List (ν × ν × Rat)) (hcd : c ≠ d) :
    (rows.tightenBy es).Bounds c d u ↔ rows.Bounds c d u ∨ ∃ w, (c, d, w) ∈ es ∧ w ≤ u := by
  simp [tightenBy, bounds_tightenAll, hcd]

theorem weight?_eq_some_iff {S : Set Rat} (h : ∀ u, rows.Bounds a b u ↔ ∃ v ∈ S, v ≤ u) :
    rows.weight? a b = some w ↔ IsLeast S w := by
  have hleast {v u : Rat} (hv : rows.weight? a b = some v) (hu : u ∈ S) : v ≤ u := by
    obtain ⟨v', hv', hle⟩ := (h u).mpr ⟨u, hu, le_rfl⟩
    obtain rfl : v = v' := Option.some.inj (hv.symm.trans hv')
    exact hle
  constructor
  · intro hw
    obtain ⟨v, hv, hvw⟩ := (h w).mp (bounds_of_weight hw)
    have hwv : w = v := le_antisymm (hleast hw hv) hvw
    exact ⟨hwv ▸ hv, fun u hu => hleast hw hu⟩
  · intro hw
    obtain ⟨v, hv, hvw⟩ := (h w).mpr ⟨w, hw.1, le_rfl⟩
    obtain ⟨u, hu, huv⟩ := (h v).mp (bounds_of_weight hv)
    rw [hv, le_antisymm hvw ((hw.2 hu).trans huv)]

theorem weight?_eq_none_iff {S : Set Rat} (h : ∀ u, rows.Bounds a b u ↔ ∃ v ∈ S, v ≤ u) :
    rows.weight? a b = none ↔ S = ∅ := by
  rw [Set.eq_empty_iff_forall_notMem]
  constructor
  · intro hnone u hu
    obtain ⟨v, hv, -⟩ := (h u).mpr ⟨u, hu, le_rfl⟩
    simp [hnone] at hv
  · intro hS
    refine Option.eq_none_iff_forall_ne_some.mpr fun w hw => ?_
    obtain ⟨v, hv, -⟩ := (h w).mp (bounds_of_weight hw)
    exact hS v hv

omit [DecidableEq ν] in
theorem nodup_triples (rows : Rows ν) : rows.triples.Nodup := by
  refine List.nodup_flatMap.mpr ⟨fun r _ => ?_, ?_⟩
  · refine List.Nodup.of_map (fun e => e.2.1) ?_
    rw [List.map_map]
    exact r.2.nodup
  · refine (List.pairwise_map.mp rows.nodup).imp fun hne => ?_
    intro e he hf
    obtain ⟨x, -, rfl⟩ := List.mem_map.mp he
    obtain ⟨y, -, heq⟩ := List.mem_map.mp hf
    exact hne (congrArg Prod.fst heq).symm

end Rows

namespace Network

variable {net : Network ν} {a b : ν}

theorem rows_addBound (net : Network ν) (a b : ν) (w : Rat) :
    (net.addBound a b w).1.rows = net.rows.tightenBy [(a, b, w)] := by
  have hset : (net.tighten a b w).1.rows = net.rows.setWeight a b w := by
    unfold tighten
    dsimp only
    split
    · rfl
    · split <;> rfl
  unfold addBound Rows.tightenBy
  by_cases hab : a = b
  · simp [hab]
  · simp only [if_neg hab, Rows.tighten]
    cases hv : net.rows.weight? a b with
    | none => simp [hab, hv, hset]
    | some v =>
        by_cases hvw : v ≤ w
        · simp [hab, hv, hvw, not_lt.mpr hvw]
        · simp [hab, hv, hvw, hset, not_le.mp hvw]

theorem rows_addUpper (net : Network ν) (a b : ν) (upper : Option Rat) :
    (net.addUpper a b upper).1.rows =
      net.rows.tightenBy (upper.toList.map fun u => (a, b, u)) := by
  cases upper with
  | none => rfl
  | some u => exact rows_addBound net a b u

theorem rows_addLower (net : Network ν) (a b : ν) (lower : Option Rat) :
    (net.addLower a b lower).1.rows =
      net.rows.tightenBy (lower.toList.map fun l => (b, a, -l)) := by
  cases lower with
  | none => rfl
  | some l => exact rows_addBound net b a (-l)

theorem rows_add (c : Constraint ν)
    (hn : (net.add c.first c.second c.lower c.upper).failure = none) :
    (net.add c.first c.second c.lower c.upper).rows = net.rows.tightenBy c.directed := by
  have h0 : net.failure = none := @failure_of_addAll _ _ net [c] hn
  have hnodes : ((net.addNode c.first).addNode c.second).rows = net.rows := by simp
  rw [Constraint.directed, Rows.tightenBy_append]
  simp only [add, h0, Option.isSome_none, Bool.false_eq_true, if_false] at hn ⊢
  generalize (net.addNode c.first).addNode c.second = m at hn hnodes ⊢
  rw [← hnodes, ← rows_addUpper]
  split at hn
  · simp at hn
  · rename_i hcrossed
    rw [if_neg hcrossed]
    split at hn
    · simp at hn
    · rename_i n hu
      rw [hu, ← rows_addLower]
      split at hn
      · simp at hn
      · rename_i k hl
        rw [hl]

theorem rows_addAll (cs : List (Constraint ν)) (hn : (net.addAll cs).failure = none) :
    (net.addAll cs).rows = net.rows.tightenBy (cs.flatMap Constraint.directed) := by
  induction cs generalizing net with
  | nil => rfl
  | cons c cs ih =>
      have hc : (net.add c.first c.second c.lower c.upper).failure = none := failure_of_addAll hn
      rw [List.flatMap_cons, Rows.tightenBy_append, ← rows_add c hc]
      exact ih hn

section Sequences

variable {cs ds : List (Constraint ν)} {u w : Rat}

theorem bounds_addAll (hc : ((empty : Network ν).addAll cs).check = true) (hab : a ≠ b) :
    ((empty : Network ν).addAll cs).rows.Bounds a b u ↔ ∃ v ∈ boundsOn cs a b, v ≤ u := by
  have hnone : ¬ (empty : Network ν).rows.Bounds a b u := nofun
  rw [rows_addAll cs (Option.isNone_iff_eq_none.mp hc), Rows.bounds_tightenBy _ hab]
  simp only [hnone, false_or, mem_boundsOn]

theorem mem_edges_addAll (hc : ((empty : Network ν).addAll cs).check = true) :
    (a, b, w) ∈ ((empty : Network ν).addAll cs).edges ↔ a ≠ b ∧ IsLeast (boundsOn cs a b) w := by
  have hloop := ((represents_sequence cs).exact (Option.isNone_iff_eq_none.mp hc)).1.loopless
  have hweight (hab : a ≠ b) : ((empty : Network ν).addAll cs).rows.weight? a b = some w ↔
      IsLeast (boundsOn cs a b) w := Rows.weight?_eq_some_iff fun _ => bounds_addAll hc hab
  rw [edges, Rows.mem_triples_iff]
  constructor
  · intro hw
    have hab : a ≠ b := by
      rintro rfl
      simp [hloop] at hw
    exact ⟨hab, (hweight hab).mp hw⟩
  · rintro ⟨hab, hw⟩
    exact (hweight hab).mpr hw

theorem check_addAll_of_perm (h : ds.Perm cs)
    (hc : ((empty : Network ν).addAll cs).check = true) :
    ((empty : Network ν).addAll ds).check = true := by
  obtain ⟨t, ht⟩ := (represents_sequence cs).check_iff.mp hc
  exact (represents_sequence ds).check_iff.mpr ⟨t, fun d hd => ht d (h.mem_iff.mp hd)⟩

theorem edges_addAll_of_perm (h : ds.Perm cs)
    (hc : ((empty : Network ν).addAll cs).check = true) :
    ((empty : Network ν).addAll ds).edges.Perm ((empty : Network ν).addAll cs).edges := by
  refine (List.perm_ext_iff_of_nodup (Rows.nodup_triples _) (Rows.nodup_triples _)).mpr ?_
  rintro ⟨a, b, w⟩
  calc (a, b, w) ∈ ((empty : Network ν).addAll ds).edges
      ↔ a ≠ b ∧ IsLeast (boundsOn ds a b) w := mem_edges_addAll (check_addAll_of_perm h hc)
    _ ↔ a ≠ b ∧ IsLeast (boundsOn cs a b) w := by rw [boundsOn_of_perm h]
    _ ↔ (a, b, w) ∈ ((empty : Network ν).addAll cs).edges := (mem_edges_addAll hc).symm

theorem addAll_records (hc : ((empty : Network ν).addAll cs).check = true) :
    let net := (empty : Network ν).addAll cs
    (∀ a b, a ≠ b → (∀ w, net.upper a b = some w ↔ IsLeast (boundsOn cs a b) w) ∧
      (net.upper a b = none ↔ boundsOn cs a b = ∅) ∧ net.lower a b = (net.upper b a).map (- ·)) ∧
    net.edges.Nodup ∧
    (∀ a b w, (a, b, w) ∈ net.edges ↔ a ≠ b ∧ IsLeast (boundsOn cs a b) w) ∧
    ∀ ds, ds.Perm cs → (empty.addAll ds).check = true ∧
      (empty.addAll ds).edges.Perm net.edges := by
  refine ⟨fun a b hab => ⟨fun w => ?_, ?_, rfl⟩, Rows.nodup_triples _,
    fun a b w => mem_edges_addAll hc, fun ds h => ⟨check_addAll_of_perm h hc, ?_⟩⟩
  · exact Rows.weight?_eq_some_iff fun _ => bounds_addAll hc hab
  · exact Rows.weight?_eq_none_iff fun _ => bounds_addAll hc hab
  · exact edges_addAll_of_perm h hc

end Sequences

def crossing : List (Constraint Nat) :=
  [⟨0, 1, some 1, some 5⟩, ⟨1, 0, some (-3), none⟩, ⟨1, 1, some (-1), some 2⟩,
    ⟨0, 1, none, some 4⟩, ⟨0, 1, some 0, none⟩]

theorem addAll_records_crossing : ((empty : Network Nat).addAll crossing).check = true ∧
    IsLeast (boundsOn crossing 0 1) 3 ∧ IsLeast (boundsOn crossing 1 0) (-1) ∧
    (empty.addAll crossing.reverse).edges.Perm (empty.addAll crossing).edges := by
  have hc : ((empty : Network Nat).addAll crossing).check = true := by decide +kernel
  have hupper : ((empty : Network Nat).addAll crossing).upper 0 1 = some 3 := by decide +kernel
  have hlower : ((empty : Network Nat).addAll crossing).upper 1 0 = some (-1) := by decide +kernel
  obtain ⟨hbounds, -, -, hperm⟩ := addAll_records hc
  refine ⟨hc, ?_, ?_, (hperm _ crossing.reverse_perm).2⟩
  · exact ((hbounds 0 1 (by decide)).1 3).mp hupper
  · exact ((hbounds 1 0 (by decide)).1 (-1)).mp hlower

end Network

end TemporalPlanning
