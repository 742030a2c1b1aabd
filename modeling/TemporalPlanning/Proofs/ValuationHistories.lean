import TemporalPlanning.Proofs.ReadsAndWrites

namespace TemporalPlanning

namespace OrderedMap

variable {κ ν : Type} [DecidableEq κ]

theorem putAll_append (m : OrderedMap κ ν) (es es' : List (κ × ν)) :
    m.putAll (es ++ es') = (m.putAll es).putAll es' :=
  List.foldl_append

theorem find_append (k : κ) (es es' : List (κ × ν)) :
    find k (es ++ es') = (find k es).or (find k es') := by
  induction es with
  | nil => rfl
  | cons e es ih =>
      by_cases hk : e.1 = k
      · simp [find, hk]
      · simp [find, hk, ih]

theorem get?_putAll_last (m : OrderedMap κ ν) (es : List (κ × ν)) (k : κ) :
    (m.putAll es).get? k = (find k es.reverse).or (m.get? k) := by
  induction es generalizing m with
  | nil => rfl
  | cons e es ih =>
      have hput : m.putAll (e :: es) = (m.put e.1 e.2).putAll es := rfl
      rw [hput, ih, get?_put, List.reverse_cons, find_append, Option.or_assoc]
      congr 1
      by_cases hk : k = e.1
      · simp [find, hk]
      · simp [find, hk, Ne.symm hk]

end OrderedMap

namespace Valuation

structure Lineage where
  root : List (String × Value)
  updates : List (OrderedMap String Value)

namespace Lineage

def plain (l : Lineage) : OrderedMap String Value :=
  l.updates.foldl (fun m changes => m.putAll changes.entries) (.ofList l.root)

def assignments (l : Lineage) : List (String × Value) :=
  l.root ++ l.updates.flatMap (·.entries)

def extend (l : Lineage) (changes : OrderedMap String Value) : Lineage :=
  { l with updates := l.updates ++ [changes] }

theorem plain_extend (l : Lineage) (changes : OrderedMap String Value) :
    (l.extend changes).plain = l.plain.putAll changes.entries := by
  simp [plain, extend]

theorem plain_eq (l : Lineage) : l.plain = .ofList l.assignments := by
  rw [OrderedMap.ofList, assignments, OrderedMap.putAll_append, OrderedMap.putAll,
    List.foldl_flatMap]
  rfl

theorem get?_plain (l : Lineage) (key : String) :
    l.plain.get? key = OrderedMap.find key l.assignments.reverse := by
  rw [plain_eq, OrderedMap.ofList, OrderedMap.get?_putAll_last, OrderedMap.get?_empty,
    Option.or_none]

end Lineage

inductive Made : List (Valuation × Lineage) → Prop
  | nothing : Made []
  | root {made : List (Valuation × Lineage)} (es : List (String × Value)) (h : Made made) :
      Made (made ++ [(.ofMap (.ofList es), ⟨es, []⟩)])
  | update {made : List (Valuation × Lineage)} {v : Valuation} {l : Lineage}
      (changes : OrderedMap String Value) (h : Made made) (hv : (v, l) ∈ made) :
      Made (made ++ [(v.update changes, l.extend changes)])

/-- The layers of a valuation stand for the plain map of its lineage, and are few. -/
structure StandsFor (v : Valuation) (l : Lineage) : Prop where
  toMap : v.toMap = l.plain
  layers : v.layers.length ≤ maxLayers

theorem toMap_update (v : Valuation) (changes : OrderedMap String Value) :
    (v.update changes).toMap = v.toMap.putAll changes.entries := by
  unfold update
  split
  · rename_i hempty
    rw [List.isEmpty_iff.mp hempty]
    rfl
  · split
    · rfl
    · rfl

theorem length_update (v : Valuation) (changes : OrderedMap String Value)
    (h : v.layers.length ≤ maxLayers) : (v.update changes).layers.length ≤ maxLayers := by
  unfold update
  split
  · exact h
  · split
    · exact Nat.zero_le _
    · rename_i hfew
      exact Nat.lt_of_not_le hfew

theorem StandsFor.update {v : Valuation} {l : Lineage} (h : StandsFor v l)
    (changes : OrderedMap String Value) : StandsFor (v.update changes) (l.extend changes) where
  toMap := by rw [toMap_update, h.toMap, Lineage.plain_extend]
  layers := length_update v changes h.layers

theorem Made.standsFor {made : List (Valuation × Lineage)} (h : Made made) :
    ∀ x ∈ made, StandsFor x.1 x.2 := by
  induction h with
  | nothing => simp
  | root es _ ih =>
      refine List.forall_mem_append.mpr ⟨ih, List.forall_mem_singleton.mpr ⟨rfl, ?_⟩⟩
      exact Nat.zero_le _
  | update changes _ hv ih =>
      exact List.forall_mem_append.mpr
        ⟨ih, List.forall_mem_singleton.mpr ((ih _ hv).update changes)⟩

theorem Made.plain_exact {made : List (Valuation × Lineage)} {v : Valuation} {l : Lineage}
    (h : Made made) (hv : (v, l) ∈ made) :
    (∀ key, v.get? key = l.plain.get? key ∧ v.contains key = l.plain.contains key ∧
      l.plain.get? key = OrderedMap.find key l.assignments.reverse) ∧
    v.toMap = l.plain ∧
    (∀ changes : OrderedMap String Value, changes.isEmpty = true → v.update changes = v) ∧
    v.layers.length ≤ maxLayers := by
  obtain ⟨hmap, hlayers⟩ := h.standsFor _ hv
  have hget (key : String) : v.get? key = l.plain.get? key := by rw [← hmap, get?_toMap]
  refine ⟨fun key => ⟨hget key, ?_, l.get?_plain key⟩, hmap, fun changes hempty => ?_, hlayers⟩
  · rw [contains, hget, OrderedMap.contains]
  · rw [Valuation.update, if_pos hempty]

section Counting

def counted (n : Nat) : OrderedMap String Value :=
  .ofList [("count", .number n), (String.ofList ('n' :: Nat.toDigits 10 n), .bool true)]

def counting : Nat → Valuation × Lineage
  | 0 => (.ofMap (.ofList []), ⟨[], []⟩)
  | n + 1 => ((counting n).1.update (counted n), (counting n).2.extend (counted n))

theorem made_counting (n : Nat) : ∃ made, Made made ∧ ∀ m ≤ n, counting m ∈ made := by
  induction n with
  | zero => exact ⟨_, .root [] .nothing, fun m hm => by simp [Nat.le_zero.mp hm, counting]⟩
  | succ n ih =>
      obtain ⟨made, hmade, hall⟩ := ih
      refine ⟨_, hmade.update (counted n) (hall n (Nat.le_refl n)), fun m hm => ?_⟩
      rcases Nat.le_succ_iff.mp hm with hm | rfl
      · exact List.mem_append_left _ (hall m hm)
      · exact List.mem_append_right _ (List.mem_singleton_self _)

theorem counting_exact : ∃ made, Made made ∧ counting 50 ∈ made ∧
    (counting 50).1.layers.length = 17 ∧
    (counting 50).1.get? "count" = some (.number 49) ∧
    (counting 50).1.get? "count" = (counting 50).2.plain.get? "count" := by
  obtain ⟨made, hmade, hall⟩ := made_counting 50
  have hlast := hall 50 (Nat.le_refl 50)
  have hlayers : (counting 50).1.layers.length = 17 := by decide +kernel
  have hcount : (counting 50).1.get? "count" = some (.number 49) := by decide +kernel
  generalize counting 50 = x at *
  exact ⟨made, hmade, hlast, hlayers, hcount, ((hmade.plain_exact hlast).1 "count").1⟩

end Counting

end Valuation

end TemporalPlanning
