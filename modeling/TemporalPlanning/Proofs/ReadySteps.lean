import Mathlib.Data.List.Basic
import Mathlib.Data.List.Nodup
import TemporalPlanning.Plan.Partial

namespace TemporalPlanning

namespace OrderedMap

variable {κ ν : Type} [DecidableEq κ]

theorem eq_of_find {es fs : List (κ × ν)} (hnodup : (es.map Prod.fst).Nodup)
    (hkeys : es.map Prod.fst = fs.map Prod.fst) (hfind : ∀ k, find k es = find k fs) : es = fs := by
  induction es generalizing fs with
  | nil => exact (List.map_eq_nil_iff.mp hkeys.symm).symm
  | cons e es ih =>
      cases fs with
      | nil => simp at hkeys
      | cons f fs =>
          obtain ⟨hkey, hkeys⟩ := List.cons.inj hkeys
          obtain ⟨hout, hnodup⟩ := List.nodup_cons.mp hnodup
          have hvalue := hfind e.1
          rw [find, find, if_pos rfl, if_pos hkey.symm] at hvalue
          have hef : e = f := Prod.ext hkey (Option.some.inj hvalue)
          have hrest : es = fs := by
            apply ih hnodup hkeys
            intro k
            by_cases hk : e.1 = k
            · have hnone : find k es = none := find_eq_none_iff.mpr (hk ▸ hout)
              have hnone' : find k fs = none := find_eq_none_iff.mpr (hkeys ▸ hk ▸ hout)
              rw [hnone, hnone']
            · have h := hfind k
              rwa [find, find, if_neg hk, if_neg (hkey ▸ hk)] at h
          rw [hef, hrest]

theorem eq_of_get? {m m' : OrderedMap κ ν} (hkeys : m.keys = m'.keys)
    (hget : ∀ k, m.get? k = m'.get? k) : m = m' := by
  have hentries : m.entries = m'.entries := eq_of_find m.nodup hkeys hget
  cases m
  cases m'
  congr

end OrderedMap

namespace PartialPlan

variable {σ : Type} [DecidableEq σ] {p : PartialPlan σ} {a b : σ} {remaining : List σ} {n : Nat}

theorem precedes_iff : p.precedes a b = true ↔ b ∈ p.successorsOf a := List.contains_iff_mem

def isReady (p : PartialPlan σ) (remaining : List σ) (a : σ) : Bool :=
  remaining.all fun b => !p.precedes b a

theorem isReady_iff : p.isReady remaining a = true ↔ ∀ b ∈ remaining, p.precedes b a = false := by
  simp [isReady]

def earliestFirst (p : PartialPlan σ) : Nat → List σ → List σ
  | 0, _ => []
  | n + 1, remaining =>
      match remaining.find? (p.isReady remaining) with
      | none => []
      | some a => a :: earliestFirst p n (remaining.erase a)

structure Grounded (p : PartialPlan σ) : Prop where
  nodup : p.steps.Nodup
  known : ∀ a b, p.precedes a b = true → a ∈ p.steps ∧ b ∈ p.steps
  distinct : ∀ a, (p.successorsOf a).Nodup

section Counts

variable {d : Int} {m : OrderedMap σ Int} {bs : List σ}

theorem countOf_shift : countOf (shift d m a) b = countOf m b + if b = a then d else 0 := by
  by_cases h : b = a
  · simp [countOf, shift, h]
  · simp [countOf, shift, h]

theorem countOf_shiftAll : countOf (bs.foldl (shift d) m) b = countOf m b + d * bs.count b := by
  induction bs generalizing m with
  | nil => simp
  | cons a bs ih =>
      rw [List.foldl_cons, ih, countOf_shift]
      by_cases h : b = a
      · subst h
        rw [if_pos rfl, List.count_cons_self, Int.natCast_add, Int.mul_add]
        omega
      · rw [if_neg h, List.count_cons_of_ne (Ne.symm h)]
        omega

theorem countOf_zeros (as : List σ) : countOf (.ofList (as.map fun a => (a, 0))) b = 0 := by
  have h (m : OrderedMap σ Int) (hm : countOf m b = 0) :
      countOf (m.putAll (as.map fun a => (a, 0))) b = 0 := by
    induction as generalizing m with
    | nil => exact hm
    | cons a as ih =>
        apply ih (m.put a 0)
        by_cases hb : b = a
        · simp [countOf, hb]
        · simpa [countOf, hb] using hm
  exact h .empty rfl

theorem mem_keys_zeros (as : List σ) (h : a ∈ m.keys ∨ a ∈ as) :
    a ∈ (m.putAll (as.map fun a => (a, 0))).keys := by
  induction as generalizing m with
  | nil => exact h.resolve_right List.not_mem_nil
  | cons b as ih =>
      apply ih
      rw [OrderedMap.keys_put]
      rcases h with h | h
      · left
        split
        · exact h
        · exact List.mem_append_left _ h
      · rcases List.mem_cons.mp h with rfl | h
        · left
          split
          · assumption
          · exact List.mem_append_right _ (List.mem_singleton_self a)
        · exact .inr h

theorem keys_shift (h : a ∈ m.keys) : (shift d m a).keys = m.keys := by
  rw [shift, OrderedMap.keys_put, if_pos h]

theorem keys_shiftAll (h : ∀ b ∈ bs, b ∈ m.keys) : (bs.foldl (shift d) m).keys = m.keys := by
  induction bs generalizing m with
  | nil => rfl
  | cons a bs ih =>
      obtain ⟨ha, hbs⟩ := List.forall_mem_cons.mp h
      have hkeys := keys_shift (d := d) ha
      rw [List.foldl_cons, ih (hkeys.symm ▸ hbs), hkeys]

theorem exists_of_mem_keys (h : a ∈ m.keys) : ∃ k, m.get? a = some k := by
  apply Option.ne_none_iff_exists'.mp
  intro hnone
  exact OrderedMap.get?_eq_none_iff.mp hnone h

theorem shiftAll_back (h : ∀ b ∈ bs, b ∈ m.keys) :
    bs.foldl (shift 1) (bs.foldl (shift (-1)) m) = m := by
  have hdown : (bs.foldl (shift (-1)) m).keys = m.keys := keys_shiftAll h
  have hkeys : (bs.foldl (shift 1) (bs.foldl (shift (-1)) m)).keys = m.keys := by
    rw [keys_shiftAll (by rwa [hdown]), hdown]
  apply OrderedMap.eq_of_get? hkeys
  intro b
  have hcount : countOf (bs.foldl (shift 1) (bs.foldl (shift (-1)) m)) b = countOf m b := by
    rw [countOf_shiftAll, countOf_shiftAll]
    omega
  by_cases hb : b ∈ m.keys
  · obtain ⟨k, hk⟩ := exists_of_mem_keys hb
    obtain ⟨k', hk'⟩ := exists_of_mem_keys (hkeys ▸ hb)
    rw [countOf, countOf, hk, hk'] at hcount
    rw [hk, hk']
    exact congrArg some hcount
  · rw [OrderedMap.get?_eq_none_iff.mpr hb, OrderedMap.get?_eq_none_iff.mpr (hkeys ▸ hb)]

def Counted (p : PartialPlan σ) (remaining : List σ) (m : OrderedMap σ Int) : Prop :=
  ∀ b, countOf m b = ((remaining.flatMap p.successorsOf).count b : Int)

theorem counted_predecessorCounts (p : PartialPlan σ) : p.Counted p.steps p.predecessorCounts := by
  intro b
  rw [predecessorCounts, countOf_shiftAll, countOf_zeros]
  omega

theorem mem_keys_predecessorCounts (h : p.Grounded) (ha : a ∈ p.steps) :
    a ∈ p.predecessorCounts.keys := by
  have hzeros (b : σ) (hb : b ∈ p.steps) :
      b ∈ (OrderedMap.ofList (p.steps.map fun a => (a, (0 : Int)))).keys :=
    mem_keys_zeros p.steps (.inr hb)
  rw [predecessorCounts, keys_shiftAll]
  · exact hzeros a ha
  · intro b hb
    obtain ⟨c, -, hb⟩ := List.mem_flatMap.mp hb
    exact hzeros b (h.known c b (precedes_iff.mpr hb)).2

namespace Counted

theorem take (h : p.Counted remaining m) (ha : a ∈ remaining) :
    p.Counted (remaining.erase a) ((p.successorsOf a).foldl (shift (-1)) m) := by
  intro b
  have hperm := ((List.perm_cons_erase ha).flatMap_right p.successorsOf).count_eq b
  rw [List.flatMap_cons, List.count_append] at hperm
  rw [countOf_shiftAll, h b]
  omega

theorem isReady_iff (h : p.Counted remaining m) :
    countOf m b = 0 ↔ p.isReady remaining b = true := by
  rw [h b, Int.natCast_eq_zero, List.count_eq_zero, PartialPlan.isReady_iff]
  simp [precedes]

end Counted

end Counts

section Sequence

variable {f : Front σ} {bs : List σ}

theorem counts_releaseAll : (bs.foldl Front.release f).counts = bs.foldl (shift (-1)) f.counts := by
  induction bs generalizing f with
  | nil => rfl
  | cons a bs ih => exact ih

theorem ready_releaseAll (h : bs.Nodup) : (bs.foldl Front.release f).ready =
    f.ready ++ bs.filter fun b => countOf f.counts b = 1 := by
  induction bs generalizing f with
  | nil => simp
  | cons a bs ih =>
      obtain ⟨ha, hbs⟩ := List.nodup_cons.mp h
      have hrest : bs.filter (fun b => countOf (f.release a).counts b = 1) =
          bs.filter fun b => countOf f.counts b = 1 := by
        apply List.filter_congr
        intro b hb
        have hne : b ≠ a := fun hba => ha (hba ▸ hb)
        simp [Front.release, countOf_shift, hne]
      rw [List.foldl_cons, ih hbs, hrest]
      have hcount : countOf (shift (-1) f.counts a) a = countOf f.counts a - 1 := by
        rw [countOf_shift, if_pos rfl]
        rfl
      by_cases h1 : countOf f.counts a = 1
      · simp [Front.release, hcount, h1]
      · have h0 : countOf f.counts a - 1 ≠ 0 := by omega
        simp [Front.release, hcount, h1, h0]

theorem pairwise_steps (h : p.steps.Nodup) :
    p.steps.Pairwise fun a b => p.steps.idxOf a < p.steps.idxOf b := by
  apply List.pairwise_iff_getElem.mpr
  intro i j hi hj hij
  rwa [h.idxOf_getElem, h.idxOf_getElem]

theorem byDeclaration_of_perm {l l' : List σ} (hnodup : p.steps.Nodup) (hl : l.Sublist p.steps)
    (h : l'.Perm l) : p.byDeclaration l' = l := by
  have hperm : (p.byDeclaration l').Perm l := (List.mergeSort_perm l' _).trans h
  have hsorted : (p.byDeclaration l').Pairwise fun a b => p.steps.idxOf a ≤ p.steps.idxOf b := by
    refine (List.pairwise_mergeSort ?_ ?_ l').imp of_decide_eq_true
    · intro a b c hab hbc
      simp only [decide_eq_true_eq] at hab hbc ⊢
      omega
    · intro a b
      simp only [Bool.or_eq_true, decide_eq_true_eq]
      omega
  refine hperm.eq_of_pairwise ?_ hsorted (((pairwise_steps hnodup).sublist hl).imp Nat.le_of_lt)
  intro a b ha hb hab hba
  have ha : a ∈ p.steps := hl.subset (hperm.mem_iff.mp ha)
  exact (List.idxOf_inj ha).mp (Nat.le_antisymm hab hba)

structure Front.Holds (p : PartialPlan σ) (remaining : List σ) (f : Front σ) : Prop where
  sorted : remaining.Sublist p.steps
  closed : ∀ a ∈ remaining, ∀ b ∈ p.successorsOf a, b ∈ remaining
  counted : p.Counted remaining f.counts
  ready : f.ready.Perm (remaining.filter (p.isReady remaining))

namespace Front.Holds

theorem byDeclaration (h : f.Holds p remaining) (hp : p.Grounded) :
    p.byDeclaration f.ready = remaining.filter (p.isReady remaining) :=
  byDeclaration_of_perm hp.nodup (List.filter_sublist.trans h.sorted) h.ready

theorem mem_cons_ready (h : f.Holds p remaining) {ready : List σ}
    (hready : remaining.filter (p.isReady remaining) = a :: ready) :
    b ∈ a :: ready ↔ b ∈ remaining ∧ countOf f.counts b = 0 := by
  rw [← hready, List.mem_filter, h.counted.isReady_iff]

theorem notMem_successorsOf (h : f.Holds p remaining) (hb : countOf f.counts b = 0)
    (ha : a ∈ remaining) : b ∉ p.successorsOf a := by
  intro hsucc
  have hnone := PartialPlan.isReady_iff.mp (h.counted.isReady_iff.mp hb) a ha
  simp [precedes, hsucc] at hnone

theorem mem_ready_take (h : f.Holds p remaining) (hp : p.Grounded) {ready : List σ}
    (hready : remaining.filter (p.isReady remaining) = a :: ready) :
    (b ∈ ready ∨ b ∈ p.successorsOf a ∧ countOf f.counts b = 1) ↔
      (b ≠ a ∧ b ∈ remaining) ∧
        countOf ((p.successorsOf a).foldl (shift (-1)) f.counts) b = 0 := by
  have hnodup : remaining.Nodup := hp.nodup.sublist h.sorted
  obtain ⟨ha, hzero⟩ := (h.mem_cons_ready hready).mp List.mem_cons_self
  obtain ⟨hout, -⟩ := List.nodup_cons.mp (hready ▸ hnodup.filter _)
  -- only the counts of the successors of `a` go down, and those go down by one
  rw [countOf_shiftAll, (hp.distinct a).count]
  constructor
  · rintro (hb | ⟨hb, hone⟩)
    · obtain ⟨hb', hcount⟩ := (h.mem_cons_ready hready).mp (List.mem_cons_of_mem _ hb)
      have hne : b ≠ a := fun hba => hout (hba ▸ hb)
      rw [if_neg (h.notMem_successorsOf hcount ha), hcount]
      exact ⟨⟨hne, hb'⟩, rfl⟩
    · have hne : b ≠ a := by
        rintro rfl
        omega
      rw [if_pos hb, hone]
      exact ⟨⟨hne, h.closed a ha b hb⟩, rfl⟩
  · rintro ⟨⟨hne, hb⟩, hcount⟩
    by_cases hsucc : b ∈ p.successorsOf a
    · rw [if_pos hsucc] at hcount
      exact .inr ⟨hsucc, by omega⟩
    · rw [if_neg hsucc] at hcount
      have hmem := (h.mem_cons_ready hready).mpr ⟨hb, by omega⟩
      exact .inl ((List.mem_cons.mp hmem).resolve_left hne)

theorem take (h : f.Holds p remaining) (hp : p.Grounded) {ready : List σ}
    (hready : remaining.filter (p.isReady remaining) = a :: ready) :
    ((p.successorsOf a).foldl Front.release ⟨f.counts, ready⟩).Holds p (remaining.erase a) := by
  have hnodup : remaining.Nodup := hp.nodup.sublist h.sorted
  obtain ⟨ha, hzero⟩ := (h.mem_cons_ready hready).mp List.mem_cons_self
  obtain ⟨-, hrest⟩ := List.nodup_cons.mp (hready ▸ hnodup.filter _)
  have hcounted := h.counted.take ha
  refine ⟨List.erase_sublist.trans h.sorted, ?_, ?_, ?_⟩
  · intro c hc b hb
    have hc' : c ∈ remaining := List.mem_of_mem_erase hc
    apply (List.mem_erase_of_ne ?_).mpr (h.closed c hc' b hb)
    rintro rfl
    exact h.notMem_successorsOf hzero hc' hb
  · rw [counts_releaseAll]
    exact hcounted
  · rw [ready_releaseAll (hp.distinct a)]
    apply (List.perm_ext_iff_of_nodup ?_ ((hnodup.erase a).filter _)).mpr
    · intro b
      rw [List.mem_append, List.mem_filter, List.mem_filter, hnodup.mem_erase_iff,
        ← hcounted.isReady_iff, decide_eq_true_iff]
      exact h.mem_ready_take hp hready
    · apply hrest.append ((hp.distinct a).filter _)
      intro b hb hb'
      have hcount := ((h.mem_cons_ready hready).mp (List.mem_cons_of_mem _ hb)).2
      have hone : countOf f.counts b = 1 := of_decide_eq_true (List.mem_filter.mp hb').2
      omega

theorem takeReady (h : f.Holds p remaining) (hp : p.Grounded) :
    p.takeReady n f = p.earliestFirst n remaining := by
  induction n generalizing f remaining with
  | zero => rfl
  | succ n ih =>
      rw [PartialPlan.takeReady, earliestFirst, ← List.head?_filter, h.byDeclaration hp]
      cases hready : remaining.filter (p.isReady remaining) with
      | nil => rfl
      | cons a ready => exact congrArg (a :: ·) (ih (h.take hp hready))

end Front.Holds

theorem holds_start (h : p.Grounded) : Front.Holds p p.steps
    ⟨p.predecessorCounts, p.steps.filter fun a => countOf p.predecessorCounts a = 0⟩ where
  sorted := .refl _
  closed a _ b hb := (h.known a b (precedes_iff.mpr hb)).2
  counted := p.counted_predecessorCounts
  ready := by
    apply List.Perm.of_eq
    apply List.filter_congr
    intro a _
    rw [Bool.eq_iff_iff, decide_eq_true_iff]
    exact p.counted_predecessorCounts.isReady_iff

theorem toSequence_eq (h : p.Grounded) : p.toSequence = p.earliestFirst p.steps.length p.steps :=
  (holds_start h).takeReady h

end Sequence

end PartialPlan

end TemporalPlanning
