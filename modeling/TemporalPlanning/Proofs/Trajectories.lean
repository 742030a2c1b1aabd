import Mathlib.Data.List.Forall2
import TemporalPlanning.Evaluation.Basic
import TemporalPlanning.Proofs.Attempts
import TemporalPlanning.Validation.Trajectory

namespace TemporalPlanning

def Expr.isTrue (e : Expr) (s : Situation) : Bool :=
  match e.holds s with
  | .ok b => b
  | .error _ => false

def TrajectoryKind.Accepts : TrajectoryKind → List Bool → Prop
  | .always, bs => false ∉ bs
  | .sometime, bs => true ∈ bs
  | .atMostOnce, bs => ¬ [true, false, true].Sublist bs

def TrajectoryConstraint.HoldsOver (c : TrajectoryConstraint) (states : List Situation) : Prop :=
  c.kind.Accepts (states.map c.condition.isTrue)

namespace Watch

variable {w w' : Watch} {b : Bool} {bs : List Bool} {c : TrajectoryConstraint}

def after (w : Watch) : List Bool → Option Watch
  | [] => some w
  | b :: bs => if (w.next b).isBroken b then none else (w.next b).after bs

theorem after_append (bs bs' : List Bool) :
    w.after (bs ++ bs') = (w.after bs).bind fun w => w.after bs' := by
  induction bs generalizing w with
  | nil => rfl
  | cons b bs ih =>
      simp only [List.cons_append, after]
      split
      · rfl
      · exact ih

@[simp] theorem constraint_next (w : Watch) (b : Bool) : (w.next b).constraint = w.constraint := by
  unfold next
  split <;> rfl

theorem next_next (w : Watch) (b : Bool) : (w.next b).next b = w.next b := by
  cases w with
  | mk c seen holding occurrences =>
      cases hkind : c.kind with
      | always => simp [next, hkind]
      | sometime => simp [next, hkind]
      | atMostOnce => simp [next, hkind]

theorem again_of_after (h : w.after (bs ++ [b]) = some w') :
    w'.next b = w' ∧ w'.isBroken b = false := by
  rw [after_append] at h
  obtain ⟨last, -, h⟩ := Option.bind_eq_some_iff.mp h
  simp only [after] at h
  split at h
  · simp at h
  · rename_i hbroken
    obtain rfl := Option.some.inj h
    exact ⟨next_next last b, by simpa using hbroken⟩

theorem constraint_of_after (h : w.after bs = some w') : w'.constraint = w.constraint := by
  induction bs generalizing w with
  | nil => rw [Option.some.inj h]
  | cons b bs ih =>
      simp only [after] at h
      split at h
      · simp at h
      · rw [ih h, constraint_next]

theorem after_always (hkind : w.constraint.kind = .always) :
    (w.after bs).isSome = true ↔ false ∉ bs := by
  induction bs with
  | nil => simp [after]
  | cons b bs ih =>
      have hnext : w.next b = w := by simp [next, hkind]
      cases b with
      | true => simpa [after, hnext, isBroken, hkind] using ih
      | false => simp [after, hnext, isBroken, hkind]

theorem after_sometime (hkind : w.constraint.kind = .sometime) :
    ∃ w', w.after bs = some w' ∧ (w'.seen = true ↔ w.seen = true ∨ true ∈ bs) := by
  induction bs generalizing w with
  | nil => exact ⟨w, rfl, by simp⟩
  | cons b bs ih =>
      obtain ⟨w', hafter, hseen⟩ := ih (w := w.next b) (by rw [constraint_next, hkind])
      refine ⟨w', by simpa [after, isBroken, hkind] using hafter, ?_⟩
      rw [hseen]
      cases b <;> simp [next, hkind]

theorem sublist_cons_of_ne {a : Bool} (h : a ≠ b) (bs' : List Bool) :
    (a :: bs').Sublist (b :: bs) ↔ (a :: bs').Sublist bs := by
  simp [List.sublist_cons_iff, h]

theorem after_atMostOnce (hkind : c.kind = .atMostOnce) (seen : Bool) (bs : List Bool) :
    ((after ⟨c, seen, false, 0⟩ bs).isSome = true ↔ ¬ [true, false, true].Sublist bs) ∧
    ((after ⟨c, seen, true, 1⟩ bs).isSome = true ↔ ¬ [false, true].Sublist bs) ∧
    ((after ⟨c, seen, false, 1⟩ bs).isSome = true ↔ ¬ [true].Sublist bs) := by
  induction bs with
  | nil => simp [after]
  | cons b bs ih =>
      obtain ⟨hbefore, hwhile, hafter⟩ := ih
      have hstep (holding : Bool) (n : Nat) : after ⟨c, seen, holding, n⟩ (b :: bs) =
          if 1 < (if b && !holding then n + 1 else n) then none
          else after ⟨c, seen, b, if b && !holding then n + 1 else n⟩ bs := by
        simp [after, next, isBroken, hkind]
      rw [hstep, hstep, hstep]
      cases b with
      | true =>
          rw [List.cons_sublist_cons, List.cons_sublist_cons, sublist_cons_of_ne (by simp)]
          exact ⟨hwhile, hwhile, by simp⟩
      | false =>
          rw [List.cons_sublist_cons, sublist_cons_of_ne (by simp), sublist_cons_of_ne (by simp)]
          exact ⟨hbefore, hafter, hafter⟩

theorem accepts_iff (c : TrajectoryConstraint) (bs : List Bool) : c.kind.Accepts bs ↔
    ∃ w, (start c).after bs = some w ∧ (c.kind = .sometime → w.seen = true) := by
  have hsome (hne : c.kind ≠ .sometime) : (∃ w, (start c).after bs = some w ∧
      (c.kind = .sometime → w.seen = true)) ↔ ((start c).after bs).isSome = true := by
    simp [hne, Option.isSome_iff_exists]
  cases hkind : c.kind with
  | always =>
      rw [hkind] at hsome
      rw [hsome (by simp), after_always hkind, TrajectoryKind.Accepts]
  | sometime =>
      obtain ⟨w, hafter, hseen⟩ := @after_sometime (start c) bs hkind
      rw [hafter]
      simp [hseen, start, TrajectoryKind.Accepts]
  | atMostOnce =>
      rw [hkind] at hsome
      rw [hsome (by simp), start, (after_atMostOnce hkind false bs).1, TrajectoryKind.Accepts]

theorem not_accepts_of_none (h : (start c).after bs = none) (bs' : List Bool) :
    ¬ c.kind.Accepts (bs ++ bs') := by
  rw [accepts_iff]
  rintro ⟨w, hw, -⟩
  simp [after_append, h] at hw

end Watch

namespace Monitor

variable {cs : List TrajectoryConstraint} {m m' : Monitor} {states : List Situation}
  {s : Situation} {time : Rat}

def Saw (states : List Situation) (cs : List TrajectoryConstraint) (m : Monitor) : Prop :=
  List.Forall₂
    (fun c w => (Watch.start c).after (states.map c.condition.isTrue) = some w) cs m

theorem saw_start (cs : List TrajectoryConstraint) : Saw [] cs (start cs) := by
  induction cs with
  | nil => exact .nil
  | cons c cs ih => exact .cons rfl ih

theorem isTrue_of_holds {e : Expr} {b : Bool} (h : e.holds s = .ok b) : e.isTrue s = b := by
  rw [Expr.isTrue, h]

theorem saw_visit {violation : Option Violation} (hm : Saw states cs m)
    (h : m.visit (Expr.holds s) time = .ok (m', violation)) :
    (violation = none ∧ Saw (states ++ [s]) cs m') ∨
    (∃ w, violation = some w) ∧ ∃ c ∈ cs, ∀ later, ¬ c.HoldsOver (states ++ [s] ++ later) := by
  induction hm generalizing m' with
  | nil =>
      obtain ⟨rfl, rfl⟩ := Prod.mk.inj (Except.ok.inj h)
      exact .inl ⟨rfl, .nil⟩
  | @cons c w cs m hw _ ih =>
      simp only [visit, except_bind_ok] at h
      obtain ⟨b, hb, h⟩ := h
      have hc : w.constraint = c := Watch.constraint_of_after hw
      rw [hc] at hb
      have hstep : (Watch.start c).after ((states ++ [s]).map c.condition.isTrue) =
          if (w.next b).isBroken b then none else some (w.next b) := by
        rw [List.map_append, Watch.after_append, hw]
        simp [Watch.after, isTrue_of_holds hb]
      split at h
      · rename_i hbroken
        rw [if_pos hbroken] at hstep
        obtain ⟨-, rfl⟩ := Prod.mk.inj (except_pure_ok.mp h)
        refine .inr ⟨⟨_, rfl⟩, c, List.mem_cons_self, fun later => ?_⟩
        rw [TrajectoryConstraint.HoldsOver, List.map_append]
        exact Watch.not_accepts_of_none hstep _
      · rename_i hbroken
        rw [if_neg hbroken] at hstep
        simp only [except_bind_ok, except_pure_ok, Prod.mk.injEq] at h
        obtain ⟨⟨rest, clash⟩, hrest, rfl, rfl⟩ := h
        rcases ih hrest with ⟨hnone, hrest⟩ | ⟨hsome, c', hc', hbroken'⟩
        · exact .inl ⟨hnone, .cons hstep hrest⟩
        · exact .inr ⟨hsome, c', List.mem_cons_of_mem _ hc', hbroken'⟩

theorem visit_again {violation : Option Violation} (hm : Saw (states ++ [s]) cs m)
    (h : m.visit (Expr.holds s) time = .ok (m', violation)) : m' = m ∧ violation = none := by
  generalize hall : states ++ [s] = all at hm
  induction hm generalizing m' violation with
  | nil =>
      obtain ⟨rfl, rfl⟩ := Prod.mk.inj (Except.ok.inj h)
      exact ⟨rfl, rfl⟩
  | @cons c w cs m hw _ ih =>
      simp only [visit, except_bind_ok] at h
      obtain ⟨b, hb, h⟩ := h
      have hc : w.constraint = c := Watch.constraint_of_after hw
      rw [hc] at hb
      rw [← hall, List.map_append, List.map_singleton, isTrue_of_holds hb] at hw
      obtain ⟨hsame, hbroken⟩ := Watch.again_of_after hw
      simp only [hsame, hbroken, Bool.false_eq_true, if_false, except_bind_ok, except_pure_ok,
        Prod.mk.injEq] at h
      obtain ⟨⟨rest, clash⟩, hrest, rfl, rfl⟩ := h
      obtain ⟨rfl, rfl⟩ := ih hrest
      exact ⟨rfl, rfl⟩

theorem finish_eq_none (hm : Saw states cs m) :
    m.finish = none ↔ ∀ c ∈ cs, c.HoldsOver states := by
  induction hm with
  | nil => simp [finish]
  | @cons c w cs m hw _ ih =>
      have hc : w.constraint = c := Watch.constraint_of_after hw
      have hfirst : c.HoldsOver states ↔ ¬ (c.kind = .sometime ∧ w.seen = false) := by
        rw [TrajectoryConstraint.HoldsOver, Watch.accepts_iff]
        simp [hw]
      have hcons : finish (w :: m) = none ↔
          ¬ (c.kind = .sometime ∧ w.seen = false) ∧ finish m = none := by
        simp [finish, List.find?_eq_none, hc]
      rw [hcons, ih, List.forall_mem_cons, hfirst]

end Monitor

end TemporalPlanning
