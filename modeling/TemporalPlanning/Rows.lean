import TemporalPlanning.OrderedMap

namespace TemporalPlanning

/-- The entry `w` in the row of `a` for `b` says `time b - time a ≤ w`. -/
abbrev Rows (ν : Type) : Type := OrderedMap ν (OrderedMap ν Rat)

namespace Rows

variable {ν : Type} [DecidableEq ν]

def row (rows : Rows ν) (a : ν) : OrderedMap ν Rat := (rows.get? a).getD .empty

def weight? (rows : Rows ν) (a b : ν) : Option Rat := (rows.row a).get? b

def setWeight (rows : Rows ν) (a b : ν) (w : Rat) : Rows ν := rows.put a ((rows.row a).put b w)

def tighten (rows : Rows ν) (a b : ν) (w : Rat) : Rows ν :=
  match rows.weight? a b with
  | some v => if w < v then rows.setWeight a b w else rows
  | none => rows.setWeight a b w

def triples (rows : Rows ν) : List (ν × ν × Rat) :=
  rows.entries.flatMap fun r => r.2.entries.map fun e => (r.1, e.1, e.2)

theorem row_setWeight (rows : Rows ν) (a b c : ν) (w : Rat) :
    (rows.setWeight a b w).row c = if c = a then (rows.row a).put b w else rows.row c := by
  by_cases h : c = a <;> simp [setWeight, row, h]

@[simp] theorem weight?_setWeight (rows : Rows ν) (a b c d : ν) (w : Rat) :
    (rows.setWeight a b w).weight? c d =
      if c = a ∧ d = b then some w else rows.weight? c d := by
  by_cases h : c = a
  · by_cases hd : d = b <;> simp [weight?, row_setWeight, h, hd]
  · simp [weight?, row_setWeight, h]

theorem weight?_tighten (rows : Rows ν) (a b c d : ν) (w : Rat) :
    (rows.tighten a b w).weight? c d =
      if c = a ∧ d = b then
        match rows.weight? a b with
        | some v => some (if w < v then w else v)
        | none => some w
      else rows.weight? c d := by
  by_cases h : c = a ∧ d = b
  · obtain ⟨rfl, rfl⟩ := h
    unfold tighten
    cases hv : rows.weight? c d with
    | none => simp
    | some v => by_cases hw : w < v <;> simp [hw, hv]
  · unfold tighten
    cases hv : rows.weight? a b with
    | none => simp [h]
    | some v => by_cases hw : w < v <;> simp [hw, h]

end Rows

end TemporalPlanning
