import Mathlib.Data.List.Basic
import TemporalPlanning.Number.Literal

namespace TemporalPlanning.Number

variable {n : Int} {q r : Rat} {c : Char}

theorem mem_intDigits (h : c ∈ intDigits n) : c.isDigit = true ∨ c = '-' := by
  unfold intDigits at h
  split at h
  · rcases List.mem_cons.mp h with rfl | h
    · exact .inr rfl
    · exact .inl (Nat.isDigit_of_mem_toDigits (by decide) (by decide) h)
  · exact .inl (Nat.isDigit_of_mem_toDigits (by decide) (by decide) h)

theorem toDigits_injective : Function.Injective (Nat.toDigits 10) := by
  intro m n h
  have hvalues := congrArg (fun ds => Nat.ofDigitChars 10 ds 0) h
  simpa [Nat.ofDigitChars_toDigits] using hvalues

theorem intDigits_injective : Function.Injective intDigits := by
  intro m n h
  have hsign (k : Nat) (ds : List Char) : Nat.toDigits 10 k ≠ '-' :: ds := by
    intro hk
    have hdigit : '-' ∈ Nat.toDigits 10 k := hk ▸ List.mem_cons_self
    exact absurd (Nat.isDigit_of_mem_toDigits (by decide) (by decide) hdigit) (by decide)
  unfold intDigits at h
  split at h
  · split at h
    · have := toDigits_injective (List.cons.inj h).2
      omega
    · exact absurd h.symm (hsign _ _)
  · split at h
    · exact absurd h (hsign _ _)
    · have := toDigits_injective h
      omega

theorem mem_digits (h : c ∈ digits q) : c.isDigit = true ∨ c = '-' ∨ c = '/' := by
  unfold digits at h
  split at h
  · exact (mem_intDigits h).imp_right .inl
  · rcases List.mem_append.mp h with h | h
    · exact (mem_intDigits h).imp_right .inl
    · rcases List.mem_cons.mp h with rfl | h
      · exact .inr (.inr rfl)
      · exact .inl (Nat.isDigit_of_mem_toDigits (by decide) (by decide) h)

theorem digits_injective : Function.Injective digits := by
  intro q r h
  have hwhole (n : Int) : '/' ∉ intDigits n := by
    intro hstroke
    exact absurd (mem_intDigits hstroke) (by decide)
  have hpart (n : Nat) : '/' ∉ Nat.toDigits 10 n := by
    intro hstroke
    exact absurd (Nat.isDigit_of_mem_toDigits (by decide) (by decide) hstroke) (by decide)
  unfold digits at h
  split at h
  · split at h
    · rename_i hq hr
      exact Rat.ext (intDigits_injective h) (hq.trans hr.symm)
    · exact absurd (h ▸ List.mem_append_right _ List.mem_cons_self) (hwhole q.num)
  · split at h
    · exact absurd (h ▸ List.mem_append_right _ List.mem_cons_self) (hwhole r.num)
    · rw [List.append_cons_inj_of_notMem (hwhole q.num) (hpart q.den)] at h
      exact Rat.ext (intDigits_injective h.1) (toDigits_injective h.2.2)

end TemporalPlanning.Number
