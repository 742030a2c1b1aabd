import Mathlib.Algebra.Order.GroupWithZero.Basic
import Mathlib.Algebra.Order.Ring.Nat
import Mathlib.Data.Int.CharZero
import Mathlib.Data.List.TakeWhile
import Mathlib.Data.Rat.Lemmas
import TemporalPlanning.Number.Numeral
import TemporalPlanning.Proofs.NumberTexts

namespace TemporalPlanning

namespace Text

variable {cs front t rest : List Char} {c : Char}

theorem skipBlanks_append (h : ∀ c ∈ front, isBlank c = true) :
    skipBlanks (front ++ rest) = skipBlanks rest :=
  List.dropWhile_append_of_pos h

theorem skipBlanks_eq_self (h : ∀ c ∈ cs.head?, isBlank c = false) : skipBlanks cs = cs := by
  cases cs with
  | nil => rfl
  | cons c cs => exact List.dropWhile_cons_of_neg (by simp [h c rfl])

theorem exists_skipBlanks (cs : List Char) : ∃ front, cs = front ++ skipBlanks cs ∧
    (∀ c ∈ front, isBlank c = true) ∧ ∀ c ∈ (skipBlanks cs).head?, isBlank c = false := by
  refine ⟨cs.takeWhile isBlank, List.takeWhile_append_dropWhile.symm,
    fun c hc => List.mem_takeWhile_imp hc, fun c hc => ?_⟩
  have hhead := List.head?_dropWhile_not isBlank cs
  rw [skipBlanks, Option.mem_def] at hc
  rwa [hc] at hhead

end Text

namespace Number

open Text (isBlank skipBlanks)

inductive Sign : List Char → Bool → Prop
  | minus : Sign ['-'] true
  | plus : Sign ['+'] false
  | none : Sign [] false

def AllDigits (ds : List Char) : Prop := ∀ c ∈ ds, c.isDigit = true

inductive WritesInteger : List Char → Int → Prop
  | intro {mark ds : List Char} {negative : Bool} (sign : Sign mark negative) (some : ds ≠ [])
      (digits : AllDigits ds) : WritesInteger (mark ++ ds) (signed negative (ofDigits ds))

inductive WritesPoint : List Char → List Char → Prop
  | point {ds : List Char} (digits : AllDigits ds) : WritesPoint ('.' :: ds) ds
  | none : WritesPoint [] []

inductive WritesExponent : List Char → Int → Prop
  | lower {cs : List Char} {n : Int} (h : WritesInteger cs n) : WritesExponent ('e' :: cs) n
  | upper {cs : List Char} {n : Int} (h : WritesInteger cs n) : WritesExponent ('E' :: cs) n
  | none : WritesExponent [] 0

inductive Writes : List Char → Literal → Prop
  | fraction {above before after below : List Char} {num den : Int}
      (numerator : WritesInteger above num) (left : ∀ c ∈ before, isBlank c = true)
      (right : ∀ c ∈ after, isBlank c = true) (denominator : WritesInteger below den) :
      Writes (above ++ (before ++ '/' :: (after ++ below))) (.fraction num den)
  | decimal {mark whole point frac last : List Char} {negative : Bool} {exponent : Int}
      (sign : Sign mark negative) (digits : AllDigits whole) (fraction : WritesPoint point frac)
      (some : whole ≠ [] ∨ frac ≠ []) (scaled : WritesExponent last exponent) :
      Writes (mark ++ (whole ++ (point ++ last))) (.decimal negative whole frac exponent)

def Literal.Denotes : Literal → Rat → Prop
  | .fraction num den, q => den ≠ 0 ∧ q * den = num
  | .decimal negative whole frac exponent, q =>
      q = (if negative then -1 else 1) * ofDigits (whole ++ frac) *
        (10 : Rat) ^ (exponent - frac.length)

section Grammar

variable {cs ds rest mark point frac : List Char} {negative : Bool} {n : Int} {c : Char}
  {l : Literal}

theorem Sign.notMem (h : Sign mark negative) (hc : c ≠ '-' ∧ c ≠ '+') : c ∉ mark := by
  cases h <;> simp [hc.1, hc.2]

theorem takeSign_append (h : Sign mark negative) (hrest : ∀ c ∈ rest.head?, c ≠ '-' ∧ c ≠ '+') :
    takeSign (mark ++ rest) = (negative, rest) := by
  cases h with
  | minus => rfl
  | plus => rfl
  | none =>
      rw [List.nil_append]
      unfold takeSign
      split
      · exact absurd rfl (hrest '-' rfl).1
      · exact absurd rfl (hrest '+' rfl).2
      · rfl

theorem exists_takeSign (cs : List Char) :
    ∃ mark, Sign mark (takeSign cs).1 ∧ cs = mark ++ (takeSign cs).2 := by
  unfold takeSign
  split
  · exact ⟨['-'], .minus, rfl⟩
  · exact ⟨['+'], .plus, rfl⟩
  · exact ⟨[], .none, rfl⟩

theorem takeDigits_append (hds : AllDigits ds) (hrest : ∀ c ∈ rest.head?, c.isDigit = false) :
    (ds ++ rest).takeWhile Char.isDigit = ds ∧ (ds ++ rest).dropWhile Char.isDigit = rest := by
  rw [List.takeWhile_append_of_pos hds, List.dropWhile_append_of_pos hds]
  cases rest with
  | nil => simp
  | cons c rest => simp [hrest c rfl]

theorem exists_takeDigits (cs : List Char) : AllDigits (cs.takeWhile Char.isDigit) ∧
    ∀ c ∈ (cs.dropWhile Char.isDigit).head?, c.isDigit = false := by
  refine ⟨fun c hc => List.mem_takeWhile_imp hc, fun c hc => ?_⟩
  have hhead := List.head?_dropWhile_not Char.isDigit cs
  rwa [Option.mem_def.mp hc] at hhead

theorem ne_sign_of_isDigit (h : c.isDigit = true) : c ≠ '-' ∧ c ≠ '+' := by
  constructor
  · rintro rfl
    exact absurd h (by decide)
  · rintro rfl
    exact absurd h (by decide)

theorem isBlank_of_isDigit (h : c.isDigit = true) : isBlank c = false := by
  have hrange : ∀ n < 58, 48 ≤ n → Text.blanks.contains n = false := by decide
  simp only [Char.isDigit, Bool.and_eq_true, decide_eq_true_eq] at h
  exact hrange c.toNat (Nat.lt_succ_of_le h.2) h.1

theorem isDigit_of_isBlank (h : isBlank c = true) : c.isDigit = false := by
  cases hc : c.isDigit with
  | false => rfl
  | true => exact absurd h (by simp [isBlank_of_isDigit hc])

theorem AllDigits.head (h : AllDigits ds) (hne : ds ≠ []) (rest : List Char) :
    ∃ c ∈ (ds ++ rest).head?, c.isDigit = true := by
  obtain ⟨c, ds, rfl⟩ := List.exists_cons_of_ne_nil hne
  exact ⟨c, rfl, h c List.mem_cons_self⟩

theorem takeInteger_iff : takeInteger cs = some (n, rest) ↔
    (∃ ds, WritesInteger ds n ∧ cs = ds ++ rest) ∧ ∀ c ∈ rest.head?, c.isDigit = false := by
  constructor
  · intro h
    unfold takeInteger at h
    obtain ⟨mark, hmark, hcs⟩ := exists_takeSign cs
    obtain ⟨hds, hrest⟩ := exists_takeDigits (takeSign cs).2
    dsimp only at h
    split at h
    · simp at h
    · rename_i hne
      obtain ⟨rfl, rfl⟩ : _ ∧ _ := by simpa using h
      refine ⟨⟨_, .intro hmark hne hds, ?_⟩, hrest⟩
      rw [List.append_assoc, List.takeWhile_append_dropWhile]
      exact hcs
  · rintro ⟨⟨ds, ⟨hmark, hne, hds⟩, rfl⟩, hrest⟩
    rename_i mark ds negative
    have hsign : takeSign (mark ++ (ds ++ rest)) = (negative, ds ++ rest) := by
      refine takeSign_append hmark fun c hc => ?_
      obtain ⟨d, hd, hdigit⟩ := hds.head hne rest
      obtain rfl : d = c := Option.some.inj (hd.symm.trans hc)
      exact ne_sign_of_isDigit hdigit
    obtain ⟨htake, hdrop⟩ := takeDigits_append hds hrest
    unfold takeInteger
    rw [List.append_assoc, hsign]
    dsimp only
    rw [htake, hdrop]
    split
    · exact absurd rfl hne
    · rfl

theorem WritesInteger.head (h : WritesInteger cs n) (rest : List Char) :
    ∃ c ∈ (cs ++ rest).head?, isBlank c = false := by
  obtain ⟨hmark, hne, hds⟩ := h
  rename_i mark ds negative
  cases hmark with
  | minus => exact ⟨'-', rfl, by decide⟩
  | plus => exact ⟨'+', rfl, by decide⟩
  | none =>
      obtain ⟨c, hc, hdigit⟩ := hds.head hne rest
      exact ⟨c, hc, isBlank_of_isDigit hdigit⟩

theorem stroke_mem_of_fraction? (h : fraction? cs = some l) : '/' ∈ cs := by
  unfold fraction? at h
  split at h
  · simp at h
  · rename_i num rest htake
    obtain ⟨⟨above, -, rfl⟩, -⟩ := takeInteger_iff.mp htake
    obtain ⟨front, hrest, -⟩ := Text.exists_skipBlanks rest
    split at h
    · rename_i after hskip
      rw [hrest, hskip]
      simp
    · simp at h

theorem fraction?_sound (h : fraction? cs = some l) : Writes cs l := by
  unfold fraction? at h
  split at h
  · simp at h
  · rename_i num rest htake
    obtain ⟨⟨above, habove, rfl⟩, -⟩ := takeInteger_iff.mp htake
    obtain ⟨before, hbefore, hleft, -⟩ := Text.exists_skipBlanks rest
    split at h
    · rename_i tail hskip
      obtain ⟨after, hafter, hright, -⟩ := Text.exists_skipBlanks tail
      split at h
      · rename_i den hden
        obtain ⟨⟨below, hbelow, hend⟩, -⟩ := takeInteger_iff.mp hden
        rw [List.append_nil] at hend
        rw [← Option.some.inj h, hbefore, hskip, hafter, hend]
        exact .fraction habove hleft hright hbelow
      · simp at h
    · simp at h

theorem fraction?_complete {above before after below : List Char} {num den : Int}
    (habove : WritesInteger above num) (hleft : ∀ c ∈ before, isBlank c = true)
    (hright : ∀ c ∈ after, isBlank c = true) (hbelow : WritesInteger below den) :
    fraction? (above ++ (before ++ '/' :: (after ++ below))) = some (.fraction num den) := by
  have hnum : takeInteger (above ++ (before ++ '/' :: (after ++ below))) =
      some (num, before ++ '/' :: (after ++ below)) := by
    refine takeInteger_iff.mpr ⟨⟨above, habove, rfl⟩, fun c hc => ?_⟩
    cases before with
    | nil =>
        obtain rfl : '/' = c := Option.some.inj hc
        decide
    | cons b before =>
        obtain rfl : b = c := Option.some.inj hc
        exact isDigit_of_isBlank (hleft b List.mem_cons_self)
  have hstroke : skipBlanks (before ++ '/' :: (after ++ below)) = '/' :: (after ++ below) := by
    rw [Text.skipBlanks_append hleft, Text.skipBlanks_eq_self]
    intro c hc
    obtain rfl : '/' = c := Option.some.inj hc
    decide
  have hrest : skipBlanks (after ++ below) = below := by
    rw [Text.skipBlanks_append hright, Text.skipBlanks_eq_self]
    intro c hc
    obtain ⟨d, hd, hblank⟩ := hbelow.head []
    rw [List.append_nil] at hd
    obtain rfl : d = c := Option.some.inj (hd.symm.trans hc)
    exact hblank
  have hden : takeInteger below = some (den, []) :=
    takeInteger_iff.mpr ⟨⟨below, hbelow, (List.append_nil below).symm⟩, by simp⟩
  simp only [fraction?, hnum, hstroke, hrest, hden]

theorem exponent?_iff : exponent? cs = some n ↔ WritesExponent cs n := by
  constructor
  · intro h
    unfold exponent? at h
    split at h
    · obtain rfl := Option.some.inj h
      exact .none
    · rename_i c cs
      split at h
      · rename_i hc
        split at h
        · rename_i m htake
          obtain rfl := Option.some.inj h
          obtain ⟨⟨ds, hds, heq⟩, -⟩ := takeInteger_iff.mp htake
          rw [List.append_nil] at heq
          rcases hc with rfl | rfl
          · exact .lower (heq ▸ hds)
          · exact .upper (heq ▸ hds)
        · simp at h
      · simp at h
  · have htake {cs : List Char} {n : Int} (h : WritesInteger cs n) :
        takeInteger cs = some (n, []) :=
      takeInteger_iff.mpr ⟨⟨cs, h, (List.append_nil cs).symm⟩, by simp⟩
    intro h
    cases h with
    | lower h => simp [exponent?, htake h]
    | upper h => simp [exponent?, htake h]
    | none => rfl

theorem WritesExponent.head (h : WritesExponent cs n) :
    ∀ c ∈ cs.head?, c.isDigit = false ∧ c ≠ '.' := by
  cases h with
  | lower => simp
  | upper => simp
  | none => simp

theorem takeFraction_append (h : WritesPoint point frac)
    (hrest : ∀ c ∈ rest.head?, c.isDigit = false ∧ c ≠ '.') :
    takeFraction (point ++ rest) = (frac, rest) := by
  cases h with
  | point hds =>
      obtain ⟨htake, hdrop⟩ := takeDigits_append hds fun c hc => (hrest c hc).1
      simp only [List.cons_append, takeFraction, htake, hdrop]
  | none =>
      rw [List.nil_append]
      unfold takeFraction
      split
      · exact absurd rfl (hrest '.' rfl).2
      · rfl

theorem exists_takeFraction (cs : List Char) : ∃ point,
    WritesPoint point (takeFraction cs).1 ∧ cs = point ++ (takeFraction cs).2 := by
  unfold takeFraction
  split
  · rename_i cs
    refine ⟨'.' :: cs.takeWhile Char.isDigit, .point (exists_takeDigits cs).1, ?_⟩
    rw [List.cons_append, List.takeWhile_append_dropWhile]
  · exact ⟨[], .none, rfl⟩

theorem decimal?_sound (h : decimal? cs = some l) : Writes cs l := by
  unfold decimal? at h
  obtain ⟨mark, hmark, hcs⟩ := exists_takeSign cs
  obtain ⟨hwhole, -⟩ := exists_takeDigits (takeSign cs).2
  obtain ⟨point, hpoint, hrest⟩ :=
    exists_takeFraction ((takeSign cs).2.dropWhile Char.isDigit)
  dsimp only at h
  split at h
  · simp at h
  · rename_i hsome
    obtain ⟨n, hn, rfl⟩ := Option.map_eq_some_iff.mp h
    have hwrites := Writes.decimal hmark hwhole hpoint
      (by simpa [or_iff_not_imp_left] using hsome) (exponent?_iff.mp hn)
    rwa [← hrest, List.takeWhile_append_dropWhile, ← hcs] at hwrites

theorem decimal?_complete {whole last : List Char} {exponent : Int} (hmark : Sign mark negative)
    (hwhole : AllDigits whole) (hpoint : WritesPoint point frac) (hsome : whole ≠ [] ∨ frac ≠ [])
    (hlast : WritesExponent last exponent) :
    decimal? (mark ++ (whole ++ (point ++ last))) =
      some (.decimal negative whole frac exponent) := by
  have hafter : ∀ c ∈ (point ++ last).head?, c.isDigit = false := by
    cases hpoint with
    | point => simp
    | none => exact fun c hc => (hlast.head c hc).1
  have hsign : takeSign (mark ++ (whole ++ (point ++ last))) =
      (negative, whole ++ (point ++ last)) := by
    refine takeSign_append hmark fun c hc => ?_
    cases whole with
    | nil =>
        cases hpoint with
        | point =>
            obtain rfl : '.' = c := Option.some.inj hc
            decide
        | none => simp at hsome
    | cons d whole =>
        obtain rfl : d = c := Option.some.inj hc
        exact ne_sign_of_isDigit (hwhole d List.mem_cons_self)
  obtain ⟨htake, hdrop⟩ := takeDigits_append hwhole hafter
  unfold decimal?
  rw [hsign]
  dsimp only
  rw [htake, hdrop, takeFraction_append hpoint hlast.head, if_neg, exponent?_iff.mpr hlast]
  · rfl
  · simpa [or_iff_not_imp_left] using hsome

theorem WritesInteger.stroke_notMem (h : WritesInteger cs n) : '/' ∉ cs := by
  obtain ⟨hmark, -, hds⟩ := h
  rw [List.mem_append, not_or]
  exact ⟨hmark.notMem (by decide), fun hc => absurd (hds _ hc) (by decide)⟩

theorem stroke_notMem_of_decimal {whole last : List Char} {exponent : Int}
    (hmark : Sign mark negative) (hwhole : AllDigits whole) (hpoint : WritesPoint point frac)
    (hlast : WritesExponent last exponent) : '/' ∉ mark ++ (whole ++ (point ++ last)) := by
  simp only [List.mem_append, not_or]
  refine ⟨hmark.notMem (by decide), fun hc => absurd (hwhole _ hc) (by decide), ?_, ?_⟩
  · cases hpoint with
    | point hds => simpa using fun hc => absurd (hds _ hc) (by decide)
    | none => simp
  · cases hlast with
    | lower h => simpa using h.stroke_notMem
    | upper h => simpa using h.stroke_notMem
    | none => simp

theorem Literal.read?_iff {s : String} :
    Literal.read? s = some l ↔ Writes (Text.trim s.toList) l := by
  unfold Literal.read?
  generalize Text.trim s.toList = cs
  dsimp only
  constructor
  · intro h
    split at h
    · rename_i l' hfraction
      obtain rfl := Option.some.inj h
      exact fraction?_sound hfraction
    · exact decimal?_sound h
  · intro h
    cases h with
    | fraction habove hleft hright hbelow =>
        rw [fraction?_complete habove hleft hright hbelow]
    | decimal hmark hwhole hpoint hsome hlast =>
        split
        · rename_i l' hfraction
          exact absurd (stroke_mem_of_fraction? hfraction)
            (stroke_notMem_of_decimal hmark hwhole hpoint hlast)
        · exact decimal?_complete hmark hwhole hpoint hsome hlast

end Grammar

section Values

variable {q : Rat} {l : Literal} {f : Fault} {num den : Int}

theorem quotient_iff : quotient num den = .ok q ↔ den ≠ 0 ∧ q * den = num := by
  unfold quotient
  split
  · rename_i hden
    simp [hden]
  · rename_i hden
    have hden' : (den : Rat) ≠ 0 := Int.cast_ne_zero.mpr hden
    rw [Except.ok.injEq, Rat.divInt_eq_div, div_eq_iff hden', eq_comm]
    exact (and_iff_right hden).symm

theorem quotient_error : quotient num den = .error f ↔ den = 0 ∧ f = .zeroDenominator := by
  unfold quotient
  split
  · rename_i hden
    simp [hden, eq_comm]
  · rename_i hden
    simp [hden]

theorem scale_eq (n k : Int) : scale n k = n * (10 : Rat) ^ k := by
  unfold scale
  split
  · rename_i hk
    obtain ⟨m, rfl⟩ := Int.eq_ofNat_of_zero_le hk
    simp [Rat.divInt_one]
  · rename_i hk
    obtain ⟨m, hm⟩ := Int.eq_ofNat_of_zero_le (a := -k) (by omega)
    obtain rfl : k = -(m : Int) := by omega
    simp [Rat.divInt_eq_div, div_eq_mul_inv]

theorem signed_eq (negative : Bool) (n : Nat) :
    (signed negative n : Rat) = (if negative then -1 else 1) * n := by
  cases negative <;> simp [signed]

theorem Literal.value_iff : l.value = .ok q ↔ l.Denotes q := by
  cases l with
  | fraction num den => exact quotient_iff
  | decimal negative whole frac exponent =>
      simp [Literal.value, Literal.Denotes, scale_eq, signed_eq, eq_comm]

theorem Literal.value_error :
    l.value = .error f ↔ (∃ num, l = .fraction num 0) ∧ f = .zeroDenominator := by
  cases l with
  | fraction num den =>
      refine quotient_error.trans (and_congr_left' ?_)
      simp
  | decimal negative whole frac exponent => simp [Literal.value]

variable {s : String} {l' : Literal}

theorem Writes.unique (h : Writes (Text.trim s.toList) l) (h' : Writes (Text.trim s.toList) l') :
    l = l' :=
  Option.some.inj ((Literal.read?_iff.mpr h).symm.trans (Literal.read?_iff.mpr h'))

theorem read_of_writes (h : Writes (Text.trim s.toList) l) :
    read s = if l.inRange then l.value else .error (.exponentOutOfRange s) := by
  have hread := Literal.read?_iff.mpr h
  rw [read, hread, Option.all_some, parse, hread]

theorem read_of_unwritten (h : ¬ ∃ l, Writes (Text.trim s.toList) l) :
    read s = .error (.invalidLiteral s) := by
  have hread : Literal.read? s = none :=
    Option.eq_none_iff_forall_ne_some.mpr fun l hl => h ⟨l, Literal.read?_iff.mp hl⟩
  rw [read, hread, Option.all_none, if_pos rfl, parse, hread]

theorem read_ok : read s = .ok q ↔
    ∃ l, Writes (Text.trim s.toList) l ∧ l.inRange = true ∧ l.Denotes q := by
  constructor
  · intro h
    by_cases hwritten : ∃ l, Writes (Text.trim s.toList) l
    · obtain ⟨l, hl⟩ := hwritten
      rw [read_of_writes hl] at h
      split at h
      · rename_i hrange
        exact ⟨l, hl, hrange, Literal.value_iff.mp h⟩
      · simp at h
    · simp [read_of_unwritten hwritten] at h
  · rintro ⟨l, hl, hrange, hq⟩
    rw [read_of_writes hl, if_pos hrange]
    exact Literal.value_iff.mpr hq

theorem read_error : read s = .error f ↔
    (∃ num, Writes (Text.trim s.toList) (.fraction num 0)) ∧ f = .zeroDenominator ∨
    (∃ l, Writes (Text.trim s.toList) l ∧ l.inRange = false) ∧ f = .exponentOutOfRange s ∨
    (¬ ∃ l, Writes (Text.trim s.toList) l) ∧ f = .invalidLiteral s := by
  constructor
  · intro h
    by_cases hwritten : ∃ l, Writes (Text.trim s.toList) l
    · obtain ⟨l, hl⟩ := hwritten
      rw [read_of_writes hl] at h
      split at h
      · obtain ⟨⟨num, rfl⟩, hf⟩ := Literal.value_error.mp h
        exact .inl ⟨⟨num, hl⟩, hf⟩
      · rename_i hrange
        exact .inr (.inl ⟨⟨l, hl, by simpa using hrange⟩, (Except.error.inj h).symm⟩)
    · rw [read_of_unwritten hwritten] at h
      exact .inr (.inr ⟨hwritten, (Except.error.inj h).symm⟩)
  · rintro (⟨⟨num, hl⟩, rfl⟩ | ⟨⟨l, hl, hrange⟩, rfl⟩ | ⟨hwritten, rfl⟩)
    · rw [read_of_writes hl]
      rfl
    · rw [read_of_writes hl, hrange]
      rfl
    · exact read_of_unwritten hwritten

end Values

section Range

variable {cs ds whole frac : List Char} {negative : Bool} {exponent : Int} {n k : Nat}

theorem ofDigits_lt (h : AllDigits ds) : ofDigits ds < 10 ^ ds.length := by
  induction ds with
  | nil => decide
  | cons c ds ih =>
      obtain ⟨hc, hds⟩ := List.forall_mem_cons.mp h
      have hdigit : c.toNat - '0'.toNat < 10 := by
        simp only [Char.isDigit, Bool.and_eq_true, decide_eq_true_eq] at hc
        have := UInt32.le_iff_toNat_le.mp hc.2
        change c.toNat ≤ 57 at this
        change c.toNat - 48 < 10
        omega
      calc ofDigits (c :: ds) = 10 ^ ds.length * (c.toNat - '0'.toNat) + ofDigits ds := by
            rw [ofDigits, Nat.ofDigitChars_cons, Nat.ofDigitChars_eq_ofDigitChars_zero,
              Nat.mul_zero, Nat.zero_add, ofDigits]
        _ < 10 ^ ds.length * (c.toNat - '0'.toNat) + 10 ^ ds.length :=
          Nat.add_lt_add_left (ih hds) _
        _ ≤ 10 ^ (c :: ds).length := by
          rw [← Nat.mul_succ, List.length_cons, Nat.pow_succ]
          exact Nat.mul_le_mul_left _ hdigit

theorem pow_ten_le {i j r s : Nat} (hi : 10 ^ i ≤ 2 ^ j) (hr : 10 ^ r ≤ 2 ^ s) (k : Nat) :
    10 ^ (i * k + r) ≤ 2 ^ (j * k + s) := by
  rw [pow_add, pow_add, pow_mul, pow_mul]
  exact Nat.mul_le_mul (Nat.pow_le_pow_left hi k) hr

theorem pow_ten_lt (h : n ≤ 323228477) : 10 ^ n < 2 ^ greatestLength := by
  have hmost : 10 ^ 21306 ≤ 2 ^ 70777 := by decide +kernel
  have hrest : 10 ^ 16457 ≤ 2 ^ 54669 := by decide +kernel
  calc 10 ^ n ≤ 10 ^ (21306 * 15170 + 16457) := pow_le_pow_right₀ (by decide) h
    _ ≤ 2 ^ (70777 * 15170 + 54669) := pow_ten_le hmost hrest 15170
    _ < 2 ^ greatestLength := pow_lt_pow_right₀ (by decide) (by decide)

theorem log2_lt (hn : n ≤ 10 ^ k) (hk : k ≤ 323228477) : n.log2 < greatestLength := by
  by_cases h : n = 0
  · rw [h, Nat.log2_zero]
    decide
  · exact (Nat.log2_lt h).mpr (hn.trans_lt (pow_ten_lt hk))

theorem Writes.allDigits (h : Writes cs (.decimal negative whole frac exponent)) :
    AllDigits (whole ++ frac) := by
  cases h with
  | decimal hmark hwhole hpoint hsome hscaled =>
      refine List.forall_mem_append.mpr ⟨hwhole, ?_⟩
      cases hpoint with
      | point hfrac => exact hfrac
      | none => exact List.forall_mem_nil _

theorem Writes.inRange (h : Writes cs (.decimal negative whole frac exponent))
    (hplaces : (whole ++ frac).length + exponent.natAbs ≤ 323228477) :
    (Literal.decimal negative whole frac exponent).inRange = true := by
  have habove : ofDigits (whole ++ frac) * 10 ^ exponent.toNat ≤
      10 ^ ((whole ++ frac).length + exponent.toNat) := by
    rw [pow_add]
    exact Nat.mul_le_mul_right _ (ofDigits_lt h.allDigits).le
  rw [List.length_append] at hplaces habove
  have hpower : exponent.natAbs ≤ greatestPower := by
    unfold greatestPower
    omega
  simp only [Literal.inRange, Nat.pow_eq, Bool.or_eq_true, Bool.and_eq_true, decide_eq_true_eq]
  exact .inr ⟨⟨hpower, log2_lt habove (by omega)⟩, log2_lt le_rfl (by omega)⟩

end Range

section Digits

end Digits

end Number

end TemporalPlanning
