import Mathlib.Data.List.Nodup
import Mathlib.Tactic.LinearCombination
import Mathlib.Tactic.Ring
import TemporalPlanning.Execution.Simulator
import TemporalPlanning.Number.Fraction
import TemporalPlanning.Proofs.WrittenNumbers

namespace TemporalPlanning

theorem Text.append_cons_inj {xs ys xs' ys' : List Char} {c : Char} (hx : c ∉ xs) (hy : c ∉ ys) :
    xs ++ c :: xs' = ys ++ c :: ys' ↔ xs = ys ∧ xs' = ys' := by
  induction xs generalizing ys with
  | nil =>
      cases ys with
      | nil => simp
      | cons d ys => simp [List.ne_of_not_mem_cons hy]
  | cons d xs ih =>
      cases ys with
      | nil => simp [(List.ne_of_not_mem_cons hx).symm]
      | cons d' ys =>
          have hrest := ih (List.not_mem_of_not_mem_cons hx) (List.not_mem_of_not_mem_cons hy)
          simp [hrest, and_assoc]

namespace Fraction

open Number (Literal quotient signed ofDigits)

variable {a : Fraction} {q : Rat} {num den x y : Int}

structure Lowest (a : Fraction) : Prop where
  pos : 0 < a.den
  coprime : Int.gcd a.num a.den = 1

def ofRat (q : Rat) : Fraction := ⟨q.num, q.den⟩

@[simp] theorem num_ofRat (q : Rat) : (ofRat q).num = q.num := rfl

@[simp] theorem den_ofRat (q : Rat) : (ofRat q).den = q.den := rfl

theorem euclid_eq (hx : 0 ≤ x) (hy : 0 ≤ y) : euclid x y = Int.gcd x y := by
  induction x, y using euclid.induct with
  | case1 x =>
      rw [euclid, if_pos rfl, Int.gcd_zero]
      omega
  | case2 x y hne ih =>
      rw [euclid, if_neg hne, ih hy (Int.tmod_nonneg y hx), Int.tmod_eq_emod_of_nonneg hx,
        Int.gcd_comm, Int.gcd_emod]

theorem greatestDivisor_eq (a b : Int) : greatestDivisor a b = Int.gcd a b := by
  have habs (n : Int) : (if n < 0 then -n else n) = (n.natAbs : Int) := by
    split <;> omega
  rw [greatestDivisor, habs, habs, euclid_eq (by omega) (by omega)]
  simp only [Int.gcd, Int.natAbs_natCast]

theorem lowest_ediv (h : 0 < den) :
    Lowest ⟨num / Int.gcd num den, den / Int.gcd num den⟩ where
  pos := Int.ediv_pos_of_pos_of_dvd h (by omega) (Int.gcd_dvd_right ..)
  coprime := Int.gcd_div_gcd_div_gcd (Int.gcd_pos_of_ne_zero_right _ h.ne')

theorem value_ediv (h : 0 < den) :
    value ⟨num / Int.gcd num den, den / Int.gcd num den⟩ = num / den := by
  have hg : (Int.gcd num den : Rat) ≠ 0 :=
    Nat.cast_ne_zero.mpr (Int.gcd_pos_of_ne_zero_right _ h.ne').ne'
  rw [value, Int.cast_div (Int.gcd_dvd_left ..) (by exact_mod_cast hg),
    Int.cast_div (Int.gcd_dvd_right ..) (by exact_mod_cast hg)]
  exact div_div_div_cancel_right₀ (by exact_mod_cast hg) _ _

theorem exists_of (num : Int) (h : den ≠ 0) :
    ∃ a, of num den = .ok a ∧ a.Lowest ∧ a.value = num / den := by
  have hg : (Int.gcd num den : Int) ≠ 0 := by
    exact_mod_cast (Int.gcd_pos_of_ne_zero_right num h).ne'
  have hof (sign : Int) (hsign : (if den < 0 then -1 else 1) = sign) : of num den =
      .ok ⟨(sign * num) / Int.gcd num den, (sign * den) / Int.gcd num den⟩ := by
    rw [of, if_neg h]
    simp only [hsign, greatestDivisor_eq, if_neg hg]
    rw [Int.tdiv_eq_ediv_of_dvd (Dvd.dvd.mul_left (Int.gcd_dvd_left ..) _),
      Int.tdiv_eq_ediv_of_dvd (Dvd.dvd.mul_left (Int.gcd_dvd_right ..) _)]
  rcases lt_or_gt_of_ne h with hneg | hpos
  · have hgcd : Int.gcd num den = Int.gcd (-num) (-den) := by rw [Int.neg_gcd, Int.gcd_neg]
    rw [hof (-1) (if_pos hneg), hgcd]
    simp only [neg_mul, one_mul]
    refine ⟨_, rfl, lowest_ediv (by omega), ?_⟩
    rw [value_ediv (by omega)]
    push_cast
    exact neg_div_neg_eq _ _
  · rw [hof 1 (if_neg hpos.not_gt)]
    simp only [one_mul]
    exact ⟨_, rfl, lowest_ediv hpos, value_ediv hpos⟩

theorem lowest_ofRat (q : Rat) : (ofRat q).Lowest where
  pos := Int.natCast_pos.mpr q.pos
  coprime := by simpa [Int.gcd] using q.reduced

@[simp] theorem value_ofRat (q : Rat) : (ofRat q).value = q := by
  simpa [value] using q.num_div_den

theorem Lowest.eq_ofRat (h : a.Lowest) : a = ofRat a.value := by
  obtain ⟨num, den⟩ := a
  have hnum : ((num : Rat) / den).num = num := Rat.num_div_eq_of_coprime h.pos h.coprime
  have hden : (((num : Rat) / den).den : Int) = den :=
    Rat.den_div_eq_of_coprime h.pos h.coprime
  rw [ofRat, value, hnum, hden]

theorem of_eq (h : den ≠ 0) (hq : q * den = num) : of num den = .ok (ofRat q) := by
  obtain ⟨a, ha, hlow, hvalue⟩ := exists_of num h
  have hden : (den : Rat) ≠ 0 := Int.cast_ne_zero.mpr h
  rw [ha, hlow.eq_ofRat, hvalue, ← hq, mul_div_cancel_right₀ q hden]

theorem of_eq_quotient (num den : Int) : of num den = (quotient num den).map ofRat := by
  cases h : quotient num den with
  | ok q =>
      obtain ⟨hden, hq⟩ := Number.quotient_iff.mp h
      exact of_eq hden hq
  | error f =>
      obtain ⟨rfl, rfl⟩ := Number.quotient_error.mp h
      rfl

theorem apply_ofRat (op : Operator) (q r : Rat) :
    apply op (ofRat q) (ofRat r) = (op.apply q r).map ofRat := by
  have hq : (q.num : Rat) = q * q.den := (Rat.mul_den_eq_num q).symm
  have hr : (r.num : Rat) = r * r.den := (Rat.mul_den_eq_num r).symm
  have hden : (ofRat q).den * (ofRat r).den ≠ 0 := by simp
  cases op with
  | plus =>
      refine of_eq hden ?_
      push_cast [num_ofRat, den_ofRat]
      rw [hq, hr]
      ring
  | minus =>
      refine of_eq hden ?_
      push_cast [num_ofRat, den_ofRat]
      rw [hq, hr]
      ring
  | times =>
      refine of_eq hden ?_
      push_cast [num_ofRat, den_ofRat]
      rw [hq, hr]
      ring
  | div =>
      by_cases hzero : r = 0
      · simp [apply, Operator.apply, Number.divide, hzero, Except.map]
      · have hnum : (ofRat r).num ≠ 0 := Rat.num_ne_zero.mpr hzero
        have hcancel : q / r * r = q := div_mul_cancel₀ q hzero
        simp only [apply, Operator.apply, Number.divide, if_neg hzero, if_neg hnum]
        refine of_eq (mul_ne_zero (by simp) hnum) ?_
        push_cast [num_ofRat, den_ofRat]
        rw [hq, hr]
        linear_combination (q.den * r.den : Rat) * hcancel

theorem order_iff (x y : Rat) : (Number.order x y = -1 ↔ x < y) ∧
    (Number.order x y = 0 ↔ x = y) ∧ (Number.order x y = 1 ↔ y < x) := by
  unfold Number.order
  rcases lt_trichotomy x y with h | rfl | h
  · simp [h, h.ne, h.not_gt]
  · simp
  · simp [h, h.ne', h.not_gt]

theorem compare_ofRat (q r : Rat) : compare (ofRat q) (ofRat r) = Number.order q r := by
  unfold compare Number.order
  simp only [Rat.lt_iff, num_ofRat, den_ofRat]
  rfl

theorem text_injective : Function.Injective Number.text :=
  fun _ _ h => Number.digits_injective (String.ofList_injective h)

theorem text_ofRat (q : Rat) : (ofRat q).text = Number.text q := by
  have hden : (((q.den : Nat) : Int) = 1) = (q.den = 1) := by simp
  have hdigits : Number.intDigits (q.den : Int) = Nat.toDigits 10 q.den := by
    rw [Number.intDigits, if_neg (by omega), Int.natAbs_natCast]
  simp only [text, digits, ofRat, Number.text, Number.digits, hden, hdigits]

theorem ofLiteral_eq (l : Literal) : ofLiteral l = l.value.map ofRat := by
  cases l with
  | fraction num den => exact of_eq_quotient num den
  | decimal negative whole frac exponent =>
      have hshift {n : Rat} {k : Int} {i j : Nat} (h : k + i = j) :
          n * 10 ^ k * 10 ^ i = n * 10 ^ j := by
        rw [mul_assoc, ← zpow_natCast, ← zpow_natCast, ← zpow_add₀ (by norm_num), h]
      refine of_eq (by split <;> simp) ?_
      rw [Number.scale_eq]
      simp only [Nat.pow_eq]
      generalize signed negative (ofDigits (whole ++ frac)) = n
      rcases lt_trichotomy exponent 0 with hneg | rfl | hpos
      · rw [if_pos hneg, if_neg hneg.not_gt]
        push_cast
        rw [← pow_add, hshift (j := 0) (by omega)]
        simp
      · simp only [lt_irrefl, if_false]
        push_cast
        rw [hshift (j := 0) (by omega)]
        simp
      · rw [if_neg hpos.not_gt, if_pos hpos]
        push_cast
        exact hshift (by omega)

theorem ofText_eq (s : String) : ofText s = (Number.read s).map ofRat := by
  unfold ofText Number.read Number.parse
  cases h : Literal.read? s with
  | none => rfl
  | some l =>
      simp only [Option.all_some]
      split
      · exact ofLiteral_eq l
      · rfl

end Fraction

def Operator.Yields : Operator → Rat → Rat → Rat → Prop
  | .plus, x, y, z => z = x + y
  | .minus, x, y, z => z = x - y
  | .times, x, y, z => z = x * y
  | .div, x, y, z => y ≠ 0 ∧ z * y = x

inductive Computation where
  | quotient (num den : Int)
  | integer (n : Int)
  | whole (x : Number.Binary64) (n : Int) (integral : x.integer? = some n)
  | text (s : String)
  | neg (a : Computation)
  | binary (op : Operator) (a b : Computation)

namespace Computation

open Number (Numeral Writes)

variable {c : Computation} {x y z : Rat} {op : Operator} {e : Fault} {f : Fraction}

def stored : Computation → Except Fault Fraction
  | .quotient num den => Fraction.of num den
  | .integer n => .ok (.ofInt n)
  | .whole _ n _ => .ok (.ofInt n)
  | .text s => Fraction.ofText s
  | .neg a => do return (← a.stored).neg
  | .binary op a b => do (← a.stored).apply op (← b.stored)

def result : Computation → Except Fault Rat
  | .quotient num den => Number.quotient num den
  | .integer n => (Numeral.integer n).toRat
  | .whole x _ _ => (Numeral.binary x).toRat
  | .text s => (Numeral.text s).toRat
  | .neg a => do return -(← a.result)
  | .binary op a b => do op.apply (← a.result) (← b.result)

def Names : Computation → Rat → Prop
  | .quotient num den, q => den ≠ 0 ∧ q * den = num
  | .integer n, q => q = n
  | .whole x _ _, q => x.value? = some q
  | .text s, q => ∃ l, Writes (Text.trim s.toList) l ∧ l.inRange = true ∧ l.Denotes q
  | .neg a, q => a.Names (-q)
  | .binary op a b, q => ∃ x y, a.Names x ∧ b.Names y ∧ op.Yields x y q

def Fails : Computation → Fault → Prop
  | .quotient _ den, e => den = 0 ∧ e = .zeroDenominator
  | .integer _, _ => False
  | .whole _ _ _, _ => False
  | .text s, e =>
      (∃ num, Writes (Text.trim s.toList) (.fraction num 0)) ∧ e = .zeroDenominator ∨
      (∃ l, Writes (Text.trim s.toList) l ∧ l.inRange = false) ∧ e = .exponentOutOfRange s ∨
      (¬ ∃ l, Writes (Text.trim s.toList) l) ∧ e = .invalidLiteral s
  | .neg a, e => a.Fails e
  | .binary op a b, e => a.Fails e ∨
      ∃ x, a.Names x ∧ (b.Fails e ∨ op = .div ∧ b.Names 0 ∧ e = .divisionByZero x)

theorem apply_ok : op.apply x y = .ok z ↔ op.Yields x y z := by
  cases op with
  | plus => simp [Operator.apply, Operator.Yields, eq_comm]
  | minus => simp [Operator.apply, Operator.Yields, eq_comm]
  | times => simp [Operator.apply, Operator.Yields, eq_comm]
  | div =>
      by_cases hy : y = 0
      · simp [Operator.apply, Operator.Yields, Number.divide, hy]
      · simp only [Operator.apply, Operator.Yields, Number.divide, if_neg hy, Except.ok.injEq]
        rw [div_eq_iff hy, eq_comm]
        exact (and_iff_right hy).symm

theorem apply_error : op.apply x y = .error e ↔ op = .div ∧ y = 0 ∧ e = .divisionByZero x := by
  cases op with
  | div => by_cases hy : y = 0 <;> simp [Operator.apply, Number.divide, hy, eq_comm]
  | _ => simp [Operator.apply]

theorem result_whole {x : Number.Binary64} {n : Int} (h : x.integer? = some n) :
    (Numeral.binary x).toRat = .ok n ∧ x.value? = some (n : Rat) := by
  refine ⟨by simp [Numeral.toRat, Numeral.ofBinary64, h], ?_⟩
  unfold Number.Binary64.integer? at h
  split at h
  · rename_i q hq
    split at h
    · rename_i hden
      rw [hq, ← Option.some.inj h, (Rat.den_eq_one_iff q).mp hden]
    · simp at h
  · simp at h

theorem result_ok (c : Computation) (q : Rat) : c.result = .ok q ↔ c.Names q := by
  induction c generalizing q with
  | quotient num den => exact Number.quotient_iff
  | integer n => simp [result, Names, Numeral.toRat, eq_comm]
  | whole x n h =>
      obtain ⟨hresult, hvalue⟩ := result_whole h
      simp [result, Names, hresult, hvalue]
  | text s => exact Number.read_ok
  | neg a ih =>
      rw [result, Names, ← ih]
      cases a.result with
      | ok x => simp [bind, Except.bind, pure, Except.pure, neg_eq_iff_eq_neg]
      | error e => simp [bind, Except.bind]
  | binary op a b iha ihb =>
      simp only [result, Names, ← iha, ← ihb, ← apply_ok]
      cases a.result with
      | error e => simp [bind, Except.bind]
      | ok x => cases b.result <;> simp [bind, Except.bind]

theorem result_error (c : Computation) (e : Fault) : c.result = .error e ↔ c.Fails e := by
  induction c generalizing e with
  | quotient num den => exact Number.quotient_error
  | integer n => simp [result, Fails, Numeral.toRat]
  | whole x n h => simp [result, Fails, (result_whole h).1]
  | text s => exact Number.read_error
  | neg a ih =>
      rw [result, Fails, ← ih]
      cases a.result <;> simp [bind, Except.bind, pure, Except.pure]
  | binary op a b iha ihb =>
      simp only [result, Fails, ← iha, ← ihb, ← result_ok]
      cases a.result with
      | error e => simp [bind, Except.bind]
      | ok x => cases b.result <;> simp [bind, Except.bind, apply_error]

theorem stored_eq (c : Computation) : c.stored = c.result.map .ofRat := by
  induction c with
  | quotient num den => exact Fraction.of_eq_quotient num den
  | integer n => rfl
  | whole x n h =>
      rw [stored, result, (result_whole h).1]
      rfl
  | text s => exact Fraction.ofText_eq s
  | neg a ih =>
      rw [stored, result, ih]
      cases a.result <;> rfl
  | binary op a b iha ihb =>
      rw [stored, result, iha, ihb]
      cases a.result with
      | error e => rfl
      | ok x =>
          cases b.result with
          | error e => rfl
          | ok y => exact Fraction.apply_ofRat op x y

theorem stored_of_names (h : c.Names x) : c.stored = .ok (.ofRat x) := by
  rw [stored_eq, (result_ok c x).mpr h]
  rfl

theorem exists_names (h : c.stored = .ok f) : ∃ x, c.Names x ∧ f = .ofRat x := by
  rw [stored_eq] at h
  cases hresult : c.result with
  | error e => simp [hresult, Except.map] at h
  | ok x =>
      rw [hresult] at h
      exact ⟨x, (result_ok c x).mp hresult, (Except.ok.inj h).symm⟩

theorem stored_error : c.stored = .error e ↔ c.Fails e := by
  rw [← result_error, stored_eq]
  cases c.result <;> simp [Except.map]

end Computation

namespace OrderedMap

variable {κ κ' ν : Type}

def named (name : κ → κ') (h : Function.Injective name) (m : OrderedMap κ ν) :
    OrderedMap κ' (κ × ν) where
  entries := m.entries.map fun e => (name e.1, e)
  nodup := by
    have hnodup := (List.nodup_map_iff h).mpr m.nodup
    rwa [List.map_map] at hnodup ⊢

variable {name : κ → κ'} {h : Function.Injective name}

theorem values_named (m : OrderedMap κ ν) : (m.named name h).values = m.entries := by
  simp [values, named, Function.comp_def]

variable [DecidableEq κ] [DecidableEq κ']

theorem find_named (h : Function.Injective name) (k : κ) (es : List (κ × ν)) :
    find (name k) (es.map fun e => (name e.1, e)) = (find k es).map fun v => (k, v) := by
  induction es with
  | nil => rfl
  | cons e es ih =>
      simp only [List.map_cons, find, h.eq_iff, ih]
      split
      · rename_i hk
        rw [← hk]
        rfl
      · rfl

theorem replace_named (h : Function.Injective name) (k : κ) (v : ν) (es : List (κ × ν)) :
    replace (name k) (k, v) (es.map fun e => (name e.1, e)) =
      (replace k v es).map fun e => (name e.1, e) := by
  induction es with
  | nil => rfl
  | cons e es ih =>
      simp only [List.map_cons, replace, h.eq_iff, ih]
      split <;> rfl

theorem get?_named (m : OrderedMap κ ν) (k : κ) :
    (m.named name h).get? (name k) = (m.get? k).map fun v => (k, v) :=
  find_named h k m.entries

theorem put_named (m : OrderedMap κ ν) (k : κ) (v : ν) :
    (m.named name h).put (name k) (k, v) = (m.put k v).named name h := by
  unfold put named
  simp only [replace_named h]

end OrderedMap

namespace Span

def key (s : Span) : String :=
  Number.text s.lower ++ "|" ++ Number.text s.upper ++ "|" ++ toString s.leftOpen ++ "|" ++
    toString s.rightOpen

theorem toList_key (s : Span) : s.key.toList = Number.digits s.lower ++ '|' ::
    (Number.digits s.upper ++ '|' ::
      ((toString s.leftOpen).toList ++ '|' :: (toString s.rightOpen).toList)) := by
  simp [key, Number.text]

theorem key_injective : Function.Injective key := by
  intro s s' h
  have hchars := congrArg String.toList h
  have hnumber (q : Rat) : '|' ∉ Number.digits q := by
    intro hc
    exact absurd (Number.mem_digits hc) (by decide)
  have hflag (b : Bool) : '|' ∉ (toString b).toList := by cases b <;> decide
  have hflags {b b' : Bool} (hb : (toString b).toList = (toString b').toList) : b = b' := by
    revert hb
    cases b <;> cases b' <;> decide
  rw [toList_key, toList_key, Text.append_cons_inj (hnumber _) (hnumber _),
    Text.append_cons_inj (hnumber _) (hnumber _), Text.append_cons_inj (hflag _) (hflag _)]
    at hchars
  obtain ⟨hlower, hupper, hleft, hright⟩ := hchars
  obtain ⟨l, u, lo, ro⟩ := s
  obtain ⟨l', u', lo', ro'⟩ := s'
  rw [mk.injEq]
  exact ⟨Number.digits_injective hlower, Number.digits_injective hupper, hflags hleft,
    hflags hright⟩

def group (m : OrderedMap String (Span × SpanContent)) (s : Span)
    (f : SpanContent → SpanContent) : OrderedMap String (Span × SpanContent) :=
  let found := (m.get? s.key).getD (s, .empty)
  m.put s.key (found.1, f found.2)

theorem group_named (t : Timeline) (s : Span) (f : SpanContent → SpanContent) :
    group (t.spans.named key key_injective) s f =
      (t.onSpan s f).spans.named key key_injective := by
  rw [group, OrderedMap.get?_named]
  unfold Timeline.onSpan Timeline.at?
  rw [← OrderedMap.put_named]
  cases t.spans.get? s <;> rfl

theorem groups_named (said : List (Span × (SpanContent → SpanContent))) :
    said.foldl (fun m r => group m r.1 r.2) .empty =
      (said.foldl (fun t r => t.onSpan r.1 r.2) Timeline.empty).spans.named key key_injective := by
  have hgroups (t : Timeline) : said.foldl (fun m r => group m r.1 r.2)
      (t.spans.named key key_injective) =
      (said.foldl (fun t r => t.onSpan r.1 r.2) t).spans.named key key_injective := by
    induction said generalizing t with
    | nil => rfl
    | cons r said ih => rw [List.foldl_cons, List.foldl_cons, group_named, ih]
  exact hgroups .empty

end Span

namespace Simulator

def effectsByText : List TimedEffect → OrderedMap String (Rat × List Effect) →
    Except Fault (OrderedMap String (Rat × List Effect))
  | [], m => .ok m
  | e :: es, m =>
      match e.timing.anchor with
      | .planStart =>
          let t := e.timing.delay
          let found := (m.get? (Number.text t)).getD (t, [])
          effectsByText es (m.put (Number.text t) (found.1, found.2 ++ [e.effect]))
      | anchor => .error (.unanchoredTimedEffect anchor)

theorem effectsByText_named (es : List TimedEffect) (m : OrderedMap Rat (List Effect)) :
    effectsByText es (m.named Number.text Fraction.text_injective) =
      (effectsByTime es m).map (·.named Number.text Fraction.text_injective) := by
  induction es generalizing m with
  | nil => rfl
  | cons e es ih =>
      unfold effectsByText effectsByTime
      cases hanchor : e.timing.anchor with
      | planStart =>
          simp only [OrderedMap.get?_named]
          rw [← ih, ← OrderedMap.put_named]
          cases m.get? e.timing.delay <;> rfl
      | _ => rfl

end Simulator

namespace Computation

theorem stored_exact :
    (∀ c : Computation,
      c.stored = c.result.map .ofRat ∧
      (∀ f, c.stored = .ok f → 0 < f.den ∧ Int.gcd f.num f.den = 1 ∧ c.Names (f.num / f.den)) ∧
      (∀ q, c.Names q → ∃ f, c.stored = .ok f ∧ f.num / f.den = q) ∧
      ∀ e, c.stored = .error e ↔ c.Fails e) ∧
    (∀ (c d : Computation) (f g : Fraction) (x y : Rat), c.stored = .ok f → d.stored = .ok g →
      c.Names x → d.Names y →
      (f.compare g = -1 ↔ x < y) ∧ (f.compare g = 0 ↔ x = y) ∧ (f.compare g = 1 ↔ y < x) ∧
      f.compare g = Number.order x y ∧
      f.text = Number.text x ∧ (f.text = g.text ↔ x = y)) ∧
    (∀ s t : Span, s.key = t.key ↔ s = t) ∧
    (∀ said : List (Span × (SpanContent → SpanContent)),
      (said.foldl (fun m r => Span.group m r.1 r.2) .empty).values =
        (said.foldl (fun t r => t.onSpan r.1 r.2) Timeline.empty).spans.entries) ∧
    ∀ es : List TimedEffect, (Simulator.effectsByText es .empty).map OrderedMap.values =
      (Simulator.effectsByTime es .empty).map OrderedMap.entries := by
  refine ⟨fun c => ⟨stored_eq c, fun f hf => ?_, fun q hq => ?_, fun e => stored_error⟩,
    fun c d f g x y hf hg hx hy => ?_, fun s t => Span.key_injective.eq_iff, fun said => ?_,
    fun es => ?_⟩
  · obtain ⟨x, hx, rfl⟩ := exists_names hf
    obtain ⟨hpos, hcoprime⟩ := Fraction.lowest_ofRat x
    exact ⟨hpos, hcoprime, (congrArg c.Names (Fraction.value_ofRat x)).mpr hx⟩
  · exact ⟨_, stored_of_names hq, Fraction.value_ofRat q⟩
  · obtain rfl : Fraction.ofRat x = f := Except.ok.inj ((stored_of_names hx).symm.trans hf)
    obtain rfl : Fraction.ofRat y = g := Except.ok.inj ((stored_of_names hy).symm.trans hg)
    rw [Fraction.compare_ofRat, Fraction.text_ofRat, Fraction.text_ofRat]
    obtain ⟨hless, hsame, hmore⟩ := Fraction.order_iff x y
    exact ⟨hless, hsame, hmore, rfl, rfl, Fraction.text_injective.eq_iff⟩
  · rw [Span.groups_named, OrderedMap.values_named]
  · have hnamed := Simulator.effectsByText_named es .empty
    rw [show OrderedMap.named Number.text _ .empty = .empty from rfl] at hnamed
    rw [hnamed]
    cases Simulator.effectsByTime es .empty <;> simp [Except.map, OrderedMap.values_named]

end Computation

end TemporalPlanning
