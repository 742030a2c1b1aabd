import TemporalPlanning.Proofs.Linearizations
import TemporalPlanning.Proofs.Separations

namespace TemporalPlanning

open PartialPlan (visitEach)

open Number (Binary64)

section Limits

variable {α : Type} {name : String} {a : α}

theorem positiveInteger_pos {x : Binary64} {n : Nat} (h : positiveInteger x = .ok n) : 0 < n := by
  unfold positiveInteger at h
  cases x with
  | nan => exact nomatch h
  | infinite negative => cases negative <;> exact nomatch h
  | finite negative m e =>
      obtain ⟨q, hq⟩ : ∃ q, (Binary64.finite negative m e).value? = some q := ⟨_, rfl⟩
      have hinteger : (Binary64.finite negative m e).integer? =
          if q.den = 1 then some q.num else none := by
        rw [Binary64.integer?, hq]
      dsimp only at h
      rw [hinteger, hq] at h
      by_cases hden : q.den = 1
      · by_cases hpos : q ≤ 0
        · simp [hden, hpos] at h
        · have hnum : 0 < q.num := Rat.num_pos.mpr (not_le.mp hpos)
          obtain rfl : q.num.toNat = n := by simpa [hinteger, hden, hpos] using h
          omega
      · rw [if_neg hden] at h
        exact nomatch h

theorem Settings.read_of_readEntry {env : String → Option String}
    {read : String → Except (List String) α} (h : (readEntry env name read).2 = some a) :
    ∃ text, read text = .ok a := by
  unfold readEntry at h
  split at h
  · simp at h
  · rename_i text _
    split at h
    · simp at h
    · split at h
      · rename_i hread
        exact ⟨text, Option.some.inj h ▸ hread⟩
      · simp at h

theorem Options.read_of_readEntry {fields : List (String × OptionValue)}
    {read : OptionValue → Except (List String) α} (h : (readEntry fields name read).2 = some a) :
    ∃ value, read value = .ok a := by
  unfold readEntry at h
  split at h
  · simp at h
  · rename_i f _
    split at h
    · rename_i hread
      exact ⟨f.2, Option.some.inj h ▸ hread⟩
    · simp at h

theorem Settings.limit_pos {env : String → Option String} {s : Settings}
    (h : Settings.read env = .ok s) : ∀ k ∈ s.limit, 0 < k := by
  unfold Settings.read at h
  dsimp only at h
  split at h
  · obtain rfl := Except.ok.inj h
    intro k hk
    obtain ⟨text, hread⟩ := read_of_readEntry hk
    exact positiveInteger_pos hread
  · simp at h

theorem Options.limit_pos {given : OptionValue} {o : Options} (h : Options.read given = .ok o) :
    ∀ k ∈ o.limit, 0 < k := by
  cases given with
  | record fields =>
      unfold Options.read readFields at h
      dsimp only at h
      split at h
      · obtain rfl := Except.ok.inj h
        intro k hk
        obtain ⟨value, hread⟩ := read_of_readEntry hk
        unfold readLimit at hread
        split at hread
        · exact positiveInteger_pos hread
        · simp at hread
      · simp at h
  | _ => simp [Options.read] at h

theorem Validator.limit_pos {given : OptionValue} {o : Options} {env : String → Option String}
    {s : Settings} (ho : Options.read given = .ok o) (hs : Settings.read env = .ok s) :
    ∀ k ∈ (ofOptions o s).limit, 0 < k := by
  intro k hk
  have hk : o.limit.or s.limit = some k := hk
  rcases Option.or_eq_some_iff.mp hk with hk | ⟨-, hk⟩
  · exact Options.limit_pos ho k hk
  · exact Settings.limit_pos hs k hk

end Limits

namespace Validator

variable {v : Validator} {problem : Problem}

def Accepts (v : Validator) (problem : Problem) (plan : Plan) : Prop :=
  ∃ r, (v.validate problem plan).outcome.1 = .ok r ∧ r.isValid = true

def within {α : Type} (v : Validator) (count : Nat) (ls : List α) : List α :=
  v.limit.elim ls fun k => ls.take (k - count)

theorem within_cons {α : Type} {count : Nat} {l : α} {ls : List α}
    (h : v.limit.any (· ≤ count) = false) :
    v.within count (l :: ls) = l :: v.within (count + 1) ls := by
  cases hk : v.limit with
  | none => simp [within, hk]
  | some k =>
      have hlt : count < k := by simpa [hk] using h
      obtain ⟨n, hn⟩ : ∃ n, k - count = n + 1 := ⟨k - count - 1, by omega⟩
      have hn' : k - (count + 1) = n := by omega
      simp [within, hk, hn, hn']

theorem within_of_reached {α : Type} {count : Nat} (ls : List α)
    (h : v.limit.any (· ≤ count) = true) : v.within count ls = [] := by
  cases hk : v.limit with
  | none => simp [hk] at h
  | some k =>
      have hle : k ≤ count := by simpa [hk] using h
      simp [within, hk, Nat.sub_eq_zero_of_le hle]

section Loop

def Passes (v : Validator) (problem : Problem) (l : List ActionInstance) : Prop :=
  ∃ r, (v.validateSequence problem l).result = .ok r ∧ r.isValid = true

inductive Judged (v : Validator) (problem : Problem) (ls : List (List ActionInstance))
    (c : Checked) : Prop
  | passed (valid : ∀ l ∈ ls, v.Passes problem l) (failed : c.failed = none)
      (first : ls ≠ [] → ∃ r, c.first = some r ∧ r.isValid = true)
  | stopped (before after : List (List ActionInstance)) (l : List ActionInstance) (r : Report)
      (note : String) (split : ls = before ++ l :: after)
      (valid : ∀ l ∈ before, v.Passes problem l)
      (report : (v.validateSequence problem l).result = .ok r) (invalid : r.isValid = false)
      (failed : c.failed = some (r.addNote .error note))

theorem Judged.cons {l : List ActionInstance} {ls : List (List ActionInstance)} {c : Checked}
    (h : v.Judged problem ls c) (hl : v.Passes problem l)
    (hfirst : ∃ r, c.first = some r ∧ r.isValid = true) : v.Judged problem (l :: ls) c := by
  cases h with
  | passed hvalid hfailed _ =>
      exact .passed (List.forall_mem_cons.mpr ⟨hl, hvalid⟩) hfailed fun _ => hfirst
  | stopped before after l' r note hsplit hvalid hreport hinvalid hfailed =>
      exact .stopped (l :: before) after l' r note (by rw [hsplit]; rfl)
        (List.forall_mem_cons.mpr ⟨hl, hvalid⟩) hreport hinvalid hfailed

theorem steady_visitEach (ls : List (List ActionInstance)) (c : Checked) :
    (visitEach (v.checkLinearization problem) ls c).Steady := by
  induction ls generalizing c with
  | nil => exact Logged.steady_pure _
  | cons l ls ih =>
      refine (steady_checkLinearization v problem l c).bind fun step => ?_
      cases step with
      | done c => exact Logged.steady_pure _
      | yield c => exact ih c

theorem result_visitEach_cons (l : List ActionInstance) (ls : List (List ActionInstance))
    (c : Checked) : (visitEach (v.checkLinearization problem) (l :: ls) c).result =
      (v.checkLinearization problem l c).result >>= fun
        | .done c => .ok (.done c)
        | .yield c => (visitEach (v.checkLinearization problem) ls c).result := by
  refine (Logged.result_bind _ fun step => ?_).trans ?_
  · cases step with
    | done c => exact Logged.steady_pure _
    | yield c => exact steady_visitEach ls c
  · congr 1
    funext step
    cases step <;> rfl

theorem result_checkLinearization {l : List ActionInstance} {c : Checked} {r : Report}
    (hlimit : v.limit.any (· ≤ c.count) = false)
    (hr : (v.validateSequence problem l).result = .ok r) :
    ∃ note, (v.checkLinearization problem l c).result = .ok (if r.isValid
      then .yield ⟨c.count + 1, c.first.or (some r), c.failed⟩
      else .done ⟨c.count + 1, c.first, some (r.addNote .error note)⟩) := by
  let order := ", ".intercalate (l.map (·.label))
  let note := s!"Linearization #{c.count + 1} is invalid: {order}"
  let after (r : Report) : ForInStep Checked := if r.isValid
    then .yield ⟨c.count + 1, c.first.or (some r), c.failed⟩
    else .done ⟨c.count + 1, c.first, some (r.addNote .error note)⟩
  have hcheck : v.checkLinearization problem l c = v.validateSequence problem l >>= fun r =>
      return after r := by
    rw [checkLinearization, hlimit]
    refine bind_congr fun r => ?_
    cases hvalid : r.isValid with
    | false => simp [after, hvalid, note, order]
    | true => simp [after, hvalid]
  refine ⟨note, ?_⟩
  rw [hcheck, Logged.result_bind _ fun r => Logged.steady_pure (after r), hr]
  rfl

theorem judged_visitEach {ls : List (List ActionInstance)} {c : Checked}
    (hall : ∀ l ∈ v.within c.count ls, ∃ r, (v.validateSequence problem l).result = .ok r)
    (hfailed : c.failed = none) (hfirst : ∀ r, c.first = some r → r.isValid = true) :
    ∃ step, (visitEach (v.checkLinearization problem) ls c).result = .ok step ∧
      v.Judged problem (v.within c.count ls) step.value ∧
      (c.first.isSome = true → step.value.first = c.first) := by
  induction ls generalizing c with
  | nil =>
      have hnil : v.within c.count ([] : List (List ActionInstance)) = [] := by
        cases hk : v.limit <;> simp [within, hk]
      refine ⟨.yield c, rfl, ?_, fun _ => rfl⟩
      rw [hnil]
      exact .passed (by simp) hfailed (by simp)
  | cons l ls ih =>
      rw [result_visitEach_cons]
      cases hlimit : v.limit.any (· ≤ c.count) with
      | true =>
          have hdone : v.checkLinearization problem l c = return .done c := by
            rw [checkLinearization, if_pos hlimit]
          refine ⟨.done c, by rw [hdone]; rfl, ?_, fun _ => rfl⟩
          rw [within_of_reached _ hlimit]
          exact .passed (by simp) hfailed (by simp)
      | false =>
          rw [within_cons hlimit] at hall ⊢
          rw [List.forall_mem_cons] at hall
          obtain ⟨⟨r, hr⟩, hall⟩ := hall
          obtain ⟨note, hcheck⟩ := result_checkLinearization hlimit hr
          rw [hcheck]
          cases hvalid : r.isValid with
          | false =>
              exact ⟨_, rfl, .stopped [] _ l r note rfl (by simp) hr hvalid rfl, fun _ => rfl⟩
          | true =>
              have hsome : (c.first.or (some r)).isSome = true := by cases c.first <;> rfl
              have hvalids : ∀ r', c.first.or (some r) = some r' → r'.isValid = true := by
                intro r' hr'
                rcases Option.or_eq_some_iff.mp hr' with hr' | ⟨-, hr'⟩
                · exact hfirst r' hr'
                · exact Option.some.inj hr' ▸ hvalid
              obtain ⟨step, hstep, hjudged, hkept⟩ :=
                ih (c := ⟨c.count + 1, c.first.or (some r), c.failed⟩) hall hfailed hvalids
              have hkept : step.value.first = c.first.or (some r) := hkept hsome
              obtain ⟨r', hr'⟩ := Option.isSome_iff_exists.mp hsome
              refine ⟨step, hstep, ?_, fun h => ?_⟩
              · exact hjudged.cons ⟨r, hr, hvalid⟩ ⟨r', hkept.trans hr', hvalids r' hr'⟩
              · rw [hkept, Option.or_of_isSome h]

end Loop

variable {plan : PartialPlan ActionInstance}

def reportOn (v : Validator) (problem : Problem) (plan : PartialPlan ActionInstance)
    (c : Checked) : Logged Report :=
  match c.failed, c.first with
  | some r, _ => return r
  | none, some r => return r.addNote .info s!"Checked {c.count} linearization(s)"
  | none, none => do
      let r ← v.validateSequence problem plan.toSequence
      return r.addNote .info s!"Checked {c.count} linearization(s)"

theorem steady_reportOn (c : Checked) : (v.reportOn problem plan c).Steady := by
  unfold reportOn
  split
  · exact Logged.steady_pure _
  · exact Logged.steady_pure _
  · exact (steady_validateSequence v problem _).bind fun r => Logged.steady_pure _

theorem validateOrdered_eq (h : plan.Grounded) : v.validateOrdered problem plan =
    visitEach (v.checkLinearization problem) plan.linearizations ⟨0, none, none⟩ >>= fun step =>
      v.reportOn problem plan step.value := by
  rw [validateOrdered, PartialPlan.walk_eq h]
  refine bind_congr fun step => ?_
  cases step with
  | done c =>
      simp only [pure_bind, ForInStep.value, reportOn]
      cases c.failed <;> cases c.first <;> simp
  | yield c =>
      simp only [pure_bind, ForInStep.value, reportOn]
      cases c.failed <;> cases c.first <;> simp

theorem result_validateOrdered (hplan : plan.Grounded) {step : ForInStep Checked}
    (h : (visitEach (v.checkLinearization problem) plan.linearizations ⟨0, none, none⟩).result =
      .ok step) :
    (v.validateOrdered problem plan).result = (v.reportOn problem plan step.value).result := by
  rw [validateOrdered_eq hplan]
  refine (Logged.result_bind _ fun step : ForInStep Checked => steady_reportOn step.value).trans ?_
  rw [h]
  rfl

theorem passes_iff (hlogger : v.unwritten = false) {l : List ActionInstance} :
    v.Passes problem l ↔ v.Accepts problem (.sequence l) := by
  simp only [Passes, Accepts, validate_ok, hlogger, true_and]
  rfl

theorem result_of_judged (plan : PartialPlan ActionInstance) {ls : List (List ActionInstance)}
    {c : Checked} (hne : ls ≠ []) (h : v.Judged problem ls c) :
    ∃ r, (v.reportOn problem plan c).result = .ok r ∧
      (r.isValid = true ↔ ∀ l ∈ ls, v.Passes problem l) ∧
      (r.isValid = false → ∃ before l after r', ls = before ++ l :: after ∧
        (∀ l' ∈ before, v.Passes problem l') ∧ (v.validateSequence problem l).result = .ok r' ∧
        r'.isValid = false ∧ r.violation = r'.violation ∧ r.trace = r'.trace) := by
  cases h with
  | passed hvalid hfailed hfirst =>
      obtain ⟨r, hr, hrvalid⟩ := hfirst hne
      refine ⟨r.addNote .info s!"Checked {c.count} linearization(s)",
        by rw [reportOn, hfailed, hr]; rfl, iff_of_true hrvalid hvalid, fun h => ?_⟩
      have h : r.isValid = false := h
      simp [hrvalid] at h
  | stopped before after l r note hsplit hvalid hreport hinvalid hfailed =>
      refine ⟨r.addNote .error note, by rw [reportOn, hfailed]; rfl,
        iff_of_false ?_ fun hall => ?_, fun _ => ?_⟩
      · have h : (r.addNote .error note).isValid = false := hinvalid
        simp [h]
      · obtain ⟨r', hr', hvalid'⟩ := hall l (by simp [hsplit])
        obtain rfl : r = r' := by simpa [hreport] using hr'
        simp [hinvalid] at hvalid'
      · exact ⟨before, l, after, r, hsplit, hvalid, hreport, hinvalid, rfl, rfl⟩

theorem report_of_linearizations (hwf : plan.WellFormed) (hlimit : ∀ k ∈ v.limit, 0 < k)
    (hall : ∀ l ∈ plan.linearizations,
      ∃ r, (v.validate problem (.sequence l)).outcome.1 = .ok r) :
    ∃ r, (v.validate problem (.ordered plan)).outcome.1 = .ok r ∧
      (r.isValid = true ↔
        ∀ l ∈ v.within 0 plan.linearizations, v.Accepts problem (.sequence l)) ∧
      (r.isValid = false → ∃ before l after r',
        v.within 0 plan.linearizations = before ++ l :: after ∧
        (∀ l' ∈ before, v.Accepts problem (.sequence l')) ∧
        (v.validate problem (.sequence l)).outcome.1 = .ok r' ∧ r'.isValid = false ∧
        r.violation = r'.violation ∧ r.trace = r'.trace) := by
  have hne := PartialPlan.linearizations_ne_nil hwf
  obtain ⟨first, rest, hcons⟩ := List.exists_cons_of_ne_nil hne
  have hlogger : v.unwritten = false := by
    obtain ⟨r, hr⟩ := hall first (by simp [hcons])
    exact ((validate_ok v problem).mp hr).1
  have hsub : ∀ l ∈ v.within 0 plan.linearizations, l ∈ plan.linearizations := by
    intro l hl
    cases hk : v.limit with
    | none => simpa [within, hk] using hl
    | some k => exact List.mem_of_mem_take (by simpa [within, hk] using hl)
  have hchecked : v.within 0 plan.linearizations ≠ [] := by
    cases hk : v.limit with
    | none => simpa [within, hk] using hne
    | some k =>
        have hpos := hlimit k hk
        simp [within, hk, hne, Nat.pos_iff_ne_zero.mp hpos]
  have hresults : ∀ l ∈ v.within 0 plan.linearizations,
      ∃ r, (v.validateSequence problem l).result = .ok r := by
    intro l hl
    obtain ⟨r, hr⟩ := hall l (hsub l hl)
    exact ⟨r, ((validate_ok v problem).mp hr).2⟩
  obtain ⟨step, hstep, hjudged, -⟩ := judged_visitEach (c := ⟨0, none, none⟩) hresults rfl (by simp)
  obtain ⟨r, hr, hvalid, hinvalid⟩ := result_of_judged plan hchecked hjudged
  simp only [passes_iff hlogger] at hvalid hinvalid
  refine ⟨r, (validate_ok v problem).mpr
    ⟨hlogger, (result_validateOrdered hwf.toGrounded hstep).trans hr⟩, hvalid, fun h => ?_⟩
  obtain ⟨before, l, after, r', hsplit, hbefore, hreport, hl, hviolation, htrace⟩ := hinvalid h
  exact ⟨before, l, after, r', hsplit, hbefore,
    (validate_ok v problem).mpr ⟨hlogger, hreport⟩, hl, hviolation, htrace⟩

theorem ordered_decides {label : ActionInstance → String}
    {ordering : OrderedMap ActionInstance (List ActionInstance)}
    (hplan : PartialPlan.ofOrdering label ordering = .ok plan) (hlimit : ∀ k ∈ v.limit, 0 < k)
    (hall : ∀ l, plan.Linearizes l → ∃ r, (v.validate problem (.sequence l)).outcome.1 = .ok r) :
    ∃ ls r, (∀ l, l ∈ ls ↔ plan.Linearizes l) ∧ ls.Pairwise plan.Earlier ∧
      (v.validate problem (.ordered plan)).outcome.1 = .ok r ∧
      (r.isValid = true ↔ ∀ l ∈ v.limit.elim ls ls.take, v.Accepts problem (.sequence l)) ∧
      (r.isValid = false → ∃ before l after r', v.limit.elim ls ls.take = before ++ l :: after ∧
        (∀ l' ∈ before, v.Accepts problem (.sequence l')) ∧
        (v.validate problem (.sequence l)).outcome.1 = .ok r' ∧ r'.isValid = false ∧
        r.violation = r'.violation ∧ r.trace = r'.trace) := by
  have hwf := PartialPlan.wellFormed_ofOrdering hplan
  have hmem (l : List ActionInstance) : l ∈ plan.linearizations ↔ plan.Linearizes l :=
    PartialPlan.mem_linearizations_iff hwf
  obtain ⟨r, hr, hvalid, hinvalid⟩ :=
    report_of_linearizations hwf hlimit fun l hl => hall l ((hmem l).mp hl)
  exact ⟨plan.linearizations, r, hmem,
    PartialPlan.earlier_linearizationsFrom (List.Sublist.refl _) hwf.nodup, hr, hvalid, hinvalid⟩

-- options and settings only let a positive limit through, so nothing is left to assume of it
theorem ofOptions_accepts_iff {given : OptionValue} {o : Options} {env : String → Option String}
    {s : Settings} {label : ActionInstance → String}
    {ordering : OrderedMap ActionInstance (List ActionInstance)}
    (ho : Options.read given = .ok o) (hs : Settings.read env = .ok s)
    (hplan : PartialPlan.ofOrdering label ordering = .ok plan)
    (hall : ∀ l, plan.Linearizes l →
      ∃ r, ((ofOptions o s).validate problem (.sequence l)).outcome.1 = .ok r) :
    (ofOptions o s).Accepts problem (.ordered plan) ↔
      ∀ l ∈ (ofOptions o s).within 0 plan.linearizations,
        (ofOptions o s).Accepts problem (.sequence l) := by
  have hwf := PartialPlan.wellFormed_ofOrdering hplan
  obtain ⟨r, hr, hvalid, -⟩ := report_of_linearizations hwf (limit_pos ho hs)
    fun l hl => hall l ((PartialPlan.mem_linearizations_iff hwf).mp hl)
  rw [← hvalid]
  exact ⟨fun ⟨r', hr', h⟩ => Except.ok.inj (hr.symm.trans hr') ▸ h, fun h => ⟨r, hr, h⟩⟩

end Validator

namespace Door

def either : PartialPlan ActionInstance :=
  ⟨[opening, entering], (OrderedMap.empty.put opening []).put entering []⟩

theorem ofOrdering_either :
    PartialPlan.ofOrdering ActionInstance.label either.successors = .ok either := by
  refine PartialPlan.ofOrdering_ok.mpr ⟨rfl, PartialPlan.find?_selfOrdered.mp rfl, ?_⟩
  rw [PartialPlan.toSequence_eq (PartialPlan.grounded_ofEntries _)]
  rfl

theorem linearizations_either :
    either.linearizations = [[opening, entering], [entering, opening]] := rfl

theorem ofSteps_either {l : List ActionInstance} (hl : l ∈ either.linearizations) :
    Schedule.ofSteps (sim 1) (Validator.spaced l) = .ok (sched 1 (Validator.spaced l)) := by
  rw [linearizations_either] at hl
  rcases List.mem_pair.mp hl with rfl | rfl
  · exact ofSteps_of_sorted (by with_unfolding_all rfl) rfl rfl rfl (by decide +kernel)
  · exact ofSteps_of_sorted (by with_unfolding_all rfl) rfl rfl rfl (by decide +kernel)

theorem validated_either {l : List ActionInstance} (hl : either.Linearizes l) :
    ∃ r, ((validator 1).validate problem (.sequence l)).outcome.1 = .ok r := by
  have hl := (PartialPlan.mem_linearizations_iff
    (PartialPlan.wellFormed_ofOrdering ofOrdering_either)).mpr hl
  have hsched := ofSteps_either hl
  rw [linearizations_either] at hl
  rcases List.mem_pair.mp hl with rfl | rfl
  · obtain ⟨r, hr, -⟩ := exists_report (P := fun _ => true) hsched (by decide +kernel)
    exact ⟨r, Validator.validate_sequence_ok.mpr ⟨by simp [instantaneous], hr⟩⟩
  · obtain ⟨r, hr, -⟩ := exists_report (P := fun _ => true) hsched (by decide +kernel)
    exact ⟨r, Validator.validate_sequence_ok.mpr ⟨by simp [instantaneous], hr⟩⟩

theorem decides_either : ∃ (ls : List (List ActionInstance)) (r : Report),
    (∀ l, l ∈ ls ↔ either.Linearizes l) ∧
    ((validator 1).validate problem (.ordered either)).outcome.1 = .ok r ∧
    (r.isValid = true ↔ ∀ l ∈ ls, (validator 1).Accepts problem (.sequence l)) := by
  have hlimit : ∀ k ∈ (validator 1).limit, 0 < k := by simp [validator]
  obtain ⟨ls, r, hls, -, hr, hvalid, -⟩ := Validator.ordered_decides ofOrdering_either hlimit
    fun l hl => validated_either hl
  exact ⟨ls, r, hls, hr, hvalid⟩

end Door

end TemporalPlanning
