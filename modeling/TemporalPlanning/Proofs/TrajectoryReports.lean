import TemporalPlanning.Proofs.Trajectories

namespace TemporalPlanning

section Blocks

variable {α : Type} {p : α → Bool} {xs : List α}

theorem never_iff : ¬ [true].Sublist (xs.map p) ↔ ∀ x ∈ xs, p x = false := by
  simp [List.singleton_sublist]

theorem ceases_iff : ¬ [false, true].Sublist (xs.map p) ↔ ∃ during after, xs = during ++ after ∧
    (∀ x ∈ during, p x = true) ∧ ∀ x ∈ after, p x = false := by
  induction xs with
  | nil => simp
  | cons x xs ih =>
      rw [List.map_cons]
      cases hx : p x with
      | false =>
          rw [List.cons_sublist_cons, never_iff]
          constructor
          · intro h
            exact ⟨[], x :: xs, rfl, by simp, List.forall_mem_cons.mpr ⟨hx, h⟩⟩
          · rintro ⟨during, after, hxs, hduring, hafter⟩
            rcases List.cons_eq_append_iff.mp hxs with ⟨-, rfl⟩ | ⟨during, rfl, -⟩
            · exact (List.forall_mem_cons.mp hafter).2
            · simp [hx] at hduring
      | true =>
          rw [Watch.sublist_cons_of_ne (by simp), ih]
          constructor
          · rintro ⟨during, after, rfl, hduring, hafter⟩
            exact ⟨x :: during, after, rfl, List.forall_mem_cons.mpr ⟨hx, hduring⟩, hafter⟩
          · rintro ⟨during, after, hxs, hduring, hafter⟩
            rcases List.cons_eq_append_iff.mp hxs with ⟨-, rfl⟩ | ⟨during, rfl, rfl⟩
            · simp [hx] at hafter
            · exact ⟨during, after, rfl, (List.forall_mem_cons.mp hduring).2, hafter⟩

theorem once_iff : ¬ [true, false, true].Sublist (xs.map p) ↔ ∃ before during after,
    xs = before ++ (during ++ after) ∧ (∀ x ∈ before, p x = false) ∧
      (∀ x ∈ during, p x = true) ∧ ∀ x ∈ after, p x = false := by
  induction xs with
  | nil => simp
  | cons x xs ih =>
      rw [List.map_cons]
      cases hx : p x with
      | false =>
          rw [Watch.sublist_cons_of_ne (by simp), ih]
          constructor
          · rintro ⟨before, during, after, rfl, hbefore, hblock⟩
            exact ⟨x :: before, during, after, rfl, List.forall_mem_cons.mpr ⟨hx, hbefore⟩, hblock⟩
          · rintro ⟨before, during, after, hxs, hbefore, hduring, hafter⟩
            rcases List.cons_eq_append_iff.mp hxs with ⟨-, hxs⟩ | ⟨before, rfl, rfl⟩
            · rcases List.cons_eq_append_iff.mp hxs.symm with ⟨-, rfl⟩ | ⟨during, rfl, -⟩
              · exact ⟨xs, [], [], by simp, (List.forall_mem_cons.mp hafter).2, by simp, by simp⟩
              · simp [hx] at hduring
            · exact ⟨before, during, after, rfl, (List.forall_mem_cons.mp hbefore).2, hduring,
                hafter⟩
      | true =>
          rw [List.cons_sublist_cons, ceases_iff]
          constructor
          · rintro ⟨during, after, rfl, hduring, hafter⟩
            exact ⟨[], x :: during, after, rfl, by simp, List.forall_mem_cons.mpr ⟨hx, hduring⟩,
              hafter⟩
          · rintro ⟨before, during, after, hxs, hbefore, hduring, hafter⟩
            rcases List.cons_eq_append_iff.mp hxs with ⟨-, hxs⟩ | ⟨before, rfl, -⟩
            · rcases List.cons_eq_append_iff.mp hxs.symm with ⟨-, rfl⟩ | ⟨during, rfl, rfl⟩
              · simp [hx] at hafter
              · exact ⟨during, after, rfl, (List.forall_mem_cons.mp hduring).2, hafter⟩
            · simp [hx] at hbefore

end Blocks

namespace TrajectoryConstraint

def MetBy (c : TrajectoryConstraint) (states : List Situation) : Prop :=
  match c.kind with
  | .always => ∀ s ∈ states, c.condition.holds s = .ok true
  | .sometime => ∃ s ∈ states, c.condition.holds s = .ok true
  | .atMostOnce => ∃ before during after, states = before ++ (during ++ after) ∧
      (∀ s ∈ before, c.condition.holds s = .ok false) ∧
      (∀ s ∈ during, c.condition.holds s = .ok true) ∧
      ∀ s ∈ after, c.condition.holds s = .ok false

/-- What should hold at some time may still do so after the states; all else cannot be mended. -/
def BrokenBy (c : TrajectoryConstraint) (states : List Situation) : Prop :=
  c.kind ≠ .sometime ∧ ¬ c.MetBy states

def Defined (c : TrajectoryConstraint) (states : List Situation) : Prop :=
  ∀ s ∈ states, ∃ b, c.condition.holds s = .ok b

instance (c : TrajectoryConstraint) (states : List Situation) : Decidable (c.Defined states) :=
  inferInstanceAs (Decidable (∀ s ∈ states, ∃ b, c.condition.holds s = .ok b))

variable {c : TrajectoryConstraint} {states later : List Situation}

theorem Defined.append_left (h : c.Defined (states ++ later)) : c.Defined states :=
  fun s hs => h s (List.mem_append_left _ hs)

theorem Defined.holds_iff (h : c.Defined states) {s : Situation} (hs : s ∈ states) (b : Bool) :
    c.condition.holds s = .ok b ↔ c.condition.isTrue s = b := by
  obtain ⟨value, hvalue⟩ := h s hs
  rw [Monitor.isTrue_of_holds hvalue, hvalue, Except.ok.injEq]

theorem Defined.metBy_iff (h : c.Defined states) : c.MetBy states ↔ c.HoldsOver states := by
  unfold MetBy HoldsOver TrajectoryKind.Accepts
  cases c.kind with
  | always =>
      dsimp only
      rw [List.mem_map, not_exists]
      refine forall_congr' fun s => ?_
      rw [not_and]
      refine forall_congr' fun hs => ?_
      rw [h.holds_iff hs, Bool.not_eq_false]
  | sometime =>
      dsimp only
      rw [List.mem_map]
      exact exists_congr fun s => and_congr_right fun hs => h.holds_iff hs true
  | atMostOnce =>
      dsimp only
      rw [once_iff]
      refine exists_congr fun before => exists_congr fun during => exists_congr fun after =>
        and_congr_right fun hstates => ?_
      have hpart (b : Bool) {part : List Situation} (hpart : ∀ s ∈ part, s ∈ states) :
          (∀ s ∈ part, c.condition.holds s = .ok b) ↔ ∀ s ∈ part, c.condition.isTrue s = b :=
        forall_congr' fun s => forall_congr' fun hs => h.holds_iff (hpart s hs) b
      rw [hpart false (by simp +contextual [hstates]), hpart true (by simp +contextual [hstates]),
        hpart false (by simp +contextual [hstates])]

theorem Defined.brokenBy_iff (h : c.Defined states) : c.BrokenBy states ↔
    (Watch.start c).after (states.map c.condition.isTrue) = none := by
  rw [BrokenBy, h.metBy_iff, HoldsOver, Watch.accepts_iff]
  by_cases hkind : c.kind = .sometime
  · obtain ⟨w, hw, -⟩ :=
      @Watch.after_sometime (Watch.start c) (states.map c.condition.isTrue) hkind
    simp [hkind, hw]
  · simp [hkind, Option.eq_none_iff_forall_ne_some]

theorem BrokenBy.of_prefix {early : List Situation} (h : c.BrokenBy early)
    (hearly : early <+: states) (hdefined : c.Defined states) : c.BrokenBy states := by
  obtain ⟨later, rfl⟩ := hearly
  rw [hdefined.brokenBy_iff, List.map_append, Watch.after_append,
    hdefined.append_left.brokenBy_iff.mp h]
  rfl

end TrajectoryConstraint

namespace Monitor

variable {cs : List TrajectoryConstraint} {m : Monitor} {states : List Situation}
  {s : Situation} {time : Rat} {visits : List (Rat × Situation)}

def observe (m : Monitor) :
    List (Rat × Situation) → Except Fault (List (Rat × Situation) × Option Violation)
  | [] => .ok ([], m.finish)
  | x :: rest => do
      match ← m.visit (Expr.holds x.2) x.1 with
      | (_, some violation) => return ([x], some violation)
      | (m, none) =>
          let (seen, violation) ← m.observe rest
          return (x :: seen, violation)

structure BreaksAt (cs : List TrajectoryConstraint) (before : List (Rat × Situation))
    (x : Rat × Situation) (c : TrajectoryConstraint) : Prop where
  unbroken : ∀ early, early <+: before → ∀ c' ∈ cs, ¬ c'.BrokenBy (early.map Prod.snd)
  broken : c.BrokenBy ((before ++ [x]).map Prod.snd)
  first : ∃ front back, cs = front ++ c :: back ∧
    ∀ c' ∈ front, ¬ c'.BrokenBy ((before ++ [x]).map Prod.snd)

theorem Saw.unbroken (hm : Saw states cs m) (hdefined : ∀ c ∈ cs, c.Defined states) :
    ∀ c ∈ cs, ¬ c.BrokenBy states := by
  induction hm with
  | nil => simp
  | cons hw _ ih =>
      obtain ⟨hc, hdefined⟩ := List.forall_mem_cons.mp hdefined
      refine List.forall_mem_cons.mpr ⟨fun hbroken => ?_, ih hdefined⟩
      simp [hc.brokenBy_iff.mp hbroken] at hw

variable (time) in
theorem visit_saw (hm : Saw states cs m) (hdefined : ∀ c ∈ cs, c.Defined (states ++ [s])) :
    (∃ m', m.visit (Expr.holds s) time = .ok (m', none) ∧ Saw (states ++ [s]) cs m') ∨
    ∃ m' front c back, m.visit (Expr.holds s) time = .ok (m', some (.trajectory c (some time))) ∧
      cs = front ++ c :: back ∧ c.BrokenBy (states ++ [s]) ∧
      ∀ c' ∈ front, ¬ c'.BrokenBy (states ++ [s]) := by
  induction hm with
  | nil => exact .inl ⟨[], rfl, .nil⟩
  | @cons c w cs m hw _ ih =>
      obtain ⟨hc, hdefined⟩ := List.forall_mem_cons.mp hdefined
      obtain ⟨b, hb⟩ := hc s (by simp)
      have hwatched : w.constraint = c := Watch.constraint_of_after hw
      have hstep : (Watch.start c).after ((states ++ [s]).map c.condition.isTrue) =
          if (w.next b).isBroken b then none else some (w.next b) := by
        rw [List.map_append, Watch.after_append, hw]
        simp [Watch.after, isTrue_of_holds hb]
      have hfirst : c.BrokenBy (states ++ [s]) ↔ (w.next b).isBroken b = true := by
        rw [hc.brokenBy_iff, hstep, ite_eq_left_iff]
        simp
      have hvisits : visit (Expr.holds s) time (w :: m) =
          if (w.next b).isBroken b then .ok (w.next b :: m, some (.trajectory c (some time)))
          else (visit (Expr.holds s) time m).map fun r => (w.next b :: r.1, r.2) := by
        rw [visit, hwatched, hb, ← hwatched, ← Watch.constraint_next w b]
        cases visit (Expr.holds s) time m <;> rfl
      rw [hvisits]
      by_cases hbroken : (w.next b).isBroken b = true
      · rw [if_pos hbroken]
        exact .inr ⟨_, [], c, cs, rfl, rfl, hfirst.mpr hbroken, by simp⟩
      · rw [if_neg hbroken] at hstep
        rw [if_neg hbroken]
        rcases ih hdefined with ⟨m', hvisit, hsaw⟩ | ⟨m', front, c', back, hvisit, rfl, hc', hfront⟩
        · rw [hvisit]
          exact .inl ⟨_, rfl, .cons hstep hsaw⟩
        · rw [hvisit]
          exact .inr ⟨_, c :: front, c', back, rfl, rfl, hc',
            List.forall_mem_cons.mpr ⟨mt hfirst.mp hbroken, hfront⟩⟩

theorem finish_saw (hm : Saw states cs m) :
    (m.finish = none ∧ ∀ c ∈ cs, c.HoldsOver states) ∨
    ∃ front c back, m.finish = some (.trajectory c none) ∧ cs = front ++ c :: back ∧
      ¬ c.HoldsOver states ∧ ∀ c' ∈ front, c'.HoldsOver states := by
  induction hm with
  | nil => exact .inl ⟨rfl, by simp⟩
  | @cons c w cs m hw _ ih =>
      have hwatched : w.constraint = c := Watch.constraint_of_after hw
      have hfirst : c.HoldsOver states ↔ ¬ (c.kind = .sometime ∧ w.seen = false) := by
        rw [TrajectoryConstraint.HoldsOver, Watch.accepts_iff]
        simp [hw]
      by_cases hmissed : c.kind = .sometime ∧ w.seen = false
      · refine .inr ⟨[], c, cs, ?_, rfl, fun h => hfirst.mp h hmissed, by simp⟩
        simp [finish, hwatched, hmissed]
      · have hrest : finish (w :: m) = finish m := by
          rw [finish, List.find?_cons_of_neg, finish]
          simpa [hwatched] using hmissed
        rw [hrest]
        rcases ih with ⟨hnone, hall⟩ | ⟨front, c', back, hsome, rfl, hc', hfront⟩
        · exact .inl ⟨hnone, List.forall_mem_cons.mpr ⟨hfirst.mpr hmissed, hall⟩⟩
        · exact .inr ⟨c :: front, c', back, hsome, rfl, hc',
            List.forall_mem_cons.mpr ⟨hfirst.mpr hmissed, hfront⟩⟩

theorem observe_cons {m' : Monitor} {x : Rat × Situation}
    (h : m.visit (Expr.holds x.2) x.1 = .ok (m', none)) : m.observe (x :: visits) =
      (m'.observe visits).map fun r => (x :: r.1, r.2) := by
  rw [observe, h]
  cases hrest : m'.observe visits <;> simp [bind, Except.bind, hrest] <;> rfl

theorem observe_saw (hm : Saw states cs m)
    (hdefined : ∀ c ∈ cs, c.Defined (states ++ visits.map Prod.snd)) :
    (∃ m', m.observe visits = .ok (visits, m'.finish) ∧
      Saw (states ++ visits.map Prod.snd) cs m') ∨
    ∃ before x after front c back, visits = before ++ x :: after ∧ cs = front ++ c :: back ∧
      m.observe visits = .ok (before ++ [x], some (.trajectory c (some x.1))) ∧
      (∀ c' ∈ cs, ¬ c'.BrokenBy (states ++ before.map Prod.snd)) ∧
      c.BrokenBy (states ++ (before ++ [x]).map Prod.snd) ∧
      ∀ c' ∈ front, ¬ c'.BrokenBy (states ++ (before ++ [x]).map Prod.snd) := by
  induction visits generalizing states m with
  | nil => exact .inl ⟨m, rfl, by simpa using hm⟩
  | cons x visits ih =>
      have hassoc (later : List (Rat × Situation)) :
          states ++ (x :: later).map Prod.snd = states ++ [x.2] ++ later.map Prod.snd := by simp
      rw [hassoc] at hdefined
      have hvisited : ∀ c ∈ cs, c.Defined (states ++ [x.2]) :=
        fun c hc => (hdefined c hc).append_left
      rcases visit_saw x.1 hm hvisited with ⟨m', hvisit, hsaw⟩ |
        ⟨m', front, c, back, hvisit, hcs, hc, hfront⟩
      · rcases ih hsaw hdefined with ⟨last, hlast, hsaw⟩ |
          ⟨before, y, after, front, c, back, rfl, hcs, hseen, hbefore, hc, hfront⟩
        · refine .inl ⟨last, ?_, hassoc visits ▸ hsaw⟩
          rw [observe_cons hvisit, hlast]
          rfl
        · refine .inr ⟨x :: before, y, after, front, c, back, rfl, hcs, ?_, ?_, ?_, ?_⟩
          · rw [observe_cons hvisit, hseen]
            rfl
          · rwa [hassoc]
          · rwa [List.cons_append, hassoc]
          · rwa [List.cons_append, hassoc]
      · refine .inr ⟨[], x, visits, front, c, back, rfl, hcs, ?_, ?_, hc, hfront⟩
        · rw [observe, hvisit]
          rfl
        · simpa using hm.unbroken fun c hc => (hvisited c hc).append_left

theorem observe_decides (hdefined : ∀ c ∈ cs, c.Defined (visits.map Prod.snd)) :
    ∃ seen violation, (start cs).observe visits = .ok (seen, violation) ∧
      (violation = none ↔ ∀ c ∈ cs, c.MetBy (visits.map Prod.snd)) ∧
      ((∃ early, early <+: visits ∧ ∃ c ∈ cs, c.BrokenBy (early.map Prod.snd)) →
        ∃ before x after c, visits = before ++ x :: after ∧ BreaksAt cs before x c ∧
          seen = before ++ [x] ∧ violation = some (.trajectory c (some x.1))) ∧
      ((∀ c ∈ cs, ¬ c.BrokenBy (visits.map Prod.snd)) → seen = visits ∧
        ∀ v ∈ violation, ∃ front c back, cs = front ++ c :: back ∧ v = .trajectory c none ∧
          ¬ c.MetBy (visits.map Prod.snd) ∧ ∀ c' ∈ front, c'.MetBy (visits.map Prod.snd)) := by
  rcases observe_saw (saw_start cs) hdefined with ⟨m, hseen, hsaw⟩ |
    ⟨before, x, after, front, c, back, rfl, rfl, hseen, hbefore, hc, hfront⟩
  · have hunbroken := hsaw.unbroken hdefined
    refine ⟨visits, m.finish, hseen, ?_, ?_, fun _ => ⟨rfl, ?_⟩⟩
    · rcases finish_saw hsaw with ⟨hnone, hall⟩ | ⟨front, c, back, hsome, rfl, hc, -⟩
      · exact iff_of_true hnone fun c hc => (hdefined c hc).metBy_iff.mpr (hall c hc)
      · refine iff_of_false (by simp [hsome]) fun hall => hc ?_
        exact (hdefined c (by simp)).metBy_iff.mp (hall c (by simp))
    · rintro ⟨early, hearly, c, hc, hbroken⟩
      exact absurd (hbroken.of_prefix (hearly.map _) (hdefined c hc)) (hunbroken c hc)
    · intro v hv
      rcases finish_saw hsaw with ⟨hnone, -⟩ | ⟨front, c, back, hsome, rfl, hc, hfront⟩
      · simp [hnone] at hv
      · obtain rfl := Option.some.inj (hsome.symm.trans hv)
        refine ⟨front, c, back, rfl, rfl, ?_, fun c' hc' => ?_⟩
        · rwa [(hdefined c (by simp)).metBy_iff]
        · exact (hdefined c' (by simp [hc'])).metBy_iff.mpr (hfront c' hc')
  · have hwhole : c.BrokenBy ((before ++ x :: after).map Prod.snd) :=
      hc.of_prefix (List.IsPrefix.map _ ⟨after, by simp⟩) (hdefined c (by simp))
    have hdefined' : ∀ c' ∈ front ++ c :: back, c'.Defined (before.map Prod.snd) := by
      intro c' hc'
      have hall := hdefined c' hc'
      rw [List.map_append] at hall
      exact hall.append_left
    refine ⟨_, _, hseen, iff_of_false (by simp) fun hall => hwhole.2 (hall c (by simp)), ?_,
      fun hnone => absurd hwhole (hnone c (by simp))⟩
    intro _
    refine ⟨before, x, after, c, rfl, ⟨fun early hearly c' hc' hbroken => hbefore c' hc' ?_, hc,
      front, back, rfl, hfront⟩, rfl, rfl⟩
    exact hbroken.of_prefix (hearly.map _) (hdefined' c' hc')

end Monitor

namespace Airlock

def docked : TrajectoryConstraint := ⟨.sometime, .fluent "docked" []⟩

def openedOnce : TrajectoryConstraint := ⟨.atMostOnce, .fluent "open" []⟩

def silent : TrajectoryConstraint := ⟨.always, .not (.fluent "alarm" [])⟩

def moment (opened alarm : Bool) : Situation :=
  ⟨.empty, .ofMap (.ofList
    [("docked", .bool false), ("open", .bool opened), ("alarm", .bool alarm)]), .empty⟩

def earlier : List (Rat × Situation) := [(0, moment true false), (1, moment false false)]

def reopened : Rat × Situation := (2, moment true true)

def visits : List (Rat × Situation) := earlier ++ [reopened, (3, moment false false)]

theorem observed_visits :
    (∀ c ∈ [docked, openedOnce, silent], c.Defined (visits.map Prod.snd)) ∧
    (Monitor.start [docked, openedOnce, silent]).observe visits =
      .ok (earlier ++ [reopened], some (.trajectory openedOnce (some 2))) ∧
    Monitor.BreaksAt [docked, openedOnce, silent] earlier reopened openedOnce := by
  have hdefined : ∀ c ∈ [docked, openedOnce, silent], c.Defined (visits.map Prod.snd) := by
    decide +kernel
  have hverdict : (Monitor.start [docked, openedOnce, silent]).observe visits =
      .ok (earlier ++ [reopened], some (.trajectory openedOnce (some 2))) := by
    with_unfolding_all rfl
  have hbroken : openedOnce.BrokenBy (visits.map Prod.snd) := by
    rw [(hdefined openedOnce (by simp)).brokenBy_iff]
    decide +kernel
  obtain ⟨seen, violation, hseen, -, hbreaks, -⟩ := Monitor.observe_decides hdefined
  obtain ⟨before, x, after, c, -, hc, rfl, rfl⟩ :=
    hbreaks ⟨visits, List.prefix_refl _, openedOnce, by simp, hbroken⟩
  have hsame := Prod.mk.inj (Except.ok.inj (hseen.symm.trans hverdict))
  obtain ⟨rfl, hx⟩ := List.append_inj' hsame.1 rfl
  obtain rfl := List.singleton_inj.mp hx
  obtain ⟨rfl, -⟩ : c = openedOnce ∧ _ := by simpa using hsame.2
  exact ⟨hdefined, hverdict, hc⟩

end Airlock

end TemporalPlanning
