import TemporalPlanning.Execution.Transition
import TemporalPlanning.Proofs.ReadsAndWrites
import TemporalPlanning.Proofs.RunConstraints
import TemporalPlanning.Validation.Schedule

namespace TemporalPlanning

variable {sim : Simulator} {x y : Scheduled} {xs ys : List Scheduled} {s s' s'' : State}

def Step (sim : Simulator) (x : Scheduled) (s s' : State) : Prop :=
  (sim.tryApply x.event s (some x.time)).outcome.1 = .ok (.ok s')

namespace Step

theorem examined (h : Step sim x s s') : ∃ v a, (sim.examine x.event s).Gives (v, a) ∧
    (sim.networkAfter s a (some x.time)).check = true ∧
    s' = sim.stateAfter s v a (some x.time) :=
  Simulator.transition_gives.mp (Simulator.tryApply_gives (Logged.gives_of_outcome h))

theorem event_eq (h : Step sim x s s') : s'.last.event = x.event := by
  obtain ⟨v, a, hx, -, rfl⟩ := h.examined
  exact Simulator.event_of_examine hx

theorem openConditions_eq (h : Step sim x s s') :
    s'.openConditions = Simulator.openAfter x.event s.openConditions := by
  obtain ⟨v, a, hx, -, rfl⟩ := h.examined
  rw [← Simulator.event_of_examine hx]
  rfl

theorem consistent (h : Step sim x s s') : s'.network.check = true := by
  obtain ⟨v, a, -, hc, rfl⟩ := h.examined
  exact hc

theorem unique (h : Step sim x s s') (h' : Step sim x s s'') : s' = s'' := by
  have heq := h.symm.trans h'
  simpa using heq

end Step

def OpenHold (sim : Simulator) (s : State) : Prop :=
  ∀ i ∈ s.openConditions,
    i.condition.holds (sim.situation s.valuation i.activity.bindings) = .ok true

theorem Simulator.holds_of_checkOpen {v : Valuation} {is : List IntervalCondition}
    (h : (sim.checkOpen v is).Gives ()) :
    ∀ i ∈ is, i.condition.holds (sim.situation v i.activity.bindings) = .ok true := by
  induction is with
  | nil => simp
  | cons i is ih =>
      simp only [checkOpen, Attempt.gives_bind, Attempt.gives_ofExcept, Attempt.gives_require] at h
      obtain ⟨b, hb, _, rfl, hrest⟩ := h
      exact List.forall_mem_cons.mpr ⟨hb, ih hrest⟩

theorem openHold_of_tryApply {e : Event} {time : Option Rat}
    (h : (sim.tryApply e s time).outcome.1 = .ok (.ok s')) : OpenHold sim s' := by
  obtain ⟨v, a, hx, -, rfl⟩ :=
    Simulator.transition_gives.mp (Simulator.tryApply_gives (Logged.gives_of_outcome h))
  obtain ⟨-, -, -, -, -, -, -, -, -, -, -, hopen, -, rfl⟩ := Simulator.examine_gives.mp hx
  exact Simulator.holds_of_checkOpen hopen

theorem Step.openHold (h : Step sim x s s') : OpenHold sim s' := openHold_of_tryApply h

theorem Step.unchanged (h : Step sim x s s') {key : String} (hk : key ∉ s'.last.writes) :
    s'.valuation.get? key = s.valuation.get? key := by
  obtain ⟨v, a, hx, -, rfl⟩ := h.examined
  obtain ⟨-, _, _, _, firing, -, -, -, -, -, -, -, rfl, rfl⟩ := Simulator.examine_gives.mp hx
  exact Valuation.get?_update_of_notMem _ hk

theorem Firing.ofEvent_of_noEffects {provider : Option EffectProvider} {here : Situation}
    {e : Event} (heff : e.effects = []) (hcont : e.continuousEffects = [])
    (hsim : e.simulated = none) : ofEvent provider here e = .ok empty := by
  simp only [ofEvent, heff, hcont, hsim, List.foldlM_nil]
  rfl

theorem Step.writes_nil (h : Step sim x s s') (heff : x.event.effects = [])
    (hcont : x.event.continuousEffects = []) (hsim : x.event.simulated = none) :
    s'.last.writes = [] := by
  obtain ⟨v, a, hx, -, rfl⟩ := h.examined
  obtain ⟨-, -, -, -, firing, -, -, -, -, hf, -, -, -, rfl⟩ := Simulator.examine_gives.mp hx
  rw [Firing.ofEvent_of_noEffects heff hcont hsim] at hf
  obtain rfl : Firing.empty = firing := by simpa using hf
  rfl

theorem Step.writes_nil_of_opening {p : Placement} {i : IntervalCondition} (h : Step sim x s s')
    (hx : x.event = .startCondition p i) : s'.last.writes = [] :=
  h.writes_nil (by rw [hx]; rfl) (by rw [hx]; rfl) (by rw [hx]; rfl)

theorem Step.reads_of_opening {p : Placement} {i : IntervalCondition} (h : Step sim x s s')
    (hx : x.event = .startCondition p i) : ∃ keys,
      i.condition.reads (sim.situation s.valuation i.activity.bindings) = .ok keys ∧
      ∀ key ∈ keys, key ∈ s'.last.reads := by
  obtain ⟨v, a, hex, -, rfl⟩ := h.examined
  obtain ⟨-, d, q, o, f, -, -, -, ho, -, -, -, -, rfl⟩ := Simulator.examine_gives.mp hex
  rw [hx, Simulator.checkOpening] at ho
  simp only [Attempt.gives_bind, Attempt.gives_ofExcept] at ho
  obtain ⟨keys, hkeys, -, -, clash, -, ho⟩ := ho
  refine ⟨keys, hkeys, fun key hk => List.mem_eraseDups.mpr ?_⟩
  cases clash with
  | some other => simp at ho
  | none =>
      obtain rfl : keys = o := by simpa using ho
      simp [hk]

def pinned (done : List (Applied × Rat)) : RunLog := done.map fun a => (a.1, some a.2)

def Applied.Interferes (a b : Applied) : Prop :=
  ∃ key, key ∈ a.writes ∧ (key ∈ b.reads ∨ key ∈ b.writes) ∨ key ∈ b.writes ∧ key ∈ a.reads

theorem Applied.Interferes.symm {a b : Applied} (h : a.Interferes b) : b.Interferes a := by
  obtain ⟨key, ⟨ha, hb | hb⟩ | ⟨hb, ha⟩⟩ := h
  · exact ⟨key, .inr ⟨ha, hb⟩⟩
  · exact ⟨key, .inl ⟨hb, .inr ha⟩⟩
  · exact ⟨key, .inl ⟨hb, .inl ha⟩⟩

section Separation

open Simulator

variable {epsilon d : Rat} {next past : Applied}

theorem overlap_iff {a b : List String} : overlap a b = true ↔ ∃ key ∈ a, key ∈ b := by
  simp [overlap]

theorem interferes_iff : next.Interferes past ↔ (overlap next.writes past.writes ||
    overlap next.writes past.reads || overlap next.reads past.writes) = true := by
  simp only [Bool.or_eq_true, overlap_iff, Applied.Interferes]
  constructor
  · rintro ⟨key, ⟨hn, hp | hp⟩ | ⟨hp, hn⟩⟩
    · exact .inl (.inr ⟨key, hn, hp⟩)
    · exact .inl (.inl ⟨key, hn, hp⟩)
    · exact .inr ⟨key, hn, hp⟩
  · rintro ((⟨key, hn, hp⟩ | ⟨key, hn, hp⟩) | ⟨key, hn, hp⟩)
    · exact ⟨key, .inl ⟨hn, .inr hp⟩⟩
    · exact ⟨key, .inl ⟨hn, .inl hp⟩⟩
    · exact ⟨key, .inr ⟨hp, hn⟩⟩

theorem separation_of_interferes (hinstant : sameInstant past.event next.event = false)
    (hpast : past.event.activity.id ≠ 0) (hnext : next.event.activity.id ≠ 0)
    (h : next.Interferes past) : separation epsilon next past = some epsilon := by
  simp [separation, hinstant, hpast, hnext, interferes_iff.mp h]

theorem separation_some (h : separation epsilon next past = some d) : d = 0 ∨ d = epsilon ∧
    sameInstant past.event next.event = false ∧ past.event.activity.id ≠ 0 ∧
    next.event.activity.id ≠ 0 ∧ next.Interferes past := by
  unfold separation at h
  split at h
  · simp at h
  · rename_i hinstant
    split at h
    · simp at h
    · rename_i hplan
      have hplan : past.event.activity.id ≠ 0 ∧ next.event.activity.id ≠ 0 := by
        simpa using hplan
      split at h
      · rename_i hoverlap
        exact .inr ⟨(Option.some.inj h).symm, by simpa using hinstant, hplan.1, hplan.2,
          interferes_iff.mpr hoverlap⟩
      · split at h
        · exact .inl (Option.some.inj h).symm
        · simp at h

end Separation

inductive Replays (sim : Simulator) : State → List Scheduled → State → Prop
  | nil {s : State} : Replays sim s [] s
  | cons {s s' s'' : State} {x : Scheduled} {xs : List Scheduled} (h : Step sim x s s')
      (hs : Replays sim s' xs s'') :
      Replays sim s (x :: xs) s''

def replay (sim : Simulator) : State → List Scheduled → Option State
  | s, [] => some s
  | s, x :: xs =>
      ((sim.tryApply x.event s (some x.time)).outcome.1.toOption.bind Except.toOption).bind
        fun s' => replay sim s' xs

namespace Replays

theorem append_iff : Replays sim s (xs ++ ys) s'' ↔
    ∃ s', Replays sim s xs s' ∧ Replays sim s' ys s'' := by
  induction xs generalizing s with
  | nil =>
      constructor
      · intro h
        exact ⟨s, .nil, h⟩
      · rintro ⟨s', h, h'⟩
        cases h
        exact h'
  | cons x xs ih =>
      constructor
      · intro h
        cases h with
        | cons hx h =>
            obtain ⟨t, hxs, hys⟩ := ih.mp h
            exact ⟨t, .cons hx hxs, hys⟩
      · rintro ⟨t, h, hys⟩
        cases h with
        | cons hx hxs => exact .cons hx (ih.mpr ⟨t, hxs, hys⟩)

theorem cons_iff : Replays sim s (x :: xs) s'' ↔
    ∃ s', Step sim x s s' ∧ Replays sim s' xs s'' := by
  constructor
  · intro h
    cases h with
    | cons hx h => exact ⟨_, hx, h⟩
  · rintro ⟨s', hx, h⟩
    exact .cons hx h

theorem unique (h : Replays sim s xs s') (h' : Replays sim s xs s'') : s' = s'' := by
  induction h with
  | nil =>
      cases h'
      rfl
  | cons hx _ ih =>
      obtain ⟨t, hx', h'⟩ := cons_iff.mp h'
      obtain rfl := hx.unique hx'
      exact ih h'

theorem of_replay (h : replay sim s xs = some s') : Replays sim s xs s' := by
  induction xs generalizing s with
  | nil =>
      obtain rfl : s = s' := by simpa [replay] using h
      exact .nil
  | cons x xs ih =>
      obtain ⟨a, ha, h⟩ := Option.bind_eq_some_iff.mp h
      exact .cons (except_ok_of_toOption ha) (ih h)

theorem induct {P : State → Prop} (h : Replays sim s xs s') (hs : P s)
    (hstep : ∀ x ∈ xs, ∀ a b, P a → Step sim x a b → P b) : P s' := by
  induction h with
  | nil => exact hs
  | cons hx _ ih =>
      rw [List.forall_mem_cons] at hstep
      exact ih (hstep.1 _ _ hs hx) hstep.2

theorem openHold (h : Replays sim s xs s') (hs : OpenHold sim s) : OpenHold sim s' :=
  h.induct hs fun _ _ _ _ _ hx => hx.openHold

theorem mem_openConditions {i : IntervalCondition} (h : Replays sim s xs s')
    (hi : i ∈ s.openConditions)
    (hxs : ∀ x ∈ xs, ∀ q j, x.event = .endCondition q j → j.id ≠ i.id) :
    i ∈ s'.openConditions := by
  refine h.induct (P := fun s => i ∈ s.openConditions) hi fun x hx a b ha hstep => ?_
  rw [hstep.openConditions_eq]
  cases he : x.event with
  | startCondition p j => exact List.mem_append_left _ ha
  | endCondition q j =>
      have hne : ¬ (i.id = j.id) := fun hij => hxs x hx q j he hij.symm
      exact (List.mem_eraseP_of_neg (by simpa using hne)).mpr ha
  | startAction => exact ha
  | endAction => exact ha

theorem logged {log : RunLog} (h : Replays sim s xs s') (hrun : Simulator.Run sim log s) :
    ∃ done : List (Applied × Rat), Simulator.Run sim (pinned done ++ log) s' ∧
      done.map (fun a => (a.1.event, a.2)) = xs.reverse.map fun x => (x.event, x.time) := by
  induction h generalizing log with
  | nil => exact ⟨[], hrun, rfl⟩
  | @cons s s' s'' x xs hx _ ih =>
      obtain ⟨done, hdone, hevents⟩ := ih (hrun.apply hx)
      refine ⟨done ++ [(s'.last, x.time)], by simpa [pinned] using hdone, ?_⟩
      simp [hevents, hx.event_eq]

theorem separated {log : RunLog} {t t' : State} {d : Rat} (hrun : Simulator.Run sim log s)
    (hx : Step sim x s s') (h : Replays sim s' xs t) (hy : Step sim y t t')
    (hd : Simulator.separation sim.epsilon t'.last s'.last = some d) : d ≤ y.time - x.time := by
  obtain ⟨more, hmore, -⟩ := h.logged (hrun.apply hx)
  have hlast := hmore.apply hy
  obtain ⟨τ, hτ⟩ := hlast.represents.check_iff.mp hy.consistent
  have hmem : (s'.last, some x.time) ∈ pinned more ++ (s'.last, some x.time) :: log := by simp
  have happlied : s'.last ∈ sim.applied (pinned more ++ (s'.last, some x.time) :: log) :=
    List.mem_append_left _ (List.mem_map_of_mem (f := Prod.fst) hmem)
  have hsep := List.rel_of_pairwise_cons hτ.separated happlied d hd
  have htx := hτ.pinned _ (List.mem_cons_of_mem _ hmem) x.time rfl
  have hty := hτ.pinned _ List.mem_cons_self y.time rfl
  simp only at htx hty
  linarith

theorem far_of_interferes {log : RunLog} {t t' : State} (hrun : Simulator.Run sim log s)
    (hx : Step sim x s s') (h : Replays sim s' xs t) (hy : Step sim y t t')
    (hdep : t'.last.Interferes s'.last) :
    Simulator.sameInstant x.event y.event = true ∨ x.event.activity.id = 0 ∨
      y.event.activity.id = 0 ∨ sim.epsilon ≤ y.time - x.time := by
  by_contra hnot
  obtain ⟨hinstant, hxid, hyid, hnear⟩ :
      Simulator.sameInstant x.event y.event = false ∧ x.event.activity.id ≠ 0 ∧
        y.event.activity.id ≠ 0 ∧ ¬ sim.epsilon ≤ y.time - x.time := by simpa using hnot
  rw [← hx.event_eq] at hinstant hxid
  rw [← hy.event_eq] at hinstant hyid
  exact hnear (separated hrun hx h hy (separation_of_interferes hinstant hxid hyid hdep))

theorem values_eq {keys : List String} (h : Replays sim s xs s')
    (hkeep : ∀ before y after b b', xs = before ++ y :: after → Replays sim s before b →
      Step sim y b b' → Replays sim b' after s' →
      (∀ key ∈ keys, b.valuation.get? key = s.valuation.get? key) →
      ∀ key ∈ keys, b'.valuation.get? key = b.valuation.get? key) :
    ∀ key ∈ keys, s'.valuation.get? key = s.valuation.get? key := by
  have hprefix (before after : List Scheduled) (b : State) (hxs : xs = before ++ after)
      (hb : Replays sim s before b) (ha : Replays sim b after s')
      (hsame : ∀ key ∈ keys, b.valuation.get? key = s.valuation.get? key) :
      ∀ key ∈ keys, s'.valuation.get? key = s.valuation.get? key := by
    induction after generalizing before b with
    | nil =>
        cases ha
        exact hsame
    | cons y after ih =>
        obtain ⟨b', hy, ha⟩ := cons_iff.mp ha
        have hy' := hkeep before y after b b' hxs hb hy ha hsame
        refine ih (before ++ [y]) b' (by simpa using hxs) ?_ ha fun key hk => ?_
        · exact append_iff.mpr ⟨b, hb, cons hy .nil⟩
        · rw [hy' key hk, hsame key hk]
  exact hprefix [] xs s rfl .nil h fun _ _ => rfl

end Replays

end TemporalPlanning
