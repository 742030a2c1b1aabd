import TemporalPlanning.Proofs.ConditionsInside
import TemporalPlanning.Proofs.Lifecycles

namespace TemporalPlanning

open Simulator (Makes)

variable {sim : Simulator} {made : List (List Event)} {s s' : State} {e f : Event}
  {es : List Event} {a : Activity} {d : Rat} {time : Option Rat}

theorem Simulator.Session.of_replays {xs : List Scheduled} (h : sim.Session made s)
    (hxs : ∀ x ∈ xs, x.event ∈ sim.known made) (hreplays : Replays sim s xs s') :
    sim.Session made s' :=
  hreplays.induct h fun x hx _ _ ha hstep => ha.apply (hxs x hx) hstep

namespace Simulator.Makes

theorem activity_of_interval (h : Makes sim made) (he : e ∈ sim.known made)
    {i : IntervalCondition} (hi : e.interval? = some i) : i.activity = e.activity := by
  rcases mem_known.mp he with rfl | rfl | he | ⟨es, hes, he⟩
  · simp [interval_none (.inl h.plan.start.1)] at hi
  · simp [interval_none (.inr h.plan.finish.1)] at hi
  · obtain ⟨hactivity, j, hj, hplan⟩ := h.plan.goals e he
    rw [← Option.some.inj (hj.symm.trans hi), hplan, hactivity]
  · obtain ⟨a, d, hunfolds, -⟩ := h.unfolds es hes
    rw [hunfolds.intervals e he i hi, (hunfolds.belongs e he).activity]

theorem mem_of_activity (h : Makes sim made) (hes : es ∈ made) (hunfolds : Unfolds a d es)
    (he : e ∈ sim.known made) (hid : e.activity.id = a.id) : e ∈ es := by
  have hne := h.id_ne hes hunfolds
  rcases h.plan_or_made he with hplan | ⟨fs, hfs, he⟩
  · rw [hplan] at hid
    exact absurd hid.symm hne
  · by_cases hsame : fs = es
    · exact hsame ▸ he
    · obtain ⟨f, rest, hcons, -⟩ := hunfolds.exists_cons
      have hf : f ∈ es := by simp [hcons]
      have hactivity := congrArg Activity.id (hunfolds.belongs f hf).activity
      exact absurd (hid.trans hactivity.symm) (h.id_ne_of_ne hfs hes hsame he hf)

end Simulator.Makes

theorem Simulator.refuses_checkNext {c : Cause} (hid : e.activity.id ≠ 0)
    (h : (checkNext e s).Refuses c) : ∃ next, c = .expectsOther next := by
  unfold checkNext at h
  dsimp only at h
  split at h
  · exact absurd h Attempt.not_refuses_fault
  · rw [if_neg hid] at h
    exact ⟨_, (Attempt.refuses_require.mp h).2.symm⟩

namespace Orderly

variable (h : Orderly sim made s) (hmakes : Makes sim made)
include h hmakes

theorem not_running_of_ended (ha : a ∈ s.ended) : s.agenda.get? a.id = none := by
  have hended : s.hasEnded a = true := List.any_eq_true.mpr ⟨a, ha, decide_eq_true rfl⟩
  rcases h.ended a ha with hid | ⟨es, hes, f, hf, hid⟩
  · have hended : s.hasEnded (.plan sim.origin) = true := by
      rw [← hended, State.hasEnded, State.hasEnded, hid]
      rfl
    rw [hid]
    cases h.plan with
    | running _ hfresh => exact absurd hended (by simp [hfresh])
    | finished hidle => exact hidle
  · obtain ⟨b, d, hunfolds, -⟩ := hmakes.unfolds es hes
    have hb : b.id = a.id := by rw [← hid, (hunfolds.belongs f hf).activity]
    have hended : s.hasEnded b = true := by
      rw [← hended, State.hasEnded, State.hasEnded, hb]
    obtain ⟨done, pending, -, -, hstage⟩ := h.progresses es hes b d hunfolds
    rw [← hb]
    cases hstage with
    | waiting hidle => exact hidle
    | running _ hfresh => exact absurd hended (by simp [hfresh])
    | finished hidle => exact hidle

theorem running_stage {id : Nat} {r : Running} (hid : id ≠ 0) (hr : s.agenda.get? id = some r) :
    ∃ es ∈ made, ∃ a d done, Unfolds a d es ∧ a.id = id ∧ r.activity = a ∧
      es = done ++ r.pending ∧ done ≠ [] ∧ r.pending ≠ [] ∧ ∀ e ∈ done, e ∈ s.events := by
  obtain ⟨es, hes, f, hf, hfid⟩ := (h.running id r hr).resolve_left hid
  obtain ⟨a, d, hunfolds, -⟩ := hmakes.unfolds es hes
  have ha : a.id = id := by rw [← hfid, (hunfolds.belongs f hf).activity]
  obtain ⟨done, pending, heq, hdone, hstage⟩ := h.progresses es hes a d hunfolds
  rw [← ha] at hr
  cases hstage with
  | waiting hidle => simp [hidle] at hr
  | finished hidle => simp [hidle] at hr
  | running hrunning _ hbegun hleft =>
      obtain rfl := Option.some.inj (hrunning.symm.trans hr)
      refine ⟨es, hes, a, d, done, hunfolds, ha, rfl, heq, hbegun, hleft, fun e he => ?_⟩
      rw [← hdone] at he
      exact List.mem_reverse.mp (List.mem_filter.mp he).1

theorem agenda_suffix {id : Nat} {r : Running} (hid : id ≠ 0) (hr : s.agenda.get? id = some r) :
    r.activity.id = id ∧ r.pending ≠ [] ∧ (∃ x ∈ s.events, x.kind = .startAction ∧
      x.activity = r.activity ∧ r.pending <:+ x.committed) ∧
      ∃ q b, r.pending.getLast? = some (.endAction q b) ∧ q.activity = r.activity := by
  obtain ⟨es, -, a, d, done, hunfolds, rfl, hactivity, rfl, hbegun, hleft, hdone⟩ :=
    h.running_stage hmakes hid hr
  obtain ⟨x, done, rfl⟩ := List.exists_cons_of_ne_nil hbegun
  refine ⟨congrArg Activity.id hactivity, hleft, ⟨x, hdone x List.mem_cons_self, ?_, ?_, ?_⟩, ?_⟩
  · exact (hunfolds.start_first (List.nil_append (x :: (done ++ r.pending))).symm).mpr rfl
  · rw [hactivity, (hunfolds.belongs x (by simp)).activity]
  · rw [Unfolds.committed_eq hunfolds]
    exact List.suffix_append done r.pending
  · obtain ⟨front, y, hy⟩ := (List.eq_nil_or_concat r.pending).resolve_left hleft
    rw [hy, List.concat_eq_append, ← List.append_assoc] at hunfolds
    have hkind := (hunfolds.end_last rfl).mpr rfl
    have hyactivity := (hunfolds.belongs y (by simp)).activity
    rw [hactivity, ← hyactivity, hy]
    cases y with
    | endAction q b => exact ⟨q, b, by simp, rfl⟩
    | startAction => simp [Event.kind] at hkind
    | startCondition => simp [Event.kind] at hkind
    | endCondition => simp [Event.kind] at hkind

theorem closed_of_next (he : e ∈ sim.known made) (hkind : e.kind = .endAction)
    (hid : e.activity.id ≠ 0) (hnext : (Simulator.checkNext e s).Gives ()) :
    ∀ i ∈ s.openConditions, i.activity.id ≠ e.activity.id := by
  intro i hi hmine
  obtain ⟨r, hr, -, hhead⟩ := Simulator.running_of_checkNext hnext
  obtain ⟨es, hes, a, d, done, hunfolds, ha, -, rfl, -, hleft, hdone⟩ :=
    h.running_stage hmakes hid hr
  have hmem : e ∈ done ++ r.pending := hmakes.mem_of_activity hes hunfolds he ha.symm
  obtain ⟨f, rest, hpending⟩ := List.exists_cons_of_ne_nil hleft
  rw [hpending] at hunfolds hmem
  have hfid : f.id = e.id := by simpa [hpending] using hhead hid
  obtain rfl : f = e := List.inj_on_of_nodup_map hunfolds.nodup (by simp) hmem hfid
  obtain rfl := (hunfolds.end_last rfl).mp hkind
  -- the interval was opened by an event of this activity, whose closing event is done as well
  obtain ⟨⟨p, hp⟩, hnone⟩ := (h.opened.mem_iff i).mp hi
  have hactivity := hmakes.activity_of_interval (h.known _ hp) rfl
  have hopening : .startCondition p i ∈ done ++ r.pending :=
    hmakes.mem_of_activity hes (hpending ▸ hunfolds) (h.known _ hp)
      ((congrArg Activity.id hactivity).symm.trans (hmine.trans ha.symm))
  rw [hpending] at hopening
  obtain ⟨q, hq, -⟩ := hunfolds.closed p i hopening
  rcases List.mem_append.mp hq with hq | hq
  · exact hnone q (hdone _ hq)
  · rw [← List.mem_singleton.mp hq] at hkind
    simp [Event.kind] at hkind

theorem not_pending {r : Refusal} (he : e ∈ sim.known made) (hkind : e.kind = .endAction)
    (hid : e.activity.id ≠ 0) (hr : (sim.tryApply e s time).outcome.1 = .ok (.error r)) :
    r.kind ≠ .pendingConditions := by
  intro hpending
  obtain ⟨-, hcause⟩ := Simulator.refused_for hr
  have horder : r.cause.OfOrder := Refusal.ofOrder_iff.mpr (.inr hpending)
  have hlife : (Simulator.checkLifecycle e s).Refuses r.cause := by
    rcases hcause with ⟨hlife, -⟩ | hstate | ⟨⟨w, hw⟩, -⟩
    · exact hlife
    · exact absurd hpending (Refusal.kind_of_ofState hstate).2.1
    · simp [hw, Cause.OfOrder] at horder
  cases e with
  | startAction => simp [Event.kind] at hkind
  | startCondition => simp [Event.kind] at hkind
  | endCondition => simp [Event.kind] at hkind
  | endAction q b =>
      rcases Attempt.refuses_bind.mp hlife with hnext | ⟨_, hnext, hclosed⟩
      · obtain ⟨next, hcause⟩ := Simulator.refuses_checkNext hid hnext
        simp [Refusal.kind, hcause] at hpending
      · obtain ⟨hmine, -⟩ := Attempt.refuses_require.mp hclosed
        have hnone := h.closed_of_next hmakes he hkind hid hnext
        have hempty : s.openConditions.filter
            (fun i => i.activity.id = (Event.endAction q b).activity.id) = [] :=
          List.filter_eq_nil_iff.mpr fun i hi => by simpa using hnone i hi
        simp [hempty] at hmine

theorem closes {q : Placement} {i : IntervalCondition} (he : .endCondition q i ∈ sim.known made)
    (happ : (sim.tryApply (.endCondition q i) s time).outcome.1 = .ok (.ok s')) :
    i ∈ s.openConditions ∧ s'.openConditions = s.openConditions.erase i := by
  have ht := Event.Takes.of_tryApply happ
  obtain ⟨hfresh, hclosing, -⟩ := h.fits hmakes he ht
  obtain ⟨p, hp⟩ := hclosing q i rfl
  have hi := h.opened.mem_of_closing hp hmakes.numbered h.known he hfresh
  exact ⟨hi, ht.openConditions.trans (eraseP_id hi h.opened.once)⟩

end Orderly

structure Kept (sim : Simulator) (made : List (List Event)) (s : State) : Prop where
  once : (s.events.map Event.id).Nodup
  apart : ∀ a ∈ s.ended, s.agenda.get? a.id = none
  agenda : ∀ id r, id ≠ 0 → s.agenda.get? id = some r → r.activity.id = id ∧ r.pending ≠ [] ∧
    (∃ x ∈ s.events, x.kind = .startAction ∧ x.activity = r.activity ∧ r.pending <:+ x.committed) ∧
    ∃ q b, r.pending.getLast? = some (.endAction q b) ∧ q.activity = r.activity
  openOnce : s.openConditions.Nodup
  mem_open : ∀ i, i ∈ s.openConditions ↔
    (∃ p, .startCondition p i ∈ s.events) ∧ ∀ q, .endCondition q i ∉ s.events
  holds : ∀ i ∈ s.openConditions,
    i.condition.holds (sim.situation s.valuation i.activity.bindings) = .ok true
  ends : ∀ e ∈ sim.known made, e.kind = .endAction → e.activity.id ≠ 0 → ∀ time r,
    (sim.tryApply e s time).outcome.1 = .ok (.error r) → r.kind ≠ .pendingConditions
  closes : ∀ q i, .endCondition q i ∈ sim.known made → ∀ time s',
    (sim.tryApply (.endCondition q i) s time).outcome.1 = .ok (.ok s') →
    i ∈ s.openConditions ∧ s'.openConditions = s.openConditions.erase i

theorem Simulator.Session.kept (h : sim.Session made s) (hε : 0 < sim.epsilon) :
    Kept sim made s := by
  have hmakes := h.makes hε.le
  have horderly := h.orderly hε.le
  exact {
    once := horderly.once
    apart := fun a ha => horderly.not_running_of_ended hmakes ha
    agenda := fun id r hid hr => horderly.agenda_suffix hmakes hid hr
    openOnce := horderly.opened.once.of_map _
    mem_open := horderly.opened.mem_iff
    holds := horderly.holds
    ends := fun e he hkind hid time r hr => horderly.not_pending hmakes he hkind hid hr
    closes := fun q i he time s' happ => horderly.closes hmakes he happ }

namespace Blink

theorem session_numbered : numbered.Session [start :: committed] numbered.initialState := by
  have hnew : Simulator.new 0 problem 1 none Validator.component = .ok sim :=
    Simulator.new_unused rfl
  have h := Simulator.Session.request ground (some 1) (.initial hnew)
  rwa [Simulator.eventsOf_of_events (List.mem_singleton_self _) events_ground] at h

theorem kept_numbered : ∃ s, numbered.Session [start :: committed] s ∧
    s.openConditions = [waits] ∧ Kept numbered [start :: committed] s := by
  have hopen : (replay numbered numbered.initialState (sched.events.take 2)).any
      (fun s => s.openConditions = [waits]) = true := by
    decide +kernel
  obtain ⟨s, hs, hopen⟩ := (Option.any_eq_true _ _).mp hopen
  have hsession : numbered.Session [start :: committed] s := by
    refine session_numbered.of_replays (fun x hx => ?_) (Replays.of_replay hs)
    have hmem : x.event ∈ start :: committed := by
      obtain ⟨e, he, rfl⟩ := List.mem_map.mp (List.mem_of_mem_take hx)
      exact he
    exact Simulator.mem_known.mpr (.inr (.inr (.inr ⟨_, List.mem_singleton_self _, hmem⟩)))
  exact ⟨s, hsession, of_decide_eq_true hopen, Simulator.Session.kept hsession (by decide +kernel)⟩

end Blink

end TemporalPlanning
