import TemporalPlanning.Proofs.InTurn

namespace TemporalPlanning

open Simulator (Run)

variable {sim : Simulator} {log : RunLog} {s s' : State} {e f last : Event} {a b : Activity}
  {later before es : List Event} {made : List (List Event)}

theorem State.hasEnded_congr (s : State) (h : a.id = b.id) : s.hasEnded a = s.hasEnded b := by
  rw [hasEnded, hasEnded, h]

inductive Event.Advances (e : Event) (s s' : State) : Prop
  | begins (kind : e.kind = .startAction) (other : e.activity.id ≠ 0)
      (idle : s.agenda.get? e.activity.id = none) (fresh : s.hasEnded e.activity = false)
      (runs : s'.agenda.get? e.activity.id = some ⟨e.activity, e.committed⟩)
      (goesOn : s'.hasEnded e.activity = false)
  | continues {r r' : Running} (kind : e.kind ≠ .startAction)
      (ran : s.agenda.get? e.activity.id = some r) (runs : s'.agenda.get? e.activity.id = some r')
      (activity : r'.activity = e.activity) (same : s'.hasEnded e.activity = s.hasEnded e.activity)
  | ends {r : Running} (kind : e.kind = .endAction)
      (ran : s.agenda.get? e.activity.id = some r) (idle : s'.agenda.get? e.activity.id = none)
      (ended : s'.hasEnded e.activity = true)

theorem Event.Takes.advances (h : e.Takes s s') : e.Advances s s' := by
  by_cases hstart : e.kind = .startAction
  · obtain ⟨hid, hidle, hfresh, hagenda, hended⟩ := h.start hstart
    refine .begins hstart hid hidle hfresh ?_ ?_
    · rw [hagenda, OrderedMap.get?_put, if_pos rfl]
    · rw [State.hasEnded, hended]
      exact hfresh
  · obtain ⟨r, hr, -⟩ := h.next hstart
    by_cases hend : e.kind = .endAction
    · obtain ⟨hagenda, hended⟩ := h.finish hend
      refine .ends hend hr ?_ ?_
      · rw [hagenda, OrderedMap.get?_erase, if_pos rfl]
      · simp [State.hasEnded, hended]
    · obtain ⟨i, hi⟩ := Event.interval_of_kind hstart hend
      obtain ⟨hended, hagenda⟩ := h.inner hi
      have hruns : s'.agenda.get? e.activity.id =
          some ⟨e.activity, r.pending.filter (·.id ≠ e.id)⟩ := by
        rw [hagenda r hr, OrderedMap.get?_put, if_pos rfl]
      refine .continues hstart hr hruns rfl ?_
      rw [State.hasEnded, hended, State.hasEnded]

theorem Event.Takes.hasEnded_mono (h : e.Takes s s') (ha : s.hasEnded a = true) :
    s'.hasEnded a = true := by
  by_cases hid : e.activity.id = a.id
  · rw [← s'.hasEnded_congr hid]
    rw [← s.hasEnded_congr hid] at ha
    cases h.advances with
    | begins _ _ _ hfresh => simp [hfresh] at ha
    | continues _ _ _ _ hsame => exact hsame.trans ha
    | ends _ _ _ hended => exact hended
  · exact (h.other hid).2.trans ha

structure Accounted (s : State) : Prop where
  touched : ∀ f ∈ s.events, f.activity.id ≠ 0 →
    s.hasEnded f.activity = true ∨ s.agenda.get? f.activity.id ≠ none
  idle : ∀ a : Activity, s.hasEnded a = true → s.agenda.get? a.id = none
  begun : ∀ (a : Activity) (r : Running), a.id ≠ 0 → s.agenda.get? a.id = some r →
    r.activity.id = a.id ∧ ∃ f ∈ s.events, f.kind = .startAction ∧ f.activity.id = a.id

namespace Accounted

theorem touched_step (h : Accounted s) (ht : e.Takes s s') (hf : f ∈ s'.events)
    (hid : f.activity.id ≠ 0) :
    s'.hasEnded f.activity = true ∨ s'.agenda.get? f.activity.id ≠ none := by
  by_cases hown : e.activity.id = f.activity.id
  · rw [← hown, ← s'.hasEnded_congr hown]
    cases ht.advances with
    | begins _ _ _ _ hruns => exact .inr (by simp [hruns])
    | continues _ _ hruns => exact .inr (by simp [hruns])
    | ends _ _ _ hended => exact .inl hended
  · obtain ⟨hagenda, hended⟩ := ht.other hown
    rw [hagenda, hended]
    rw [ht.events] at hf
    refine h.touched f ((List.mem_cons.mp hf).resolve_left ?_) hid
    rintro rfl
    exact hown rfl

theorem step (h : Accounted s) (ht : e.Takes s s') : Accounted s' where
  touched _ hf hid := h.touched_step ht hf hid
  idle a ha := by
    by_cases hown : e.activity.id = a.id
    · rw [← s'.hasEnded_congr hown] at ha
      rw [← hown]
      cases ht.advances with
      | begins _ _ _ _ _ hgoes => simp [hgoes] at ha
      | continues _ hran _ _ hsame => simp [h.idle _ (hsame.symm.trans ha)] at hran
      | ends _ _ hidle => exact hidle
    · obtain ⟨hagenda, hended⟩ := ht.other hown
      exact hagenda.trans (h.idle a (hended.symm.trans ha))
  begun a r hid hr := by
    have hold : (∃ f ∈ s.events, f.kind = .startAction ∧ f.activity.id = a.id) →
        ∃ f ∈ s'.events, f.kind = .startAction ∧ f.activity.id = a.id := by
      rintro ⟨f, hf, hstart⟩
      exact ⟨f, ht.events ▸ List.mem_cons_of_mem _ hf, hstart⟩
    by_cases hown : e.activity.id = a.id
    · rw [← hown] at hr
      cases ht.advances with
      | begins hkind _ _ _ hruns =>
          obtain rfl := Option.some.inj (hruns.symm.trans hr)
          exact ⟨hown, e, ht.events ▸ List.mem_cons_self, hkind, hown⟩
      | continues _ hran hruns hactivity =>
          obtain rfl := Option.some.inj (hruns.symm.trans hr)
          rw [hown] at hran
          exact ⟨(congrArg Activity.id hactivity).trans hown, hold (h.begun a _ hid hran).2⟩
      | ends _ _ hidle => simp [hidle] at hr
    · rw [(ht.other hown).1] at hr
      obtain ⟨hactivity, hbegun⟩ := h.begun a r hid hr
      exact ⟨hactivity, hold hbegun⟩

end Accounted

theorem Simulator.Run.accounted (h : Run sim log s) : Accounted s := by
  induction h with
  | initial h =>
      refine ⟨fun f hf hid => absurd ?_ hid, fun a ha => ?_, fun a r hid hr => ?_⟩
      · rw [Simulator.events_initialState] at hf
        rw [List.mem_singleton.mp hf, (Simulator.planParts_new h).start.2]
        rfl
      · exact absurd ha Bool.false_ne_true
      · simp [Simulator.initialState, hid] at hr
  | request _ _ _ ih => exact ih
  | timed _ ih => exact ih
  | apply _ happ ih => exact ih.step (.of_tryApply happ)

structure Event.BegunAfter (e : Event) (later before : List Event) : Prop where
  untouched : ∀ g ∈ before, g.activity.id ≠ e.activity.id
  begun : ∃ f ∈ later, f.kind = .startAction ∧ f.activity.id = e.activity.id

theorem Event.BegunAfter.cons (h : f.BegunAfter later before) : f.BegunAfter (e :: later) before :=
  ⟨h.untouched, h.begun.imp fun _ hg => ⟨List.mem_cons_of_mem _ hg.1, hg.2⟩⟩

structure State.Over (s : State) (later : List Event) (last : Event) (before : List Event) :
    Prop where
  events : s.events = later ++ last :: before
  kind : last.kind = .endAction
  plan : last.activity.id = 0
  settled : ∀ f ∈ last :: before, s.hasEnded f.activity = true
  begun : ∀ f ∈ later, f.BegunAfter later (last :: before)

namespace State.Over

variable (h : s.Over later last before) (hs : Accounted s) (ht : e.Takes s s')
include h hs ht

theorem begunAfter : e.BegunAfter (e :: later) (last :: before) := by
  have huntouched : ∀ g ∈ last :: before, g.activity.id ≠ e.activity.id := by
    intro g hg hid
    have hended := h.settled g hg
    rw [s.hasEnded_congr hid] at hended
    have hidle := hs.idle _ hended
    cases ht.advances with
    | begins _ _ _ hfresh => simp [hfresh] at hended
    | continues _ hran => simp [hidle] at hran
    | ends _ hran => simp [hidle] at hran
  have hrunning {r : Running} (hr : s.agenda.get? e.activity.id = some r) :
      ∃ f ∈ e :: later, f.kind = .startAction ∧ f.activity.id = e.activity.id := by
    have hid : e.activity.id ≠ 0 := h.plan ▸ (huntouched last List.mem_cons_self).symm
    obtain ⟨-, f, hf, hkind, hfid⟩ := hs.begun e.activity r hid hr
    rw [h.events] at hf
    refine ⟨f, List.mem_cons_of_mem _ ((List.mem_append.mp hf).resolve_right fun hf => ?_), hkind,
      hfid⟩
    exact huntouched f hf hfid
  refine ⟨huntouched, ?_⟩
  cases ht.advances with
  | begins hkind => exact ⟨e, List.mem_cons_self, hkind, rfl⟩
  | continues _ hran => exact hrunning hran
  | ends _ hran => exact hrunning hran

theorem step : s'.Over (e :: later) last before where
  events := by rw [ht.events, h.events, List.cons_append]
  kind := h.kind
  plan := h.plan
  settled f hf := ht.hasEnded_mono (h.settled f hf)
  begun f hf := by
    rcases List.mem_cons.mp hf with rfl | hf
    · exact h.begunAfter hs ht
    · exact (h.begun f hf).cons

end State.Over

theorem Event.Takes.nothing_runs (ht : e.Takes s s') (hs : Accounted s)
    (hkind : e.kind = .endAction) (hid : e.activity.id = 0) (ha : a.id ≠ 0) :
    s.agenda.get? a.id = none := by
  obtain ⟨r, -, horder, -⟩ := ht.next (by simp [hkind])
  refine Option.eq_none_iff_forall_ne_some.mpr fun r' hr' => ?_
  have hactivity := (hs.begun a r' ha hr').1
  have hvalue : r' ∈ s.agenda.values :=
    List.mem_map_of_mem (f := Prod.snd) (OrderedMap.mem_entries_iff.mpr hr')
  cases e with
  | endAction q c =>
      obtain ⟨_, -, horder⟩ := Attempt.gives_bind.mp (horder hid)
      obtain ⟨_, hidle, -⟩ := Attempt.gives_bind.mp horder
      have hnone := List.isEmpty_iff.mp (Attempt.gives_require.mp hidle)
      have hmem := List.filter_eq_nil_iff.mp hnone r'.activity (List.mem_map_of_mem hvalue)
      simp [hactivity, ha] at hmem
  | startAction => simp [Event.kind] at hkind
  | startCondition => simp [Event.kind] at hkind
  | endCondition => simp [Event.kind] at hkind

theorem Event.Takes.over (ht : e.Takes s s') (hs : Accounted s) (hkind : e.kind = .endAction)
    (hid : e.activity.id = 0) : s'.Over [] e s.events where
  events := ht.events
  kind := hkind
  plan := hid
  settled f hf := by
    have hended : s'.hasEnded e.activity = true := by simp [State.hasEnded, (ht.finish hkind).2]
    by_cases hplan : f.activity.id = 0
    · rwa [s'.hasEnded_congr (hplan.trans hid.symm)]
    · have hf : f ∈ s.events := (List.mem_cons.mp hf).resolve_left fun hfe => hplan (hfe ▸ hid)
      refine ht.hasEnded_mono ((hs.touched f hf hplan).resolve_right fun hruns => ?_)
      exact hruns (ht.nothing_runs hs hkind hid hplan)
  begun f hf := absurd hf List.not_mem_nil

theorem Simulator.Run.exists_over (h : Run sim log s)
    (hended : s.hasEnded (.plan sim.origin) = true) :
    ∃ later last before, s.Over later last before := by
  induction h with
  | initial => exact absurd hended Bool.false_ne_true
  | request g d _ ih => exact ih ((Simulator.SameRules.eventsOf _ g d).origin ▸ hended)
  | timed _ ih => exact ih ((Simulator.SameRules.timedActivities _).origin ▸ hended)
  | @apply sim log s e time s' h happ ih =>
      have ht := Event.Takes.of_tryApply happ
      cases hbefore : s.hasEnded (.plan sim.origin) with
      | true =>
          obtain ⟨later, last, before, hover⟩ := ih hbefore
          exact ⟨_, _, _, hover.step h.accounted ht⟩
      | false =>
          have hend : ¬ (e.activity.id = 0 → e.kind ≠ .endAction) := fun hrunning => by
            simp [ht.hasEnded_plan hrunning, hbefore] at hended
          obtain ⟨hid, hkind⟩ := Classical.not_imp.mp hend
          exact ⟨_, _, _, ht.over h.accounted (Decidable.not_not.mp hkind) hid⟩

theorem Simulator.Run.after_end (h : Run sim log s)
    (hended : s.hasEnded (.plan sim.origin) = true) :
    ∃ later last before, s.events = later ++ last :: before ∧
      last.kind = .endAction ∧ last.activity.id = 0 ∧
      (∀ f ∈ later, f.BegunAfter later (last :: before)) ∧
      ∀ e time s', (sim.tryApply e s time).outcome.1 = .ok (.ok s') →
        e.BegunAfter (e :: later) (last :: before) ∧
        (e.kind = .startAction → ∀ f ∈ s.events, f.activity.id ≠ e.activity.id) := by
  obtain ⟨later, last, before, hover⟩ := h.exists_over hended
  refine ⟨later, last, before, hover.events, hover.kind, hover.plan, hover.begun,
    fun e time s' happ => ?_⟩
  have ht := Event.Takes.of_tryApply happ
  refine ⟨hover.begunAfter h.accounted ht, fun hkind f hf hfid => ?_⟩
  obtain ⟨hid, hidle, hfresh, -⟩ := ht.start hkind
  rcases h.accounted.touched f hf (hfid ▸ hid) with hdone | hruns
  · rw [s.hasEnded_congr hfid, hfresh] at hdone
    simp at hdone
  · exact hruns (hfid ▸ hidle)

namespace Simulator

theorem mem_known_of_made (hes : es ∈ made) (hf : f ∈ es) : f ∈ sim.known made :=
  mem_known.mpr (.inr (.inr (.inr ⟨es, hes, hf⟩)))

section Lamp

def switchEvents : List Event := (lampSimulator.eventsOf switch none).2.toOption.getD []

theorem session_switch : lampStarted.Session [switchEvents] lampSimulator.initialState :=
  .request switch none (.initial (new_unused rfl))

theorem exists_ended : ∃ s, (lampStarted.tryApply lampStarted.planEnd lampSimulator.initialState
      none).outcome.1 = .ok (.ok s) ∧ s.hasEnded (.plan 0) = true ∧
    ∃ s', (lampStarted.tryApply switchStart s none).outcome.1 = .ok (.ok s') := by
  have htaken : ((lampStarted.tryApply lampStarted.planEnd lampSimulator.initialState
      none).outcome.1.toOption.bind Except.toOption).any (fun s => s.hasEnded (.plan 0) &&
      ((lampStarted.tryApply switchStart s none).outcome.1.toOption.bind Except.toOption).isSome) =
      true := by
    decide +kernel
  obtain ⟨s, hs, htaken⟩ := (Option.any_eq_true _ _).mp htaken
  obtain ⟨hended, hstart⟩ := (Bool.and_eq_true _ _).mp htaken
  obtain ⟨s', hs'⟩ := Option.isSome_iff_exists.mp hstart
  exact ⟨s, except_ok_of_toOption hs, hended, s', except_ok_of_toOption hs'⟩

def lampTwice : Simulator := (lampStarted.eventsOf switch none).1

def switchAgain : List Event := (lampStarted.eventsOf switch none).2.toOption.getD []

def relit : List Scheduled :=
  switchEvents.map (⟨·, 0, .step 0⟩) ++
    (lampTwice.planEnd :: switchAgain.take 1).map (⟨·, 1, .step 1⟩)

theorem replays_relit : ∃ s, Replays lampTwice lampTwice.initialState relit s ∧
    s.hasEnded (.plan lampTwice.origin) = true := by
  have hended : (replay lampTwice lampTwice.initialState relit).any
      (·.hasEnded (.plan lampTwice.origin)) = true := by
    decide +kernel
  obtain ⟨s, hs, hended⟩ := (Option.any_eq_true _ _).mp hended
  exact ⟨s, .of_replay hs, hended⟩

theorem ended_once : ∃ log s, Run lampTwice log s ∧
    s.hasEnded (.plan lampTwice.origin) = true ∧
    s.events.map Event.label =
      ["switch#2.start", "plan.end", "switch#1.end", "switch#1.start", "plan.start"] ∧
    ∀ e time s', (lampTwice.tryApply e s time).outcome.1 = .ok (.ok s') →
      e.activity.id ∉ [0, 1] ∧ (e.kind = .startAction → e.activity.id ≠ 2) := by
  obtain ⟨s, hreplays, hended⟩ := replays_relit
  obtain ⟨done, hrun, -⟩ := hreplays.logged
    (.request switch none (.request switch none (.initial (new_unused rfl))))
  have hevents : s.events = switchAgain.take 1 ++
      lampTwice.planEnd :: (switchEvents.reverse ++ [lampTwice.planStart]) :=
    List.reverse_injective (hreplays.events_eq.trans (by with_unfolding_all rfl))
  refine ⟨_, s, hrun, hended, by rw [hevents]; decide +kernel, fun e time s' happ => ?_⟩
  obtain ⟨later, last, before, hsplit, hkind, hplan, -, hnext⟩ := Run.after_end hrun hended
  obtain ⟨hbegun, hfresh⟩ := hnext e time s' happ
  -- the end of the plan is the only event of its kind and activity
  have hother : ∀ f ∈ switchAgain.take 1 ++ (switchEvents.reverse ++ [lampTwice.planStart]),
      ¬ (f.kind = .endAction ∧ f.activity.id = 0) := by
    decide +kernel
  obtain ⟨rfl, rfl, rfl⟩ := (List.append_cons_inj_of_notMem
    (fun hlast => hother _ (List.mem_append_left _ hlast) ⟨hkind, hplan⟩)
    fun hlast => hother _ (List.mem_append_right _ hlast) ⟨hkind, hplan⟩).mp
      (hevents.symm.trans hsplit)
  have hids : ∀ id ∈ [0, 1], ∃ f ∈ lampTwice.planEnd :: (switchEvents.reverse ++
      [lampTwice.planStart]), f.activity.id = id := by
    decide +kernel
  refine ⟨fun hid => ?_, fun hstart hid => ?_⟩
  · obtain ⟨f, hf, hfid⟩ := hids _ hid
    exact hbegun.untouched f hf hfid
  · have hagain : ∀ f ∈ switchAgain.take 1, f.activity.id = 2 := by decide +kernel
    refine hfresh hstart (switchAgain.headD lampTwice.planEnd) ?_ ?_
    · rw [hevents]
      exact List.mem_cons_self
    · exact (hagain _ List.mem_cons_self).trans hid.symm

theorem started_after_end : ∃ s s', lampStarted.Session [switchEvents] s ∧
    (lampStarted.tryApply lampStarted.planEnd lampSimulator.initialState none).outcome.1 =
      .ok (.ok s) ∧
    s.hasEnded (.plan lampStarted.origin) = true ∧
    switchStart ∈ lampStarted.known [switchEvents] ∧
    (lampStarted.tryApply switchStart s none).outcome.1 = .ok (.ok s') := by
  obtain ⟨s, hs, hended, s', hs'⟩ := exists_ended
  have hknown : lampStarted.planEnd ∈ lampStarted.known [switchEvents] :=
    mem_known.mpr (.inr (.inl rfl))
  exact ⟨s, s', session_switch.apply hknown hs, hs, hended,
    mem_known_of_made (List.mem_singleton_self _) List.mem_cons_self, hs'⟩

end Lamp

section Starts

variable {d : Rat} {t : EventRef → Rat}

theorem Session.exists_run (h : sim.Session made s) : ∃ log, Run sim log s := by
  induction h with
  | initial h => exact ⟨[], .initial h⟩
  | request g d _ ih => exact ih.imp fun _ h => .request g d h
  | timed _ ih => exact ih.imp fun _ h => .timed h
  | @apply _ _ _ _ time s' _ _ happ ih =>
      obtain ⟨log, h⟩ := ih
      exact ⟨(s'.last, time) :: log, h.apply happ⟩

def startingAt (t : EventRef → Rat) (es : List Event) (T : Rat) (r : EventRef) : Rat :=
  match es.find? (·.ref = r) with
  | some f => T + f.offset
  | none => t r

namespace Makes

variable (h : Makes sim made)
include h

theorem startingAt_own {T : Rat} (hes : es ∈ made) (hf : f ∈ es) :
    startingAt t es T f.ref = T + f.offset := by
  unfold startingAt
  split
  · rename_i g hg
    have hid : g.id = f.id := congrArg EventRef.id (by simpa using List.find?_some hg)
    rw [h.numbered.eq_of_id (mem_known_of_made hes (List.mem_of_find?_eq_some hg))
      (mem_known_of_made hes hf) hid]
  · rename_i hnone
    simpa using List.find?_eq_none.mp hnone f hf

theorem startingAt_other {T : Rat} (hes : es ∈ made) (hf : f ∈ sim.known made) (hother : f ∉ es) :
    startingAt t es T f.ref = t f.ref := by
  unfold startingAt
  split
  · rename_i g hg
    have hmem := List.mem_of_find?_eq_some hg
    have hid : g.id = f.id := congrArg EventRef.id (by simpa using List.find?_some hg)
    exact absurd (h.numbered.eq_of_id (mem_known_of_made hes hmem) hf hid ▸ hmem) hother
  · rfl

theorem committed_made (hf : f ∈ sim.known made) (hne : f ≠ sim.planStart) {c : Event}
    (hc : c ∈ f.committed) : ∃ fs ∈ made, f ∈ fs ∧ c ∈ fs := by
  have hkind : f.kind = .startAction := by
    cases f with
    | startAction => rfl
    | startCondition => simp [Event.committed] at hc
    | endCondition => simp [Event.committed] at hc
    | endAction => simp [Event.committed] at hc
  rcases mem_known.mp hf with rfl | rfl | hgoal | ⟨fs, hfs, hf⟩
  · exact absurd rfl hne
  · simp [h.plan.finish.1] at hkind
  · obtain ⟨-, i, hi, -⟩ := h.plan.goals f hgoal
    simp [interval_none (.inl hkind)] at hi
  · obtain ⟨a, d, hunfolds, -⟩ := h.unfolds fs hfs
    obtain ⟨front, back, hsplit⟩ := List.append_of_mem hf
    obtain rfl := (hunfolds.start_first hsplit).mp hkind
    obtain rfl : fs = f :: back := hsplit
    rw [hunfolds.committed_eq] at hc
    exact ⟨_, hfs, List.mem_cons_self, List.mem_cons_of_mem _ hc⟩

end Makes

theorem Allows.of_agrees {t' : EventRef → Rat} (ht : sim.Allows log t)
    (hend : t' sim.planEnd.ref = t sim.planEnd.ref)
    (hgoals : ∀ f ∈ sim.goalEvents, t' f.ref = t f.ref)
    (happlied : ∀ x ∈ sim.applied log, t' x.event.ref = t x.event.ref)
    (hcommitted : ∀ x ∈ log, ∀ c ∈ x.1.event.committed, t' c.ref = t c.ref) :
    sim.Allows log t' := by
  have hstart : t' sim.planStart.ref = t sim.planStart.ref :=
    happlied ⟨sim.planStart, [], []⟩ (by simp [applied])
  have hlog (x) (hx : x ∈ log) : t' x.1.event.ref = t x.1.event.ref :=
    happlied x.1 (List.mem_append_left _ (List.mem_map_of_mem hx))
  refine ⟨?_, fun e he => ?_, fun p q i hp hq => ?_, fun x hx c hc => ?_, ?_, ?_,
    fun x hx q hq => ?_⟩
  · rw [hstart, hend]
    exact ht.ends
  · rw [hstart, hend, hgoals e he]
    exact ht.goals e he
  · rw [hgoals _ hp, hgoals _ hq]
    exact ht.goalOrder p q i hp hq
  · rw [hlog x hx, hcommitted x hx c hc]
    exact ht.committed x hx c hc
  · exact ht.order.imp_of_mem fun hx hy hle => by rwa [happlied _ hx, happlied _ hy]
  · exact ht.separated.imp_of_mem fun hx hy hle => by rwa [happlied _ hx, happlied _ hy]
  · rw [hstart, hlog x hx]
    exact ht.pinned x hx q hq

theorem Run.ne_planStart (h : Run sim log s) (honce : (s.events.map Event.id).Nodup)
    {x : Applied × Option Rat} (hx : x ∈ log) : x.1.event ≠ sim.planStart := by
  intro heq
  have hevents : s.events = (log.map fun x => x.1.event) ++ [sim.planStart] := by
    rw [State.events, h.history_eq, applied, List.map_append, List.map_map]
    rfl
  rw [hevents, List.map_append, List.nodup_append] at honce
  exact honce.2.2 _ (List.mem_map_of_mem (List.mem_map_of_mem hx)) _ List.mem_cons_self
    (congrArg Event.id heq)

theorem Session.allows_startingAt (h : sim.Session made s) (hε : 0 ≤ sim.epsilon)
    (hrun : Run sim log s) (ht : sim.Allows log t) (hes : es ∈ made) (hunfolds : Unfolds a d es)
    (hnew : ∀ f ∈ s.events, f.activity.id ≠ a.id) (T : Rat) :
    sim.Allows log (startingAt t es T) ∧ ∀ f ∈ s.events, startingAt t es T f.ref = t f.ref := by
  have hmakes := h.makes hε
  have horderly := h.orderly hε
  have hkeep (f) (hf : f ∈ sim.known made) (hid : f.activity.id ≠ a.id) :
      startingAt t es T f.ref = t f.ref :=
    hmakes.startingAt_other hes hf fun hf =>
      hid (congrArg Activity.id (hunfolds.belongs f hf).activity)
  have hpast (f) (hf : f ∈ s.events) := hkeep f (horderly.known f hf) (hnew f hf)
  have happlied {y : Applied} (hy : y ∈ sim.applied log) : y.event ∈ s.events :=
    List.mem_map_of_mem (hrun.history_eq ▸ hy)
  have hplan (f) (hf : f ∈ sim.known made) (hactivity : f.activity = .plan sim.origin) :=
    hkeep f hf (hactivity ▸ (hmakes.id_ne hes hunfolds).symm)
  refine ⟨ht.of_agrees (hplan _ (mem_known.mpr (.inr (.inl rfl))) hmakes.plan.finish.2)
    (fun f hf => hplan f (mem_known.mpr (.inr (.inr (.inl hf)))) (hmakes.plan.goals f hf).1)
    (fun y hy => hpast _ (happlied hy)) fun y hy c hc => ?_, hpast⟩
  -- what an applied event commits to is of its own activity
  have hevent := happlied (List.mem_append_left _ (List.mem_map_of_mem hy))
  obtain ⟨fs, hfs, hyfs, hcfs⟩ := hmakes.committed_made (horderly.known _ hevent)
    (hrun.ne_planStart horderly.once hy) hc
  obtain ⟨b, d', hunfolds', -⟩ := hmakes.unfolds fs hfs
  refine hkeep c (mem_known_of_made hfs hcfs) ?_
  rw [(hunfolds'.belongs c hcfs).activity, ← (hunfolds'.belongs _ hyfs).activity]
  exact hnew _ hevent

theorem Session.start_taken {v : Valuation} {x : Applied} (h : sim.Session made s)
    (hε : 0 ≤ sim.epsilon) (hcheck : s.network.check = true) (he : e ∈ sim.known made)
    (hkind : e.kind = .startAction) (hnew : ∀ f ∈ s.events, f.activity.id ≠ e.activity.id)
    (hx : (sim.examine e s).Gives (v, x)) :
    (sim.tryApply e s none).outcome.1 = .ok (.ok (sim.stateAfter s v x none)) := by
  have hmakes := h.makes hε
  obtain ⟨log, hrun⟩ := h.exists_run
  have hhistory := hrun.history_eq
  obtain ⟨t, ht⟩ := hrun.represents.check_iff.mp hcheck
  have hstart : sim.planStart ∈ s.events := by
    rw [State.events, hhistory]
    simp [applied]
  obtain ⟨es, hes, hmem⟩ := (hmakes.plan_or_made he).resolve_left fun hplan =>
    hnew _ hstart (by rw [hplan, hmakes.plan.start.2])
  obtain ⟨a, d, hunfolds, -⟩ := hmakes.unfolds es hes
  have hactivity : e.activity = a := (hunfolds.belongs e hmem).activity
  obtain ⟨front, back, rfl⟩ := List.append_of_mem hmem
  obtain rfl := (hunfolds.start_first rfl).mp hkind
  rw [List.nil_append] at hes hunfolds
  -- all that was applied comes no later than the last event, from which `T` keeps its distance
  obtain ⟨T, hT⟩ : ∃ T, T = t s.last.event.ref + sim.epsilon := ⟨_, rfl⟩
  have horder (y) (hy : y ∈ s.history) : t y.event.ref + sim.epsilon ≤ T := by
    have hpairs := hhistory ▸ ht.order
    rw [hT, add_le_add_iff_right]
    rcases List.mem_cons.mp hy with rfl | hy
    · exact le_rfl
    · exact List.rel_of_pairwise_cons hpairs hy
  obtain ⟨hallows, hpast⟩ := h.allows_startingAt hε hrun ht hes hunfolds (hactivity ▸ hnew) T
  have hown : startingAt t (e :: back) T e.ref = T := by
    obtain ⟨p, b, inner, q, b', hwhole, hoffset, -⟩ := hunfolds.whole
    have hzero : e.offset = 0 := by rwa [(List.cons.inj hwhole).1]
    rw [hmakes.startingAt_own hes List.mem_cons_self, hzero, add_zero]
  have hevent := event_of_examine hx
  refine (tryApply_of_examine hx (represents_networkAfter hhistory hrun.represents x none)).1
    ⟨startingAt t (e :: back) T, (allows_cons hhistory x none _).mpr
      ⟨hallows, ?_, ?_, ?_, by simp⟩⟩
  · rw [hevent, hunfolds.committed_eq, hown]
    intro c hc
    rw [hmakes.startingAt_own hes (List.mem_cons_of_mem _ hc), add_sub_cancel_left]
  · rw [hevent, hown, hpast _ List.mem_cons_self, hT]
    exact le_add_of_nonneg_right hε
  · intro y hy δ hδ
    rw [hevent, hown, hpast _ (List.mem_map_of_mem hy)]
    have hle : δ ≤ sim.epsilon := by
      rcases separation_some hδ with rfl | ⟨rfl, -⟩
      · exact hε
      · exact le_rfl
    exact le_sub_iff_add_le'.mpr ((add_le_add_right hle _).trans (horder y hy))

theorem Run.check_of_ended (h : Run sim log s) (hended : s.hasEnded (.plan sim.origin) = true) :
    s.network.check = true := by
  induction h with
  | initial => exact absurd hended Bool.false_ne_true
  | request g d _ ih => exact ih ((SameRules.eventsOf _ g d).origin ▸ hended)
  | timed _ ih => exact ih ((SameRules.timedActivities _).origin ▸ hended)
  | apply _ happ _ =>
      obtain ⟨v, x, -, hcheck, rfl⟩ :=
        transition_gives.mp (tryApply_gives (Logged.gives_of_outcome happ))
      exact hcheck

theorem Session.starts_after_end (h : sim.Session made s) (hε : 0 ≤ sim.epsilon)
    (hended : s.hasEnded (.plan sim.origin) = true) (he : e ∈ sim.known made)
    (hkind : e.kind = .startAction) (hnew : ∀ f ∈ s.events, f.activity.id ≠ e.activity.id) :
    (∃ s', (sim.tryApply e s none).outcome.1 = .ok (.ok s')) ↔
      ∃ v x, (sim.examine e s).Gives (v, x) := by
  obtain ⟨log, hrun⟩ := h.exists_run
  constructor
  · rintro ⟨s', happ⟩
    obtain ⟨v, x, hx, -⟩ :=
      transition_gives.mp (tryApply_gives (Logged.gives_of_outcome happ))
    exact ⟨v, x, hx⟩
  · rintro ⟨v, x, hx⟩
    exact ⟨_, h.start_taken hε (hrun.check_of_ended hended) he hkind hnew hx⟩

end Starts

end Simulator

end TemporalPlanning
