import TemporalPlanning.Proofs.KnownEvents
import TemporalPlanning.Proofs.Replays

namespace TemporalPlanning

open Simulator (SameRules)

def State.events (s : State) : List Event := s.history.map (·.event)

structure Event.Takes (e : Event) (s s' : State) : Prop where
  lifecycle : (Simulator.checkLifecycle e s).Gives ()
  events : s'.events = e :: s.events
  openConditions : s'.openConditions = Simulator.openAfter e s.openConditions
  agenda : s'.agenda = Simulator.agendaAfter e s.agenda
  ended : s'.ended = Simulator.endedAfter e s.ended

variable {sim sim' : Simulator} {made : List (List Event)} {s s' : State} {e f : Event}
  {es : List Event} {a : Activity} {d : Rat} {time : Option Rat}

theorem Simulator.running_of_checkNext (h : (checkNext e s).Gives ()) : ∃ r,
    s.agenda.get? e.activity.id = some r ∧
    (e.activity.id = 0 → (checkPlanOrder e r.pending s).Gives ()) ∧
    (e.activity.id ≠ 0 → r.pending.head?.map Event.id = some e.id) := by
  unfold checkNext at h
  dsimp only at h
  cases hr : s.agenda.get? e.activity.id with
  | none => simp [State.pending?, hr] at h
  | some r =>
      simp only [State.pending?, hr, Option.map_some] at h
      refine ⟨r, rfl, fun hid => ?_, fun hid => ?_⟩
      · rwa [if_pos hid] at h
      · rw [if_neg hid, Attempt.gives_require] at h
        exact of_decide_eq_true h

namespace Event.Takes

theorem of_tryApply (h : (sim.tryApply e s time).outcome.1 = .ok (.ok s')) : e.Takes s s' := by
  obtain ⟨v, a, hx, -, rfl⟩ :=
    Simulator.transition_gives.mp (Simulator.tryApply_gives (Logged.gives_of_outcome h))
  obtain ⟨-, _, _, _, _, hlifecycle, -, -, -, -, -, -, -, rfl⟩ := Simulator.examine_gives.mp hx
  exact ⟨hlifecycle, rfl, rfl, rfl, rfl⟩

theorem start (h : e.Takes s s') (hkind : e.kind = .startAction) : e.activity.id ≠ 0 ∧
    s.agenda.get? e.activity.id = none ∧ s.hasEnded e.activity = false ∧
    s'.agenda = s.agenda.put e.activity.id ⟨e.activity, e.committed⟩ ∧ s'.ended = s.ended := by
  cases e with
  | startAction p b d es =>
      have hlifecycle := h.lifecycle
      simp only [Simulator.checkLifecycle, Simulator.checkStart, Attempt.gives_bind,
        Attempt.gives_require, Bool.and_eq_true, decide_eq_true_eq] at hlifecycle
      obtain ⟨-, ⟨hid, hidle⟩, hfresh⟩ := hlifecycle
      split at hfresh
      · simp at hfresh
      · rename_i hended
        refine ⟨hid, ?_, by simpa using hended, h.agenda, h.ended⟩
        simpa [State.pending?] using hidle
  | startCondition => simp [Event.kind] at hkind
  | endCondition => simp [Event.kind] at hkind
  | endAction => simp [Event.kind] at hkind

theorem next (h : e.Takes s s') (hkind : e.kind ≠ .startAction) : ∃ r,
    s.agenda.get? e.activity.id = some r ∧
    (e.activity.id = 0 → (Simulator.checkPlanOrder e r.pending s).Gives ()) ∧
    (e.activity.id ≠ 0 → r.pending.head?.map Event.id = some e.id) := by
  have hlifecycle := h.lifecycle
  refine Simulator.running_of_checkNext ?_
  cases e with
  | startAction => simp [Event.kind] at hkind
  | startCondition => exact (Attempt.gives_bind.mp hlifecycle).choose_spec.1
  | endCondition => exact (Attempt.gives_bind.mp hlifecycle).choose_spec.1
  | endAction => exact (Attempt.gives_bind.mp hlifecycle).choose_spec.1

theorem finish (h : e.Takes s s') (hkind : e.kind = .endAction) :
    s'.agenda = s.agenda.erase e.activity.id ∧ s'.ended = s.ended ++ [e.activity] := by
  cases e with
  | endAction => exact ⟨h.agenda, h.ended⟩
  | startAction => simp [Event.kind] at hkind
  | startCondition => simp [Event.kind] at hkind
  | endCondition => simp [Event.kind] at hkind

theorem inner (h : e.Takes s s') {i : IntervalCondition} (hi : e.interval? = some i) :
    s'.ended = s.ended ∧ ∀ r, s.agenda.get? e.activity.id = some r →
      s'.agenda = s.agenda.put e.activity.id ⟨e.activity, r.pending.filter (·.id ≠ e.id)⟩ := by
  cases e with
  | startCondition p j =>
      refine ⟨h.ended, fun r hr => h.agenda.trans ?_⟩
      change s.agenda.put _ ⟨_, (((s.agenda.get? _).map Running.pending).getD []).filter _⟩ = _
      rw [hr]
      rfl
  | endCondition q j =>
      refine ⟨h.ended, fun r hr => h.agenda.trans ?_⟩
      change s.agenda.put _ ⟨_, (((s.agenda.get? _).map Running.pending).getD []).filter _⟩ = _
      rw [hr]
      rfl
  | startAction => simp [Event.interval?] at hi
  | endAction => simp [Event.interval?] at hi

theorem other (h : e.Takes s s') {b : Activity} (hne : e.activity.id ≠ b.id) :
    s'.agenda.get? b.id = s.agenda.get? b.id ∧ s'.hasEnded b = s.hasEnded b := by
  rw [h.agenda, State.hasEnded, h.ended, State.hasEnded]
  cases e with
  | startAction p c d es => exact ⟨by simp [Simulator.agendaAfter, hne.symm], rfl⟩
  | startCondition p i => exact ⟨by simp [Simulator.agendaAfter, hne.symm], rfl⟩
  | endCondition q i => exact ⟨by simp [Simulator.agendaAfter, hne.symm], rfl⟩
  | endAction q c =>
      exact ⟨by simp [Simulator.agendaAfter, hne.symm], by simp [Simulator.endedAfter, hne]⟩

end Event.Takes

theorem filter_rest {rest : List Event} (h : ((e :: rest).map Event.id).Nodup) :
    (e :: rest).filter (·.id ≠ e.id) = rest := by
  have hne : ∀ f ∈ rest, f.id ≠ e.id := fun f hf hid =>
    (List.nodup_cons.mp h).1 (hid ▸ List.mem_map_of_mem (f := Event.id) hf)
  rw [List.filter_cons_of_neg (by simp), List.filter_eq_self]
  exact fun f hf => decide_eq_true (hne f hf)

inductive Stage (a : Activity) (s : State) : List Event → List Event → Prop
  | waiting {es : List Event} (idle : s.agenda.get? a.id = none) (fresh : s.hasEnded a = false) :
      Stage a s [] es
  | running {done pending : List Event} (agenda : s.agenda.get? a.id = some ⟨a, pending⟩)
      (fresh : s.hasEnded a = false) (begun : done ≠ []) (left : pending ≠ []) :
      Stage a s done pending
  | finished {es : List Event} (idle : s.agenda.get? a.id = none) (ended : s.hasEnded a = true)
      (begun : es ≠ []) : Stage a s es []

namespace Stage

variable {done pending : List Event}

theorem frame (h : Stage a s done pending) (ht : e.Takes s s') (hne : e.activity.id ≠ a.id) :
    Stage a s' done pending := by
  obtain ⟨hagenda, hended⟩ := ht.other hne
  cases h with
  | waiting hidle hfresh => exact .waiting (hagenda.trans hidle) (hended.trans hfresh)
  | running hrunning hfresh hbegun hleft =>
      exact .running (hagenda.trans hrunning) (hended.trans hfresh) hbegun hleft
  | finished hidle hdone hbegun => exact .finished (hagenda.trans hidle) (hended.trans hdone) hbegun

theorem start (h : Stage a s done pending) (hes : Unfolds a d (done ++ pending))
    (he : e ∈ done ++ pending) (ht : e.Takes s s') (hkind : e.kind = .startAction) :
    ∃ rest, pending = e :: rest ∧ Stage a s' (done ++ [e]) rest := by
  have hactivity : e.activity = a := (hes.belongs e he).activity
  obtain ⟨-, hidle, hfresh, hagenda, hended⟩ := ht.start hkind
  rw [hactivity] at hidle hfresh hagenda
  obtain ⟨front, back, hsplit⟩ := List.append_of_mem he
  obtain rfl := (hes.start_first hsplit).mp hkind
  cases h with
  | waiting =>
      obtain rfl : pending = e :: back := hsplit
      have hback : back ≠ [] := by
        obtain ⟨_, _, hcons, hne⟩ := hes.exists_cons
        exact (List.cons.inj hcons).2 ▸ hne
      refine ⟨back, rfl, .running ?_ ?_ (by simp) hback⟩
      · rw [hagenda, OrderedMap.get?_put, if_pos rfl, hes.committed_eq]
      · rw [State.hasEnded, hended]
        exact hfresh
  | running hrunning => simp [hidle] at hrunning
  | finished _ hended => simp [hfresh] at hended

theorem advance {f : Event} {rest : List Event} (hes : Unfolds a d (done ++ f :: rest))
    (ht : f.Takes s s') (hkind : f.kind ≠ .startAction)
    (hrunning : s.agenda.get? a.id = some ⟨a, f :: rest⟩) (hfresh : s.hasEnded a = false) :
    Stage a s' (done ++ [f]) rest := by
  have hactivity : f.activity = a := (hes.belongs f (by simp)).activity
  by_cases hlast : f.kind = .endAction
  · obtain rfl := (hes.end_last rfl).mp hlast
    obtain ⟨hagenda, hended⟩ := ht.finish hlast
    refine .finished ?_ ?_ (by simp)
    · rw [hagenda, OrderedMap.get?_erase, if_pos (congrArg Activity.id hactivity.symm)]
    · simp [State.hasEnded, hended, hactivity]
  · obtain ⟨i, hi⟩ := Event.interval_of_kind hkind hlast
    obtain ⟨hended, hagenda⟩ := ht.inner hi
    have hids := hes.nodup
    rw [List.map_append, List.nodup_append] at hids
    have hrest := filter_rest hids.2.1
    refine .running ?_ ?_ (by simp) fun hnil => hlast ((hes.end_last rfl).mpr hnil)
    · rw [hagenda _ (hactivity ▸ hrunning), hactivity, OrderedMap.get?_put, if_pos rfl, hrest]
    · rw [State.hasEnded, hended]
      exact hfresh

theorem step (h : Stage a s done pending) (hes : Unfolds a d (done ++ pending)) (ha : a.id ≠ 0)
    (he : e ∈ done ++ pending) (ht : e.Takes s s') :
    ∃ rest, pending = e :: rest ∧ Stage a s' (done ++ [e]) rest := by
  by_cases hkind : e.kind = .startAction
  · exact h.start hes he ht hkind
  · obtain ⟨r, hr, -, hhead⟩ := ht.next hkind
    rw [(hes.belongs e he).activity] at hr hhead
    cases h with
    | waiting hidle => simp [hidle] at hr
    | finished hidle => simp [hidle] at hr
    | running hrunning hfresh hbegun hleft =>
        obtain rfl : ⟨a, pending⟩ = r := Option.some.inj (hrunning.symm.trans hr)
        obtain ⟨f, rest, rfl⟩ := List.exists_cons_of_ne_nil hleft
        have hid : f.id = e.id := Option.some.inj (hhead ha)
        obtain rfl : f = e := List.inj_on_of_nodup_map hes.nodup (by simp) he hid
        exact ⟨rest, rfl, advance hes ht hkind hrunning hfresh⟩

end Stage

structure Opened (s : State) : Prop where
  mem_iff : ∀ i, i ∈ s.openConditions ↔
    (∃ p, .startCondition p i ∈ s.events) ∧ ∀ q, .endCondition q i ∉ s.events
  once : (s.openConditions.map (·.id)).Nodup
  opened : ∀ q i, .endCondition q i ∈ s.events → ∃ p, .startCondition p i ∈ s.events

theorem eraseP_id {i : IntervalCondition} {is : List IntervalCondition} (hi : i ∈ is)
    (hids : (is.map (·.id)).Nodup) : is.eraseP (fun o => o.id = i.id) = is.erase i := by
  induction is with
  | nil => simp at hi
  | cons j is ih =>
      obtain ⟨hj, hids⟩ := List.nodup_cons.mp hids
      by_cases hij : j = i
      · simp [hij]
      · have hi : i ∈ is := (List.mem_cons.mp hi).resolve_left (Ne.symm hij)
        have hne : j.id ≠ i.id := fun hid => hj (List.mem_map.mpr ⟨i, hi, hid.symm⟩)
        rw [List.eraseP_cons_of_neg (by simpa using hne), List.erase_cons_tail (by simpa using hij),
          ih hi hids]

namespace Opened

variable {known : List Event} {n : Nat}

theorem mem_of_closing (h : Opened s) {p q : Placement} {i : IntervalCondition}
    (hopen : .startCondition p i ∈ s.events) (hknown : Numbered n known)
    (hs : ∀ e ∈ s.events, e ∈ known) (hq : .endCondition q i ∈ known)
    (hfresh : .endCondition q i ∉ s.events) : i ∈ s.openConditions := by
  refine (h.mem_iff i).mpr ⟨⟨p, hopen⟩, fun q' hq' => hfresh ?_⟩
  rwa [hknown.closing_unique hq (hs _ hq') rfl] at hq'

theorem keep (h : Opened s) (hevents : s'.events = e :: s.events)
    (hopen : s'.openConditions = s.openConditions) (hnone : e.interval? = none) : Opened s' := by
  have hmem (f : Event) (i : IntervalCondition) (hi : f.interval? = some i) :
      f ∈ s'.events ↔ f ∈ s.events := by
    rw [hevents, List.mem_cons]
    refine or_iff_right ?_
    rintro rfl
    simp [hnone] at hi
  have hstart (p : Placement) (i : IntervalCondition) := hmem (.startCondition p i) i rfl
  have hend (q : Placement) (i : IntervalCondition) := hmem (.endCondition q i) i rfl
  refine ⟨fun i => ?_, by rw [hopen]; exact h.once, fun q i hq => ?_⟩
  · simp only [hopen, hstart, hend, h.mem_iff]
  · simp only [hstart, hend] at hq ⊢
    exact h.opened q i hq

section Intervals

variable {p q : Placement} {i : IntervalCondition}

theorem opening (h : Opened s) (hevents : s'.events = .startCondition p i :: s.events)
    (hopen : s'.openConditions = s.openConditions ++ [i])
    (hother : ∀ p' j, .startCondition p' j ∈ s.events → j.id ≠ i.id) : Opened s' := by
  refine ⟨fun j => ?_, ?_, fun q j hq => ?_⟩
  · rw [hopen, hevents, List.mem_append, List.mem_singleton, h.mem_iff]
    constructor
    · rintro (⟨⟨p', hp'⟩, hnone⟩ | rfl)
      · exact ⟨⟨p', List.mem_cons_of_mem _ hp'⟩, fun q hq => hnone q (by simpa using hq)⟩
      · refine ⟨⟨p, List.mem_cons_self⟩, fun q hq => ?_⟩
        obtain ⟨p', hp'⟩ := h.opened q j (by simpa using hq)
        exact hother p' j hp' rfl
    · rintro ⟨⟨p', hp'⟩, hnone⟩
      rcases List.mem_cons.mp hp' with hp' | hp'
      · exact .inr (Event.startCondition.inj hp').2
      · exact .inl ⟨⟨p', hp'⟩, fun q hq => hnone q (List.mem_cons_of_mem _ hq)⟩
  · rw [hopen, List.map_append, List.nodup_append]
    refine ⟨h.once, List.nodup_singleton _, fun a ha b hb hab => ?_⟩
    obtain ⟨j, hj, rfl⟩ := List.mem_map.mp ha
    obtain ⟨p', hp'⟩ := ((h.mem_iff j).mp hj).1
    exact hother p' j hp' (hab.trans (by simpa using hb))
  · rw [hevents] at hq ⊢
    obtain ⟨p', hp'⟩ := h.opened q j (by simpa using hq)
    exact ⟨p', List.mem_cons_of_mem _ hp'⟩

theorem closing (h : Opened s) (hevents : s'.events = .endCondition q i :: s.events)
    (hopen : s'.openConditions = s.openConditions.erase i) (hi : i ∈ s.openConditions) :
    Opened s' := by
  obtain ⟨p, hp⟩ := ((h.mem_iff i).mp hi).1
  have hnodup : s.openConditions.Nodup := h.once.of_map _
  refine ⟨fun j => ?_, ?_, fun q' j hq => ?_⟩
  · rw [hopen, hevents, hnodup.mem_erase_iff, h.mem_iff]
    constructor
    · rintro ⟨hne, ⟨p', hp'⟩, hnone⟩
      refine ⟨⟨p', List.mem_cons_of_mem _ hp'⟩, fun q' hq' => ?_⟩
      rcases List.mem_cons.mp hq' with hq' | hq'
      · exact hne (Event.endCondition.inj hq').2
      · exact hnone q' hq'
    · rintro ⟨⟨p', hp'⟩, hnone⟩
      refine ⟨?_, ⟨p', by simpa using hp'⟩, fun q' hq' => hnone q' (List.mem_cons_of_mem _ hq')⟩
      rintro rfl
      exact hnone q List.mem_cons_self
  · rw [hopen]
    exact h.once.sublist (List.erase_sublist.map _)
  · rw [hevents] at hq ⊢
    rcases List.mem_cons.mp hq with hq | hq
    · obtain ⟨-, rfl⟩ := Event.endCondition.inj hq
      exact ⟨p, List.mem_cons_of_mem _ hp⟩
    · obtain ⟨p', hp'⟩ := h.opened q' j hq
      exact ⟨p', List.mem_cons_of_mem _ hp'⟩

end Intervals

theorem step (h : Opened s) (ht : e.Takes s s') (hknown : Numbered n known)
    (hs : ∀ e ∈ s.events, e ∈ known) (he : e ∈ known) (hfresh : e ∉ s.events)
    (hclosing : ∀ q i, e = .endCondition q i → ∃ p, .startCondition p i ∈ s.events) :
    Opened s' := by
  cases e with
  | startAction p b d es => exact h.keep ht.events ht.openConditions rfl
  | endAction q b => exact h.keep ht.events ht.openConditions rfl
  | startCondition p i =>
      refine h.opening ht.events ht.openConditions fun p' j hj hid => hfresh ?_
      -- an interval that has the number of this one would be opened by the same event
      have hpid : p.id = i.id := hknown.paired.opening p i he
      have hjid : p'.id = j.id := hknown.paired.opening p' j (hs _ hj)
      have hsame : Event.startCondition p' j = .startCondition p i :=
        hknown.eq_of_id (hs _ hj) he ((hjid.trans hid).trans hpid.symm)
      exact hsame ▸ hj
  | endCondition q i =>
      obtain ⟨p, hp⟩ := hclosing q i rfl
      have hi := h.mem_of_closing hp hknown hs he hfresh
      exact h.closing ht.events (ht.openConditions.trans (eraseP_id hi h.once)) hi

end Opened

inductive PlanStage (sim : Simulator) (s : State) : Prop
  | running (agenda : s.agenda.get? 0 = some ⟨.plan sim.origin,
      (sim.goalEvents ++ [sim.planEnd]).filter fun f => f.id ∉ s.events.map Event.id⟩)
      (fresh : s.hasEnded (.plan sim.origin) = false)
  | finished (idle : s.agenda.get? 0 = none) (ended : s.hasEnded (.plan sim.origin) = true)

namespace PlanStage

theorem frame (h : PlanStage sim s) (ht : e.Takes s s') (hne : e.activity.id ≠ 0)
    (hids : ∀ f ∈ sim.goalEvents ++ [sim.planEnd], f.id ≠ e.id) : PlanStage sim s' := by
  obtain ⟨hagenda, hended⟩ := ht.other (b := .plan sim.origin) hne
  cases h with
  | running hrunning hfresh =>
      refine .running (hagenda.trans (hrunning.trans ?_)) (hended.trans hfresh)
      congr 2
      refine List.filter_congr fun f hf => ?_
      simp [ht.events, hids f hf]
  | finished hidle hdone => exact .finished (hagenda.trans hidle) (hended.trans hdone)

theorem fresh (h : PlanStage sim s) (ht : e.Takes s s') (hid : e.activity.id = 0) :
    e.id ∉ s.events.map Event.id := by
  by_cases hkind : e.kind = .startAction
  · exact absurd hid (ht.start hkind).1
  · obtain ⟨r, hr, horder, -⟩ := ht.next hkind
    rw [hid] at hr
    cases h with
    | finished hidle => simp [hidle] at hr
    | running hrunning =>
        obtain rfl := Option.some.inj (hrunning.symm.trans hr)
        obtain ⟨_, hpending, -⟩ := Attempt.gives_bind.mp (horder hid)
        obtain ⟨f, hf, hfid⟩ := List.any_eq_true.mp (Attempt.gives_require.mp hpending)
        have hnot := of_decide_eq_true (List.mem_filter.mp hf).2
        rwa [of_decide_eq_true hfid] at hnot

theorem step (h : PlanStage sim s) (ht : e.Takes s s') (hactivity : e.activity = .plan sim.origin) :
    PlanStage sim s' := by
  have hid : e.activity.id = 0 := congrArg Activity.id hactivity
  by_cases hkind : e.kind = .startAction
  · exact absurd hid (ht.start hkind).1
  · by_cases hend : e.kind = .endAction
    · obtain ⟨hagenda, hended⟩ := ht.finish hend
      refine .finished ?_ ?_
      · rw [hagenda, OrderedMap.get?_erase, if_pos hid.symm]
      · simp [State.hasEnded, hended, hactivity]
    · obtain ⟨i, hi⟩ := Event.interval_of_kind hkind hend
      obtain ⟨hended, hagenda⟩ := ht.inner hi
      obtain ⟨r, hr, -⟩ := ht.next hkind
      have hagenda := hagenda r hr
      rw [hid] at hr hagenda
      cases h with
      | finished hidle => simp [hidle] at hr
      | running hrunning hfresh =>
          obtain rfl := Option.some.inj (hrunning.symm.trans hr)
          refine .running ?_ ?_
          · rw [hagenda, OrderedMap.get?_put, if_pos rfl, hactivity, List.filter_filter]
            congr 2
            refine List.filter_congr fun f _ => ?_
            simp [ht.events]
          · rw [State.hasEnded, hended]
            exact hfresh

end PlanStage

def Progresses (s : State) (a : Activity) (es : List Event) : Prop :=
  ∃ done pending, es = done ++ pending ∧
    s.events.reverse.filter (fun e => e.activity.id = a.id) = done ∧ Stage a s done pending

namespace Progresses

theorem frame (h : Progresses s a es) (ht : e.Takes s s') (hne : e.activity.id ≠ a.id) :
    Progresses s' a es := by
  obtain ⟨done, pending, hes, hdone, hstage⟩ := h
  refine ⟨done, pending, hes, ?_, hstage.frame ht hne⟩
  simp [ht.events, hdone, hne]

theorem step (h : Progresses s a es) (hes : Unfolds a d es) (ha : a.id ≠ 0) (he : e ∈ es)
    (ht : e.Takes s s') : Progresses s' a es ∧ e ∉ s.events ∧
      ∀ q i, e = .endCondition q i → ∃ p, .startCondition p i ∈ s.events := by
  obtain ⟨done, pending, rfl, hdone, hstage⟩ := h
  obtain ⟨rest, rfl, hnext⟩ := hstage.step hes ha he ht
  have hactivity : e.activity.id = a.id := congrArg Activity.id (hes.belongs e he).activity
  refine ⟨⟨done ++ [e], rest, by simp, ?_, hnext⟩, fun hmem => ?_, ?_⟩
  · simp [ht.events, hdone, hactivity]
  · have hmem : e ∈ done := by
      rw [← hdone]
      exact List.mem_filter.mpr ⟨List.mem_reverse.mpr hmem, decide_eq_true hactivity⟩
    have hids := hes.nodup
    rw [List.map_append, List.nodup_append] at hids
    exact hids.2.2 e.id (List.mem_map_of_mem (f := Event.id) hmem) e.id (by simp) rfl
  · rintro q i rfl
    obtain ⟨p, hp⟩ := hes.opened_before rfl
    rw [← hdone] at hp
    exact ⟨p, List.mem_reverse.mp (List.mem_filter.mp hp).1⟩

theorem finished (h : Progresses s a es) (hes : Unfolds a d es) (hall : ∀ e ∈ es, e ∈ s.events) :
    s.agenda.get? a.id = none := by
  obtain ⟨done, pending, rfl, hdone, hstage⟩ := h
  have hnil : pending = [] := by
    refine List.eq_nil_iff_forall_not_mem.mpr fun e he => ?_
    have hmem : e ∈ done ++ pending := List.mem_append_right _ he
    have hdone : e ∈ done := by
      rw [← hdone]
      exact List.mem_filter.mpr ⟨List.mem_reverse.mpr (hall e hmem),
        decide_eq_true (congrArg Activity.id (hes.belongs e hmem).activity)⟩
    have hids := hes.nodup
    rw [List.map_append, List.nodup_append] at hids
    exact hids.2.2 e.id (List.mem_map_of_mem hdone) e.id (List.mem_map_of_mem he) rfl
  cases hstage with
  | waiting hidle => exact hidle
  | running _ _ _ hleft => exact absurd hnil hleft
  | finished hidle => exact hidle

end Progresses

structure Orderly (sim : Simulator) (made : List (List Event)) (s : State) : Prop where
  known : ∀ e ∈ s.events, e ∈ sim.known made
  once : (s.events.map Event.id).Nodup
  running : ∀ id r, s.agenda.get? id = some r → id = 0 ∨ ∃ es ∈ made, ∃ e ∈ es, e.activity.id = id
  ended : ∀ a ∈ s.ended, a.id = 0 ∨ ∃ es ∈ made, ∃ e ∈ es, e.activity.id = a.id
  progresses : ∀ es ∈ made, ∀ a d, Unfolds a d es → Progresses s a es
  plan : PlanStage sim s
  opened : Opened s
  holds : OpenHold sim s

theorem PlanStage.of_rules (h : PlanStage sim s) (hrules : SameRules sim sim') :
    PlanStage sim' s := by
  cases h with
  | running hrunning hfresh =>
      rw [← hrules.goalEvents, ← hrules.planEnd, ← hrules.origin] at hrunning
      exact .running hrunning hfresh
  | finished hidle hended => exact .finished hidle hended

namespace Simulator.Makes

theorem id_ne (h : Makes sim made) (hes : es ∈ made) (hunfolds : Unfolds a d es) : a.id ≠ 0 := by
  obtain ⟨e, rest, hcons, -⟩ := hunfolds.exists_cons
  have he : e ∈ es := by simp [hcons]
  rw [← (hunfolds.belongs e he).activity]
  exact (h.activity_lt hes he).1.ne'

theorem apart {more : List (List Event)} (h : Makes sim (made ++ more)) (hes : es ∈ more)
    (hunfolds : Unfolds a d es) : ∀ fs ∈ made, ∀ f ∈ fs, f.activity.id ≠ a.id := by
  obtain ⟨e, rest, hcons, -⟩ := hunfolds.exists_cons
  have he : e ∈ es := by simp [hcons]
  intro fs hfs f hf
  rw [← (hunfolds.belongs e he).activity]
  exact (List.pairwise_append.mp h.distinct).2.2 fs hfs es hes f hf e he

theorem plan_or_made (h : Makes sim made) (he : e ∈ sim.known made) :
    e.activity = .plan sim.origin ∨ ∃ es ∈ made, e ∈ es := by
  rcases mem_known.mp he with rfl | rfl | he | he
  · exact .inl h.plan.start.2
  · exact .inl h.plan.finish.2
  · exact .inl (h.plan.goals e he).1
  · exact .inr he

theorem origin_of_known (h : Makes sim made) (he : e ∈ sim.known made) :
    e.origin = sim.origin := by
  rcases h.plan_or_made he with hplan | ⟨es, hes, he⟩
  · exact congrArg Activity.origin hplan
  · exact h.own es hes e he

theorem id_of_known (h : Makes sim made) (he : e ∈ sim.known made) :
    e.activity.id = 0 ∨ ∃ es ∈ made, ∃ f ∈ es, f.activity.id = e.activity.id := by
  rcases h.plan_or_made he with hplan | ⟨es, hes, he⟩
  · exact .inl (congrArg Activity.id hplan)
  · exact .inr ⟨es, hes, e, he, rfl⟩

end Simulator.Makes

namespace Orderly

open Simulator (Makes)

theorem initial {origin : Nat} {problem : Problem} {epsilon : Rat}
    {provider : Option EffectProvider} {component : String}
    (h : Simulator.new origin problem epsilon provider component = .ok sim) :
    Orderly sim [] sim.initialState := by
  have hmakes := Simulator.makes_new h
  have hids := hmakes.numbered.nodup
  have hevents : sim.initialState.events = [sim.planStart] := rfl
  have hagenda : sim.initialState.agenda =
      OrderedMap.empty.put 0 ⟨.plan sim.origin, sim.goalEvents ++ [sim.planEnd]⟩ := rfl
  have hnone (f : Event) (hf : f ∈ sim.initialState.events) : f.interval? = none := by
    rw [hevents, List.mem_singleton] at hf
    rw [hf]
    exact Simulator.interval_none (.inl hmakes.plan.start.1)
  have hended : sim.initialState.ended = [] := rfl
  have hopen : sim.initialState.openConditions = [] := rfl
  refine ⟨by simp [hevents, Simulator.known], by simp [hevents], fun id r hr => .inl ?_,
    by simp [hended], by simp, .running ?_ (by simp [State.hasEnded, hended]),
    ⟨fun i => ?_, by simp [hopen], fun q i hq => ?_⟩, by simp [OpenHold, hopen]⟩
  · rw [hagenda, OrderedMap.get?_put] at hr
    split at hr
    · assumption
    · simp at hr
  · have hrest : (sim.goalEvents ++ [sim.planEnd]).filter
        (fun f => f.id ∉ sim.initialState.events.map Event.id) =
        sim.goalEvents ++ [sim.planEnd] := by
      refine List.filter_eq_self.mpr fun f hf => decide_eq_true fun hid => ?_
      rw [hevents, List.map_singleton, List.mem_singleton] at hid
      refine (List.nodup_cons.mp hids).1 (List.mem_map.mpr ⟨f, ?_, hid⟩)
      simpa [or_comm] using hf
    rw [hagenda, hrest, OrderedMap.get?_put, if_pos rfl]
  · rw [hopen]
    refine iff_of_false List.not_mem_nil ?_
    rintro ⟨⟨p, hp⟩, -⟩
    exact Option.some_ne_none i (hnone _ hp)
  · exact absurd (hnone _ hq) (Option.some_ne_none i)

theorem extend {more : List (List Event)} (h : Orderly sim made s) (hmade : Makes sim made)
    (hrules : SameRules sim sim') (hmakes : Makes sim' (made ++ more)) :
    Orderly sim' (made ++ more) s where
  known e he := by
    rw [Simulator.known_append, hrules.known]
    exact List.mem_append_left _ (h.known e he)
  once := h.once
  running id r hr := (h.running id r hr).imp_right fun ⟨fs, hfs, hf⟩ =>
    ⟨fs, List.mem_append_left _ hfs, hf⟩
  ended a ha := (h.ended a ha).imp_right fun ⟨fs, hfs, hf⟩ =>
    ⟨fs, List.mem_append_left _ hfs, hf⟩
  progresses es hes a d hunfolds := by
    rcases List.mem_append.mp hes with hes | hes
    · exact h.progresses es hes a d hunfolds
    · have hother {id : Nat} (h : id = 0 ∨ ∃ fs ∈ made, ∃ f ∈ fs, f.activity.id = id) :
          id ≠ a.id := by
        rintro rfl
        obtain h | ⟨fs, hfs, f, hf, hfid⟩ := h
        · exact hmakes.id_ne (List.mem_append_right _ hes) hunfolds h
        · exact hmakes.apart hes hunfolds fs hfs f hf hfid
      refine ⟨[], es, rfl, List.filter_eq_nil_iff.mpr fun e he => ?_, .waiting ?_ ?_⟩
      · simpa using hother (hmade.id_of_known (h.known e (List.mem_reverse.mp he)))
      · cases hr : s.agenda.get? a.id with
        | none => rfl
        | some r => exact absurd rfl (hother (h.running a.id r hr))
      · refine List.any_eq_false.mpr fun b hb => ?_
        simpa using hother (h.ended b hb)
  plan := h.plan.of_rules hrules
  opened := h.opened
  holds i hi := by
    rw [Simulator.situation, hrules.defaults]
    exact h.holds i hi

theorem own (h : Orderly sim made s) (hmakes : Makes sim made) (he : e ∈ sim.known made)
    (ht : e.Takes s s') : (∀ id r, s'.agenda.get? id = some r →
      id = 0 ∨ ∃ es ∈ made, ∃ f ∈ es, f.activity.id = id) ∧
    ∀ b ∈ s'.ended, b.id = 0 ∨ ∃ es ∈ made, ∃ f ∈ es, f.activity.id = b.id := by
  refine ⟨fun id r hr => ?_, fun b hb => ?_⟩
  · by_cases hid : e.activity.id = id
    · exact hid ▸ hmakes.id_of_known he
    · rw [(ht.other (b := ⟨0, id, none⟩) hid).1] at hr
      exact h.running id r hr
  · by_cases hid : e.activity.id = b.id
    · exact hid ▸ hmakes.id_of_known he
    · rw [ht.ended] at hb
      refine h.ended b ?_
      cases e with
      | startAction => exact hb
      | startCondition => exact hb
      | endCondition => exact hb
      | endAction q c =>
          rcases List.mem_append.mp hb with hb | hb
          · exact hb
          · exact absurd (congrArg Activity.id (List.mem_singleton.mp hb)).symm hid

theorem closing_of_plan (h : Orderly sim made s) (hmakes : Makes sim made) {q : Placement}
    {i : IntervalCondition} (he : .endCondition q i ∈ sim.known made)
    (hid : q.activity.id = 0) (ht : (Event.endCondition q i).Takes s s') :
    ∃ p, .startCondition p i ∈ s.events := by
  obtain ⟨r, -, horder, -⟩ := ht.next (by simp [Event.kind])
  obtain ⟨_, -, hopen⟩ := Attempt.gives_bind.mp (horder hid)
  obtain ⟨j, hj, hji⟩ := List.any_eq_true.mp (Attempt.gives_require.mp hopen)
  have hji : j.id = i.id := of_decide_eq_true hji
  obtain ⟨p', hp'⟩ := ((h.opened.mem_iff j).mp hj).1
  obtain ⟨p, hp⟩ := hmakes.numbered.paired.opened q i he
  have hpid : p.id = i.id := hmakes.numbered.paired.opening p i hp
  have hjid : p'.id = j.id := hmakes.numbered.paired.opening p' j (h.known _ hp')
  have hsame : Event.startCondition p' j = .startCondition p i :=
    hmakes.numbered.eq_of_id (h.known _ hp') hp ((hjid.trans hji).trans hpid.symm)
  exact ⟨p, hsame ▸ hp'⟩

theorem fits (h : Orderly sim made s) (hmakes : Makes sim made) (he : e ∈ sim.known made)
    (ht : e.Takes s s') : e ∉ s.events ∧
      (∀ q i, e = .endCondition q i → ∃ p, .startCondition p i ∈ s.events) ∧
      (∀ es ∈ made, ∀ a d, Unfolds a d es → Progresses s' a es) ∧ PlanStage sim s' := by
  rcases hmakes.plan_or_made he with hplan | ⟨es, hes, hmem⟩
  · have hid : e.activity.id = 0 := congrArg Activity.id hplan
    refine ⟨fun hmem => ?_, ?_, fun fs hfs a d hunfolds => ?_, h.plan.step ht hplan⟩
    · exact h.plan.fresh ht hid (List.mem_map_of_mem (f := Event.id) hmem)
    · rintro q i rfl
      exact h.closing_of_plan hmakes he hid ht
    · refine (h.progresses fs hfs a d hunfolds).frame ht ?_
      exact hid.trans_ne (hmakes.id_ne hfs hunfolds).symm
  · obtain ⟨a, d, hunfolds, hpositive, -⟩ := hmakes.unfolds es hes
    have hid : e.activity.id = a.id := congrArg Activity.id (hunfolds.belongs e hmem).activity
    obtain ⟨hmine, hfresh, hclosing⟩ :=
      (h.progresses es hes a d hunfolds).step hunfolds hpositive.ne' hmem ht
    refine ⟨hfresh, hclosing, fun fs hfs b d' hunfolds' => ?_,
      h.plan.frame ht ?_ fun f hf hfid => ?_⟩
    · by_cases hsame : fs = es
      · subst hsame
        exact ((h.progresses fs hfs b d' hunfolds').step hunfolds' (hmakes.id_ne hfs hunfolds')
          hmem ht).1
      · obtain ⟨f, rest, hcons, -⟩ := hunfolds'.exists_cons
        have hf : f ∈ fs := by simp [hcons]
        refine (h.progresses fs hfs b d' hunfolds').frame ht ?_
        rw [← (hunfolds'.belongs f hf).activity]
        exact hmakes.id_ne_of_ne hes hfs (Ne.symm hsame) hmem hf
    · rw [hid]
      exact hpositive.ne'
    · have hf : f ∈ sim.known made ∧ f.activity = .plan sim.origin := by
        rcases List.mem_append.mp hf with hf | hf
        · exact ⟨Simulator.mem_known.mpr (.inr (.inr (.inl hf))), (hmakes.plan.goals f hf).1⟩
        · obtain rfl := List.mem_singleton.mp hf
          exact ⟨Simulator.mem_known.mpr (.inr (.inl rfl)), hmakes.plan.finish.2⟩
      rw [← hmakes.numbered.eq_of_id hf.1 he hfid, hf.2] at hid
      exact hpositive.ne hid

theorem step (h : Orderly sim made s) (hmakes : Makes sim made) (he : e ∈ sim.known made)
    (happ : (sim.tryApply e s time).outcome.1 = .ok (.ok s')) : Orderly sim made s' := by
  have ht := Event.Takes.of_tryApply happ
  obtain ⟨hrunning, hended⟩ := h.own hmakes he ht
  obtain ⟨hfresh, hclosing, hprogresses, hplan⟩ := h.fits hmakes he ht
  have hopened := h.opened.step ht hmakes.numbered h.known he hfresh hclosing
  refine ⟨?_, ?_, hrunning, hended, hprogresses, hplan, hopened, openHold_of_tryApply happ⟩
  · rw [ht.events]
    exact List.forall_mem_cons.mpr ⟨he, h.known⟩
  · rw [ht.events, List.map_cons, List.nodup_cons]
    refine ⟨fun hid => ?_, h.once⟩
    obtain ⟨f, hf, hfid⟩ := List.mem_map.mp hid
    exact hfresh (hmakes.numbered.eq_of_id (h.known f hf) he hfid ▸ hf)

end Orderly

theorem Simulator.Session.orderly (h : sim.Session made s) (hε : 0 ≤ sim.epsilon) :
    Orderly sim made s := by
  induction h with
  | initial h => exact .initial h
  | @request sim made s g d h ih =>
      have hrules := SameRules.eventsOf sim g d
      rw [hrules.epsilon] at hε
      exact (ih hε).extend (h.makes hε) hrules ((h.makes hε).eventsOf hε g d)
  | @timed sim made s h ih =>
      have hrules := SameRules.timedActivities sim
      rw [hrules.epsilon] at hε
      exact (ih hε).extend (h.makes hε) hrules ((h.makes hε).timedActivities hε)
  | apply h he happ ih => exact (ih hε).step (h.makes hε) he happ

end TemporalPlanning
