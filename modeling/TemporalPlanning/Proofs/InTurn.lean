import TemporalPlanning.Proofs.AssembledPlans
import TemporalPlanning.Proofs.Bookkeeping
import TemporalPlanning.Proofs.ExecutionFaults

namespace TemporalPlanning

open Simulator (Makes)

variable {sim : Simulator} {sched : Schedule} {made : List (List Event)} {s s' : State}
  {e : Event} {es front back : List Event} {x : Scheduled} {xs before after : List Scheduled}
  {a : Activity} {d : Rat} {f : Fault}

theorem Replays.events_eq (h : Replays sim s xs s') :
    s'.events.reverse = s.events.reverse ++ xs.map Scheduled.event := by
  induction h with
  | nil => simp
  | cons hx _ ih => simp [ih, (Event.Takes.of_tryApply hx).events]

theorem Simulator.events_initialState (sim : Simulator) :
    sim.initialState.events = [sim.planStart] := rfl

section Lifecycles

theorem Event.Takes.hasEnded_plan {origin : Nat} (h : e.Takes s s')
    (hrunning : e.activity.id = 0 → e.kind ≠ .endAction) :
    s'.hasEnded (.plan origin) = s.hasEnded (.plan origin) := by
  by_cases hkind : e.kind = .endAction
  · exact (h.other fun hid => hrunning hid hkind).2
  · rw [State.hasEnded, h.ended, State.hasEnded]
    cases e with
    | endAction => simp [Event.kind] at hkind
    | startAction => rfl
    | startCondition => rfl
    | endCondition => rfl

theorem Orderly.takes_next (h : Orderly sim made s) (hmakes : Makes sim made) (hes : es ∈ made)
    (hunfolds : Unfolds a d es) (hsplit : es = front ++ e :: back)
    (hdone : s.events.reverse.filter (fun e => e.activity.id = a.id) = front) :
    (Simulator.checkLifecycle e s).Gives () := by
  have hid : a.id ≠ 0 := hmakes.id_ne hes hunfolds
  have he : e ∈ es := by simp [hsplit]
  have hactivity : e.activity = a := (hunfolds.belongs e he).activity
  obtain ⟨done, pending, heq, hdone', hstage⟩ := h.progresses es hes a d hunfolds
  obtain rfl : done = front := hdone'.symm.trans hdone
  obtain rfl : pending = e :: back := List.append_cancel_left (heq.symm.trans hsplit)
  have hstart := hunfolds.start_first hsplit
  -- a waiting activity is next to start, one under way has any other event next
  cases hstage with
  | waiting hidle hfresh =>
      have hkind : e.kind = .startAction := hstart.mpr rfl
      cases e with
      | startAction p b d es =>
          simp only [Simulator.checkLifecycle, Simulator.checkStart, Attempt.gives_bind,
            Attempt.gives_require]
          refine ⟨(), ?_, ?_⟩
          · simp [hactivity, hid, State.pending?, hidle]
          · simp [hactivity, hfresh]
      | startCondition => simp [Event.kind] at hkind
      | endCondition => simp [Event.kind] at hkind
      | endAction => simp [Event.kind] at hkind
  | running hrunning hfresh hbegun =>
      have hkind : e.kind ≠ .startAction := fun hkind => hbegun (hstart.mp hkind)
      have hnext : (Simulator.checkNext e s).Gives () := by
        simp [Simulator.checkNext, State.pending?, hactivity, hrunning, hid]
      cases e with
      | startAction => simp [Event.kind] at hkind
      | startCondition => exact Attempt.gives_bind.mpr ⟨(), hnext, Attempt.gives_pure.mpr rfl⟩
      | endCondition => exact Attempt.gives_bind.mpr ⟨(), hnext, Attempt.gives_pure.mpr rfl⟩
      | endAction q b =>
          refine Attempt.gives_bind.mpr ⟨(), hnext, Attempt.gives_require.mpr ?_⟩
          have hknown : .endAction q b ∈ sim.known made :=
            Simulator.mem_known.mpr (.inr (.inr (.inr ⟨es, hes, he⟩)))
          have hclosed := h.closed_of_next hmakes hknown rfl (hactivity ▸ hid) hnext
          exact List.isEmpty_iff.mpr (List.filter_eq_nil_iff.mpr fun i hi => by
            simpa using hclosed i hi)

theorem faultsOnly_lifecycle_of_plan {P : Fault → Prop} {r : Running} (hid : e.activity.id = 0)
    (hkind : e.kind ≠ .startAction) (hr : s.agenda.get? 0 = some r) :
    FaultsOnly P (Simulator.checkLifecycle e s).run := by
  have hnext : FaultsOnly P (Simulator.checkNext e s).run := by
    simpa [Simulator.checkNext, State.pending?, hid, hr] using
      faultsOnly_checkPlanOrder e r.pending s
  have hlife : FaultsOnly P (Simulator.checkNext e s >>= fun _ => Simulator.checkClosed e s).run :=
    hnext.attempt fun _ => faultsOnly_checkClosed e s
  cases e with
  | startAction => simp [Event.kind] at hkind
  | startCondition => exact hlife
  | endCondition => exact hlife
  | endAction => exact hlife

end Lifecycles

theorem Schedule.split_whole (h : sched.whole = before ++ x :: after) :
    (before = sched.events ∧ x.event = sched.sim.planEnd ∧ after = []) ∨
      ∃ rest, sched.events = before ++ x :: rest := by
  unfold Schedule.whole at h
  rcases after.eq_nil_or_concat with rfl | ⟨rest, y, rfl⟩
  · obtain ⟨hevents, hx⟩ := List.append_inj' h rfl
    exact .inl ⟨hevents.symm, by rw [← List.singleton_inj.mp hx], rfl⟩
  · rw [List.concat_eq_append, ← List.cons_append, ← List.append_assoc] at h
    exact .inr ⟨rest, (List.append_inj' h rfl).1⟩

namespace Assembled

variable (h : Assembled sched made xs)
include h

theorem session_of_replays (hbefore : Replays sched.sim sched.sim.initialState before s)
    (hsub : ∀ x ∈ before, x ∈ sched.events) : sched.sim.Session made s :=
  h.session.of_replays (fun x hx => h.mem_known x (hsub x hx)) hbefore

theorem goes_on (hε : 0 ≤ sched.sim.epsilon)
    (hbefore : Replays sched.sim sched.sim.initialState before s)
    (hsub : ∀ x ∈ before, x ∈ sched.events) : s.hasEnded (.plan sched.sim.origin) = false := by
  have hmakes := h.session.makes hε
  refine hbefore.induct (P := fun s => s.hasEnded (.plan sched.sim.origin) = false) rfl
    fun x hx t t' ht hstep => ?_
  refine ((Event.Takes.of_tryApply hstep).hasEnded_plan fun hid hkind => ?_).trans ht
  rcases h.cases x (hsub x hx) with ⟨es, hes, he⟩ | he
  · exact absurd hid (hmakes.activity_lt hes he).1.ne'
  · obtain ⟨-, i, hi, -⟩ := hmakes.plan.goals _ he
    simp [Simulator.interval_none (.inr hkind)] at hi

variable (hε : 0 ≤ sched.sim.epsilon)
include hε

theorem in_turn (hsplit : sched.whole = before ++ x :: after)
    (hbefore : Replays sched.sim sched.sim.initialState before s)
    (hid : x.event.activity.id ≠ 0) : (Simulator.checkLifecycle x.event s).Gives () := by
  have hmakes := h.session.makes hε
  have hplan (e : Event) (he : e.activity = .plan sched.sim.origin) : e.activity.id = 0 :=
    congrArg Activity.id he
  rcases Schedule.split_whole hsplit with ⟨-, hx, -⟩ | ⟨rest, hevents⟩
  · exact absurd (hplan _ (hx ▸ hmakes.plan.finish.2)) hid
  have hmem (y : Scheduled) (hy : y ∈ before) : y ∈ sched.events := by simp [hevents, hy]
  have hknown := h.mem_known x (by simp [hevents])
  obtain ⟨es, hes, he⟩ := (hmakes.plan_or_made hknown).resolve_left fun hx => hid (hplan _ hx)
  obtain ⟨a, d, hunfolds, -⟩ := hmakes.unfolds es hes
  have hxid : x.event.activity.id = a.id := congrArg Activity.id (hunfolds.belongs _ he).activity
  -- what the activity had before its event in the plan is what it had before it when made
  have hown := (h.own hmakes hes hunfolds).2
  rw [hevents, List.filter_append, List.filter_cons_of_pos (by simpa using hxid),
    List.map_append, List.map_cons] at hown
  refine ((h.session_of_replays hbefore hmem).orderly hε).takes_next hmakes hes hunfolds
    hown.symm ?_
  have hstart : sched.sim.planStart.activity.id = 0 := hplan _ hmakes.plan.start.2
  rw [hbefore.events_eq, Simulator.events_initialState, List.reverse_singleton, List.filter_append,
    List.filter_cons_of_neg (by simpa [hstart] using hxid ▸ hid.symm), List.filter_nil,
    List.nil_append, List.filter_map]
  rfl

theorem faultsOnly_lifecycle {P : Fault → Prop} (hsplit : sched.whole = before ++ x :: after)
    (hbefore : Replays sched.sim sched.sim.initialState before s) :
    FaultsOnly P (Simulator.checkLifecycle x.event s).run := by
  by_cases hid : x.event.activity.id = 0
  · have hmakes := h.session.makes hε
    obtain ⟨hsub, hkind⟩ : (∀ y ∈ before, y ∈ sched.events) ∧ x.event.kind ≠ .startAction := by
      rcases Schedule.split_whole hsplit with ⟨rfl, hx, -⟩ | ⟨rest, hevents⟩
      · exact ⟨fun y hy => hy, by simp [hx, hmakes.plan.finish.1]⟩
      · refine ⟨fun y hy => by simp [hevents, hy], fun hkind => ?_⟩
        rcases h.cases x (by simp [hevents]) with ⟨es, hes, he⟩ | he
        · exact absurd hid (hmakes.activity_lt hes he).1.ne'
        · obtain ⟨-, i, hi, -⟩ := hmakes.plan.goals _ he
          simp [Simulator.interval_none (.inl hkind)] at hi
    have hgoes := h.goes_on hε hbefore hsub
    cases ((h.session_of_replays hbefore hsub).orderly hε).plan with
    | running hrunning => exact faultsOnly_lifecycle_of_plan hid hkind hrunning
    | finished _ hended => simp [hgoes] at hended
  · intro f hf
    have hgives : (Simulator.checkLifecycle x.event s).run = .ok (.ok ()) :=
      h.in_turn hε hsplit hbefore hid
    simp [hgives] at hf

theorem fault_of_fails (hf : Fails sched.sim sched.sim.initialState sched.whole f) :
    f.OfExecution ∨ ∃ p ∈ sched.sim.provider, ∃ request, p.values request = .error f := by
  obtain ⟨before, x, after, t, hsplit, hbefore, hx⟩ := hf
  have hmakes := h.session.makes hε
  have horigin : x.event.origin = sched.sim.origin := by
    rcases Schedule.split_whole hsplit with ⟨-, hx, -⟩ | ⟨rest, hevents⟩
    · rw [hx]
      exact congrArg Activity.origin hmakes.plan.finish.2
    · exact hmakes.origin_of_known (h.mem_known x (by simp [hevents]))
  exact faultsOnly_transition
    (P := fun f => f.OfExecution ∨ ∃ p ∈ sched.sim.provider, ∃ request, p.values request = .error f)
    (fun _ hf => .inl hf) (fun p hp request f hf => .inr ⟨p, hp, request, hf⟩) (absurd horigin)
    (h.faultsOnly_lifecycle hε hsplit hbefore) f hx

theorem not_ofOrder (hsplit : sched.whole = before ++ x :: after)
    (hbefore : Replays sched.sim sched.sim.initialState before s)
    (hid : x.event.activity.id ≠ 0) {r : Refusal} (hr : Refused sched.sim x s r) :
    r.kind ≠ .outOfOrder ∧ r.kind ≠ .pendingConditions := by
  have hgives : (Simulator.checkLifecycle x.event s).run = .ok (.ok ()) :=
    h.in_turn hε hsplit hbefore hid
  rw [← not_or, ← Refusal.ofOrder_iff]
  intro horder
  obtain ⟨-, ⟨hlife, -⟩ | hstate | ⟨⟨w, hw⟩, -⟩⟩ := Simulator.refused_for hr
  · simp [Attempt.Refuses, hgives] at hlife
  · have hkind := Refusal.kind_of_ofState hstate
    rcases Refusal.ofOrder_iff.mp horder with hr | hr
    · exact hkind.1 hr
    · exact hkind.2.1 hr
  · simp [hw, Cause.OfOrder] at horder

end Assembled

end TemporalPlanning
