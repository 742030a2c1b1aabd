import TemporalPlanning.Proofs.InTurn
import TemporalPlanning.Proofs.Separations

namespace TemporalPlanning

open Simulator (Makes)

variable {sim : Simulator} {sched : Schedule} {made : List (List Event)} {s s' : State}
  {e : Event} {x : Scheduled} {xs : List Scheduled} {done : List (Applied × Rat)}
  {τ : EventRef → Rat}

theorem Replays.consistent (h : Replays sim s xs s') (hne : xs ≠ []) :
    s'.network.check = true := by
  obtain ⟨front, x, rfl⟩ := xs.eq_nil_or_concat.resolve_left hne
  rw [List.concat_eq_append] at h
  obtain ⟨t, -, hlast⟩ := Replays.append_iff.mp h
  obtain ⟨t', hx, hnil⟩ := Replays.cons_iff.mp hlast
  cases hnil
  exact hx.consistent

section Times

theorem exists_applied
    (hdone : done.map (fun a => (a.1.event, a.2)) = xs.reverse.map fun x => (x.event, x.time))
    (hx : x ∈ xs) : ∃ a ∈ done, a.1.event = x.event ∧ a.2 = x.time := by
  have hmem : (x.event, x.time) ∈ xs.reverse.map fun x => (x.event, x.time) :=
    List.mem_map_of_mem (f := fun x : Scheduled => (x.event, x.time)) (List.mem_reverse.mpr hx)
  rw [← hdone] at hmem
  obtain ⟨a, ha, hax⟩ := List.mem_map.mp hmem
  exact ⟨a, ha, (Prod.mk.inj hax).1, (Prod.mk.inj hax).2⟩

theorem Schedule.not_crosses (ht : Timely sched)
    (hdone : done.map (fun a => (a.1.event, a.2)) =
      sched.events.reverse.map fun x => (x.event, x.time))
    (hτ : sched.sim.Allows (pinned done) τ) : ¬ sched.Crosses := by
  rintro ⟨p, q, i, hp, hq, hlt⟩
  have hpinned {e : Event} (he : e ∈ sched.sim.goalEvents) :
      τ e.ref - τ sched.sim.planStart.ref = (sched.goal e).time := by
    obtain ⟨a, ha, hevent, htime⟩ := exists_applied hdone (ht.goals e he)
    have hat := hτ.pinned (a.1, some a.2) (List.mem_map_of_mem ha) a.2 rfl
    rwa [hevent, htime] at hat
  have hle := hτ.goalOrder p q i hp hq
  have hstart := hpinned hp
  have hend := hpinned hq
  linarith

theorem times_fit (ht : Timely sched) (hrun : Simulator.Run sched.sim (pinned done) s)
    (hdone : done.map (fun a => (a.1.event, a.2)) =
      sched.events.reverse.map fun x => (x.event, x.time))
    (hcheck : sched.events ≠ [] → s.network.check = true) :
    (∀ x ∈ sched.events, 0 ≤ x.time) ∧ done.Pairwise (Apart sched.sim.epsilon) ∧
      ¬ sched.Crosses := by
  cases hevents : sched.events with
  | nil =>
      obtain rfl : done = [] := by simpa [hevents] using hdone
      refine ⟨by simp, .nil, ?_⟩
      rintro ⟨p, q, i, hp, -⟩
      simpa [hevents] using ht.goals _ hp
  | cons x rest =>
      obtain ⟨τ, hτ⟩ := hrun.represents.check_iff.mp (hcheck (by simp [hevents]))
      obtain ⟨hnonneg, hapart⟩ := apart_of_allows hτ
      refine ⟨fun y hy => ?_, hapart, Schedule.not_crosses ht hdone hτ⟩
      obtain ⟨a, ha, -, htime⟩ := exists_applied hdone (hevents ▸ hy)
      exact htime ▸ hnonneg a ha

end Times

theorem Simulator.examine_observer {q : Placement} (hend : sim.planEnd = .endAction q .empty)
    (horigin : sim.planEnd.origin = sim.origin)
    (hlife : (checkLifecycle sim.planEnd s).Gives ()) (hopen : s.openConditions = []) :
    (sim.examine sim.planEnd s).Gives (s.valuation.update .empty, ⟨sim.planEnd, [], []⟩) := by
  refine examine_gives.mpr ⟨horigin, [], [], [], .empty, hlife, ?_⟩
  rw [hend]
  have hidle : (pure [] : Attempt (List String)).Gives [] := Attempt.gives_pure.mpr rfl
  refine ⟨hidle, hidle, hidle, Firing.ofEvent_of_noEffects rfl rfl rfl, rfl, ?_, rfl, rfl⟩
  have hopen : openAfter (.endAction q .empty) s.openConditions = [] := hopen
  rw [hopen]
  exact Attempt.gives_pure.mpr rfl

namespace Assembled

variable (h : Assembled sched made xs) (hε : 0 ≤ sched.sim.epsilon)
  (hall : Replays sched.sim sched.sim.initialState sched.events s)
include h hall

theorem mem_events : (∀ es ∈ made, ∀ e ∈ es, e ∈ s.events) ∧
    ∀ e ∈ sched.sim.goalEvents, e ∈ s.events := by
  have happlied (x : Scheduled) (hx : x ∈ sched.events) : x.event ∈ s.events := by
    rw [← List.mem_reverse, hall.events_eq]
    exact List.mem_append_right _ (List.mem_map_of_mem hx)
  refine ⟨fun es hes e he => ?_, fun e he => ?_⟩
  · obtain ⟨x, hx, rfl⟩ := h.arranges.exists_mem_iff.mpr ⟨es, hes, he⟩
    exact happlied x (h.perm.mem_iff.mpr (List.mem_append_left _ hx))
  · exact happlied (sched.goal e)
      (h.perm.mem_iff.mpr (List.mem_append_right _ (List.mem_map_of_mem he)))

include hε

theorem orderly : Orderly sched.sim made s :=
  (h.session_of_replays hall fun _ hx => hx).orderly hε

theorem nothing_runs {id : Nat} {r : Running} (hr : s.agenda.get? id = some r) : id = 0 := by
  by_contra hid
  have horderly := h.orderly hε hall
  obtain ⟨es, hes, e, he, rfl⟩ := (horderly.running id r hr).resolve_left hid
  obtain ⟨a, d, hunfolds, -⟩ := (h.session.makes hε).unfolds es hes
  have hidle := (horderly.progresses es hes a d hunfolds).finished hunfolds
    ((h.mem_events hall).1 es hes)
  rw [← (hunfolds.belongs e he).activity, hr] at hidle
  simp at hidle

theorem nothing_open : s.openConditions = [] := by
  have hmakes := h.session.makes hε
  have horderly := h.orderly hε hall
  obtain ⟨hmade, hgoals⟩ := h.mem_events hall
  refine List.eq_nil_iff_forall_not_mem.mpr fun i hi => ?_
  obtain ⟨⟨p, hp⟩, hnone⟩ := (horderly.opened.mem_iff i).mp hi
  rcases Simulator.mem_known.mp (horderly.known _ hp) with hstart | hend | hp | ⟨es, hes, hp⟩
  · simpa [← hstart, Event.kind] using hmakes.plan.start.1
  · simpa [← hend, Event.kind] using hmakes.plan.finish.1
  · obtain ⟨q, hq⟩ := hmakes.plan.closed p i hp
    exact hnone q (hgoals _ hq)
  · obtain ⟨a, d, hunfolds, -⟩ := hmakes.unfolds es hes
    obtain ⟨q, hq, -⟩ := hunfolds.closed p i hp
    exact hnone q (hmade es hes _ hq)

theorem waits_for_end (ht : Timely sched) : s.agenda.get? 0 =
    some ⟨.plan sched.sim.origin, [sched.sim.planEnd]⟩ := by
  have hgoals := (h.mem_events hall).2
  have hrest : (sched.sim.goalEvents ++ [sched.sim.planEnd]).filter
      (fun f => f.id ∉ s.events.map Event.id) = [sched.sim.planEnd] := by
    have hdone : sched.sim.goalEvents.filter (fun f => f.id ∉ s.events.map Event.id) = [] := by
      refine List.filter_eq_nil_iff.mpr fun f hf => ?_
      simpa using ⟨f, hgoals f hf, rfl⟩
    have hend : sched.sim.planEnd.id ∉ s.events.map Event.id := by
      have hids := ht.nodup_ids
      have happlied : (s.events.map Event.id).reverse =
          (⟨sched.sim.planStart, 0, .goal⟩ :: sched.events).map fun x => x.event.id := by
        rw [← List.map_reverse, hall.events_eq]
        simp [Simulator.events_initialState, Function.comp_def]
      rw [Schedule.all, Schedule.whole, ← List.cons_append, List.map_append, ← happlied,
        List.nodup_append] at hids
      intro hmem
      exact hids.2.2 _ (List.mem_reverse.mpr hmem) _ (List.mem_singleton_self _) rfl
    rw [List.filter_append, hdone, List.nil_append, List.filter_cons_of_pos (by simpa using hend),
      List.filter_nil]
  cases (h.orderly hε hall).plan with
  | running hrunning => rwa [hrest] at hrunning
  | finished _ hended => simp [h.goes_on hε hall fun _ hx => hx] at hended

theorem takes_end (ht : Timely sched) :
    (Simulator.checkLifecycle sched.sim.planEnd s).Gives () := by
  obtain ⟨q, hend, -, hactivity⟩ := ht.finish
  have hid : q.activity.id = 0 := congrArg Activity.id hactivity
  have hwaits := h.waits_for_end hε hall ht
  have hothers : (s.agenda.values.map (·.activity)).filter (fun a => !decide (a.id = 0)) = [] := by
    refine List.filter_eq_nil_iff.mpr fun a ha => ?_
    obtain ⟨r, hr, rfl⟩ := List.mem_map.mp ha
    obtain ⟨⟨id, r⟩, hentry, rfl⟩ := List.mem_map.mp hr
    have hr := OrderedMap.mem_entries_iff.mp hentry
    obtain rfl := h.nothing_runs hε hall hr
    obtain rfl := Option.some.inj (hwaits.symm.trans hr)
    simp [Activity.plan]
  rw [hend] at hwaits ⊢
  refine Attempt.gives_bind.mpr ⟨(), ?_, Attempt.gives_require.mpr ?_⟩
  · simp only [Simulator.checkNext, State.pending?, Event.activity, Event.place, hid, hwaits,
      Option.map_some, if_true, Simulator.checkPlanOrder, Attempt.gives_bind,
      Attempt.gives_require, hothers]
    exact ⟨(), by simp, (), rfl, rfl⟩
  · simp [h.nothing_open hε hall]

theorem ends (ht : Timely sched) (hrun : Simulator.Run sched.sim [] sched.sim.initialState) :
    ∃ next, Step sched.sim ⟨sched.sim.planEnd, sched.makespan, .goal⟩ s next := by
  obtain ⟨q, hend, -, -⟩ := ht.finish
  obtain ⟨done, hdone, hevents⟩ := hall.logged hrun
  rw [List.append_nil] at hdone
  have hfollows : sched.Follows done [⟨sched.sim.planEnd, sched.makespan, .goal⟩] :=
    ⟨sched.events, rfl, hevents⟩
  have hgives := Simulator.examine_observer hend
    (congrArg Activity.origin (h.session.makes hε).plan.finish.2) (h.takes_end hε hall ht)
    (h.nothing_open hε hall)
  obtain ⟨hnonneg, hapart, hcrosses⟩ := times_fit ht hdone hevents fun hne => hall.consistent hne
  have hallows := (hfollows.next (a := ⟨sched.sim.planEnd, [], []⟩) rfl).allows ht hnonneg hcrosses
    (apart_cons_idle hapart _ _)
  exact ⟨_, (Simulator.tryApply_of_examine hgives (Simulator.represents_networkAfter
    hdone.history_eq hdone.represents _ (some sched.makespan))).1 ⟨_, hallows⟩⟩

end Assembled

namespace Validator

open Logged

variable {p p' : Progress} {violation : Option Violation} {t : Rat} {r : Refusal}

theorem not_cannotEnd {w : Violation} (h : w.refusal? = none) : w ≠ .cannotEnd t r := by
  rintro rfl
  simp [Violation.refusal?] at h

theorem goes_on_of_applyEvents (h : (applyEvents sim xs p).Gives (p', violation)) :
    violation ≠ some (.cannotEnd t r) := by
  induction xs generalizing p with
  | nil =>
      obtain ⟨rfl, rfl⟩ := Prod.mk.inj (gives_pure h)
      simp
  | cons x xs ih =>
      obtain ⟨q, -, h⟩ := gives_bind h
      cases q with
      | error q =>
          obtain ⟨rfl, rfl⟩ := Prod.mk.inj (gives_pure h)
          simp
      | ok s =>
          obtain ⟨-, -, h⟩ := gives_bind h
          obtain ⟨⟨q, clash⟩, hq, h⟩ := gives_bind h
          cases clash with
          | some clash =>
              obtain ⟨rfl, rfl⟩ := Prod.mk.inj (gives_pure h)
              obtain ⟨-, -, hclash⟩ := visit_ok (gives_ofExcept hq)
              simpa using not_cannotEnd (hclash clash rfl)
          | none => exact ih h

theorem goes_on_of_applyInstants {xss : List (List Scheduled)}
    (h : (applyInstants sim xss p).Gives (p', violation)) :
    violation ≠ some (.cannotEnd t r) := by
  induction xss generalizing p with
  | nil =>
      obtain ⟨rfl, rfl⟩ := Prod.mk.inj (gives_pure h)
      simp
  | cons xs xss ih =>
      obtain ⟨clash, hclash, h⟩ := gives_bind h
      cases clash with
      | some clash =>
          obtain ⟨rfl, rfl⟩ := Prod.mk.inj (gives_pure h)
          simpa using not_cannotEnd (refusal_of_simultaneousWrites (gives_ofExcept hclash))
      | none =>
          obtain ⟨⟨q, clash⟩, hq, h⟩ := gives_bind h
          cases clash with
          | some clash =>
              obtain ⟨rfl, rfl⟩ := Prod.mk.inj (gives_pure h)
              exact goes_on_of_applyEvents hq
          | none => exact ih h

theorem refused_of_applyEnd {makespan : Rat}
    (h : (applyEnd sim makespan p).Gives (p', some (.cannotEnd t r))) :
    Refused sim ⟨sim.planEnd, makespan, .goal⟩ p.state r := by
  unfold applyEnd at h
  split at h
  · rename_i w hw
    obtain ⟨x, -, hx⟩ := Option.map_eq_some_iff.mp hw
    simpa [← hx] using (Prod.mk.inj (gives_pure h)).2
  · obtain ⟨q, hq, h⟩ := gives_bind h
    cases q with
    | error q =>
        obtain ⟨-, rfl⟩ : makespan = t ∧ q = r := by simpa using (Prod.mk.inj (gives_pure h)).2
        exact refused_of_gives hq
    | ok s => simpa using (Prod.mk.inj (gives_pure h)).2

theorem refused_of_execute
    (h : (execute sched.sim sched).Gives (p, some (.cannotEnd t r))) :
    ∃ s, Replays sched.sim sched.sim.initialState sched.events s ∧
      Refused sched.sim ⟨sched.sim.planEnd, sched.makespan, .goal⟩ s r := by
  obtain ⟨⟨first, clash⟩, hvisit, h⟩ := gives_bind h
  obtain ⟨hstate, -, hclash⟩ := visit_ok (gives_ofExcept hvisit)
  have hstate : first.state = sched.sim.initialState := hstate
  cases clash with
  | some clash =>
      have hw := (Prod.mk.inj (gives_pure h)).2
      exact absurd (Option.some.inj hw) (not_cannotEnd (hclash clash rfl))
  | none =>
      obtain ⟨⟨q, clash⟩, hq, h⟩ := gives_bind h
      cases clash with
      | some clash =>
          have hw := (Prod.mk.inj (gives_pure h)).2
          exact absurd hw (goes_on_of_applyInstants hq)
      | none =>
          have hevents := (halts_of_applyInstants hq).of_none.1
          rw [Scheduled.instants, List.flatten_splitBy, hstate] at hevents
          exact ⟨q.state, hevents, refused_of_applyEnd h⟩

theorem violation_kept {steps : List TimedStep} {w : Violation} {r : Report}
    (h : report sched.sim sched steps p (some w) = .ok r) : r.violation = some w := by
  simp only [report, except_bind_ok] at h
  obtain ⟨goals, -, h⟩ := h
  rw [← except_pure_ok.mp h]

end Validator

end TemporalPlanning
