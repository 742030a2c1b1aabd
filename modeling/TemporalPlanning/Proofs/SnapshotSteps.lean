import TemporalPlanning.Proofs.CompleteTraces
import TemporalPlanning.Proofs.ListingOrder
import TemporalPlanning.Proofs.Ties

namespace TemporalPlanning

open Simulator (checkLifecycle openAfter)

section Checks

variable {sim : Simulator} {e : Event} {s : State} {v : Valuation} {a : Applied}

namespace Simulator

theorem contradictedBy_none {mine : List FluentLiteral} {is : List IntervalCondition} :
    sim.contradictedBy v mine is = .ok none ↔ ∀ o ∈ is, ∃ theirs,
      o.condition.literals (sim.situation v o.activity.bindings) = .ok theirs ∧
      ∀ m ∈ mine, ∀ n ∈ theirs, m.contradicts n = false := by
  induction is with
  | nil => simp [contradictedBy]
  | cons i is ih =>
      rw [List.forall_mem_cons, ← ih, contradictedBy, except_bind_ok]
      constructor
      · rintro ⟨theirs, htheirs, h⟩
        split at h
        · cases h
        · rename_i hfree
          exact ⟨⟨theirs, htheirs, by simpa using hfree⟩, h⟩
      · rintro ⟨⟨theirs, htheirs, hfree⟩, h⟩
        refine ⟨theirs, htheirs, ?_⟩
        rw [if_neg (by simpa using hfree)]
        exact h

theorem checkOpening_gives {keys : List String} : (sim.checkOpening e s).Gives keys ↔
    e.openingReads sim s.valuation = .ok keys ∧
      e.Unopposed sim s.valuation {i | i ∈ s.openConditions} := by
  cases e with
  | startCondition p i =>
      simp only [checkOpening, Event.openingReads, Event.Unopposed, Attempt.gives_bind,
        Attempt.gives_ofExcept]
      constructor
      · rintro ⟨reads, hreads, mine, hmine, clash, hclash, h⟩
        cases clash with
        | some o => simp at h
        | none =>
            obtain rfl := Attempt.gives_pure.mp h
            refine ⟨hreads, mine, hmine, fun hne => contradictedBy_none.mp ?_⟩
            rwa [if_neg (by simpa using hne)] at hclash
      · rintro ⟨hreads, mine, hmine, hfree⟩
        refine ⟨keys, hreads, mine, hmine, none, ?_, Attempt.gives_pure.mpr rfl⟩
        split
        · rfl
        · rename_i hne
          exact contradictedBy_none.mpr (hfree (by simpa using hne))
  | _ =>
      simp only [checkOpening, Event.openingReads, Event.Unopposed, Attempt.gives_pure,
        Except.ok.injEq, and_true]

theorem checkOpen_of_holds {is : List IntervalCondition} (h : ∀ i ∈ is,
    i.condition.holds (sim.situation v i.activity.bindings) = .ok true) :
    (sim.checkOpen v is).Gives () := by
  induction is with
  | nil => exact Attempt.gives_pure.mpr rfl
  | cons i is ih =>
      obtain ⟨hi, his⟩ := List.forall_mem_cons.mp h
      simp only [checkOpen, Attempt.gives_bind, Attempt.gives_ofExcept, Attempt.gives_require]
      exact ⟨true, hi, (), rfl, ih his⟩

theorem examine_iff : (sim.examine e s).Gives (v, a) ↔
    e.origin = sim.origin ∧ (checkLifecycle e s).Gives () ∧ ∃ fp, e.Performs sim s.valuation fp ∧
      e.Unopposed sim s.valuation {i | i ∈ s.openConditions} ∧
      v = s.valuation.update fp.updates ∧
      (∀ i ∈ openAfter e s.openConditions,
        i.condition.holds (sim.situation v i.activity.bindings) = .ok true) ∧
      a = ⟨e, fp.reads, fp.updates.keys⟩ := by
  rw [examine_gives]
  refine and_congr_right fun _ => ?_
  constructor
  · rintro ⟨durationReads, pointReads, openingReads, firing, hlife, hduration, hpoint, hopening,
      hfiring, hfree, hopen, rfl, rfl⟩
    obtain ⟨hreads, hunopposed⟩ := checkOpening_gives.mp hopening
    exact ⟨hlife, ⟨_, firing.updates⟩, ⟨durationReads, pointReads, openingReads, firing, hduration,
      hpoint, hreads, hfiring, hfree, rfl⟩, hunopposed, rfl, holds_of_checkOpen hopen, rfl⟩
  · rintro ⟨hlife, fp, ⟨durationReads, pointReads, openingReads, firing, hduration, hpoint, hreads,
      hfiring, hfree, rfl⟩, hunopposed, rfl, hholds, rfl⟩
    exact ⟨durationReads, pointReads, openingReads, firing, hlife, hduration, hpoint,
      checkOpening_gives.mpr ⟨hreads, hunopposed⟩, hfiring, hfree, checkOpen_of_holds hholds, rfl,
      rfl⟩

theorem checkLifecycle_of_pending {i : IntervalCondition} {pending : List Event}
    (hi : e.interval? = some i) (hid : e.activity.id = 0)
    (hpending : s.pending? e.activity = some pending) (hmem : ∃ f ∈ pending, f.id = e.id)
    (hopen : ∀ q, e = .endCondition q i → s.isOpen i = true) : (checkLifecycle e s).Gives () := by
  have hany : pending.any (·.id = e.id) = true := by simpa using hmem
  have hnext : (checkNext e s).Gives () := by
    simp only [checkNext, hpending, if_pos hid, checkPlanOrder, Attempt.gives_bind,
      Attempt.gives_require]
    refine ⟨(), hany, ?_⟩
    cases e with
    | startCondition p j => exact Attempt.gives_pure.mpr rfl
    | endCondition q j =>
        obtain rfl := Option.some.inj hi
        exact Attempt.gives_require.mpr (hopen q rfl)
    | _ => cases hi
  cases e with
  | startCondition p j => exact Attempt.gives_bind.mpr ⟨(), hnext, Attempt.gives_pure.mpr rfl⟩
  | endCondition q j => exact Attempt.gives_bind.mpr ⟨(), hnext, Attempt.gives_pure.mpr rfl⟩
  | _ => cases hi

end Simulator

end Checks

theorem mem_eraseP_id {is : List IntervalCondition} (hids : (is.map (·.id)).Nodup) {n : Nat}
    {o : IntervalCondition} : o ∈ is.eraseP (fun j => j.id = n) ↔ o ∈ is ∧ o.id ≠ n := by
  induction is with
  | nil => simp
  | cons j is ih =>
      obtain ⟨hj, hids⟩ := List.nodup_cons.mp hids
      by_cases hid : j.id = n
      · rw [List.eraseP_cons_of_pos (by simpa using hid), List.mem_cons]
        have hother (ho : o ∈ is) : o.id ≠ n := fun hsame =>
          hj (List.mem_map.mpr ⟨o, ho, hsame.trans hid.symm⟩)
        constructor
        · exact fun ho => ⟨.inr ho, hother ho⟩
        · rintro ⟨rfl | ho, hne⟩
          · exact absurd hid hne
          · exact ho
      · rw [List.eraseP_cons_of_neg (by simpa using hid), List.mem_cons, List.mem_cons, ih hids]
        constructor
        · rintro (rfl | ⟨ho, hne⟩)
          · exact ⟨.inl rfl, hid⟩
          · exact ⟨.inr ho, hne⟩
        · rintro ⟨rfl | ho, hne⟩
          · exact .inl rfl
          · exact .inr ⟨ho, hne⟩

namespace Numbering

variable {k : Numbering} {sim : Simulator} {x : Scheduled} {s s' : State} {v : Valuation}

def opened (k : Numbering) (s : State) : Set (Owner × IntervalCondition) :=
  k.interval '' {i | i ∈ s.openConditions}

def snapshot (k : Numbering) (p : Progress) : Snapshot :=
  ⟨p.state.valuation, k.opened p.state, p.monitor⟩

theorem unopposed_happening : (k.happening x).event.Unopposed sim v (Prod.snd '' k.opened s) ↔
    x.event.Unopposed sim v {i | i ∈ s.openConditions} := by
  rw [opened, Set.image_image]
  exact unopposed_bare (fun i => k.base i.activity.id) _

theorem holds_opened : (∀ o ∈ k.opened s,
      o.2.condition.holds (sim.situation v o.2.activity.bindings) = .ok true) ↔
    ∀ i ∈ s.openConditions, i.condition.holds (sim.situation v i.activity.bindings) = .ok true :=
  Set.forall_mem_image

structure Separates (k : Numbering) (s : State) (e : Event) : Prop where
  own : ∀ i, e.interval? = some i → i.activity = e.activity
  once : (s.openConditions.map (·.id)).Nodup
  same : ∀ i, e.interval? = some i → ∀ o ∈ s.openConditions,
    o.id = i.id ↔ k.interval o = k.interval i

theorem Separates.opened_after (h : k.Separates s x.event)
    (hs' : s'.openConditions = openAfter x.event s.openConditions) :
    k.opened s' = (k.happening x).openedAfter (k.opened s) := by
  have hinterval {i : IntervalCondition} (hi : x.event.interval? = some i) :
      ((k.happening x).owner, i.bare (k.base x.event.activity.id)) = k.interval i := by
    rw [interval, h.own i hi]
    rfl
  have hsame := h.same
  unfold opened
  rw [hs']
  cases hx : x.event with
  | startCondition p i =>
      have hhappening : (k.happening x).event = .startCondition
          (p.bare (k.base x.event.activity.id))
          (i.bare (k.base x.event.activity.id)) := by
        rw [happening, hx]
        rfl
      rw [Happening.openedAfter_opening hhappening, hinterval (hx ▸ rfl), ← Set.image_insert_eq]
      congr 1
      ext o
      simp [openAfter, or_comm]
  | endCondition q i =>
      rw [hx] at hsame
      have hhappening : (k.happening x).event = .endCondition (q.bare (k.base x.event.activity.id))
          (i.bare (k.base x.event.activity.id)) := by
        rw [happening, hx]
        rfl
      rw [Happening.openedAfter_closing hhappening, hinterval (hx ▸ rfl)]
      have hmem (o : IntervalCondition) : o ∈ openAfter (.endCondition q i) s.openConditions ↔
          o ∈ s.openConditions ∧ k.interval o ≠ k.interval i := by
        rw [openAfter, mem_eraseP_id h.once]
        exact and_congr_right fun ho => not_congr (hsame i rfl o ho)
      ext o
      simp only [Set.mem_image, Set.mem_ofPred_eq, Set.mem_sdiff, Set.mem_singleton_iff, hmem]
      constructor
      · rintro ⟨j, ⟨hj, hne⟩, rfl⟩
        exact ⟨⟨j, hj, rfl⟩, hne⟩
      · rintro ⟨⟨j, hj, rfl⟩, hne⟩
        exact ⟨j, ⟨hj, hne⟩, rfl⟩
  | startAction p b d es =>
      rw [Happening.openedAfter, happening, hx]
      rfl
  | endAction p b =>
      rw [Happening.openedAfter, happening, hx]
      rfl

end Numbering

section Turns

variable {sched : Schedule} {made : List (List Event)} {xs before rest : List Scheduled}
  {x : Scheduled} {s : State}

theorem Schedule.Regular.not_applied (hs : sched.Regular)
    (hsplit : sched.events = before ++ x :: rest)
    (hbefore : Replays sched.sim sched.sim.initialState before s) :
    x.event.id ∉ s.events.map Event.id := by
  have hevents := hbefore.events_eq
  rw [Simulator.events_initialState] at hevents
  have hids := hs.timely.nodup_ids
  have happlied : (s.events.map Event.id).reverse =
      (⟨sched.sim.planStart, 0, .goal⟩ :: before).map fun x => x.event.id := by
    rw [← List.map_reverse, hevents]
    simp [Function.comp_def]
  rw [Schedule.all, Schedule.whole, hsplit, List.append_assoc, ← List.cons_append,
    List.map_append, ← happlied, List.nodup_append] at hids
  intro hmem
  exact hids.2.2 _ (List.mem_reverse.mpr hmem) _ List.mem_cons_self rfl

namespace Assembled

variable (h : Assembled sched made xs) (hε : 0 ≤ sched.sim.epsilon)
include h hε

theorem goal_of_plan (hx : x ∈ sched.events) (hid : x.event.activity.id = 0) :
    ∃ e ∈ sched.sim.goalEvents, x = sched.goal e := by
  rcases List.mem_append.mp (h.perm.mem_iff.mp hx) with hx | hx
  · obtain ⟨es, hes, he⟩ := h.arranges.exists_mem_iff.mp ⟨x, hx, rfl⟩
    exact absurd hid ((h.session.makes hε).activity_lt hes he).1.ne'
  · obtain ⟨e, he, rfl⟩ := List.mem_map.mp hx
    exact ⟨e, he, rfl⟩

theorem opening_goal {q : Placement} {i : IntervalCondition}
    (hq : .endCondition q i ∈ sched.sim.goalEvents) :
    ∃ p, .startCondition p i ∈ sched.sim.goalEvents := by
  have hmakes := h.session.makes hε
  have hknown : .endCondition q i ∈ sched.sim.known made :=
    Simulator.mem_known.mpr (.inr (.inr (.inl hq)))
  obtain ⟨p, hp⟩ := hmakes.numbered.paired.opened q i hknown
  obtain ⟨-, j, hj, hplan⟩ := hmakes.plan.goals _ hq
  obtain rfl := Option.some.inj hj
  have hactivity := (hmakes.activity_of_interval hp rfl).symm.trans hplan
  rcases Simulator.mem_known.mp hp with hstart | hend | hgoal | ⟨es, hes, hp⟩
  · simpa [← hstart, Event.kind] using hmakes.plan.start.1
  · simpa [← hend, Event.kind] using hmakes.plan.finish.1
  · exact ⟨p, hgoal⟩
  · exact absurd (congrArg Activity.id hactivity) (hmakes.activity_lt hes hp).1.ne'

theorem goal_in_turn (hs : sched.Regular) (hsplit : sched.events = before ++ x :: rest)
    (hbefore : Replays sched.sim sched.sim.initialState before s)
    (hid : x.event.activity.id = 0) : (checkLifecycle x.event s).Gives () := by
  have hmakes := h.session.makes hε
  have hmem (y : Scheduled) (hy : y ∈ before) : y ∈ sched.events := by simp [hsplit, hy]
  have horderly := (h.session_of_replays hbefore hmem).orderly hε
  obtain ⟨e, he, rfl⟩ := h.goal_of_plan hε (by simp [hsplit]) hid
  obtain ⟨-, i, hi, -⟩ := hmakes.plan.goals _ he
  have hfresh : e.id ∉ s.events.map Event.id := hs.not_applied hsplit hbefore
  have hid : e.activity.id = 0 := hid
  cases horderly.plan with
  | finished _ hended => simp [h.goes_on hε hbefore hmem] at hended
  | running hrunning =>
      have hpending : s.pending? e.activity = some ((sched.sim.goalEvents ++
          [sched.sim.planEnd]).filter fun f => f.id ∉ s.events.map Event.id) := by
        rw [State.pending?, hid, hrunning]
        rfl
      refine Simulator.checkLifecycle_of_pending hi hid hpending ⟨e, ?_, rfl⟩ fun q hq => ?_
      · exact List.mem_filter.mpr ⟨List.mem_append_left _ he, by simpa using hfresh⟩
      · obtain rfl : e = .endCondition q i := hq
        obtain ⟨p, hp⟩ := h.opening_goal hε he
        have hbegun := Schedule.opened_before hs.timely h.sorted hs.uncrossed hp he hsplit
        have hopen : .startCondition p i ∈ s.events := by
          rw [← List.mem_reverse, hbefore.events_eq]
          exact List.mem_append_right _ (List.mem_map.mpr ⟨_, hbegun, rfl⟩)
        have hisOpen : i ∈ s.openConditions :=
          horderly.opened.mem_of_closing hopen hmakes.numbered horderly.known
            (Simulator.mem_known.mpr (.inr (.inr (.inl he))))
            fun hq => hfresh (List.mem_map_of_mem hq)
        exact List.any_eq_true.mpr ⟨i, hisOpen, by simp⟩

theorem all_in_turn (hs : sched.Regular) (hsplit : sched.events = before ++ x :: rest)
    (hbefore : Replays sched.sim sched.sim.initialState before s) :
    (checkLifecycle x.event s).Gives () := by
  by_cases hid : x.event.activity.id = 0
  · exact h.goal_in_turn hε hs hsplit hbefore hid
  · have hwhole : sched.whole = before ++ x ::
        (rest ++ [⟨sched.sim.planEnd, sched.makespan, .goal⟩]) := by
      rw [Schedule.whole, hsplit, List.append_assoc, List.cons_append]
    exact h.in_turn hε hwhole hbefore hid

end Assembled

end Turns

def noted (z : Scheduled × Footprint) : Applied × Rat :=
  (⟨z.1.event, z.2.reads, z.2.updates.keys⟩, z.1.time)

structure Reached (sched : Schedule) (zs : List (Scheduled × Footprint)) (s : State) : Prop where
  run : Simulator.Run sched.sim (pinned (zs.map noted)) s
  replays : Replays sched.sim sched.sim.initialState (zs.reverse.map Prod.fst) s

structure Described (k : Numbering) (steps : List TimedStep) (sched : Schedule)
    (made : List (List Event)) (xs : List Scheduled) : Prop where
  assembled : Assembled sched made xs
  fits : k.Fits sched.sim.epsilon steps sched.events
  run : Simulator.Run sched.sim [] sched.sim.initialState
  positive : 0 < sched.sim.epsilon
  impartial : ∀ p ∈ sched.sim.provider, p.Impartial

section Stages

variable {k : Numbering} {steps : List TimedStep} {sched : Schedule} {made : List (List Event)}
  {xs rest : List Scheduled} {zs : List (Scheduled × Footprint)} {x : Scheduled} {fp : Footprint}
  {s s' : State} {p : Progress} {m : Monitor} {c : Snapshot}

theorem Reached.step (h : Reached sched zs s) (hx : Step sched.sim x s s')
    (hlast : s'.last = ⟨x.event, fp.reads, fp.updates.keys⟩) :
    Reached sched ((x, fp) :: zs) s' where
  run := by
    have hrun := h.run.apply hx
    rw [hlast] at hrun
    exact hrun
  replays := by
    rw [List.reverse_cons, List.map_append]
    exact Replays.append_iff.mpr ⟨s, h.replays, .cons hx .nil⟩

namespace Described

variable (h : Described k steps sched made xs) (hr : Reached sched zs s)
  (hsub : ∀ z ∈ zs, z.1 ∈ sched.events)
include h hr hsub

theorem orderly : Orderly sched.sim made s :=
  (h.assembled.session_of_replays hr.replays fun y hy => by
    obtain ⟨z, hz, rfl⟩ := List.mem_map.mp hy
    exact hsub z (List.mem_reverse.mp hz)).orderly h.positive.le

theorem exists_opening {o : IntervalCondition} (ho : o ∈ s.openConditions) :
    ∃ y ∈ sched.events, ∃ p, y.event = .startCondition p o := by
  obtain ⟨⟨p, hp⟩, -⟩ := ((h.orderly hr hsub).opened.mem_iff o).mp ho
  rw [← List.mem_reverse, hr.replays.events_eq, Simulator.events_initialState] at hp
  rcases List.mem_append.mp hp with hp | hp
  · have hkind := (h.assembled.session.makes h.positive.le).plan.start.1
    simp only [List.reverse_singleton, List.mem_singleton] at hp
    simp [← hp, Event.kind] at hkind
  · obtain ⟨y, hy, hyp⟩ := List.mem_map.mp hp
    obtain ⟨z, hz, rfl⟩ := List.mem_map.mp hy
    exact ⟨z.1, hsub z (List.mem_reverse.mp hz), p, hyp⟩

theorem separates (hx : x ∈ sched.events) : k.Separates s x.event := by
  have hmakes := h.assembled.session.makes h.positive.le
  have hown {y : Scheduled} (hy : y ∈ sched.events) {i : IntervalCondition}
      (hi : y.event.interval? = some i) : i.activity = y.event.activity :=
    hmakes.activity_of_interval (h.assembled.mem_known y hy) hi
  refine ⟨fun i hi => hown hx hi, (h.orderly hr hsub).opened.once, fun i hi o ho => ?_⟩
  obtain ⟨y, hy, p, hyp⟩ := h.exists_opening hr hsub ho
  have hyo : y.event.interval? = some o := by
    rw [hyp]
    rfl
  constructor
  · intro hid
    have hnumbered := h.assembled.numbered
    have hmem : .startCondition p o ∈ sched.events.map Scheduled.event :=
      hyp ▸ List.mem_map_of_mem hy
    obtain ⟨q, hq⟩ := hnumbered.paired.exists_opening (List.mem_map_of_mem hx) hi
    have hsame : Event.startCondition p o = .startCondition q i := by
      refine hnumbered.eq_of_id hmem hq ?_
      have hp : (Event.startCondition p o).id = o.id := hnumbered.paired.opening p o hmem
      have hq : (Event.startCondition q i).id = i.id := hnumbered.paired.opening q i hq
      rw [hp, hq, hid]
    rw [(Event.startCondition.inj hsame).2]
  · intro hsame
    obtain ⟨howner, hbare⟩ := Prod.mk.inj hsame
    have hactivity : o.activity.id = i.activity.id := h.fits.injective howner
    have hids := congrArg IntervalCondition.id hbare
    have hole := (h.fits.least y hy).2 o hyo
    have hile := (h.fits.least x hx).2 i hi
    rw [← hown hy hyo] at hole
    rw [← hown hx hi] at hile
    simp only [IntervalCondition.bare, hactivity] at hids hole
    omega

end Described

namespace Described

variable (h : Described k steps sched made xs) (hr : Reached sched zs p.state)
  (hsub : ∀ z ∈ zs, z.1 ∈ sched.events) (trace : List (Rat × String))
include h hr hsub

theorem moves (hx : x ∈ sched.events) (hstep : Step sched.sim x p.state s')
    (hseen : p.monitor.visit (Expr.holds (sched.sim.situation s'.valuation .empty)) x.time =
      .ok (m, none)) :
    ∃ fp, (k.happening x).Moves sched.sim fp (k.snapshot p) (k.snapshot ⟨s', m, trace⟩) ∧
        Reached sched ((x, fp) :: zs) s' := by
  obtain ⟨v, a, hgives, -, hafter⟩ := hstep.examined
  obtain ⟨-, -, fp, hperforms, hunopposed, rfl, hholds, rfl⟩ := Simulator.examine_iff.mp hgives
  subst hafter
  refine ⟨fp, ⟨(performs_bare h.impartial).mpr hperforms,
    Numbering.unopposed_happening.mpr hunopposed,
    rfl, (h.separates hr hsub hx).opened_after rfl, Numbering.holds_opened.mpr hholds, hseen⟩, ?_⟩
  exact hr.step hstep rfl

theorem takes (hs : sched.Regular) (hsplit : sched.events = zs.reverse.map Prod.fst ++ x :: rest)
    (hmoves : (k.happening x).Moves sched.sim fp (k.snapshot p) c)
    (hapart : (((x, fp) :: zs).map noted).Pairwise (Apart sched.sim.epsilon)) :
    ∃ s', Step sched.sim x p.state s' ∧
      p.monitor.visit (Expr.holds (sched.sim.situation s'.valuation .empty)) x.time =
        .ok (c.monitor, none) ∧
      k.snapshot ⟨s', c.monitor, trace⟩ = c ∧ Reached sched ((x, fp) :: zs) s' := by
  have hx : x ∈ sched.events := by simp [hsplit]
  have horigin := (h.assembled.session.makes h.positive.le).origin_of_known
    (h.assembled.mem_known x hx)
  have hlife := h.assembled.all_in_turn h.positive.le hs hsplit hr.replays
  obtain ⟨hperforms, hunopposed, hvaluation, hopened, hholds, hseen⟩ := hmoves
  let s' := sched.sim.stateAfter p.state (p.state.valuation.update fp.updates)
    ⟨x.event, fp.reads, fp.updates.keys⟩ (some x.time)
  have hafter : k.opened s' = c.opened :=
    ((h.separates hr hsub hx).opened_after rfl).trans hopened.symm
  have hvaluation : s'.valuation = c.valuation := hvaluation.symm
  rw [← hafter, ← hvaluation] at hholds
  have hgives : (sched.sim.examine x.event p.state).Gives
      (s'.valuation, ⟨x.event, fp.reads, fp.updates.keys⟩) :=
    Simulator.examine_iff.mpr ⟨horigin, hlife, fp, (performs_bare h.impartial).mp hperforms,
      Numbering.unopposed_happening.mp hunopposed, rfl, Numbering.holds_opened.mp hholds, rfl⟩
  have hfollows : sched.Follows (zs.map noted)
      (x :: (rest ++ [⟨sched.sim.planEnd, sched.makespan, .goal⟩])) := by
    refine ⟨zs.reverse.map Prod.fst, ?_, ?_⟩
    · rw [Schedule.whole, hsplit, List.append_assoc, List.cons_append]
    · simp [noted, Function.comp_def]
  have hallows := (hfollows.next rfl).allows hs.timely hs.nonneg hs.uncrossed hapart
  have hstep : Step sched.sim x p.state s' :=
    (Simulator.tryApply_of_examine hgives (Simulator.represents_networkAfter hr.run.history_eq
      hr.run.represents _ (some x.time))).1 ⟨_, hallows⟩
  refine ⟨s', hstep, ?_, ?_, hr.step hstep rfl⟩
  · rw [hvaluation]
    exact hseen
  · rw [Numbering.snapshot, hafter, hvaluation]

end Described

end Stages

end TemporalPlanning
