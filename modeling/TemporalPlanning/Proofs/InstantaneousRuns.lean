import TemporalPlanning.Proofs.InstantaneousPlans
import TemporalPlanning.Proofs.Interchange

namespace TemporalPlanning

open Logged

section Deeds

variable {epsilon : Rat} {a b d : Deed} {x y : Scheduled} {o : Occurrence}
  {xs ys : List Scheduled} {zs : List (Scheduled × Deed)} {ds : List Deed}

def Deed.task (d : Deed) : Rat × GroundAction := (d.time, d.ground)

inductive Enacts : List Scheduled → List (Scheduled × Deed) → Prop
  | nil : Enacts [] []
  | started {x : Scheduled} {d : Deed} {xs : List Scheduled} {zs : List (Scheduled × Deed)}
      (task : x.task? = some d.task) (rest : Enacts xs zs) : Enacts (x :: xs) ((x, d) :: zs)
  | idle {x : Scheduled} {xs : List Scheduled} {zs : List (Scheduled × Deed)}
      (task : x.task? = none) (rest : Enacts xs zs) : Enacts (x :: xs) zs

namespace Enacts

theorem append_inv (h : Enacts (xs ++ ys) zs) :
    ∃ before after, zs = before ++ after ∧ Enacts xs before ∧ Enacts ys after := by
  induction xs generalizing zs with
  | nil => exact ⟨[], zs, rfl, .nil, h⟩
  | cons x xs ih =>
      cases h with
      | started task rest =>
          obtain ⟨before, after, rfl, hxs, hys⟩ := ih rest
          exact ⟨_ :: before, after, rfl, .started task hxs, hys⟩
      | idle task rest =>
          obtain ⟨before, after, rfl, hxs, hys⟩ := ih rest
          exact ⟨before, after, rfl, .idle task hxs, hys⟩

theorem mem_events (h : Enacts xs zs) {z : Scheduled × Deed} (hz : z ∈ zs) :
    z.1 ∈ xs ∧ z.1.task? = some z.2.task := by
  induction h with
  | nil => simp at hz
  | started task _ ih =>
      rcases List.mem_cons.mp hz with rfl | hz
      · exact ⟨List.mem_cons_self, task⟩
      · exact ⟨List.mem_cons_of_mem _ (ih hz).1, (ih hz).2⟩
  | idle _ _ ih => exact ⟨List.mem_cons_of_mem _ (ih hz).1, (ih hz).2⟩

theorem time_eq (h : Enacts xs zs) {z : Scheduled × Deed} (hz : z ∈ zs) : z.2.time = z.1.time :=
  Scheduled.time_of_task (h.mem_events hz).2

theorem started_inv (h : Enacts (x :: xs) zs) (ho : x.event = o.start) : ∃ d zs',
    zs = (x, d) :: zs' ∧ x.time = d.time ∧ o.ground = d.ground ∧ Enacts xs zs' := by
  have htask := Scheduled.task_of_start ho
  cases h with
  | @started _ d _ zs task rest =>
      obtain ⟨htime, hground⟩ : x.time = d.time ∧ o.ground = d.ground := by
        simpa [htask, Deed.task] using task
      exact ⟨d, zs, rfl, htime, hground, rest⟩
  | idle task _ => simp [htask] at task

theorem idle_inv (h : Enacts (x :: xs) zs) (hx : x.task? = none) : Enacts xs zs := by
  cases h with
  | started task _ => simp [hx] at task
  | idle _ rest => exact rest

theorem exists_deed (h : Enacts xs zs) (hx : x ∈ xs) (ho : x.event = o.start) :
    ∃ d, (x, d) ∈ zs ∧ o.ground = d.ground := by
  induction xs generalizing zs with
  | nil => simp at hx
  | cons y xs ih =>
      rcases List.mem_cons.mp hx with rfl | hx
      · obtain ⟨d, zs', rfl, -, hground, -⟩ := h.started_inv ho
        exact ⟨d, List.mem_cons_self, hground⟩
      · cases h with
        | started _ rest =>
            obtain ⟨d, hd, hground⟩ := ih rest hx
            exact ⟨d, List.mem_cons_of_mem _ hd, hground⟩
        | idle _ rest => exact ih rest hx

theorem starts (h : Enacts xs zs) : zs.map Prod.fst = xs.filter (·.task?.isSome) := by
  induction h with
  | nil => rfl
  | started task _ ih => rw [List.map_cons, ih, List.filter_cons_of_pos (by simp [task])]
  | idle task _ ih => rw [ih, List.filter_cons_of_neg (by simp [task])]

theorem tasks (h : Enacts xs zs) :
    xs.filterMap Scheduled.task? = (zs.map Prod.snd).map Deed.task := by
  induction h with
  | nil => rfl
  | started task _ ih => rw [List.filterMap_cons_some task, ih, List.map_cons, List.map_cons]
  | idle task _ ih => rw [List.filterMap_cons_none task, ih]

theorem of_tasks (h : xs.filterMap Scheduled.task? = ds.map Deed.task) :
    ∃ zs, Enacts xs zs ∧ zs.map Prod.snd = ds := by
  induction xs generalizing ds with
  | nil => exact ⟨[], .nil, (List.map_eq_nil_iff.mp h.symm).symm⟩
  | cons x xs ih =>
      cases htask : x.task? with
      | none =>
          rw [List.filterMap_cons_none htask] at h
          obtain ⟨zs, hzs, hds⟩ := ih h
          exact ⟨zs, .idle htask hzs, hds⟩
      | some t =>
          rw [List.filterMap_cons_some htask] at h
          obtain ⟨d, ds', rfl, rfl, hrest⟩ := List.map_eq_cons_iff.mp h.symm
          obtain ⟨zs, hzs, rfl⟩ := ih hrest.symm
          exact ⟨(x, d) :: zs, .started htask hzs, rfl⟩

end Enacts

end Deeds

section Readings

variable {sched : Schedule} {os : List Occurrence} {done more : List (Applied × Rat)}
  {xs rest : List Scheduled} {zs : List (Scheduled × Deed)} {s s' : State} {epsilon : Rat}

def logged (z : Scheduled × Deed) : Applied × Rat :=
  (⟨z.1.event, z.2.footprint.reads, z.2.footprint.updates.keys⟩, z.2.time)

theorem Poised.course (h : Poised sched done (xs ++ rest) s)
    (hids : ∀ x ∈ xs, x.event.activity.id ≠ 0) (hrun : Replays sched.sim s xs s') :
    ∃ more zs, Poised sched (more ++ done) rest s' ∧ Enacts xs zs ∧
      Course sched.sim.defaults s.valuation (zs.map Prod.snd) s'.valuation ∧
      (zs.map logged).Sublist more.reverse := by
  induction xs generalizing done s with
  | nil =>
      cases hrun
      exact ⟨[], [], h, .nil, .nil (.refl _), .slnil⟩
  | cons x xs ih =>
      obtain ⟨s₁, hx, hrun⟩ := Replays.cons_iff.mp hrun
      obtain ⟨hid, hids⟩ := List.forall_mem_cons.mp hids
      obtain ⟨h₁, hdid⟩ := h.step hid hx
      obtain ⟨more, zs, h', henacts, hcourse, hlogged⟩ := ih h₁ hids hrun
      rw [← List.singleton_append, ← List.append_assoc] at h'
      cases hdid with
      | started o fp ho hperforms hvaluation hlast =>
          refine ⟨more ++ [(s₁.last, x.time)], (x, ⟨x.time, o.ground, fp⟩) :: zs, h',
            .started (Scheduled.task_of_start ho) henacts, ?_, ?_⟩
          · exact .cons (o.performs_iff.mpr hperforms) (hvaluation ▸ .refl _) hcourse
          · rw [List.reverse_append, List.map_cons, hlast]
            exact hlogged.cons_cons _
      | finished o ho hvaluation hlast =>
          refine ⟨more ++ [(s₁.last, x.time)], zs, h',
            .idle (Scheduled.task_of_finish ho) henacts, hvaluation ▸ hcourse, ?_⟩
          rw [List.reverse_append]
          exact hlogged.cons _

theorem Schedule.Consists.nodup_starts (h : sched.Consists os) :
    ((sched.events.filter (·.task?.isSome)).map (·.event.activity.id)).Nodup := by
  have hperm := (h.perm.filter (·.task?.isSome)).map (·.event.activity.id)
  rw [filter_task_flatMap, List.map_map] at hperm
  exact hperm.nodup_iff.mpr h.nodup

theorem clear_of_apart (hapart : done.Pairwise (Apart epsilon))
    (hlogged : (zs.map logged).Sublist done.reverse)
    (hids : ∀ z ∈ zs, z.1.event.activity.id ≠ 0)
    (hnodup : (zs.map (·.1.event.activity.id)).Nodup) :
    (zs.map Prod.snd).Pairwise (Deed.Clear epsilon) := by
  have hpairs := List.pairwise_map.mp ((List.pairwise_reverse.mpr hapart).sublist hlogged)
  have hne := List.pairwise_map.mp hnodup
  refine List.pairwise_map.mpr ((hpairs.and hne).imp_of_mem fun {y z} hy hz h => ?_)
  refine Deed.Clear.symm fun hinterferes => ?_
  exact h.1 (hids z hz) (hids y hy) (fun hsame => h.2 hsame.1.symm) hinterferes

theorem Step.same_of_end {x : Scheduled} {q : Placement} (h : Step sched.sim x s s')
    (hx : x.event = .endAction q .empty) : s'.valuation.Same s.valuation := by
  intro key
  refine (h.unchanged ?_).symm
  rw [h.writes_nil (by rw [hx]; rfl) (by rw [hx]; rfl) (by rw [hx]; rfl)]
  exact List.not_mem_nil

theorem course_of_replays (hos : sched.Consists os) (ht : Timely sched)
    (hrun : Simulator.Run sched.sim [] sched.sim.initialState)
    (h : Replays sched.sim sched.sim.initialState sched.whole s) :
    ∃ ds, sched.events.filterMap Scheduled.task? = ds.map Deed.task ∧
      ds.Pairwise (Deed.Clear sched.sim.epsilon) ∧ (∀ d ∈ ds, 0 ≤ d.time) ∧
      Course sched.sim.defaults (.ofMap sched.sim.problem.initial) ds s.valuation := by
  obtain ⟨s', hevents, hlast⟩ := Replays.append_iff.mp h
  obtain ⟨s'', hend, hnil⟩ := Replays.cons_iff.mp hlast
  cases hnil
  obtain ⟨q, hq, -⟩ := ht.finish
  have hids : ∀ x ∈ sched.events, x.event.activity.id ≠ 0 := fun x hx => hos.activity_ne_zero hx
  obtain ⟨more, zs, hpoised, henacts, hcourse, hlogged⟩ :=
    (hos.poised ht hrun).course hids hevents
  rw [List.append_nil] at hpoised
  obtain ⟨τ, hτ⟩ := (hpoised.run.apply hend).represents.check_iff.mp hend.consistent
  obtain ⟨hnonneg, hapart⟩ : (∀ a ∈ (s.last, sched.makespan) :: more, 0 ≤ a.2) ∧
      ((s.last, sched.makespan) :: more).Pairwise (Apart sched.sim.epsilon) := apart_of_allows hτ
  have hnodup : (zs.map (·.1.event.activity.id)).Nodup := by
    have hstarts := hos.nodup_starts
    rwa [← henacts.starts, List.map_map] at hstarts
  refine ⟨zs.map Prod.snd, henacts.tasks, ?_, fun d hd => ?_, hcourse.to_same ?_⟩
  · exact clear_of_apart hapart.of_cons hlogged
      (fun z hz => hids z.1 (henacts.mem_events hz).1) hnodup
  · obtain ⟨z, hz, rfl⟩ := List.mem_map.mp hd
    have hmem := hlogged.subset (List.mem_map_of_mem hz)
    exact hnonneg (logged z) (List.mem_cons_of_mem _ (List.mem_reverse.mp hmem))
  · exact (hend.same_of_end hq).symm

end Readings

section Writings

variable {sim : Simulator} {v : Valuation} {o : Occurrence} {fp : Footprint}

theorem writtenBy_start (hplain : o.action.simulated = none)
    (h : o.action.Performs (sim.situation v o.ground.bindings) fp) :
    ∃ keys, writtenBy sim v o.start = .ok keys ∧ ∀ key ∈ keys, key ∈ fp.updates.keys := by
  obtain ⟨keys, hkeys, hsame⟩ := h.targets
  have heffects : o.start.effects = o.action.effects := rfl
  have hcontinuous : o.start.continuousEffects = [] := rfl
  have hsimulated : o.start.simulated = none := hplain
  refine ⟨keys, ?_, fun key hk => (hsame key).mp hk⟩
  simp only [writtenBy, heffects, hcontinuous, hsimulated]
  exact except_bind_ok.mpr ⟨keys, hkeys, by simp [except_pure_ok]⟩

theorem writtenBy_finish (o : Occurrence) : writtenBy sim v o.finish = .ok [] := rfl

theorem Ready.occurs {es : List Event} {e : Event} {s : State} (h : Ready sim es s) (he : e ∈ es)
    (hid : e.activity.id ≠ 0) : ∃ o : Occurrence, e = o.start ∨ e = o.finish := by
  have hrunning := h.running e.activity.id hid
  have hmem : e ∈ es.filter fun e' => e'.activity.id = e.activity.id :=
    List.mem_filter.mpr ⟨he, by simp⟩
  generalize (es.filter fun e' => e'.activity.id = e.activity.id) = mine at hmem hrunning
  cases hrunning with
  | nothing => simp at hmem
  | both o => exact ⟨o, List.mem_pair.mp hmem⟩
  | finish o => exact ⟨o, .inr (List.mem_singleton.mp hmem)⟩

end Writings

section Runs

variable {sched : Schedule} {os : List Occurrence} {done : List (Applied × Rat)} {x : Scheduled}
  {xs rest : List Scheduled} {xss : List (List Scheduled)} {zs : List (Scheduled × Deed)}
  {s : State} {w : Valuation} {p : Progress}

structure Prepared (sched : Schedule) (done : List (Applied × Rat)) (rest : List Scheduled)
    (zs : List (Scheduled × Deed)) (w : Valuation) (s : State) : Prop where
  poised : Poised sched done rest s
  apart : done.Pairwise (Apart sched.sim.epsilon)
  enacts : Enacts rest zs
  free : ∀ a ∈ done, ∀ z ∈ zs, Apart sched.sim.epsilon (logged z) a
  clear : (zs.map Prod.snd).Pairwise (Deed.Clear sched.sim.epsilon)
  course : Course sched.sim.defaults s.valuation (zs.map Prod.snd) w

theorem visit_unwatched (sim : Simulator) (time : Rat) (hm : p.monitor = []) :
    Validator.visit sim time p = .ok (p, none) := by
  obtain ⟨state, monitor, trace⟩ := p
  obtain rfl : monitor = [] := hm
  rfl

theorem times_of_instants {es : List Scheduled} (h : xs ∈ Scheduled.instants es) :
    ∃ time, ∀ x ∈ xs, x.time = time := by
  have hchain := List.isChain_of_mem_splitBy h
  cases xs with
  | nil => exact ⟨0, by simp⟩
  | cons x xs =>
      have htrans : IsTrans Scheduled fun a b => decide (a.time = b.time) = true :=
        ⟨fun a b c hab hbc => by simp_all⟩
      refine ⟨x.time, List.forall_mem_cons.mpr ⟨rfl, fun y hy => ?_⟩⟩
      have hsame := List.rel_of_pairwise_cons (List.isChain_iff_pairwise.mp hchain) hy
      exact (of_decide_eq_true hsame).symm

namespace Prepared

theorem start (h : Prepared sched done (x :: rest) zs w s) (hs : sched.Regular)
    (hid : x.event.activity.id ≠ 0) {o : Occurrence} (ho : x.event = o.start) :
    ∃ done' zs' s', Step sched.sim x s s' ∧ Prepared sched done' rest zs' w s' := by
  obtain ⟨hpoised, hapart, henacts, hfree, hclear, hcourse⟩ := h
  obtain ⟨d, zs, rfl, htime, hground, henacts⟩ := henacts.started_inv ho
  rw [List.map_cons] at hclear hcourse
  obtain ⟨hfirst, hclear⟩ := List.pairwise_cons.mp hclear
  have hapart' : (logged (x, d) :: done).Pairwise (Apart sched.sim.epsilon) :=
    List.pairwise_cons.mpr ⟨fun a ha => hfree a ha _ List.mem_cons_self, hapart⟩
  have hfree' : ∀ a ∈ logged (x, d) :: done, ∀ z ∈ zs, Apart sched.sim.epsilon (logged z) a := by
    refine List.forall_mem_cons.mpr ⟨fun z hz _ _ _ hinterferes => ?_, fun a ha z hz =>
      hfree a ha z (List.mem_cons_of_mem _ hz)⟩
    exact (hfirst z.2 (List.mem_map_of_mem hz)).symm hinterferes
  have hlogged : logged (x, d) =
      (⟨x.event, d.footprint.reads, d.footprint.updates.keys⟩, x.time) := by
    rw [logged, htime]
  rw [hlogged] at hapart' hfree'
  cases hcourse with
  | cons performs after hcourse =>
      rw [← hground, o.performs_iff] at performs
      have hgives := (hpoised.examine_started hid ho).mpr ⟨d.footprint, performs, rfl, rfl⟩
      have hstep := hpoised.accepts hs hgives hapart'
      exact ⟨_, zs, _, hstep, (hpoised.step hid hstep).1, hapart', henacts, hfree', hclear,
        hcourse.from_same after.symm⟩

theorem finish (h : Prepared sched done (x :: rest) zs w s) (hs : sched.Regular)
    (hid : x.event.activity.id ≠ 0) {o : Occurrence} (ho : x.event = o.finish) :
    ∃ done' zs' s', Step sched.sim x s s' ∧ Prepared sched done' rest zs' w s' := by
  have hapart := apart_cons_idle h.apart x.event x.time
  have hstep := h.poised.accepts hs (h.poised.examine_finished hid ho) hapart
  refine ⟨_, zs, _, hstep, (h.poised.step hid hstep).1, hapart,
    h.enacts.idle_inv (Scheduled.task_of_finish ho), ?_, h.clear, h.course⟩
  exact List.forall_mem_cons.mpr ⟨fun z _ => (apart_of_idle (logged z)).symm, h.free⟩

theorem step (h : Prepared sched done (x :: rest) zs w s) (hs : sched.Regular)
    (hid : x.event.activity.id ≠ 0) :
    ∃ done' zs' s', Step sched.sim x s s' ∧ Prepared sched done' rest zs' w s' := by
  rcases h.poised.ready.head hid with ⟨o, ho, -⟩ | ⟨o, ho, -⟩
  · exact h.start hs hid ho
  · exact h.finish hs hid ho

theorem written (h : Prepared sched done (xs ++ rest) zs w s) (hepsilon : 0 < sched.sim.epsilon)
    (hids : ∀ x ∈ xs, x.event.activity.id ≠ 0) {time : Rat} (htimes : ∀ x ∈ xs, x.time = time)
    (hx : x ∈ xs) : ∃ keys, writtenBy sched.sim s.valuation x.event = .ok keys ∧
      ∀ key ∈ keys, ∃ d, (x, d) ∈ zs ∧ d.time = time ∧ key ∈ d.footprint.updates.keys := by
  have hmem : x.event ∈ (xs ++ rest).map Scheduled.event :=
    List.mem_map_of_mem (List.mem_append_left _ hx)
  obtain ⟨o, ho | ho⟩ := h.poised.ready.occurs hmem (hids x hx)
  · obtain ⟨before, after, rfl, hxs, -⟩ := h.enacts.append_inv
    have htime {z : Scheduled × Deed} (hz : z ∈ before) : z.2.time = time :=
      (hxs.time_eq hz).trans (htimes z.1 (hxs.mem_events hz).1)
    obtain ⟨d, hd, hground⟩ := hxs.exists_deed hx ho
    obtain ⟨earlier, later, rfl⟩ := List.append_of_mem hd
    have hcourse := h.course
    have hclear := h.clear
    simp only [List.map_append, List.map_cons, List.append_assoc, List.cons_append]
      at hcourse hclear
    -- so the deed could as well be the first of its instant, and writes what it would write there
    have hfree : ∀ b ∈ earlier.map Prod.snd, ¬ b.footprint.Interferes d.footprint := by
      intro b hb
      obtain ⟨z, hz, rfl⟩ := List.mem_map.mp hb
      have hzd := (List.pairwise_append.mp hclear).2.2 z.2 hb d List.mem_cons_self
      exact hzd.not_interferes hepsilon
        ((htime (List.mem_append_left _ hz)).trans (htime hd).symm)
    have hperforms := hcourse.performs hfree
    rw [← hground, o.performs_iff] at hperforms
    have hplain := h.poised.ready.plain x.event hmem
    rw [ho] at hplain
    obtain ⟨keys, hkeys, hwrites⟩ := writtenBy_start hplain hperforms
    exact ⟨keys, ho ▸ hkeys, fun key hk =>
      ⟨d, List.mem_append_left _ hd, htime hd, hwrites key hk⟩⟩
  · exact ⟨[], ho ▸ writtenBy_finish o, by simp⟩

theorem unclashed (h : Prepared sched done (xs ++ rest) zs w s) (hepsilon : 0 < sched.sim.epsilon)
    (hids : ∀ x ∈ xs, x.event.activity.id ≠ 0) {time : Rat} (htimes : ∀ x ∈ xs, x.time = time) :
    simultaneousWrites sched.sim s.valuation xs .empty = .ok none := by
  have hwritten {x : Scheduled} (hx : x ∈ xs) := h.written hepsilon hids htimes hx
  obtain ⟨clash, hclash⟩ : ∃ clash,
      simultaneousWrites sched.sim s.valuation xs .empty = .ok clash :=
    simultaneousWrites_total fun x hx => (hwritten hx).imp fun _ hkeys => hkeys.1
  have hsymm : Std.Symm fun y z : Scheduled × Deed => y.2.Clear sched.sim.epsilon z.2 :=
    ⟨fun _ _ hclear => hclear.symm⟩
  have hnone : clash = none := by
    refine simultaneousWrites_none hclash
      (fun x key => ∃ d, (x, d) ∈ zs ∧ d.time = time ∧ key ∈ d.footprint.updates.keys)
      (fun x hx keys hkeys => ?_) ?_ (by simp)
    · obtain ⟨keys', hkeys', hdeeds⟩ := hwritten hx
      obtain rfl := Except.ok.inj (hkeys'.symm.trans hkeys)
      exact hdeeds
    · refine List.pairwise_of_forall_mem_list fun x hx y hy key hxkey hykey => ?_
      obtain ⟨d, hd, htime, hkey⟩ := hxkey
      obtain ⟨d', hd', htime', hkey'⟩ := hykey
      by_contra hne
      have hclear := (List.pairwise_map.mp h.clear).forall hd hd' fun hsame =>
        hne (congrArg (fun z : Scheduled × Deed => z.1.event.activity.id) hsame)
      exact hclear.not_interferes hepsilon (htime.trans htime'.symm) ⟨key, .inl ⟨hkey, .inr hkey'⟩⟩
  rw [hclash, hnone]

theorem applyEvents (h : Prepared sched done (xs ++ rest) zs w p.state) (hs : sched.Regular)
    (hids : ∀ x ∈ xs, x.event.activity.id ≠ 0) (hm : p.monitor = []) : ∃ done' zs' q,
      (Validator.applyEvents sched.sim xs p).Yields (q, none) ∧ q.monitor = [] ∧
      Prepared sched done' rest zs' w q.state := by
  induction xs generalizing done zs p with
  | nil => exact ⟨done, zs, p, fun _ => rfl, hm, h⟩
  | cons x xs ih =>
      obtain ⟨hid, hids⟩ := List.forall_mem_cons.mp hids
      obtain ⟨done₁, zs₁, s₁, hstep, h₁⟩ := h.step hs hid
      let p₁ : Progress := ⟨s₁, p.monitor, p.trace ++ [x.entry]⟩
      obtain ⟨done', zs', q, hq, hm', h'⟩ := ih (p := p₁) h₁ hids hm
      refine ⟨done', zs', q, ?_, hm', h'⟩
      refine Yields.bind ((steady_tryApply sched.sim x.event p.state _).yields hstep) ?_
      refine Yields.bind (a := ()) (fun _ => rfl) ?_
      have hvisit := visit_unwatched (p := p₁) sched.sim x.time hm
      exact Yields.bind ((steady_ofExcept _).yields hvisit) hq

theorem applyInstants (h : Prepared sched done (xss.flatten ++ rest) zs w p.state)
    (hs : sched.Regular) (hepsilon : 0 < sched.sim.epsilon)
    (hids : ∀ xs ∈ xss, ∀ x ∈ xs, x.event.activity.id ≠ 0)
    (htimes : ∀ xs ∈ xss, ∃ time, ∀ x ∈ xs, x.time = time) (hm : p.monitor = []) :
    ∃ done' zs' q, (Validator.applyInstants sched.sim xss p).Yields (q, none) ∧ q.monitor = [] ∧
      Prepared sched done' rest zs' w q.state := by
  induction xss generalizing done zs p with
  | nil => exact ⟨done, zs, p, fun _ => rfl, hm, h⟩
  | cons xs xss ih =>
      obtain ⟨hid, hids⟩ := List.forall_mem_cons.mp hids
      obtain ⟨⟨time, htime⟩, htimes⟩ := List.forall_mem_cons.mp htimes
      rw [List.flatten_cons, List.append_assoc] at h
      obtain ⟨done₁, zs₁, q₁, hq₁, hm₁, h₁⟩ := h.applyEvents hs hid hm
      obtain ⟨done', zs', q, hq, hm', h'⟩ := ih h₁ hids htimes hm₁
      refine ⟨done', zs', q, ?_, hm', h'⟩
      refine Yields.bind ((steady_ofExcept _).yields (h.unclashed hepsilon hid htime)) ?_
      exact Yields.bind hq₁ hq

theorem applyEnd
    (h : Prepared sched done [⟨sched.sim.planEnd, sched.makespan, .goal⟩] zs w p.state)
    (hs : sched.Regular) (hm : p.monitor = []) :
    ∃ q, (Validator.applyEnd sched.sim sched.makespan p).Yields (q, none) ∧
      q.state.valuation.Same w := by
  obtain ⟨r, hend, -, hactivity⟩ := hs.timely.finish
  have haccepted := h.poised.accepts hs (h.poised.examine_end rfl hend hactivity)
    (apart_cons_idle h.apart _ _)
  obtain ⟨s', hstep, hvaluation⟩ : ∃ s', Step sched.sim ⟨sched.sim.planEnd, sched.makespan, .goal⟩
      p.state s' ∧ s'.valuation = p.state.valuation := ⟨_, haccepted, rfl⟩
  have hsame : p.state.valuation.Same w := by
    have hcourse := h.course
    cases h.enacts.idle_inv (by rw [Scheduled.task?, hend])
    cases hcourse with
    | nil same => exact same
  refine ⟨⟨s', [], p.trace ++ [(sched.makespan, sched.sim.planEnd.label)]⟩, ?_,
    hvaluation ▸ hsame⟩
  rw [Validator.applyEnd, hm]
  exact Yields.bind ((steady_tryApply sched.sim _ p.state _).yields hstep) fun _ => rfl

end Prepared

theorem execute_of_course (hos : sched.Consists os) (hs : sched.Regular)
    (hrun : Simulator.Run sched.sim [] sched.sim.initialState)
    (htrajectory : sched.sim.problem.trajectory = []) (hepsilon : 0 < sched.sim.epsilon)
    {ds : List Deed} (htasks : sched.events.filterMap Scheduled.task? = ds.map Deed.task)
    (hclear : ds.Pairwise (Deed.Clear sched.sim.epsilon))
    (hcourse : Course sched.sim.defaults (.ofMap sched.sim.problem.initial) ds w) :
    ∃ p, (Validator.execute sched.sim sched).result = .ok (p, none) ∧
      p.state.valuation.Same w := by
  obtain ⟨r, hend, -⟩ := hs.timely.finish
  have hwhole : sched.whole.filterMap Scheduled.task? = ds.map Deed.task := by
    have hidle : Scheduled.task? ⟨sched.sim.planEnd, sched.makespan, .goal⟩ = none := by
      rw [Scheduled.task?, hend]
    rw [Schedule.whole, List.filterMap_append, htasks, List.filterMap_cons_none hidle,
      List.filterMap_nil, List.append_nil]
  obtain ⟨zs, hzs, rfl⟩ := Enacts.of_tasks hwhole
  let p₀ : Progress := ⟨sched.sim.initialState, .start sched.sim.problem.trajectory, []⟩
  have hm : p₀.monitor = [] := congrArg Monitor.start htrajectory
  have hstart : Prepared sched [] sched.whole zs w p₀.state :=
    ⟨hos.poised hs.timely hrun, .nil, hzs, by simp, hclear, hcourse⟩
  have hinstants : sched.whole = (Scheduled.instants sched.events).flatten ++
      [⟨sched.sim.planEnd, sched.makespan, .goal⟩] := by
    rw [Scheduled.instants, List.flatten_splitBy, Schedule.whole]
  have hids : ∀ xs ∈ Scheduled.instants sched.events, ∀ x ∈ xs, x.event.activity.id ≠ 0 := by
    intro xs hxs x hx
    refine hos.activity_ne_zero ?_
    rw [← List.flatten_splitBy (fun a b : Scheduled => a.time = b.time) sched.events]
    exact List.mem_flatten_of_mem hxs hx
  rw [hinstants] at hstart
  obtain ⟨done, zs', q, hq, hm', hlast⟩ :=
    hstart.applyInstants hs hepsilon hids (fun _ hxs => times_of_instants hxs) hm
  obtain ⟨p, hp, hsame⟩ := hlast.applyEnd hs hm'
  refine ⟨p, ?_, hsame⟩
  have hvisit := visit_unwatched sched.sim 0 hm
  have hyields : (Validator.execute sched.sim sched).Yields (p, none) :=
    Yields.bind ((steady_ofExcept _).yields hvisit) (Yields.bind hq hp)
  exact hyields []

end Runs

end TemporalPlanning
