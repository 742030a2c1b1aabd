import TemporalPlanning.Proofs.SnapshotRuns

namespace TemporalPlanning

/-- Of events of one time and kind it makes no difference which one comes first. -/
def TimedStep.Calm (epsilon : Rat) (s s' : TimedStep) : Prop :=
  ∀ a ∈ s.happenings epsilon, ∀ b ∈ s'.happenings epsilon, a.time = b.time →
    a.event.kind = b.event.kind → ¬ a.event.Clashes b.event

section Distances

variable {epsilon : Rat} {a b : Happening × Footprint} {k : Numbering} {z w : Scheduled × Footprint}

def Distant (epsilon : Rat) (a b : Happening × Footprint) : Prop :=
  a.1.owner ≠ .plan → b.1.owner ≠ .plan →
  ¬ (a.1.owner = b.1.owner ∧ a.1.event.offset = b.1.event.offset) →
  a.2.Interferes b.2 → epsilon ≤ |a.1.time - b.1.time|

theorem Distant.symm (h : Distant epsilon a b) : Distant epsilon b a := by
  rintro hb ha hne ⟨key, hkey⟩
  rw [abs_sub_comm]
  exact h ha hb (fun hsame => hne ⟨hsame.1.symm, hsame.2.symm⟩) ⟨key, by tauto⟩

theorem distant_iff (hinjective : Function.Injective k.owner) (hplan : k.owner 0 = .plan) :
    Distant epsilon (k.shown z) (k.shown w) ↔ Apart epsilon (noted z) (noted w) := by
  have howner (y : Scheduled) : (k.happening y).owner ≠ .plan ↔ y.event.activity.id ≠ 0 := by
    rw [← hplan]
    exact hinjective.ne_iff
  have hsame (y y' : Scheduled) : (k.happening y).owner = (k.happening y').owner ↔
      y.event.activity.id = y'.event.activity.id := hinjective.eq_iff
  have hoffset (y : Scheduled) : (k.happening y).event.offset = y.event.offset :=
    Event.offset_bare _ _
  simp only [Distant, Apart, Numbering.shown, noted, howner, hsame, hoffset]
  rfl

end Distances

section Lifts

variable {α β γ : Type} {f g : α → β} {xs ys : List α} {zs : List (α × γ)}
  {xss yss : List (List α)} {zss : List (List (α × γ))}

theorem exists_labelled (h : (xs.map f).Perm (ys.map g)) (hzs : zs.map Prod.fst = xs) :
    ∃ ws : List (α × γ), ws.map Prod.fst = ys ∧
      (zs.map fun z => (f z.1, z.2)).Perm (ws.map fun w => (g w.1, w.2)) := by
  have hmap : (zs.map fun z => (f z.1, z.2)).map Prod.fst = xs.map f := by
    simp [← hzs, Function.comp_def]
  have hsplit : Relation.Comp (· = List.map Prod.fst ·) List.Perm (ys.map g)
      (zs.map fun z => (f z.1, z.2)) := by
    rw [List.eq_map_comp_perm]
    change List.Perm _ (List.map Prod.fst _)
    rw [hmap]
    exact h.symm
  obtain ⟨vs, hvs, hperm⟩ := hsplit
  have hlength : ys.length = (vs.map Prod.snd).length := by
    simpa using congrArg List.length hvs
  refine ⟨ys.zip (vs.map Prod.snd), List.map_fst_zip hlength.le, hperm.symm.trans ?_⟩
  have hvs : vs = (ys.zip (vs.map Prod.snd)).map fun w => (g w.1, w.2) :=
    (List.zip_of_prod hvs.symm rfl).trans List.zip_map_left
  rw [← hvs]

theorem exists_labelled_all
    (h : List.Forall₂ (fun xs ys => (xs.map f).Perm (ys.map g)) xss yss)
    (hzss : zss.map (List.map Prod.fst) = xss) : ∃ wss : List (List (α × γ)),
      wss.map (List.map Prod.fst) = yss ∧ List.Forall₂ List.Perm
        (zss.map (List.map fun z => (f z.1, z.2))) (wss.map (List.map fun w => (g w.1, w.2))) := by
  induction h generalizing zss with
  | nil =>
      obtain rfl : zss = [] := by simpa using hzss
      exact ⟨[], rfl, .nil⟩
  | cons hfirst _ ih =>
      obtain ⟨zs, rest, rfl, hzs, hrest⟩ := List.map_eq_cons_iff.mp hzss
      obtain ⟨ws, hws, hperm⟩ := exists_labelled hfirst hzs
      obtain ⟨wss, hwss, hperms⟩ := ih hrest
      exact ⟨ws :: wss, by rw [List.map_cons, hws, hwss], .cons hperm hperms⟩

end Lifts

inductive Precedes (k : Numbering) (sched : Schedule) :
    Happening × Footprint → Happening × Footprint → Prop
  | of {z w : Scheduled × Footprint} (left : z.1 ∈ sched.events) (right : w.1 ∈ sched.events)
      (before : z.1.notAfter w.1 = true) (ne : z.1.event.id ≠ w.1.event.id)
      (apart : Apart sched.sim.epsilon (noted z) (noted w)) :
      Precedes k sched (k.shown z) (k.shown w)

section Relistings

variable {k k' : Numbering} {steps steps' : List TimedStep} {sched sched' : Schedule}
  {made made' : List (List Event)} {arranged arranged' : List Scheduled}
  {zss wss : List (List (Scheduled × Footprint))} {c c' : Snapshot} {z w : Scheduled × Footprint}

theorem Assembled.in_order (h : Assembled sched made arranged) (hflat : zss.flatten.map Prod.fst =
    sched.events) : ∀ zs ∈ zss, zs.Pairwise fun z w => z.1 ∈ sched.events ∧ w.1 ∈ sched.events ∧
      z.1.notAfter w.1 = true ∧ z.1.event.id ≠ w.1.event.id := by
  have hsorted := h.sorted
  have hids := h.numbered.nodup
  rw [List.map_map] at hids
  have hboth : sched.events.Pairwise fun x y => x ∈ sched.events ∧ y ∈ sched.events ∧
      x.notAfter y = true ∧ x.event.id ≠ y.event.id :=
    (hsorted.and (List.pairwise_map.mp hids)).imp_of_mem fun hx hy hxy => ⟨hx, hy, hxy⟩
  intro zs hzs
  have hall : zss.flatten.Pairwise fun z w => z.1 ∈ sched.events ∧ w.1 ∈ sched.events ∧
      z.1.notAfter w.1 = true ∧ z.1.event.id ≠ w.1.event.id := by
    rw [← List.pairwise_map (f := Prod.fst) (R := fun x y => x ∈ sched.events ∧ y ∈ sched.events ∧
      x.notAfter y = true ∧ x.event.id ≠ y.event.id), hflat]
    exact hboth
  exact hall.sublist (List.sublist_flatten_of_mem hzs)

theorem Described.exchange (h : Described k steps sched made arranged)
    (h' : Described k' steps' sched' made' arranged') (hsim : sched'.sim = sched.sim)
    (hperm : steps.Perm steps') (hdistinct : (steps.map TimedStep.step).Nodup)
    (hcalm : ∀ s s', [s, s'].Sublist steps → [s', s].Sublist steps' →
      s.Calm sched.sim.epsilon s')
    (hz : z.1 ∈ sched'.events) (hw : w.1 ∈ sched'.events) (hwz : w.1.notAfter z.1 = true)
    (hprecedes : Precedes k sched (k'.shown z) (k'.shown w)) :
    Exchange (k'.shown z) (k'.shown w) := by
  have hfits' := h'.fits
  rw [hsim] at hfits'
  generalize hza : k'.shown z = a at hprecedes ⊢
  generalize hwb : k'.shown w = b at hprecedes ⊢
  obtain @⟨x, y, hx, hy, hxy, hne, hapart⟩ := hprecedes
  obtain ⟨hzx, -⟩ := Prod.mk.inj hza
  obtain ⟨hwy, -⟩ := Prod.mk.inj hwb
  rcases h.fits.tie hfits' hperm hdistinct hx hy hz hw hzx hwy hxy hwz with
    hsame | ⟨htime, hkind, s, s', hxs, hys, hsub, hsub'⟩
  · exact absurd hsame hne
  have hox := TimedStep.owner_of_happening hxs
  have hoy := TimedStep.owner_of_happening hys
  have hsteps : s.step ≠ s'.step := by
    have hpair := hdistinct.sublist (hsub.map TimedStep.step)
    simpa using hpair
  have hkinds : (k.happening x.1).event.kind = (k.happening y.1).event.kind := by
    simpa [Numbering.happening] using hkind
  refine ⟨hkinds, fun hinterferes => ?_, hcalm s s' hsub hsub' _ hxs _ hys htime hkinds,
    fun i hi => ?_⟩
  · have hdistant := (distant_iff h.fits.injective h.fits.plan).mpr hapart
    have hfar := hdistant (by simp [Numbering.shown, hox]) (by simp [Numbering.shown, hoy])
      (fun hsame => hsteps ?_) hinterferes
    · have hzero : |(k.shown x).1.time - (k.shown y).1.time| = 0 := by
        have htime : (k.shown x).1.time = (k.shown y).1.time := htime
        rw [htime, sub_self, abs_zero]
      rw [hzero] at hfar
      exact absurd hfar (not_le.mpr h.positive)
    · have howners : (k.happening x.1).owner = (k.happening y.1).owner := hsame.1
      rw [hox, hoy] at howners
      exact Owner.step.inj howners
  · simp only [Numbering.shown, Numbering.happening, Event.interval?_bare, Option.map_eq_some_iff,
      Event.activity_bare] at hi ⊢
    obtain ⟨j, hj, rfl⟩ := hi
    have hown := (h.assembled.session.makes h.positive.le).activity_of_interval
      (h.assembled.mem_known _ hx) hj
    rw [IntervalCondition.bare, hown]

theorem PassesAll.relist (h : Described k steps sched made arranged)
    (h' : Described k' steps' sched' made' arranged') (hsim : sched'.sim = sched.sim)
    (hhappenings : (sched.events.map k.happening).Perm (sched'.events.map k'.happening))
    (hperm : steps.Perm steps') (hdistinct : (steps.map TimedStep.step).Nodup)
    (hcalm : ∀ s s', [s, s'].Sublist steps → [s', s].Sublist steps' →
      s.Calm sched.sim.epsilon s')
    (hpassesAll : PassesAll k sched zss c c') : ∃ wss, PassesAll k' sched' wss c c' := by
  have hforall := perm_instants (fun _ => rfl) (fun _ => rfl)
    (h.assembled.sorted.imp Scheduled.time_le_of_notAfter)
    (h'.assembled.sorted.imp Scheduled.time_le_of_notAfter) hhappenings
  obtain ⟨wss, hinstants, hshown⟩ := exists_labelled_all hforall hpassesAll.instants
  have hevents := Scheduled.flatten_shown hinstants
  have hbegins := hpassesAll.begins
  have hpassed := hpassesAll.passesInstants
  refine ⟨wss, hinstants, hsim ▸ hbegins, ?_, hpassesAll.finish, ?_⟩
  · rw [hsim]
    refine hpassed.of_perm hbegins.settled hshown (P := Precedes k sched) ?_ ?_
    · refine List.forall_mem_map.mpr fun zs hzs => List.pairwise_map.mpr ?_
      have hapart : zs.Pairwise fun z w => Apart sched.sim.epsilon (noted z) (noted w) :=
        (List.pairwise_map.mp hpassesAll.apart).sublist (List.sublist_flatten_of_mem hzs)
      refine (hapart.and (h.assembled.in_order hpassesAll.events zs hzs)).imp ?_
      rintro z w ⟨hapart, hz, hw, hbefore, hne⟩
      exact .of hz hw hbefore hne hapart
    · refine List.forall_mem_map.mpr fun ws hws => List.pairwise_map.mpr ?_
      refine (h'.assembled.in_order hevents ws hws).imp ?_
      rintro w z ⟨hw, hz, hwz, -⟩ hprecedes
      exact h.exchange h' hsim hperm hdistinct hcalm hz hw hwz hprecedes
  · have hflat : (zss.flatten.map k.shown).Perm (wss.flatten.map k'.shown) := by
      rw [List.map_flatten, List.map_flatten]
      exact List.Perm.flatten_congr hshown
    have hdistant : (zss.flatten.map k.shown).Pairwise (Distant sched.sim.epsilon) :=
      List.pairwise_map.mpr ((List.pairwise_map.mp hpassesAll.apart).imp fun hapart =>
        (distant_iff h.fits.injective h.fits.plan).mpr hapart)
    have hdistant' := hflat.pairwise hdistant fun hab => hab.symm
    rw [hsim]
    exact List.pairwise_map.mpr ((List.pairwise_map.mp hdistant').imp fun hapart =>
      (distant_iff h'.fits.injective h'.fits.plan).mp hapart)

theorem Schedule.Regular.relist (hs : sched.Regular) (hsim : sched'.sim = sched.sim)
    (hspan : sched'.makespan = sched.makespan)
    (hhappenings : (sched.events.map k.happening).Perm (sched'.events.map k'.happening))
    (htimely : (∀ x ∈ sched'.events, x.time ≤ sched'.makespan) → Timely sched') :
    sched'.Regular := by
  have htimes (x : Scheduled) (hx : x ∈ sched'.events) : ∃ y ∈ sched.events, y.time = x.time := by
    obtain ⟨y, hy, hyx⟩ := List.mem_map.mp (hhappenings.mem_iff.mpr (List.mem_map_of_mem hx))
    exact ⟨y, hy, congrArg Happening.time hyx⟩
  refine ⟨htimely fun x hx => ?_, fun x hx => ?_, ?_⟩
  · obtain ⟨y, hy, hyx⟩ := htimes x hx
    rw [← hyx, hspan]
    exact hs.timely.le_makespan y hy
  · obtain ⟨y, hy, hyx⟩ := htimes x hx
    exact hyx ▸ hs.nonneg y hy
  · have hgoal : sched'.goal = sched.goal := by
      funext e
      rw [Schedule.goal, Schedule.goal, hspan]
    have huncrossed := hs.uncrossed
    unfold Schedule.Crosses at huncrossed ⊢
    rwa [hsim, hgoal]

end Relistings

theorem TimedStep.calm_of_idle {epsilon : Rat} {s : TimedStep}
    (h : ∀ a ∈ s.happenings epsilon, a.event.Idle ∧ ¬ a.event.ClosesOpen) (s' : TimedStep) :
    s.Calm epsilon s' := by
  rintro a ha b - - - (⟨hidle, -⟩ | ⟨hopen, -⟩)
  · exact hidle (h a ha).1
  · exact (h a ha).2 hopen

theorem TimedStep.Calm.symm {epsilon : Rat} {s s' : TimedStep} (h : s.Calm epsilon s') :
    s'.Calm epsilon s :=
  fun b hb a ha htime hkind hclashes => h a ha b hb htime.symm hkind.symm hclashes.symm

namespace Validator

variable {v : Validator} {problem : Problem} {steps steps' : List TimedStep} {r r' : Report}
  {sim : Simulator} {sched : Schedule}

theorem exists_described
    (hsim : Simulator.new 0 problem v.epsilon v.provider component = .ok sim)
    (hsched : Schedule.ofSteps sim steps = .ok sched) (hepsilon : 0 < v.epsilon)
    (himpartial : ∀ p ∈ v.provider, p.Impartial)
    (hdistinct : (steps.map TimedStep.step).Nodup) : ∃ k made arranged ts,
      Described k steps sched made arranged ∧ k.Describes sim steps sched ts := by
  have hl := laid_ofSteps hsim hsched
  obtain ⟨made, -, xs, -, ys, -, -, -, hassembled⟩ := assembled_ofSteps hsim hsched
  obtain ⟨k, ts, hdescribes⟩ := exists_numbering hsim hsched hdistinct
  have hfits := hdescribes.fits
  rw [← hl.rules.epsilon] at hfits
  refine ⟨k, made, xs ++ ys, ts, ⟨hassembled, hfits, hl.run, ?_, ?_⟩, hdescribes⟩
  · rwa [hl.rules.epsilon, Simulator.epsilon_new hsim]
  · rwa [hl.rules.provider, Simulator.provider_new hsim]

theorem valid_of_relisted (hr : (v.validate problem (.timed steps)).outcome.1 = .ok r)
    (hvalid : r.isValid = true) (hepsilon : 0 < v.epsilon)
    (himpartial : ∀ p ∈ v.provider, p.Impartial)
    (hdistinct : (steps.map TimedStep.step).Nodup) (hperm : steps.Perm steps')
    (hcalm : ∀ s s', [s, s'].Sublist steps → [s', s].Sublist steps' → s.Calm v.epsilon s')
    (hr' : (v.validate problem (.timed steps')).outcome.1 = .ok r') : r'.isValid = true := by
  obtain ⟨sim, sched, p, violation, hsim, hsched, hp, hreport⟩ := execution_of_validate hr
  obtain ⟨sim', sched', p', violation', hsim', hsched', hp', hreport'⟩ := execution_of_validate hr'
  obtain rfl := Except.ok.inj (hsim.symm.trans hsim')
  obtain ⟨rfl, hgoals⟩ := (valid_of_report hreport).mp hvalid
  obtain ⟨k, made, arranged, ts, h, hdescribes⟩ :=
    exists_described hsim hsched hepsilon himpartial hdistinct
  obtain ⟨k', made', arranged', ts', h', hdescribes'⟩ :=
    exists_described hsim hsched' hepsilon himpartial ((hperm.map TimedStep.step).nodup hdistinct)
  obtain ⟨hsame, hspan, hhappenings⟩ := hdescribes.of_perm hdescribes' hperm
  obtain ⟨zss, c, c', hpassesAll, hs, hvalues⟩ := h.passesAll hp (timely_of_span hsim hsched)
  have hε : sched.sim.epsilon = v.epsilon :=
    (laid_ofSteps hsim hsched).rules.epsilon.trans (Simulator.epsilon_new hsim)
  rw [← hε] at hcalm
  obtain ⟨wss, hpassesAll'⟩ := hpassesAll.relist h h' hsame hhappenings hperm hdistinct hcalm
  have hs' := hs.relist hsame hspan hhappenings (timely_of_span hsim hsched')
  obtain ⟨q, hq, hvalues'⟩ := h'.executes hs' hpassesAll'
  -- the report is on that execution
  obtain ⟨records, hrecords⟩ := hp'
  obtain ⟨rfl, rfl⟩ := Prod.mk.inj (Except.ok.inj ((hq records).symm.trans hrecords))
  refine (valid_of_report hreport').mpr ⟨rfl, ?_⟩
  rw [hsame, Simulator.unsatisfiedGoals_congr sched.sim (hvalues.symm.trans hvalues'), hgoals]

end Validator

end TemporalPlanning
