import TemporalPlanning.Proofs.Executions
import TemporalPlanning.Proofs.ScheduleEvents

namespace TemporalPlanning

namespace Scheduled

def IsOf (x : Scheduled) (k : Nat) (offset : Rat) : Prop :=
  x.turn = .step k ∧ x.event.offset = offset

def opening (k : Nat) (s : TimedStep) (p : Placement) (i : IntervalCondition) : Scheduled :=
  ⟨.startCondition p i, s.start + p.offset, .step k⟩

def closing (k : Nat) (s : TimedStep) (p : Placement) (i : IntervalCondition) : Scheduled :=
  ⟨.endCondition p i, s.start + p.offset, .step k⟩

end Scheduled

namespace Schedule

def situation (sched : Schedule) (s : TimedStep) (st : State) : Situation :=
  sched.sim.situation st.valuation s.step.ground.bindings

theorem agrees {sched : Schedule} {s : TimedStep} {a b : State} {keys : List String}
    (h : ∀ key ∈ keys, b.valuation.get? key = a.valuation.get? key) :
    (sched.situation s a).Agrees (sched.situation s b) keys := ⟨rfl, rfl, h⟩

def ReachesBefore (sched : Schedule) (τ : Rat) (st : State) : Prop :=
  Replays sched.sim sched.sim.initialState (sched.events.filter fun x => x.time < τ) st

def ReachesAfter (sched : Schedule) (k : Nat) (offset : Rat) (st : State) : Prop :=
  ∃ before x after, sched.events = before ++ x :: after ∧ x.IsOf k offset ∧
    (∀ y ∈ after, ¬ y.IsOf k offset) ∧
    Replays sched.sim sched.sim.initialState (before ++ [x]) st

def Changes (sched : Schedule) (k : Nat) (offset : Rat) (s : TimedStep) (c : Expr) : Prop :=
  ∃ before x after a b keys, sched.events = before ++ x :: after ∧ x.IsOf k offset ∧
    Replays sched.sim sched.sim.initialState before a ∧ Step sched.sim x a b ∧
    c.reads (sched.situation s a) = .ok keys ∧
    ∃ key ∈ keys, b.valuation.get? key ≠ a.valuation.get? key

end Schedule

structure Window (sim : Simulator) (steps : List TimedStep) (sched : Schedule) (k : Nat)
    (s : TimedStep) (p q : Placement) (i : IntervalCondition) : Prop where
  step : steps[k]? = some s
  opening : .opening k s p i ∈ sched.events
  closing : .closing k s q i ∈ sched.events
  activity : i.activity = sim.stepActivity k s

structure Opens (sched : Schedule) (k : Nat) (s : TimedStep) (p : Placement)
    (i : IntervalCondition) (before after : List Scheduled) (a b : State) (keys : List String) :
    Prop where
  events : sched.events = before ++ .opening k s p i :: after
  run : Replays sched.sim sched.sim.initialState before a
  step : Step sched.sim (.opening k s p i) a b
  reads : i.condition.reads (sched.situation s b) = .ok keys
  recorded : ∀ key ∈ keys, key ∈ b.last.reads
  holds : i.condition.holds (sched.situation s b) = .ok true
  unchanged : ∀ key, b.valuation.get? key = a.valuation.get? key

theorem exists_last {α : Type} {P : α → Prop} {a : α} (ha : P a) (xs : List α) :
    ∃ before after front x, xs = before ++ after ∧ a :: before = front ++ [x] ∧ P x ∧
      ∀ y ∈ after, ¬ P y := by
  induction xs using List.reverseRecOn with
  | nil => exact ⟨[], [], [], a, rfl, rfl, ha, by simp⟩
  | append_singleton xs y ih =>
      by_cases hy : P y
      · exact ⟨xs ++ [y], [], a :: xs, y, by simp, rfl, hy, by simp⟩
      · obtain ⟨before, after, front, x, rfl, hfront, hx, hafter⟩ := ih
        refine ⟨before, after ++ [y], front, x, by simp, hfront, hx, fun z hz => ?_⟩
        rcases List.mem_append.mp hz with hz | hz
        · exact hafter z hz
        · exact List.mem_singleton.mp hz ▸ hy

section Window

variable {sim : Simulator} {steps : List TimedStep} {sched : Schedule} {k : Nat} {s : TimedStep}
  {p q : Placement} {i : IntervalCondition} {final st : State} {τ : Rat}
  {o x y : Scheduled} {before after : List Scheduled} {a b c d : State} {keys : List String}
  {log : RunLog}

namespace LaidOut

theorem sorted_time (h : LaidOut sim steps sched) :
    sched.events.Pairwise fun a b => a.time ≤ b.time :=
  h.sorted.imp Scheduled.time_le_of_notAfter

theorem eq_of_event (h : LaidOut sim steps sched) (hx : x ∈ sched.events)
    (hy : y ∈ sched.events) (he : x.event = y.event) : x = y := by
  have hnodup : (sched.events.map fun x => x.event.id).Nodup := by
    have hids := h.numbered.nodup
    rwa [List.map_map] at hids
  exact List.inj_on_of_nodup_map hnodup hx hy (by rw [he])

theorem reaches (h : LaidOut sim steps sched)
    (hall : Replays sched.sim sched.sim.initialState sched.events final) (τ : Rat) :
    ∃ st, sched.ReachesBefore τ st := by
  rw [Scheduled.split_at h.sorted_time τ] at hall
  obtain ⟨st, hst, -⟩ := Replays.append_iff.mp hall
  exact ⟨st, hst⟩

theorem of_turn (h : LaidOut sim steps sched) (hx : x ∈ sched.events) (hs : steps[k]? = some s)
    (hturn : x.turn = .step k) :
    x.time = s.start + x.event.offset ∧ x.event.BelongsTo (sim.stepActivity k s) := by
  obtain ⟨s', hs', hx⟩ := h.ofStep x hx k hturn
  obtain rfl : s' = s := by simpa [hs] using hs'.symm
  exact hx

theorem id_of_turn (h : LaidOut sim steps sched) (hx : x ∈ sched.events)
    (hs : steps[k]? = some s) (hturn : x.turn = .step k) :
    x.event.activity.id = (sim.stepActivity k s).id := by
  rw [(h.of_turn hx hs hturn).2.activity]

theorem stepActivity_id_ne (h : LaidOut sim steps sched) : (sim.stepActivity k s).id ≠ 0 := by
  have hid : (sim.stepActivity k s).id = sim.nextActivity + k := rfl
  have := h.firstActivity
  omega

theorem writes_nil_of_plan (h : LaidOut sim steps sched) (hx : x ∈ sched.events)
    (hid : x.event.activity.id = 0) (hstep : Step sched.sim x a b) : b.last.writes = [] := by
  have hplan := h.ofPlan x hx hid
  exact hstep.writes_nil hplan.effects hplan.continuousEffects hplan.simulated

theorem unwritten_after (h : LaidOut sim steps sched) {between : List Scheduled}
    (hrun : Simulator.Run sched.sim log a) (hx : x ∈ sched.events) (hs : steps[k]? = some s)
    (hturn : x.turn = .step k) (hstep : Step sched.sim x a b)
    (hbetween : Replays sched.sim b between c) (hy : y ∈ sched.events)
    (hlater : Step sched.sim y c d) (hnear : y.time - x.time < sched.sim.epsilon)
    (hother : ¬ y.IsOf k x.event.offset) : ∀ key ∈ b.last.reads, key ∉ d.last.writes := by
  intro key hread hwrite
  have hid := h.id_of_turn hx hs hturn
  have hdep := Replays.far_of_interferes hrun hstep hbetween hlater ⟨key, .inl ⟨hwrite, .inl hread⟩⟩
  rcases hdep with hsame | hplan | hplan | hfar
  · simp only [Simulator.sameInstant, Bool.and_eq_true, decide_eq_true_eq] at hsame
    obtain ⟨⟨hactivity, -⟩, hat⟩ := hsame
    exact hother ⟨h.own y hy k s hs (hactivity.symm.trans hid), hat.symm⟩
  · exact h.stepActivity_id_ne (hid.symm.trans hplan)
  · simp [h.writes_nil_of_plan hy hplan hlater] at hwrite
  · linarith

end LaidOut

theorem Window.situation (h : Window sim steps sched k s p q i) (st : State) :
    sched.sim.situation st.valuation i.activity.bindings = sched.situation s st := by
  rw [h.activity]
  rfl

theorem Window.holds_between (h : Window sim steps sched k s p q i) (hl : LaidOut sim steps sched)
    (hst : sched.ReachesBefore τ st) (hopen : s.start + p.offset < τ)
    (hclose : τ ≤ s.start + q.offset) :
    i.condition.holds (sched.situation s st) = .ok true := by
  have hmem : .opening k s p i ∈ sched.events.filter fun x => x.time < τ :=
    List.mem_filter.mpr ⟨h.opening, decide_eq_true hopen⟩
  obtain ⟨before, after, hsplit⟩ := List.append_of_mem hmem
  rw [Schedule.ReachesBefore, hsplit] at hst
  obtain ⟨a, -, hst⟩ := Replays.append_iff.mp hst
  obtain ⟨b, hstep, hst⟩ := Replays.cons_iff.mp hst
  have hi : i ∈ b.openConditions := by
    rw [hstep.openConditions_eq]
    exact List.mem_append_right _ (List.mem_singleton_self i)
  rw [← h.situation]
  refine hst.openHold hstep.openHold i (hst.mem_openConditions hi fun x hx q' j he hid => ?_)
  -- an event that closed the interval would be its closing event, which comes later
  have hx : x ∈ sched.events.filter fun x => x.time < τ := by
    rw [hsplit]
    exact List.mem_append_right _ (List.mem_cons_of_mem _ hx)
  obtain ⟨hx, hτ⟩ := List.mem_filter.mp hx
  have hj : Event.endCondition q' j ∈ sched.events.map (·.event) :=
    he ▸ List.mem_map_of_mem (f := Scheduled.event) hx
  have hq : Event.endCondition q i ∈ sched.events.map (·.event) :=
    List.mem_map_of_mem (f := Scheduled.event) h.closing
  have hclosing := hl.eq_of_event hx h.closing (he.trans (hl.numbered.closing_unique hq hj hid))
  rw [hclosing] at hτ
  have hτ : s.start + q.offset < τ := of_decide_eq_true hτ
  linarith

theorem Window.opens (h : Window sim steps sched k s p q i)
    (hall : Replays sched.sim sched.sim.initialState sched.events final) :
    ∃ before after a b keys, Opens sched k s p i before after a b keys := by
  obtain ⟨before, after, hsplit⟩ := List.append_of_mem h.opening
  rw [hsplit] at hall
  obtain ⟨a, hrun, hall⟩ := Replays.append_iff.mp hall
  obtain ⟨b, hstep, -⟩ := Replays.cons_iff.mp hall
  obtain ⟨keys, hkeys, hrecorded⟩ := hstep.reads_of_opening rfl
  have hunchanged (key : String) : b.valuation.get? key = a.valuation.get? key :=
    hstep.unchanged (by simp [hstep.writes_nil_of_opening rfl])
  have hi : i ∈ b.openConditions := by
    rw [hstep.openConditions_eq]
    exact List.mem_append_right _ (List.mem_singleton_self i)
  have hholds := hstep.openHold i hi
  rw [h.situation] at hkeys hholds
  have hreads := Expr.reads_of_agrees hkeys (Schedule.agrees fun key _ => hunchanged key)
  exact ⟨before, after, a, b, keys, hsplit, hrun, hstep, hreads, hrecorded, hholds, hunchanged⟩

theorem Window.unwritten_before (h : Window sim steps sched k s p q i)
    (hl : LaidOut sim steps sched) (hoffset : 0 < p.offset) {between : List Scheduled}
    (hrun : Simulator.Run sched.sim log a) (hy : y ∈ sched.events)
    (hbefore : y.notAfter (.opening k s p i) = true)
    (hnear : s.start + p.offset - y.time < sched.sim.epsilon) (hstep : Step sched.sim y a b)
    (hbetween : Replays sched.sim b between c)
    (hopen : Step sched.sim (.opening k s p i) c d) :
    ∀ key ∈ d.last.reads, key ∉ b.last.writes := by
  intro key hread hwrite
  have hid := hl.id_of_turn h.opening h.step rfl
  have hdep := Replays.far_of_interferes hrun hstep hbetween hopen ⟨key, .inr ⟨hwrite, hread⟩⟩
  rcases hdep with hsame | hplan | hplan | hfar
  · simp only [Simulator.sameInstant, Bool.and_eq_true, decide_eq_true_eq] at hsame
    obtain ⟨⟨hactivity, -⟩, hat⟩ := hsame
    have hturn := hl.own y hy k s h.step (hactivity.trans hid)
    obtain ⟨htime, hbelongs⟩ := hl.of_turn hy h.step hturn
    have hat : y.event.offset = p.offset := hat
    have hrank := Scheduled.rank_le_of_notAfter hbefore (by rw [htime, hat]; rfl)
      (by rw [hturn]; rfl)
    cases he : y.event with
    | startAction _ _ _ _ =>
        have hzero := hbelongs.offset_start (by rw [he]; rfl)
        linarith
    | startCondition _ _ => simp [hstep.writes_nil_of_opening he] at hwrite
    | endCondition _ _ => simp [he, Scheduled.opening, Event.kind, EventKind.rank] at hrank
    | endAction _ _ => simp [he, Scheduled.opening, Event.kind, EventKind.rank] at hrank
  · simp [hl.writes_nil_of_plan hy hplan hstep] at hwrite
  · exact hl.stepActivity_id_ne (hid.symm.trans hplan)
  · have hfar : sched.sim.epsilon ≤ s.start + p.offset - y.time := hfar
    linarith

namespace Opens

theorem values_before (ho : Opens sched k s p i before after a b keys)
    (h : Window sim steps sched k s p q i) (hl : LaidOut sim steps sched) (hoffset : 0 < p.offset)
    (hst : sched.ReachesBefore τ st) (hopen : τ ≤ s.start + p.offset)
    (hnear : s.start + p.offset - sched.sim.epsilon < τ) :
    ∀ key ∈ keys, st.valuation.get? key = b.valuation.get? key := by
  have hsorted := hl.sorted
  rw [ho.events, List.pairwise_append] at hsorted
  obtain ⟨hsorted, hlate, hahead⟩ := hsorted
  have hnone : (Scheduled.opening k s p i :: after).filter (fun x => decide (x.time < τ)) = [] := by
    refine List.filter_eq_nil_iff.mpr fun x hx => ?_
    have htime : s.start + p.offset ≤ x.time := by
      rcases List.mem_cons.mp hx with rfl | hx
      · exact le_rfl
      · exact Scheduled.time_le_of_notAfter ((List.pairwise_cons.mp hlate).1 x hx)
    simpa using hopen.trans htime
  rw [Schedule.ReachesBefore, ho.events, List.filter_append, hnone, List.append_nil] at hst
  have hrun := ho.run
  rw [Scheduled.split_at (hsorted.imp Scheduled.time_le_of_notAfter) τ] at hrun
  obtain ⟨st', hst', hrun⟩ := Replays.append_iff.mp hrun
  obtain rfl := hst.unique hst'
  intro key hkey
  rw [ho.unchanged]
  have hkept := hrun.values_eq (fun pre y post c d hy hpre hd hpost _ key hk => ?_) key hkey
  · exact hkept.symm
  obtain ⟨more, hlog, -⟩ := (Replays.append_iff.mpr ⟨st, hst, hpre⟩).logged hl.run
  have hmem : y ∈ before.filter fun x => τ ≤ x.time := by
    rw [hy]
    simp
  obtain ⟨hmem, hτ⟩ := List.mem_filter.mp hmem
  have hτ : τ ≤ y.time := of_decide_eq_true hτ
  have hymem : y ∈ sched.events := ho.events ▸ List.mem_append_left _ hmem
  have hunwritten := h.unwritten_before hl hoffset hlog hymem
    (hahead y hmem _ List.mem_cons_self) (by linarith) hd hpost ho.step
  exact hd.unchanged (hunwritten key (ho.recorded key hk))

theorem values_after (ho : Opens sched k s p i before after a b keys)
    (h : Window sim steps sched k s p q i) (hl : LaidOut sim steps sched)
    (hnear : τ ≤ s.start + p.offset + sched.sim.epsilon) {between rest : List Scheduled}
    {t : State} (hsplit : after.filter (fun x => x.time < τ) = between ++ rest)
    (hbetween : Replays sched.sim b between t) (hrest : Replays sched.sim t rest st)
    {mine : List String} (hmine : ∀ key ∈ mine, key ∈ keys)
    (hown : ∀ pre y post c d, rest = pre ++ y :: post → Replays sched.sim t pre c →
      Step sched.sim y c d → y.IsOf k p.offset →
      (∀ key ∈ mine, c.valuation.get? key = t.valuation.get? key) →
      ∀ key ∈ mine, d.valuation.get? key = c.valuation.get? key) :
    ∀ key ∈ mine, st.valuation.get? key = t.valuation.get? key := by
  refine hrest.values_eq fun pre y post c d hy hpre hd _ hsame => ?_
  by_cases hof : y.IsOf k p.offset
  · exact hown pre y post c d hy hpre hd hof hsame
  · have hmem : y ∈ after.filter fun x => x.time < τ := by
      rw [hsplit, hy]
      simp
    obtain ⟨hmem, hτ⟩ := List.mem_filter.mp hmem
    have hτ : y.time < τ := of_decide_eq_true hτ
    have hymem : y ∈ sched.events :=
      ho.events ▸ List.mem_append_right _ (List.mem_cons_of_mem _ hmem)
    have htime : (Scheduled.opening k s p i).time = s.start + p.offset := rfl
    obtain ⟨log, hlog, -⟩ := ho.run.logged hl.run
    have hunwritten := hl.unwritten_after hlog h.opening h.step rfl ho.step
      (Replays.append_iff.mpr ⟨t, hbetween, hpre⟩) hymem hd (by linarith) hof
    exact fun key hk => hd.unchanged (hunwritten key (ho.recorded key (hmine key hk)))

theorem sorted_after (ho : Opens sched k s p i before after a b keys)
    (hl : LaidOut sim steps sched) : after.Pairwise fun x y => x.time ≤ y.time := by
  have hsorted := hl.sorted_time
  rw [ho.events, List.pairwise_append, List.pairwise_cons] at hsorted
  exact hsorted.2.1.2

theorem events_eq (ho : Opens sched k s p i before after a b keys)
    (hl : LaidOut sim steps sched) (τ : Rat) : sched.events = before ++ .opening k s p i ::
      (after.filter (fun x => x.time < τ) ++ after.filter (fun x => τ ≤ x.time)) := by
  rw [← Scheduled.split_at (ho.sorted_after hl) τ]
  exact ho.events

theorem reaches (ho : Opens sched k s p i before after a b keys)
    (hl : LaidOut sim steps sched) (hopen : s.start + p.offset < τ)
    (hst : sched.ReachesBefore τ st) :
    Replays sched.sim b (after.filter fun x => x.time < τ) st := by
  have hsorted := hl.sorted
  rw [ho.events, List.pairwise_append] at hsorted
  have hearly : before.filter (fun x => decide (x.time < τ)) = before := by
    refine List.filter_eq_self.mpr fun x hx => decide_eq_true ?_
    have htime : x.time ≤ s.start + p.offset :=
      Scheduled.time_le_of_notAfter (hsorted.2.2 x hx _ List.mem_cons_self)
    exact htime.trans_lt hopen
  have hmine : (Scheduled.opening k s p i :: after).filter (fun x => decide (x.time < τ)) =
      .opening k s p i :: after.filter (fun x => decide (x.time < τ)) :=
    List.filter_cons_of_pos (decide_eq_true hopen)
  rw [Schedule.ReachesBefore, ho.events, List.filter_append, hearly, hmine] at hst
  obtain ⟨a', hrun, hst⟩ := Replays.append_iff.mp hst
  obtain ⟨b', hstep, hst⟩ := Replays.cons_iff.mp hst
  obtain rfl := ho.run.unique hrun
  obtain rfl := ho.step.unique hstep
  exact hst

theorem each (ho : Opens sched k s p i before after a b keys) {cs : List Expr}
    (hcs : i.condition = .conjunction cs) {e : Expr} (he : e ∈ cs) :
    e.holds (sched.situation s b) = .ok true ∧
      ∃ mine, e.reads (sched.situation s b) = .ok mine ∧ ∀ key ∈ mine, key ∈ keys :=
  ⟨Expr.holds_of_conjunction (hcs ▸ ho.holds) e he,
    Expr.reads_of_conjunction (hcs ▸ ho.reads) e he⟩

theorem holds_before (ho : Opens sched k s p i before after a b keys)
    (h : Window sim steps sched k s p q i) (hl : LaidOut sim steps sched) (hoffset : 0 < p.offset)
    {cs : List Expr} (hcs : i.condition = .conjunction cs) {e : Expr} (he : e ∈ cs)
    (hst : sched.ReachesBefore τ st) (hopen : τ ≤ s.start + p.offset)
    (hnear : s.start + p.offset - sched.sim.epsilon < τ) :
    e.holds (sched.situation s st) = .ok true := by
  obtain ⟨hholds, mine, hmine, hsub⟩ := ho.each hcs he
  have hkept := ho.values_before h hl hoffset hst hopen hnear
  rw [Expr.holds_of_agrees hmine (Schedule.agrees fun key hk => hkept key (hsub key hk))]
  exact hholds

theorem holds_after (ho : Opens sched k s p i before after a b keys)
    (h : Window sim steps sched k s p q i) (hl : LaidOut sim steps sched)
    {cs : List Expr} (hcs : i.condition = .conjunction cs) {e : Expr} (he : e ∈ cs)
    (hst : sched.ReachesBefore τ st) (hopen : s.start + p.offset < τ)
    (hnear : τ ≤ s.start + p.offset + sched.sim.epsilon)
    (hquiet : ¬ sched.Changes k p.offset s e) : e.holds (sched.situation s st) = .ok true := by
  obtain ⟨hholds, mine, hmine, hsub⟩ := ho.each hcs he
  have hrest := ho.reaches hl hopen hst
  have hkept := ho.values_after h hl hnear (List.nil_append _).symm .nil hrest hsub
    fun pre y post c d hy hpre hd hof hsame key hk => ?_
  · rw [Expr.holds_of_agrees hmine (Schedule.agrees hkept)]
    exact hholds
  · by_contra hchanged
    have hreads := Expr.reads_of_agrees hmine (Schedule.agrees hsame)
    refine hquiet ⟨before ++ .opening k s p i :: pre, y, post ++ after.filter (fun x => τ ≤ x.time),
      c, d, mine, ?_, hof, ?_, hd, hreads, key, hk, hchanged⟩
    · rw [ho.events_eq hl τ, hy]
      simp
    · exact Replays.append_iff.mpr ⟨a, ho.run, .cons ho.step hpre⟩

theorem decided_after (ho : Opens sched k s p i before after a b keys)
    (h : Window sim steps sched k s p q i) (hl : LaidOut sim steps sched) (hoffset : 0 < p.offset)
    (hε : 0 < sched.sim.epsilon) {cs : List Expr} (hcs : i.condition = .conjunction cs)
    {e : Expr} (he : e ∈ cs) {first : State}
    (hfirst : sched.ReachesBefore (s.start + p.offset) first)
    (hst : sched.ReachesBefore τ st) (hopen : s.start + p.offset < τ)
    (hnear : τ ≤ s.start + p.offset + sched.sim.epsilon) : ∃ t, sched.ReachesAfter k p.offset t ∧
      (e.reads (sched.situation s t) = e.reads (sched.situation s first) →
        (e.holds (sched.situation s st) = .ok true ↔
          e.holds (sched.situation s t) = .ok true)) := by
  obtain ⟨-, mine, hmine, hsub⟩ := ho.each hcs he
  have hrest := ho.reaches hl hopen hst
  obtain ⟨between, rest, front, x, hsplit, hfront, hx, hothers⟩ := exists_last
    (P := fun x : Scheduled => x.IsOf k p.offset) (a := .opening k s p i) ⟨rfl, rfl⟩
    (after.filter fun x => x.time < τ)
  rw [hsplit] at hrest
  obtain ⟨t, hbetween, hrest⟩ := Replays.append_iff.mp hrest
  have hkept := ho.values_after h hl hnear hsplit hbetween hrest hsub
    fun pre y post c d hy _ _ hof _ => absurd hof (hothers y (by simp [hy]))
  have hbefore := ho.values_before h hl hoffset hfirst le_rfl (by linarith)
  refine ⟨t, ⟨before ++ front, x, rest ++ after.filter (fun x => τ ≤ x.time), ?_, hx, ?_, ?_⟩, ?_⟩
  · rw [ho.events_eq hl τ, hsplit, List.append_assoc, ← List.cons_append, hfront]
    simp
  · intro y hy hof
    rcases List.mem_append.mp hy with hy | hy
    · exact hothers y hy hof
    · obtain ⟨hy, hτ⟩ := List.mem_filter.mp hy
      have hτ : τ ≤ y.time := of_decide_eq_true hτ
      have hmem : y ∈ sched.events :=
        ho.events ▸ List.mem_append_right _ (List.mem_cons_of_mem _ hy)
      have htime := (hl.of_turn hmem h.step hof.1).1
      rw [hof.2] at htime
      linarith
  · rw [List.append_assoc, ← hfront]
    exact Replays.append_iff.mpr ⟨a, ho.run, .cons ho.step hbetween⟩
  · intro hreads
    have hfirst : e.reads (sched.situation s first) = .ok mine :=
      Expr.reads_of_agrees hmine (Schedule.agrees fun key hk => hbefore key (hsub key hk))
    rw [Expr.holds_of_agrees (hreads.trans hfirst) (Schedule.agrees hkept)]

theorem near (ho : Opens sched k s p i before after a b keys) (h : Window sim steps sched k s p q i)
    (hl : LaidOut sim steps sched) (hoffset : 0 < p.offset) (hε : 0 < sched.sim.epsilon)
    {cs : List Expr} (hcs : i.condition = .conjunction cs) {e : Expr} (he : e ∈ cs) {first : State}
    (hfirst : sched.ReachesBefore (s.start + p.offset) first) (hst : sched.ReachesBefore τ st)
    (hbefore : s.start + p.offset - sched.sim.epsilon < τ)
    (hafter : τ ≤ s.start + p.offset + sched.sim.epsilon) :
    ((s.start + p.offset < τ → ¬ sched.Changes k p.offset s e) →
      e.holds (sched.situation s st) = .ok true) ∧
    (s.start + p.offset < τ → ∃ t, sched.ReachesAfter k p.offset t ∧
      (e.reads (sched.situation s t) = e.reads (sched.situation s first) →
        (e.holds (sched.situation s st) = .ok true ↔
          e.holds (sched.situation s t) = .ok true))) := by
  refine ⟨fun hquiet => ?_, fun hopen => ?_⟩
  · rcases lt_or_ge (s.start + p.offset) τ with hopen | hopen
    · exact ho.holds_after h hl hcs he hst hopen hafter (hquiet hopen)
    · exact ho.holds_before h hl hoffset hcs he hst hopen hbefore
  · exact ho.decided_after h hl hoffset hε hcs he hfirst hst hopen hafter

end Opens

end Window

end TemporalPlanning
