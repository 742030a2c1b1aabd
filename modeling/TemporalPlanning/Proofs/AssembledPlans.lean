import TemporalPlanning.Proofs.Lifecycles
import TemporalPlanning.Proofs.ScheduledTimes

namespace TemporalPlanning

variable {sim sim' : Simulator} {steps : List TimedStep} {made more : List (List Event)}
  {xs ys : List Scheduled} {es : List Event} {id : Nat}

inductive Arranges : List (List Event) → List Scheduled → Prop
  | nil : Arranges [] []
  | cons {made : List (List Event)} {xs : List Scheduled} (es : List Event) (start : Rat)
      {turn : Turn} (hturn : turn.isGoal = false) (h : Arranges made xs) :
      Arranges (es :: made) (es.map (fun e => ⟨e, start + e.offset, turn⟩) ++ xs)

namespace Arranges

theorem append (h : Arranges made xs) (h' : Arranges more ys) :
    Arranges (made ++ more) (xs ++ ys) := by
  induction h with
  | nil => exact h'
  | cons es start hturn _ ih =>
      rw [List.append_assoc]
      exact .cons es start hturn ih

theorem map_event (h : Arranges made xs) : xs.map Scheduled.event = made.flatten := by
  induction h with
  | nil => rfl
  | cons es start hturn _ ih => simp [ih, Function.comp_def]

theorem exists_mem_iff {e : Event} (h : Arranges made xs) :
    (∃ x ∈ xs, x.event = e) ↔ ∃ es ∈ made, e ∈ es := by
  rw [← List.mem_map, h.map_event, List.mem_flatten]

theorem of_timed (ts : List TimedActivity) : Arranges (ts.map (·.events))
    (ts.flatMap fun t => t.events.map fun e => ⟨e, t.time + e.offset, .timedEffect⟩) := by
  induction ts with
  | nil => exact .nil
  | cons t ts ih => exact .cons t.events t.time rfl ih

theorem own (h : Arranges made xs)
    (hdistinct : made.Pairwise fun es fs => ∀ e ∈ es, ∀ f ∈ fs, e.activity.id ≠ f.activity.id)
    (hes : es ∈ made) (hid : ∀ e ∈ es, e.activity.id = id) (hne : es ≠ []) :
    ∃ start turn, turn.isGoal = false ∧ xs.filter (fun x => x.event.activity.id = id) =
      es.map fun e => ⟨e, start + e.offset, turn⟩ := by
  induction h with
  | nil => simp at hes
  | @cons made xs fs start turn hturn h ih =>
      obtain ⟨hfirst, hdistinct⟩ := List.pairwise_cons.mp hdistinct
      rw [List.filter_append]
      rcases List.mem_cons.mp hes with rfl | hes
      · refine ⟨start, turn, hturn, ?_⟩
        have hothers : xs.filter (fun x => x.event.activity.id = id) = [] := by
          refine List.filter_eq_nil_iff.mpr fun x hx => ?_
          obtain ⟨gs, hgs, hx⟩ := h.exists_mem_iff.mp ⟨x, hx, rfl⟩
          obtain ⟨e, he⟩ := List.exists_mem_of_ne_nil es hne
          simpa [hid e he] using (hfirst gs hgs e he x.event hx).symm
        rw [hothers, List.append_nil, List.filter_eq_self.mpr]
        intro x hx
        obtain ⟨e, he, rfl⟩ := List.mem_map.mp hx
        simpa using hid e he
      · obtain ⟨start', turn', hturn', hmine⟩ := ih hdistinct hes
        refine ⟨start', turn', hturn', ?_⟩
        rw [hmine, List.filter_eq_nil_iff.mpr, List.nil_append]
        intro x hx
        obtain ⟨f, hf, rfl⟩ := List.mem_map.mp hx
        obtain ⟨e, he⟩ := List.exists_mem_of_ne_nil es hne
        simpa [hid e he] using hfirst es hes f hf e he

end Arranges

theorem arranges_stepEvents {n : Nat} (h : stepEvents sim n steps = (sim', .ok xs)) :
    ∃ more, Arranges more xs ∧
      ∀ {made s}, sim.Session made s → sim'.Session (made ++ more) s := by
  induction steps generalizing sim n xs with
  | nil =>
      simp only [stepEvents, Prod.mk.injEq, Except.ok.injEq] at h
      obtain ⟨rfl, rfl⟩ := h
      exact ⟨[], .nil, fun hs => by simpa using hs⟩
  | cons s rest ih =>
      obtain ⟨next, es, others, he, ho, rfl⟩ := stepEvents_cons h
      obtain ⟨more, harranges, hmore⟩ := ih ho
      refine ⟨es :: more, .cons es s.start rfl harranges, fun {made t} hs => ?_⟩
      have hnext := hs.request s.step.ground s.duration
      rw [he] at hnext
      simpa [Except.toOption] using hmore hnext

theorem session_timedActivities {ts : List TimedActivity} {s : State} (hnone : sim.timed = none)
    (h : sim.timedActivities = (sim', .ok ts)) (hs : sim.Session made s) :
    sim'.Session (made ++ ts.map (·.events)) s := by
  have hmade : sim.madeTimed = ts.map (·.events) := by
    simp [Simulator.madeTimed, hnone, h, Except.toOption]
  have hnext := hs.timed
  rwa [hmade, h] at hnext

structure Assembled (sched : Schedule) (made : List (List Event)) (xs : List Scheduled) :
    Prop where
  session : sched.sim.Session made sched.sim.initialState
  arranges : Arranges made xs
  perm : sched.events.Perm (xs ++ sched.sim.goalEvents.map sched.goal)
  sorted : sched.events.Pairwise fun x y => x.notAfter y = true
  numbered : Numbered 2 (sched.events.map (·.event))

theorem assembled_ofSteps {origin : Nat} {problem : Problem} {epsilon : Rat}
    {provider : Option EffectProvider} {component : String} {sched : Schedule}
    (hnew : Simulator.new origin problem epsilon provider component = .ok sim)
    (h : Schedule.ofSteps sim steps = .ok sched) : ∃ made next xs ts ys,
      stepEvents sim 0 steps = (next, .ok xs) ∧ next.timedActivities = (sched.sim, .ok ts) ∧
      ys = ts.flatMap (fun t => t.events.map fun e => ⟨e, t.time + e.offset, .timedEffect⟩) ∧
      Assembled sched made (xs ++ ys) := by
  obtain ⟨next, xs, ts, ys, hx, ht, hys, -, hevents⟩ := ofSteps_ok h
  have hlaid := laid_ofSteps hnew h
  obtain ⟨made, harranges, hmade⟩ := arranges_stepEvents hx
  have htimed : next.timed = none :=
    (laid_stepEvents hx).grows.timed.trans (Simulator.new_ok hnew).1
  have hsession := session_timedActivities htimed ht (hmade (.initial hnew))
  rw [List.nil_append, ← hlaid.rules.initialState] at hsession
  exact ⟨_, next, xs, ts, ys, hx, ht, hys, hsession, harranges.append (hys ▸ .of_timed ts),
    hevents ▸ List.mergeSort_perm _ _, hlaid.sorted, hlaid.numbered⟩

theorem Scheduled.notAfter_of_key {e f : Event} (h : e.key ≤ f.key) (start : Rat) (turn : Turn) :
    notAfter ⟨e, start + e.offset, turn⟩ ⟨f, start + f.offset, turn⟩ = true := by
  rw [notAfter_iff]
  simp only [Event.key, Prod.Lex.toLex_le_toLex] at h
  simp only [key, Prod.Lex.toLex_le_toLex, add_lt_add_iff_left, add_right_inj, lt_irrefl,
    false_or, true_and]
  exact h

namespace Assembled

variable {sched : Schedule} {a : Activity} {d : Rat} (h : Assembled sched made xs)
include h

theorem cases : ∀ x ∈ sched.events, (∃ es ∈ made, x.event ∈ es) ∨
    x.event ∈ sched.sim.goalEvents := by
  intro x hx
  rcases List.mem_append.mp (h.perm.mem_iff.mp hx) with hx | hx
  · exact .inl (h.arranges.exists_mem_iff.mp ⟨x, hx, rfl⟩)
  · obtain ⟨e, he, rfl⟩ := List.mem_map.mp hx
    exact .inr he

theorem mem_known : ∀ x ∈ sched.events, x.event ∈ sched.sim.known made := fun x hx =>
  Simulator.mem_known.mpr (.inr (.inr (h.cases x hx).symm))

theorem id_ne (hmakes : sched.sim.Makes made) {x : Scheduled} (hx : x ∈ sched.events)
    (hturn : x.turn ≠ .goal) : x.event.activity.id ≠ 0 := by
  rcases List.mem_append.mp (h.perm.mem_iff.mp hx) with hx | hx
  · obtain ⟨es, hes, he⟩ := h.arranges.exists_mem_iff.mp ⟨x, hx, rfl⟩
    exact (hmakes.activity_lt hes he).1.ne'
  · obtain ⟨e, -, rfl⟩ := List.mem_map.mp hx
    exact absurd rfl hturn

theorem filter_perm (hmakes : sched.sim.Makes made) (hid : id ≠ 0) :
    (sched.events.filter fun x => x.event.activity.id = id).Perm
      (xs.filter fun x => x.event.activity.id = id) := by
  have hperm := h.perm.filter fun x => x.event.activity.id = id
  rw [List.filter_append, (List.filter_eq_nil_iff (l := sched.sim.goalEvents.map _)).mpr,
    List.append_nil] at hperm
  · exact hperm
  · intro x hx
    obtain ⟨e, he, rfl⟩ := List.mem_map.mp hx
    have hplan : e.activity.id = 0 := congrArg Activity.id (hmakes.plan.goals e he).1
    simpa [Schedule.goal, hplan] using hid.symm

theorem own (hmakes : sched.sim.Makes made) (hes : es ∈ made) (hunfolds : Unfolds a d es) :
    sched.events.filter (fun x => x.event.activity.id = a.id) =
      xs.filter (fun x => x.event.activity.id = a.id) ∧
    (sched.events.filter fun x => x.event.activity.id = a.id).map Scheduled.event = es := by
  have hid : ∀ e ∈ es, e.activity.id = a.id := fun e he =>
    congrArg Activity.id (hunfolds.belongs e he).activity
  obtain ⟨e, rest, hcons, -⟩ := hunfolds.exists_cons
  obtain ⟨start, turn, -, hmine⟩ := h.arranges.own hmakes.distinct hes hid (by simp [hcons])
  have hperm := h.filter_perm hmakes (hmakes.id_ne hes hunfolds)
  have hsorted : (xs.filter fun x => x.event.activity.id = a.id).Pairwise
      fun x y => x.notAfter y = true := by
    rw [hmine, List.pairwise_map]
    exact hunfolds.sorted.imp fun hle => Scheduled.notAfter_of_key hle start turn
  have hids : ((xs.filter fun x => x.event.activity.id = a.id).map
      fun x => x.event.id).Nodup := by
    have hnodup := h.numbered.nodup
    rw [List.map_map] at hnodup
    exact (hperm.map _).nodup_iff.mp (hnodup.sublist (List.filter_sublist.map _))
  have hsame := Scheduled.eq_of_sorted hperm hids (h.sorted.filter _) hsorted
  refine ⟨hsame, ?_⟩
  rw [hsame, hmine, List.map_map]
  exact List.map_id _

theorem filter_eq (hmakes : sched.sim.Makes made) (hid : id ≠ 0) :
    sched.events.filter (fun x => x.event.activity.id = id) =
      xs.filter (fun x => x.event.activity.id = id) := by
  have hperm := h.filter_perm hmakes hid
  cases hxs : xs.filter (fun x => x.event.activity.id = id) with
  | nil => exact List.perm_nil.mp (hxs ▸ hperm)
  | cons x rest =>
      have hx : x ∈ xs.filter (fun x => x.event.activity.id = id) := by simp [hxs]
      obtain ⟨hx, hxid⟩ := List.mem_filter.mp hx
      obtain ⟨es, hes, he⟩ := h.arranges.exists_mem_iff.mp ⟨x, hx, rfl⟩
      obtain ⟨a, d, hunfolds, -⟩ := hmakes.unfolds es hes
      obtain rfl : a.id = id := by
        rw [← of_decide_eq_true hxid, (hunfolds.belongs x.event he).activity]
      rw [← hxs]
      exact (h.own hmakes hes hunfolds).1

end Assembled

end TemporalPlanning
