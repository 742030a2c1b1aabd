import Mathlib.Data.Set.Insert
import TemporalPlanning.Proofs.EventParts
import TemporalPlanning.Proofs.Trajectories

namespace TemporalPlanning

open Simulator (checkDuration checkConditions pointConditions)

inductive Owner where
  | plan
  | effects (activity : Nat)
  | step (step : ActionInstance)
  deriving DecidableEq

structure Happening where
  time : Rat
  owner : Owner
  event : Event

/-- The values, the intervals that are open for their owners, and what the monitor saw. -/
structure Snapshot where
  valuation : Valuation
  opened : Set (Owner × IntervalCondition)
  monitor : Monitor

variable {sim : Simulator} {e f : Event} {v v' : Valuation} {fp : Footprint}

namespace Event

def Idle (e : Event) : Prop :=
  e.effects = [] ∧ e.continuousEffects = [] ∧ e.simulated = none

def ClosesOpen (e : Event) : Prop := ∃ q i, e = .endCondition q i ∧ i.rightOpen = true

def Clashes (e f : Event) : Prop :=
  ¬ e.Idle ∧ (¬ f.Idle ∨ f.ClosesOpen) ∨ e.ClosesOpen ∧ ¬ f.Idle

theorem Clashes.symm (h : e.Clashes f) : f.Clashes e := by
  unfold Clashes at h ⊢
  tauto

def openingReads (sim : Simulator) (v : Valuation) : Event → Except Fault (List String)
  | .startCondition _ i => i.condition.reads (sim.situation v i.activity.bindings)
  | _ => .ok []

def Unopposed (sim : Simulator) (v : Valuation) (opened : Set IntervalCondition) : Event → Prop
  | .startCondition _ i => ∃ mine,
      i.condition.literals (sim.situation v i.activity.bindings) = .ok mine ∧
      (mine ≠ [] → ∀ o ∈ opened, ∃ theirs,
        o.condition.literals (sim.situation v o.activity.bindings) = .ok theirs ∧
        ∀ m ∈ mine, ∀ n ∈ theirs, m.contradicts n = false)
  | _ => True

def Performs (sim : Simulator) (e : Event) (v : Valuation) (fp : Footprint) : Prop :=
  ∃ durationReads pointReads openingReads firing,
    (checkDuration e (sim.situation v e.activity.bindings)).Gives durationReads ∧
    (checkConditions (sim.situation v e.activity.bindings) (pointConditions e)).Gives pointReads ∧
    e.openingReads sim v = .ok openingReads ∧
    Firing.ofEvent sim.provider (sim.situation v e.activity.bindings) e = .ok firing ∧
    firing.conflicts.isEmpty = true ∧
    fp = ⟨(durationReads ++ pointReads ++ openingReads ++ firing.reads).eraseDups,
      firing.updates⟩

end Event

def Happening.openedAfter (a : Happening) (opened : Set (Owner × IntervalCondition)) :
    Set (Owner × IntervalCondition) :=
  match a.event with
  | .startCondition _ i => insert (a.owner, i) opened
  | .endCondition _ i => opened \ {(a.owner, i)}
  | _ => opened

structure Happening.Moves (sim : Simulator) (a : Happening) (fp : Footprint) (c c' : Snapshot) :
    Prop where
  performs : a.event.Performs sim c.valuation fp
  unopposed : a.event.Unopposed sim c.valuation (Prod.snd '' c.opened)
  valuation : c'.valuation = c.valuation.update fp.updates
  opened : c'.opened = a.openedAfter c.opened
  holds : ∀ o ∈ c'.opened,
    o.2.condition.holds (sim.situation c'.valuation o.2.activity.bindings) = .ok true
  seen : c.monitor.visit (Expr.holds (sim.situation c'.valuation .empty)) a.time =
    .ok (c'.monitor, none)

structure Snapshot.Settled (sim : Simulator) (c : Snapshot) : Prop where
  holds : ∀ o ∈ c.opened,
    o.2.condition.holds (sim.situation c.valuation o.2.activity.bindings) = .ok true
  seen : ∀ time, c.monitor.visit (Expr.holds (sim.situation c.valuation .empty)) time =
    .ok (c.monitor, none)

section Footprints

variable {s s' : Situation} {keys : List String}

theorem FluentLiteral.contradicts_comm (m n : FluentLiteral) :
    m.contradicts n = n.contradicts m := by
  rw [Bool.eq_iff_iff]
  simp only [contradicts, Bool.and_eq_true, decide_eq_true_eq, bne_iff_ne, ne_eq]
  exact and_congr eq_comm (not_congr eq_comm)

theorem Simulator.checkDuration_of_agrees (h : (checkDuration e s).Gives keys)
    (hs : s.Agrees s' keys) : (checkDuration e s').Gives keys := by
  unfold checkDuration at h ⊢
  split at h
  · simp only [Attempt.gives_bind, Attempt.gives_ofExcept, Attempt.gives_require,
      Attempt.gives_pure] at h ⊢
    obtain ⟨lowerReads, hlower, upperReads, hupper, lower, hl, upper, hu, u, hwithin, rfl⟩ := h
    refine ⟨lowerReads, Expr.reads_of_agrees hlower hs.left, upperReads,
      Expr.reads_of_agrees hupper hs.right, lower, ?_, upper, ?_, u, hwithin, rfl⟩
    · rw [Expr.amount_of_agrees hlower hs.left, hl]
    · rw [Expr.amount_of_agrees hupper hs.right, hu]
  · exact h

namespace Event.Performs

theorem reads_mem (h : e.Performs sim v fp) : ∃ durationReads pointReads openingReads,
    (checkDuration e (sim.situation v e.activity.bindings)).Gives durationReads ∧
    (checkConditions (sim.situation v e.activity.bindings) (pointConditions e)).Gives pointReads ∧
    e.openingReads sim v = .ok openingReads ∧
    ∀ key ∈ durationReads ++ pointReads ++ openingReads, key ∈ fp.reads := by
  obtain ⟨durationReads, pointReads, openingReads, firing, hd, hp, ho, -, -, rfl⟩ := h
  refine ⟨durationReads, pointReads, openingReads, hd, hp, ho, fun key hk => ?_⟩
  exact List.mem_eraseDups.mpr (List.mem_append_left _ hk)

theorem updates_of_idle (h : e.Performs sim v fp) (he : e.Idle) : fp.updates = .empty := by
  obtain ⟨-, -, -, firing, -, -, -, hfiring, -, rfl⟩ := h
  rw [Firing.ofEvent_of_noEffects he.1 he.2.1 he.2.2] at hfiring
  obtain rfl := Except.ok.inj hfiring
  rfl

theorem of_reads (h : e.Performs sim v fp) (he : e.simulated = none)
    (hv : ∀ key ∈ fp.reads, v'.get? key = v.get? key)
    (hargs : ∀ x ∈ e.continuousEffects, ∀ keys,
      Expr.readsAll (sim.situation v e.activity.bindings) x.target.args = .ok keys →
        ∀ key ∈ keys, v'.get? key = v.get? key) : e.Performs sim v' fp := by
  obtain ⟨durationReads, pointReads, openingReads, firing, hd, hp, ho, hfiring, hfree, rfl⟩ := h
  have hagrees (bindings : OrderedMap String String) {keys : List String}
      (hkeys : ∀ key ∈ keys, key ∈ durationReads ++ pointReads ++ openingReads ++ firing.reads) :
      (sim.situation v bindings).Agrees (sim.situation v' bindings) keys :=
    ⟨rfl, rfl, fun key hk => hv key (List.mem_eraseDups.mpr (hkeys key hk))⟩
  refine ⟨durationReads, pointReads, openingReads, firing, ?_, ?_, ?_, ?_, hfree, rfl⟩
  · exact Simulator.checkDuration_of_agrees hd (hagrees _ fun key hk => by simp [hk])
  · exact Simulator.checkConditions_of_agrees hp (hagrees _ fun key hk => by simp [hk])
  · cases e with
    | startCondition p i =>
        exact Expr.reads_of_agrees ho (hagrees _ fun key hk => by simp [hk])
    | _ => exact ho
  · refine Firing.ofEvent_of_agrees hfiring he (hagrees _ fun key hk => by simp [hk]) ?_
    exact fun x hx keys hkeys => ⟨rfl, rfl, hargs x hx keys hkeys⟩

theorem of_agrees (h : e.Performs sim v fp) (he : e.Idle)
    (hv : ∀ key ∈ fp.reads, v'.get? key = v.get? key) : e.Performs sim v' fp :=
  h.of_reads he.2.2 hv fun x hx => by simp [he.2.1] at hx

end Event.Performs

end Footprints

namespace Event

theorem not_closesOpen (h : e.kind ≠ .endCondition) : ¬ e.ClosesOpen := by
  rintro ⟨q, i, rfl, -⟩
  exact h rfl

theorem idle_of_opening (h : e.kind = .startCondition) : e.Idle := by
  cases e with
  | startCondition p i => exact ⟨rfl, rfl, rfl⟩
  | _ => cases h

theorem exists_opening (h : e.kind = .startCondition) : ∃ p i, e = .startCondition p i := by
  cases e with
  | startCondition p i => exact ⟨p, i, rfl⟩
  | _ => cases h

theorem unopposed_of_kind {opened : Set IntervalCondition} (h : e.kind ≠ .startCondition) :
    e.Unopposed sim v opened := by
  cases e with
  | startCondition p i => exact absurd rfl h
  | _ => trivial

theorem Unopposed.mono {opened others : Set IntervalCondition} (h : e.Unopposed sim v opened)
    (hsub : others ⊆ opened) : e.Unopposed sim v others := by
  cases e with
  | startCondition p i =>
      obtain ⟨mine, hmine, hopened⟩ := h
      exact ⟨mine, hmine, fun hne o ho => hopened hne o (hsub ho)⟩
  | _ => trivial

theorem Unopposed.insert {opened : Set IntervalCondition} {p q : Placement}
    {i j : IntervalCondition} (hi : (Event.startCondition p i).Unopposed sim v opened)
    (hj : (Event.startCondition q j).Unopposed sim v (insert i opened)) :
    (Event.startCondition p i).Unopposed sim v (insert j opened) := by
  obtain ⟨mine, hmine, hopened⟩ := hi
  obtain ⟨other, hother, hagainst⟩ := hj
  refine ⟨mine, hmine, fun hne o ho => ?_⟩
  rcases ho with rfl | ho
  · refine ⟨other, hother, fun m hm n hn => ?_⟩
    obtain ⟨theirs, htheirs, hfree⟩ :=
      hagainst (List.ne_nil_of_mem hn) i (Set.mem_insert i opened)
    obtain rfl := Except.ok.inj (hmine.symm.trans htheirs)
    rw [FluentLiteral.contradicts_comm]
    exact hfree n hn m hm
  · exact hopened hne o ho

end Event

namespace Monitor

theorem visit_idem {m m' : Monitor} {holds : Expr → Except Fault Bool} {time : Rat}
    (h : m.visit holds time = .ok (m', none)) (later : Rat) :
    m'.visit holds later = .ok (m', none) := by
  induction m generalizing m' with
  | nil =>
      obtain ⟨rfl, -⟩ := Prod.mk.inj (Except.ok.inj h)
      rfl
  | cons w ws ih =>
      simp only [visit, except_bind_ok] at h
      obtain ⟨b, hb, h⟩ := h
      split at h
      · simp [except_pure_ok] at h
      · rename_i hbroken
        simp only [except_bind_ok, except_pure_ok, Prod.mk.injEq] at h
        obtain ⟨⟨rest, clash⟩, hrest, rfl, rfl⟩ := h
        simp only [visit, Watch.constraint_next, except_bind_ok]
        refine ⟨b, hb, ?_⟩
        rw [Watch.next_next, if_neg hbroken, ih hrest]
        rfl

end Monitor

namespace Happening

variable {a b : Happening} {fa fb : Footprint} {c c' d : Snapshot}
  {opened : Set (Owner × IntervalCondition)}

theorem openedAfter_opening {p : Placement} {i : IntervalCondition}
    (h : a.event = .startCondition p i) : a.openedAfter opened = insert (a.owner, i) opened := by
  rw [openedAfter, h]

theorem openedAfter_closing {q : Placement} {i : IntervalCondition}
    (h : a.event = .endCondition q i) : a.openedAfter opened = opened \ {(a.owner, i)} := by
  rw [openedAfter, h]

theorem openedAfter_subset (h : a.event.kind ≠ .startCondition) :
    a.openedAfter opened ⊆ opened := by
  unfold openedAfter
  cases ha : a.event with
  | startCondition p i => exact absurd (by rw [ha]; rfl) h
  | endCondition q i => exact Set.sdiff_subset
  | _ => exact subset_rfl

theorem openedAfter_comm (h : a.event.kind = b.event.kind) :
    a.openedAfter (b.openedAfter opened) = b.openedAfter (a.openedAfter opened) := by
  unfold openedAfter
  cases ha : a.event with
  | startAction p body d es =>
      cases hb : b.event <;> simp [ha, hb, Event.kind] at h ⊢
  | startCondition p i =>
      cases hb : b.event with
      | startCondition q j => exact Set.insert_comm _ _ _
      | _ => simp [ha, hb, Event.kind] at h
  | endCondition p i =>
      cases hb : b.event with
      | endCondition q j => exact Set.sdiff_sdiff_comm
      | _ => simp [ha, hb, Event.kind] at h
  | endAction p body =>
      cases hb : b.event <;> simp [ha, hb, Event.kind] at h ⊢

namespace Moves

theorem settled (h : a.Moves sim fp c c') : c'.Settled sim :=
  ⟨h.holds, Monitor.visit_idem h.seen⟩

theorem valuation_of_idle (h : a.Moves sim fp c c') (ha : a.event.Idle) :
    c'.valuation = c.valuation := by
  rw [h.valuation, h.performs.updates_of_idle ha]
  rfl

theorem monitor_of_idle (h : a.Moves sim fp c c') (hc : c.Settled sim) (ha : a.event.Idle) :
    c'.monitor = c.monitor := by
  have hseen := h.seen
  rw [h.valuation_of_idle ha, hc.seen] at hseen
  exact (Prod.mk.inj (Except.ok.inj hseen)).1.symm

end Moves

end Happening

structure Exchange (x y : Happening × Footprint) : Prop where
  kind : x.1.event.kind = y.1.event.kind
  free : ¬ x.2.Interferes y.2
  calm : ¬ x.1.event.Clashes y.1.event
  own : ∀ i, x.1.event.interval? = some i → i.activity = x.1.event.activity

section Swaps

variable {a b : Happening} {fa fb : Footprint} {c c' d : Snapshot}

theorem Happening.Moves.unopposed_swap (ha : a.Moves sim fa c d) (hb : b.Moves sim fb d c')
    (hkind : a.event.kind = b.event.kind) :
    b.event.Unopposed sim c.valuation (Prod.snd '' c.opened) ∧
      a.event.Unopposed sim c.valuation (Prod.snd '' b.openedAfter c.opened) := by
  by_cases hopening : a.event.kind = .startCondition
  · obtain ⟨p, i, hp⟩ := Event.exists_opening hopening
    obtain ⟨q, j, hq⟩ := Event.exists_opening (hkind ▸ hopening)
    have hi := ha.unopposed
    have hj := hb.unopposed
    rw [ha.valuation_of_idle (Event.idle_of_opening hopening), ha.opened,
      Happening.openedAfter_opening hp, Set.image_insert_eq] at hj
    refine ⟨hj.mono (Set.subset_insert _ _), ?_⟩
    rw [hq] at hj
    rw [hp] at hi ⊢
    rw [Happening.openedAfter_opening hq, Set.image_insert_eq]
    exact hi.insert hj
  · exact ⟨Event.unopposed_of_kind (hkind ▸ hopening), Event.unopposed_of_kind hopening⟩

theorem Happening.Moves.holds_swap (ha : a.Moves sim fa c d) (hb : b.Moves sim fb d c')
    (hc : c.Settled sim) (hkind : a.event.kind = b.event.kind) (hidle : b.event.Idle) :
    ∀ o ∈ b.openedAfter c.opened,
      o.2.condition.holds (sim.situation c.valuation o.2.activity.bindings) = .ok true := by
  intro o ho
  by_cases hopening : b.event.kind = .startCondition
  · obtain ⟨q, j, hq⟩ := Event.exists_opening hopening
    rw [Happening.openedAfter_opening hq] at ho
    rcases ho with rfl | ho
    · have hj : (b.owner, j) ∈ c'.opened := by
        rw [hb.opened, Happening.openedAfter_opening hq]
        exact Set.mem_insert _ _
      have hholds := hb.holds _ hj
      rwa [hb.valuation_of_idle hidle,
        ha.valuation_of_idle (Event.idle_of_opening (hkind ▸ hopening))] at hholds
    · exact hc.holds o ho
  · exact hc.holds o (Happening.openedAfter_subset hopening ho)

theorem Happening.Moves.swap_idle (ha : a.Moves sim fa c d) (hb : b.Moves sim fb d c')
    (hc : c.Settled sim) (h : Exchange (a, fa) (b, fb)) (hidle : b.event.Idle) :
    ∃ d', b.Moves sim fb c d' ∧ a.Moves sim fa d' c' := by
  have hkind : a.event.kind = b.event.kind := h.kind
  have hvaluation := hb.valuation_of_idle hidle
  have hmonitor := hb.monitor_of_idle ha.settled hidle
  have hunopposed := ha.unopposed_swap hb hkind
  refine ⟨⟨c.valuation, b.openedAfter c.opened, c.monitor⟩, ⟨?_, hunopposed.1, ?_, rfl,
    ha.holds_swap hb hc hkind hidle, hc.seen _⟩,
    ⟨ha.performs, hunopposed.2, ?_, ?_, hb.holds, ?_⟩⟩
  · refine hb.performs.of_agrees hidle fun key hk => ?_
    rw [ha.valuation]
    refine (Valuation.get?_update_of_notMem _ fun hwrites => h.free ?_).symm
    exact ⟨key, .inl ⟨hwrites, .inl hk⟩⟩
  · rw [hb.performs.updates_of_idle hidle]
    rfl
  · exact hvaluation.trans ha.valuation
  · rw [hb.opened, ha.opened]
    exact Happening.openedAfter_comm hkind.symm
  · rw [hvaluation, hmonitor]
    exact ha.seen

theorem Happening.Moves.holds_closing {q : Placement} {i : IntervalCondition}
    (h : a.Moves sim fa c d) (ha : a.event = .endCondition q i) (hclosed : ¬ a.event.ClosesOpen)
    (hown : i.activity = a.event.activity)
    (hv : ∀ key ∈ fa.reads, v.get? key = c.valuation.get? key) :
    i.condition.holds (sim.situation v i.activity.bindings) = .ok true := by
  obtain ⟨durationReads, pointReads, openingReads, -, hpoint, -, hmem⟩ := h.performs.reads_mem
  have hright : i.rightOpen = false := by
    by_contra hopen
    exact hclosed ⟨q, i, ha, by simpa using hopen⟩
  rw [ha] at hpoint
  simp only [pointConditions, hright, Bool.false_eq_true, if_false, checkConditions,
    Attempt.gives_bind, Attempt.gives_ofExcept, Attempt.gives_require, Attempt.gives_pure]
    at hpoint
  obtain ⟨mine, hmine, b, hb, -, rfl, rest, rfl, rfl⟩ := hpoint
  rw [← ha, ← hown] at hmine hb
  rw [Expr.holds_of_agrees hmine, hb]
  exact ⟨rfl, rfl, fun key hk => hv key (hmem key (by simp [hk]))⟩

theorem Happening.Moves.holds_after_swap (ha : a.Moves sim fa c d) (hb : b.Moves sim fb d c')
    (h : Exchange (a, fa) (b, fb)) (hclosed : ¬ a.event.ClosesOpen)
    (hopening : a.event.kind ≠ .startCondition)
    (hreads : ∀ key ∈ fa.reads, c'.valuation.get? key = c.valuation.get? key) :
    ∀ o ∈ b.openedAfter c.opened,
      o.2.condition.holds (sim.situation c'.valuation o.2.activity.bindings) = .ok true := by
  intro o ho
  by_cases hafter : o ∈ c'.opened
  · exact hb.holds o hafter
  -- then it is the interval that the first of the two closes
  · rw [hb.opened, ha.opened, ← Happening.openedAfter_comm h.kind] at hafter
    cases hevent : a.event with
    | endCondition q i =>
        rw [Happening.openedAfter_closing hevent] at hafter
        obtain rfl : o = (a.owner, i) := by
          by_contra hne
          exact hafter ⟨ho, hne⟩
        exact ha.holds_closing hevent hclosed (h.own i (by rw [hevent]; rfl)) hreads
    | startCondition p i => exact absurd (by rw [hevent]; rfl) hopening
    | startAction p body d es =>
        rw [Happening.openedAfter.eq_def a, hevent] at hafter
        exact absurd ho hafter
    | endAction p body =>
        rw [Happening.openedAfter.eq_def a, hevent] at hafter
        exact absurd ho hafter

theorem Happening.Moves.swap_changing (ha : a.Moves sim fa c d) (hb : b.Moves sim fb d c')
    (hc : c.Settled sim) (h : Exchange (a, fa) (b, fb)) (hchange : ¬ b.event.Idle) :
    ∃ d', b.Moves sim fb c d' ∧ a.Moves sim fa d' c' := by
  have hkind : a.event.kind = b.event.kind := h.kind
  have hidle : a.event.Idle := by
    by_contra hidle
    exact h.calm (.inl ⟨hidle, .inl hchange⟩)
  have hclosed : ¬ a.event.ClosesOpen := fun hclosed => h.calm (.inr ⟨hclosed, hchange⟩)
  have hopening : b.event.kind ≠ .startCondition :=
    fun hopening => hchange (Event.idle_of_opening hopening)
  have hvaluation := ha.valuation_of_idle hidle
  have hmonitor := ha.monitor_of_idle hc hidle
  have hreads (key : String) (hk : key ∈ fa.reads) :
      c'.valuation.get? key = c.valuation.get? key := by
    rw [hb.valuation, hvaluation]
    refine Valuation.get?_update_of_notMem _ fun hwrites => h.free ?_
    exact ⟨key, .inr ⟨hwrites, hk⟩⟩
  have hperforms := hb.performs
  rw [hvaluation] at hperforms
  have hafter := ha.holds_after_swap hb h hclosed (hkind ▸ hopening) hreads
  refine ⟨⟨c'.valuation, b.openedAfter c.opened, c'.monitor⟩, ⟨hperforms,
    Event.unopposed_of_kind hopening, ?_, rfl, hafter, ?_⟩, ⟨ha.performs.of_agrees hidle hreads,
    Event.unopposed_of_kind (hkind ▸ hopening), ?_, ?_, hb.holds, hb.settled.seen _⟩⟩
  · rw [hb.valuation, hvaluation]
  · rw [← hmonitor]
    exact hb.seen
  · rw [ha.performs.updates_of_idle hidle]
    rfl
  · rw [hb.opened, ha.opened, Happening.openedAfter_comm hkind]

theorem Happening.Moves.swap (ha : a.Moves sim fa c d) (hb : b.Moves sim fb d c')
    (hc : c.Settled sim) (h : Exchange (a, fa) (b, fb)) :
    ∃ d', b.Moves sim fb c d' ∧ a.Moves sim fa d' c' := by
  by_cases hidle : b.event.Idle
  · exact ha.swap_idle hb hc h hidle
  · exact ha.swap_changing hb hc h hidle

end Swaps

inductive Passes (sim : Simulator) : Snapshot → List (Happening × Footprint) → Snapshot → Prop
  | nil {c : Snapshot} : Passes sim c [] c
  | cons {c d c' : Snapshot} {x : Happening × Footprint} {xs : List (Happening × Footprint)}
      (first : x.1.Moves sim x.2 c d) (rest : Passes sim d xs c') : Passes sim c (x :: xs) c'

namespace Passes

variable {c c' : Snapshot} {x y : Happening × Footprint}
  {xs ys before after : List (Happening × Footprint)}
  {P : Happening × Footprint → Happening × Footprint → Prop}

theorem settled (h : Passes sim c xs c') (hc : c.Settled sim) : c'.Settled sim := by
  induction h with
  | nil => exact hc
  | cons first _ ih => exact ih first.settled

theorem swap (h : Passes sim c (x :: y :: xs) c') (hc : c.Settled sim) (hxy : Exchange x y) :
    Passes sim c (y :: x :: xs) c' := by
  cases h with
  | cons hx h =>
      cases h with
      | cons hy h =>
          obtain ⟨d, hy', hx'⟩ := hx.swap hy hc hxy
          exact .cons hy' (.cons hx' h)

theorem to_front (h : Passes sim c (before ++ x :: after) c') (hc : c.Settled sim)
    (hx : ∀ b ∈ before, Exchange b x) : Passes sim c (x :: before ++ after) c' := by
  induction before generalizing c with
  | nil => exact h
  | cons b before ih =>
      obtain ⟨hb, hx⟩ := List.forall_mem_cons.mp hx
      cases h with
      | cons first rest => exact swap (.cons first (ih rest first.settled hx)) hc hb

theorem of_perm (h : Passes sim c xs c') (hc : c.Settled sim) (hperm : xs.Perm ys)
    (hxs : xs.Pairwise P) (hys : ys.Pairwise fun y x => P x y → Exchange x y) :
    Passes sim c ys c' := by
  induction ys generalizing xs c with
  | nil => exact hperm.eq_nil ▸ h
  | cons y ys ih =>
      obtain ⟨before, after, rfl⟩ := List.append_of_mem (hperm.mem_iff.mpr List.mem_cons_self)
      have hrest : (before ++ after).Perm ys := (List.perm_middle.symm.trans hperm).cons_inv
      have hfront := h.to_front hc fun b hb =>
        List.rel_of_pairwise_cons hys (hrest.mem_iff.mp (List.mem_append_left _ hb))
          ((List.pairwise_append.mp hxs).2.2 b hb y List.mem_cons_self)
      have hsub : (before ++ after).Sublist (before ++ y :: after) :=
        (List.sublist_cons_self y after).append_left before
      cases hfront with
      | cons first rest =>
          exact .cons first (ih rest first.settled hrest (hxs.sublist hsub) hys.of_cons)

end Passes

end TemporalPlanning
