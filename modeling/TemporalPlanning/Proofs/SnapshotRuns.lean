import TemporalPlanning.Proofs.SnapshotSteps

namespace TemporalPlanning

open Logged

section Writers

variable {sim : Simulator} {v : Valuation} {k : Numbering} {x : Scheduled} {xs : List Scheduled}
  {keys : List String} {writers later : OrderedMap String Scheduled} {cs ds : List Happening}

structure Unclashed (sim : Simulator) (v : Valuation) (cs : List Happening) : Prop where
  written : ∀ a ∈ cs, ∃ keys, writtenBy sim v a.event = .ok keys
  single : ∀ a ∈ cs, ∀ b ∈ cs, ∀ keys others, writtenBy sim v a.event = .ok keys →
    writtenBy sim v b.event = .ok others → ∀ key ∈ keys, key ∈ others → a.owner = b.owner

theorem Unclashed.of_perm (h : Unclashed sim v cs) (hperm : cs.Perm ds) : Unclashed sim v ds where
  written a ha := h.written a (hperm.mem_iff.mpr ha)
  single a ha b hb := h.single a (hperm.mem_iff.mpr ha) b (hperm.mem_iff.mpr hb)

def Unshared (sim : Simulator) (v : Valuation) (x y : Scheduled) : Prop :=
  ∀ keys others, writtenBy sim v x.event = .ok keys → writtenBy sim v y.event = .ok others →
    ∀ key ∈ keys, key ∈ others → x.event.activity.id = y.event.activity.id

theorem Unshared.symm {x y : Scheduled} (h : Unshared sim v x y) : Unshared sim v y x :=
  fun keys others hy hx key hk hk' => (h others keys hx hy key hk' hk).symm

def writerOf (writers : OrderedMap String Scheduled) (key : String) : Option Nat :=
  (writers.get? key).map fun y => y.event.activity.id

theorem noteWriter_inv (h : noteWriter x keys writers = (later, none)) :
    (∀ key ∈ keys, ∀ id ∈ writerOf writers key, id = x.event.activity.id) ∧
    ∀ key, writerOf later key =
      if key ∈ keys then some x.event.activity.id else writerOf writers key := by
  induction keys generalizing writers with
  | nil =>
      obtain ⟨rfl, -⟩ := Prod.mk.inj h
      exact ⟨by simp, fun key => by simp⟩
  | cons key keys ih =>
      have hput (k : String) : writerOf (writers.put key x) k =
          if k = key then some x.event.activity.id else writerOf writers k := by
        unfold writerOf
        rw [OrderedMap.get?_put]
        split
        · rfl
        · rfl
      have hnote : noteWriter x keys (writers.put key x) = (later, none) ∧
          ∀ id ∈ writerOf writers key, id = x.event.activity.id := by
        unfold writerOf
        rw [noteWriter] at h
        cases hy : writers.get? key with
        | none =>
            rw [hy] at h
            exact ⟨h, by simp⟩
        | some y =>
            simp only [hy] at h
            split at h
            · simp at h
            · rename_i hsame
              exact ⟨h, by simpa using hsame⟩
      obtain ⟨hmine, hlater⟩ := ih hnote.1
      refine ⟨List.forall_mem_cons.mpr ⟨hnote.2, fun k hk id hid => ?_⟩, fun k => ?_⟩
      · by_cases hkey : k = key
        · exact hnote.2 id (hkey ▸ hid)
        · exact hmine k hk id (by rwa [hput, if_neg hkey])
      · rw [hlater, hput]
        by_cases hk : k ∈ keys <;> by_cases hkey : k = key <;> simp [hk, hkey]

theorem simultaneousWrites_inv (h : simultaneousWrites sim v xs writers = .ok none) :
    (∀ x ∈ xs, ∃ keys, writtenBy sim v x.event = .ok keys ∧
      ∀ key ∈ keys, ∀ id ∈ writerOf writers key, id = x.event.activity.id) ∧
    xs.Pairwise (Unshared sim v) := by
  induction xs generalizing writers with
  | nil => exact ⟨by simp, .nil⟩
  | cons x xs ih =>
      simp only [simultaneousWrites, except_bind_ok] at h
      obtain ⟨keys, hkeys, h⟩ := h
      cases hnote : noteWriter x keys writers with
      | mk later clash =>
          rw [hnote] at h
          cases clash with
          | some clash => cases h
          | none =>
              obtain ⟨hmine, hlater⟩ := noteWriter_inv hnote
              obtain ⟨hrest, hpairs⟩ := ih h
              have hown (key : String) (hk : key ∈ keys) :
                  x.event.activity.id ∈ writerOf later key := by
                rw [hlater, if_pos hk]
                rfl
              refine ⟨List.forall_mem_cons.mpr ⟨⟨keys, hkeys, hmine⟩, fun y hy => ?_⟩,
                List.pairwise_cons.mpr ⟨fun y hy mine others hx hy' key hk hk' => ?_, hpairs⟩⟩
              · obtain ⟨others, hothers, hsame⟩ := hrest y hy
                refine ⟨others, hothers, fun key hk id hid => ?_⟩
                by_cases hkey : key ∈ keys
                · rw [hmine key hkey id hid]
                  exact hsame key hk _ (hown key hkey)
                · exact hsame key hk id (by rwa [hlater, if_neg hkey])
              · obtain rfl := Except.ok.inj (hkeys.symm.trans hx)
                obtain ⟨others', hothers, hsame⟩ := hrest y hy
                obtain rfl := Except.ok.inj (hothers.symm.trans hy')
                exact hsame key hk' _ (hown key hk)

theorem unclashed_iff (hinjective : Function.Injective k.owner) :
    simultaneousWrites sim v xs .empty = .ok none ↔ Unclashed sim v (xs.map k.happening) := by
  have hbare (y : Scheduled) : writtenBy sim v (k.happening y).event = writtenBy sim v y.event :=
    writtenBy_bare _ _
  constructor
  · intro h
    obtain ⟨hwritten, hpairs⟩ := simultaneousWrites_inv h
    have hsymm : Std.Symm (Unshared sim v) := ⟨fun _ _ hxy => hxy.symm⟩
    have hall := hpairs.forall_of_forall fun _ _ _ _ _ _ _ _ _ => rfl
    constructor
    · refine List.forall_mem_map.mpr fun y hy => ?_
      obtain ⟨keys, hkeys, -⟩ := hwritten y hy
      exact ⟨keys, (hbare y).trans hkeys⟩
    · refine List.forall_mem_map.mpr fun y hy => List.forall_mem_map.mpr fun z hz mine others => ?_
      rw [hbare, hbare]
      intro hmine hothers key hk hk'
      exact congrArg k.owner (hall hy hz mine others hmine hothers key hk hk')
  · rintro ⟨hwritten, hsingle⟩
    have hwritten' : ∀ y ∈ xs, ∃ keys, writtenBy sim v y.event = .ok keys := fun y hy => by
      rw [← hbare]
      exact hwritten _ (List.mem_map_of_mem hy)
    obtain ⟨clash, hclash⟩ : ∃ clash, simultaneousWrites sim v xs .empty = .ok clash :=
      simultaneousWrites_total hwritten'
    have hnone : clash = none := by
      refine simultaneousWrites_none hclash
        (fun y key => ∃ keys, writtenBy sim v y.event = .ok keys ∧ key ∈ keys)
        (fun y _ keys hkeys key hk => ⟨keys, hkeys, hk⟩) ?_ (by simp)
      refine List.pairwise_of_forall_mem_list fun y hy z hz key hyk hzk => ?_
      obtain ⟨mine, hmine, hk⟩ := hyk
      obtain ⟨others, hothers, hk'⟩ := hzk
      exact hinjective (hsingle _ (List.mem_map_of_mem hy) _ (List.mem_map_of_mem hz) mine others
        ((hbare y).trans hmine) ((hbare z).trans hothers) key hk hk')
    rw [hclash, hnone]

end Writers

inductive PassesInstants (sim : Simulator) :
    Snapshot → List (List (Happening × Footprint)) → Snapshot → Prop
  | nil {c : Snapshot} : PassesInstants sim c [] c
  | cons {c d c' : Snapshot} {zs : List (Happening × Footprint)}
      {zss : List (List (Happening × Footprint))}
      (unclashed : Unclashed sim c.valuation (zs.map Prod.fst)) (first : Passes sim c zs d)
      (rest : PassesInstants sim d zss c') : PassesInstants sim c (zs :: zss) c'

theorem PassesInstants.of_perm {sim : Simulator} {c c' : Snapshot}
    {zss wss : List (List (Happening × Footprint))}
    {P : Happening × Footprint → Happening × Footprint → Prop}
    (h : PassesInstants sim c zss c') (hc : c.Settled sim)
    (hperm : List.Forall₂ List.Perm zss wss) (hzss : ∀ zs ∈ zss, zs.Pairwise P)
    (hwss : ∀ ws ∈ wss, ws.Pairwise fun y x => P x y → Exchange x y) :
    PassesInstants sim c wss c' := by
  induction hperm generalizing c with
  | nil => exact h
  | cons hfirst _ ih =>
      obtain ⟨hzs, hzss⟩ := List.forall_mem_cons.mp hzss
      obtain ⟨hws, hwss⟩ := List.forall_mem_cons.mp hwss
      cases h with
      | cons unclashed first rest =>
          exact .cons (unclashed.of_perm (hfirst.map Prod.fst))
            (first.of_perm hc hfirst hzs hws) (ih rest (first.settled hc) hzss hwss)

def Numbering.shown (k : Numbering) (z : Scheduled × Footprint) : Happening × Footprint :=
  (k.happening z.1, z.2)

theorem Numbering.happenings_shown (k : Numbering) (zs : List (Scheduled × Footprint)) :
    (zs.map k.shown).map Prod.fst = (zs.map Prod.fst).map k.happening := by
  simp [shown, Function.comp_def]

theorem Scheduled.flatten_shown {xs : List Scheduled} {zss : List (List (Scheduled × Footprint))}
    (h : zss.map (List.map Prod.fst) = instants xs) : zss.flatten.map Prod.fst = xs := by
  rw [List.map_flatten, h, instants, List.flatten_splitBy]

theorem Numbering.opened_initialState (k : Numbering) (sim : Simulator) :
    k.opened sim.initialState = ∅ := by
  simp [opened, Simulator.initialState]

section Runs

variable {sim : Simulator} {k : Numbering} {steps : List TimedStep} {sched : Schedule}
  {made : List (List Event)} {arranged xs rest : List Scheduled} {xss : List (List Scheduled)}
  {zs ws : List (Scheduled × Footprint)} {zss : List (List (Scheduled × Footprint))}
  {p q : Progress} {c : Snapshot} {time : Rat}

theorem visit_none : Validator.visit sim time p = .ok (q, none) ↔
    ∃ m, p.monitor.visit (Expr.holds (sim.situation p.state.valuation .empty)) time =
      .ok (m, none) ∧ q = { p with monitor := m } := by
  unfold Validator.visit
  rw [except_bind_ok]
  constructor
  · rintro ⟨⟨m, violation⟩, hvisit, h⟩
    obtain ⟨rfl, rfl⟩ := Prod.mk.inj (except_pure_ok.mp h)
    exact ⟨m, hvisit, rfl⟩
  · rintro ⟨m, hvisit, rfl⟩
    exact ⟨(m, none), hvisit, rfl⟩

theorem applyEvents_cons {x : Scheduled}
    (h : (Validator.applyEvents sim (x :: xs) p).Gives (q, none)) :
    ∃ s m, Step sim x p.state s ∧
      p.monitor.visit (Expr.holds (sim.situation s.valuation .empty)) x.time = .ok (m, none) ∧
      (Validator.applyEvents sim xs ⟨s, m, p.trace ++ [x.entry]⟩).Gives (q, none) := by
  obtain ⟨r, hr, h⟩ := gives_bind h
  cases r with
  | error r => cases gives_pure h
  | ok s =>
      obtain ⟨u, -, h⟩ := gives_bind h
      obtain ⟨⟨p', violation⟩, hvisit, h⟩ := gives_bind h
      cases violation with
      | some violation => cases gives_pure h
      | none =>
          obtain ⟨m, hm, rfl⟩ := visit_none.mp (gives_ofExcept hvisit)
          exact ⟨s, m, step_of_gives hr, hm, h⟩

theorem applyInstants_cons
    (h : (Validator.applyInstants sim (xs :: xss) p).Gives (q, none)) :
    simultaneousWrites sim p.state.valuation xs .empty = .ok none ∧ ∃ p',
      (Validator.applyEvents sim xs p).Gives (p', none) ∧
      (Validator.applyInstants sim xss p').Gives (q, none) := by
  obtain ⟨clash, hclash, h⟩ := gives_bind h
  cases clash with
  | some clash => cases gives_pure h
  | none =>
      obtain ⟨⟨p', violation⟩, hp', h⟩ := gives_bind h
      cases violation with
      | some violation => cases gives_pure h
      | none => exact ⟨gives_ofExcept hclash, p', hp', h⟩

namespace Described

variable (h : Described k steps sched made arranged)
include h

theorem passes_of_applyEvents (hr : Reached sched zs p.state)
    (hsub : ∀ z ∈ zs, z.1 ∈ sched.events) (hxs : ∀ x ∈ xs, x ∈ sched.events)
    (happ : (Validator.applyEvents sched.sim xs p).Gives (q, none)) :
    ∃ ws : List (Scheduled × Footprint),
      ws.map Prod.fst = xs ∧ Passes sched.sim (k.snapshot p) (ws.map k.shown) (k.snapshot q) ∧
      Reached sched (ws.reverse ++ zs) q.state := by
  induction xs generalizing zs p with
  | nil =>
      obtain ⟨rfl, -⟩ := Prod.mk.inj (gives_pure happ)
      exact ⟨[], rfl, .nil, hr⟩
  | cons x xs ih =>
      obtain ⟨hx, hxs⟩ := List.forall_mem_cons.mp hxs
      obtain ⟨s, m, hstep, hm, happ⟩ := applyEvents_cons happ
      obtain ⟨fp, hmoves, hr'⟩ := h.moves hr hsub (p.trace ++ [x.entry]) hx hstep hm
      obtain ⟨ws, rfl, hpasses, hreached⟩ := ih (p := ⟨s, m, p.trace ++ [x.entry]⟩) hr'
        (List.forall_mem_cons.mpr ⟨hx, hsub⟩) hxs happ
      refine ⟨(x, fp) :: ws, rfl, .cons hmoves hpasses, ?_⟩
      rwa [List.reverse_cons, List.append_assoc]

theorem applyEvents (hs : sched.Regular) (hr : Reached sched zs p.state)
    (hsplit : sched.events = zs.reverse.map Prod.fst ++ (ws.map Prod.fst ++ rest))
    (hpasses : Passes sched.sim (k.snapshot p) (ws.map k.shown) c)
    (hapart : ((ws.reverse ++ zs).map noted).Pairwise (Apart sched.sim.epsilon)) : ∃ q,
      (Validator.applyEvents sched.sim (ws.map Prod.fst) p).Yields (q, none) ∧ k.snapshot q = c ∧
      Reached sched (ws.reverse ++ zs) q.state := by
  induction ws generalizing zs p with
  | nil =>
      cases hpasses
      exact ⟨p, fun _ => rfl, rfl, hr⟩
  | cons w ws ih =>
      obtain ⟨x, fp⟩ := w
      rw [List.reverse_cons, List.append_assoc] at hapart ⊢
      cases hpasses with
      | cons hmoves hpasses =>
          have hsub : ∀ z ∈ zs, z.1 ∈ sched.events := fun z hz => by
            rw [hsplit]
            exact List.mem_append_left _ (List.mem_map_of_mem (List.mem_reverse.mpr hz))
          have hfirst : (((x, fp) :: zs).map noted).Pairwise (Apart sched.sim.epsilon) := by
            rw [List.map_append] at hapart
            exact (List.pairwise_append.mp hapart).2.1
          obtain ⟨s, hstep, hseen, hsnapshot, hr'⟩ :=
            h.takes hr hsub (p.trace ++ [x.entry]) hs hsplit hmoves hfirst
          rw [← hsnapshot] at hpasses
          obtain ⟨q, hq, hqc, hreached⟩ := ih (p := ⟨s, _, p.trace ++ [x.entry]⟩) hr'
            (by simpa using hsplit) hpasses hapart
          refine ⟨q, ?_, hqc, hreached⟩
          refine Yields.bind ((steady_tryApply sched.sim x.event p.state _).yields hstep) ?_
          refine Yields.bind (a := ()) (fun _ => rfl) ?_
          exact Yields.bind ((steady_ofExcept _).yields (visit_none.mpr ⟨_, hseen, rfl⟩)) hq

theorem passesInstants_of_applyInstants (hr : Reached sched zs p.state)
    (hsub : ∀ z ∈ zs, z.1 ∈ sched.events) (hxss : ∀ x ∈ xss.flatten, x ∈ sched.events)
    (happ : (Validator.applyInstants sched.sim xss p).Gives (q, none)) :
    ∃ zss : List (List (Scheduled × Footprint)), zss.map (List.map Prod.fst) = xss ∧
      PassesInstants sched.sim (k.snapshot p) (zss.map (List.map k.shown)) (k.snapshot q) ∧
      Reached sched (zss.flatten.reverse ++ zs) q.state := by
  induction xss generalizing zs p with
  | nil =>
      obtain ⟨rfl, -⟩ := Prod.mk.inj (gives_pure happ)
      exact ⟨[], rfl, .nil, hr⟩
  | cons xs xss ih =>
      obtain ⟨hxs, hlater⟩ := List.forall_mem_append.mp hxss
      obtain ⟨hwrites, p', hp', hq⟩ := applyInstants_cons happ
      obtain ⟨ws, rfl, hpasses, hr'⟩ := h.passes_of_applyEvents hr hsub hxs hp'
      have hsub' : ∀ z ∈ ws.reverse ++ zs, z.1 ∈ sched.events := fun z hz => by
        rcases List.mem_append.mp hz with hz | hz
        · exact hxs z.1 (List.mem_map_of_mem (List.mem_reverse.mp hz))
        · exact hsub z hz
      obtain ⟨zss, rfl, hpassed, hreached⟩ := ih hr' hsub' hlater hq
      refine ⟨ws :: zss, rfl, .cons ?_ hpasses hpassed, ?_⟩
      · rw [k.happenings_shown]
        exact (unclashed_iff h.fits.injective).mp hwrites
      · rwa [List.flatten_cons, List.reverse_append, List.append_assoc]

theorem applyInstants (hs : sched.Regular) (hr : Reached sched zs p.state)
    (hsplit : sched.events = zs.reverse.map Prod.fst ++ zss.flatten.map Prod.fst)
    (hpassed : PassesInstants sched.sim (k.snapshot p) (zss.map (List.map k.shown)) c)
    (hapart : ((zss.flatten.reverse ++ zs).map noted).Pairwise (Apart sched.sim.epsilon)) : ∃ q,
      (Validator.applyInstants sched.sim (zss.map (List.map Prod.fst)) p).Yields (q, none) ∧
      k.snapshot q = c ∧ Reached sched (zss.flatten.reverse ++ zs) q.state := by
  induction zss generalizing zs p with
  | nil =>
      cases hpassed
      exact ⟨p, fun _ => rfl, rfl, hr⟩
  | cons ws zss ih =>
      rw [List.flatten_cons, List.reverse_append, List.append_assoc] at hapart ⊢
      rw [List.flatten_cons, List.map_append] at hsplit
      cases hpassed with
      | cons hunclashed hpasses hpassed =>
          have hfirst : ((ws.reverse ++ zs).map noted).Pairwise (Apart sched.sim.epsilon) := by
            rw [List.map_append] at hapart
            exact (List.pairwise_append.mp hapart).2.1
          obtain ⟨p', hp', rfl, hr'⟩ := h.applyEvents hs hr hsplit hpasses hfirst
          obtain ⟨q, hq, hqc, hreached⟩ := ih hr' (by simpa using hsplit) hpassed hapart
          refine ⟨q, ?_, hqc, hreached⟩
          rw [k.happenings_shown] at hunclashed
          have hwrites := (unclashed_iff h.fits.injective).mpr hunclashed
          exact Yields.bind ((steady_ofExcept _).yields hwrites) (Yields.bind hp' hq)

end Described

end Runs

structure Simulator.Begins (sim : Simulator) (c : Snapshot) : Prop where
  valuation : c.valuation = sim.initialState.valuation
  opened : c.opened = ∅
  seen : (Monitor.start sim.problem.trajectory).visit
    (Expr.holds (sim.situation c.valuation .empty)) 0 = .ok (c.monitor, none)

theorem Simulator.Begins.settled {sim : Simulator} {c : Snapshot} (h : sim.Begins c) :
    c.Settled sim where
  holds o ho := by simp [h.opened] at ho
  seen := Monitor.visit_idem h.seen

structure PassesAll (k : Numbering) (sched : Schedule) (zss : List (List (Scheduled × Footprint)))
    (c c' : Snapshot) : Prop where
  instants : zss.map (List.map Prod.fst) = Scheduled.instants sched.events
  begins : sched.sim.Begins c
  passesInstants : PassesInstants sched.sim c (zss.map (List.map k.shown)) c'
  finish : c'.monitor.finish = none
  apart : (zss.flatten.map noted).Pairwise (Apart sched.sim.epsilon)

section Executions

variable {k : Numbering} {steps : List TimedStep} {sched : Schedule} {made : List (List Event)}
  {arranged : List Scheduled} {zs : List (Scheduled × Footprint)}
  {zss : List (List (Scheduled × Footprint))} {p : Progress} {c c' : Snapshot} {s s' : State}

theorem PassesAll.events (h : PassesAll k sched zss c c') :
    zss.flatten.map Prod.fst = sched.events :=
  Scheduled.flatten_shown h.instants

theorem execute_inv (h : (Validator.execute sched.sim sched).Gives (p, none)) :
    ∃ m q, (Monitor.start sched.sim.problem.trajectory).visit
        (Expr.holds (sched.sim.situation sched.sim.initialState.valuation .empty)) 0 =
        .ok (m, none) ∧
      (Validator.applyInstants sched.sim (Scheduled.instants sched.events)
        ⟨sched.sim.initialState, m, []⟩).Gives (q, none) ∧
      q.monitor.finish = none ∧
      Step sched.sim ⟨sched.sim.planEnd, sched.makespan, .goal⟩ q.state p.state := by
  obtain ⟨⟨p₀, violation⟩, hvisit, h⟩ := gives_bind h
  cases violation with
  | some violation => cases gives_pure h
  | none =>
      obtain ⟨m, hm, rfl⟩ := visit_none.mp (gives_ofExcept hvisit)
      obtain ⟨⟨q, violation⟩, hq, h⟩ := gives_bind h
      cases violation with
      | some violation => cases gives_pure h
      | none =>
          simp only [Validator.applyEnd] at h
          cases hfinish : q.monitor.finish with
          | some violation =>
              rw [hfinish] at h
              cases gives_pure h
          | none =>
              rw [hfinish] at h
              obtain ⟨r, hr, h⟩ := gives_bind h
              cases r with
              | error r => cases gives_pure h
              | ok s =>
                  obtain ⟨rfl, -⟩ := Prod.mk.inj (gives_pure h)
                  exact ⟨m, q, hm, hq, hfinish, step_of_gives hr⟩

theorem le_of_allows {sim : Simulator} {done : List (Applied × Rat)} {a b : Applied × Rat}
    {τ : EventRef → Rat} (hτ : sim.Allows (pinned (a :: done)) τ) (hb : b ∈ done) : b.2 ≤ a.2 := by
  have horder := hτ.order
  rw [applied_pinned, List.map_cons, List.cons_append] at horder
  have hle := List.rel_of_pairwise_cons horder
    (List.mem_append_left _ (List.mem_map_of_mem (f := Prod.fst) hb))
  have ha := hτ.pinned (a.1, some a.2) List.mem_cons_self a.2 rfl
  have hb := hτ.pinned (b.1, some b.2)
    (List.mem_cons_of_mem _ (List.mem_map_of_mem hb)) b.2 rfl
  linarith

namespace Described

variable (h : Described k steps sched made arranged)
include h

theorem passesAll (hp : (Validator.execute sched.sim sched).Gives (p, none))
    (htimely : (∀ x ∈ sched.events, x.time ≤ sched.makespan) → Timely sched) :
    ∃ zss c c', PassesAll k sched zss c c' ∧ sched.Regular ∧
      c'.valuation.Same p.state.valuation := by
  obtain ⟨m, q, hm, hq, hfinish, hend⟩ := execute_inv hp
  have hstart : Reached sched [] sched.sim.initialState := ⟨h.run, .nil⟩
  obtain ⟨zss, hinstants, hpassed, hr⟩ := h.passesInstants_of_applyInstants
    (p := ⟨sched.sim.initialState, m, []⟩) hstart (by simp) (fun x hx => by
      rwa [Scheduled.instants, List.flatten_splitBy] at hx) hq
  rw [List.append_nil] at hr
  have hevents := Scheduled.flatten_shown hinstants
  have hdone : (zss.flatten.reverse.map noted).map (fun a => (a.1.event, a.2)) =
      sched.events.reverse.map fun x => (x.event, x.time) := by
    rw [← hevents]
    simp [noted, Function.comp_def]
  have ht : Timely sched := by
    refine htimely fun x hx => ?_
    obtain ⟨τ, hτ⟩ := (hr.run.apply hend).represents.check_iff.mp hend.consistent
    obtain ⟨a, ha, -, htime⟩ := exists_applied hdone hx
    rw [← htime]
    exact le_of_allows (a := (p.state.last, sched.makespan)) hτ ha
  have hreplays : Replays sched.sim sched.sim.initialState sched.events q.state := by
    have hreplays := hr.replays
    rwa [List.reverse_reverse, hevents] at hreplays
  obtain ⟨hnonneg, hapart, hcrosses⟩ :=
    times_fit ht hr.run hdone fun hne => hreplays.consistent hne
  obtain ⟨e, he, -⟩ := ht.finish
  have hapart' : (zss.flatten.map noted).Pairwise (Apart sched.sim.epsilon) := by
    rw [List.map_reverse, List.pairwise_reverse] at hapart
    exact hapart.imp fun hab => hab.symm
  exact ⟨zss, _, _, ⟨hinstants, ⟨rfl, k.opened_initialState _, hm⟩, hpassed, hfinish, hapart'⟩,
    ⟨ht, hnonneg, hcrosses⟩, (hend.same_of_end he).symm⟩

theorem executes (hs : sched.Regular) (hpassesAll : PassesAll k sched zss c c') :
    ∃ p, (Validator.execute sched.sim sched).Yields (p, none) ∧
      c'.valuation.Same p.state.valuation := by
  have hevents := hpassesAll.events
  obtain ⟨hinstants, ⟨hvaluation, hopened, hseen⟩, hpassed, hfinish, hapart⟩ := hpassesAll
  have hstart : Reached sched [] sched.sim.initialState := ⟨h.run, .nil⟩
  let p₀ : Progress := ⟨sched.sim.initialState, c.monitor, []⟩
  have hsnapshot : k.snapshot p₀ = c := by
    rw [Numbering.snapshot, k.opened_initialState, ← hopened, ← hvaluation]
  rw [← hsnapshot] at hpassed
  have hapart' : ((zss.flatten.reverse ++ []).map noted).Pairwise (Apart sched.sim.epsilon) := by
    rw [List.append_nil, List.map_reverse, List.pairwise_reverse]
    exact hapart.imp fun hab => hab.symm
  obtain ⟨q, hq, rfl, hr⟩ := h.applyInstants hs (p := p₀) hstart (by simpa using hevents.symm)
    hpassed hapart'
  have hreplays : Replays sched.sim sched.sim.initialState sched.events q.state := by
    have hreplays := hr.replays
    rwa [List.append_nil, List.reverse_reverse, hevents] at hreplays
  obtain ⟨s, hend⟩ := h.assembled.ends h.positive.le hreplays hs.timely h.run
  obtain ⟨e, he, -⟩ := hs.timely.finish
  let p : Progress := { q with
    state := s
    trace := q.trace ++ [(sched.makespan, sched.sim.planEnd.label)] }
  refine ⟨p, ?_, (hend.same_of_end he).symm⟩
  rw [hinstants] at hq
  rw [hvaluation] at hseen
  have happlyEnd : (Validator.applyEnd sched.sim sched.makespan q).Yields (p, none) := by
    have hfinish : q.monitor.finish = none := hfinish
    rw [Validator.applyEnd, hfinish]
    exact Yields.bind ((steady_tryApply sched.sim _ q.state _).yields hend) fun _ => rfl
  exact Yields.bind ((steady_ofExcept _).yields (visit_none.mpr ⟨_, hseen, rfl⟩))
    (Yields.bind hq happlyEnd)

end Described

end Executions

end TemporalPlanning
