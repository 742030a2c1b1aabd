import TemporalPlanning.Proofs.InstantaneousSteps
import TemporalPlanning.Proofs.ParallelEffects

namespace TemporalPlanning

section Reads

variable {s s' : Situation} {keys : List String}

theorem Situation.Agrees.mono {others : List String} (h : s.Agrees s' keys)
    (hsub : ∀ key ∈ others, key ∈ keys) : s.Agrees s' others :=
  ⟨h.defaults, h.bindings, fun key hk => h.values key (hsub key hk)⟩

theorem Simulator.checkConditions_of_agrees {cs : List Expr}
    (h : (checkConditions s cs).Gives keys) (hs : s.Agrees s' keys) :
    (checkConditions s' cs).Gives keys := by
  induction cs generalizing keys with
  | nil => exact h
  | cons c cs ih =>
      simp only [checkConditions, Attempt.gives_bind, Attempt.gives_ofExcept,
        Attempt.gives_require, Attempt.gives_pure] at h ⊢
      obtain ⟨mine, hmine, b, hb, -, rfl, rest, hrest, rfl⟩ := h
      refine ⟨mine, Expr.reads_of_agrees hmine hs.left, true, ?_, (), rfl, rest,
        ih hrest hs.right, rfl⟩
      rw [Expr.holds_of_agrees hmine hs.left, hb]

variable {e : Effect} {es : List Effect} {key : String} {c : Change} {f f' : Firing}
  {guards values args : List String}

theorem Effect.Makes.of_agrees (h : e.Makes s key c) (hvalues : e.value.reads s = .ok values)
    (hargs : Expr.readsAll s e.target.args = .ok args)
    (hs : s.Agrees s' (values ++ args ++ e.rereads key)) : e.Makes s' key c := by
  obtain ⟨hvalue, -⟩ := Expr.evaluate_of_agrees e.value hvalues hs.left.left
  obtain ⟨hobjects, -⟩ := Expr.evaluateAll_of_agrees e.target.args hargs hs.left.right
  have hground : e.target.ground s' = e.target.ground s := by
    rw [FluentTerm.ground, hobjects, FluentTerm.ground]
  obtain ⟨hkey, h⟩ := h
  refine ⟨hground.trans hkey, ?_⟩
  have hown : e.target.expr.reads s = .ok (args ++ [key]) :=
    except_bind_ok.mpr ⟨args, hargs, except_bind_ok.mpr ⟨key, hkey, rfl⟩⟩
  have hamount (hkind : e.kind ≠ .assign) : e.target.expr.amount s' = e.target.expr.amount s := by
    have hagrees : s.Agrees s' (args ++ [key]) := by
      refine hs.mono fun k hk => ?_
      rcases List.mem_append.mp hk with hk | hk
      · simp [hk]
      · simp [Effect.rereads, hkind, List.mem_singleton.mp hk]
    rw [Expr.amount, (Expr.evaluate_of_agrees _ hown hagrees).1, Expr.amount]
  cases hkind : e.kind with
  | assign =>
      cases c with
      | become value => simpa only [hkind, hvalue] using h
      | shift base amount => simp [hkind] at h
  | increase => simpa only [hkind, hvalue, hamount (by simp [hkind])] using h
  | decrease => simpa only [hkind, hvalue, hamount (by simp [hkind])] using h

theorem Effect.guard_of_agrees (hguards : e.guardReads s = .ok guards) (hs : s.Agrees s' guards) :
    e.guardReads s' = .ok guards ∧ e.guard s' = e.guard s := by
  unfold Effect.guardReads at hguards
  unfold Effect.guardReads Effect.guard
  cases hc : e.condition with
  | none => exact ⟨by simpa only [hc] using hguards, rfl⟩
  | some c =>
      rw [hc] at hguards
      exact ⟨Expr.reads_of_agrees hguards hs, Expr.holds_of_agrees hguards hs⟩

namespace Firing

theorem reads_make (f : Firing) (key : String) (c : Change) : (f.make key c).reads = f.reads := by
  cases c with
  | become value =>
      simp only [make, assign, clash]
      split <;> rfl
  | shift base amount =>
      simp only [make, change, clash]
      split <;> rfl

theorem takeEffect_of_agrees (h : takeEffect s f e guards = .ok f') (hs : s.Agrees s' f'.reads) :
    takeEffect s' f e guards = .ok f' := by
  obtain ⟨values, args, key, c, hvalues, hargs, hmakes, rfl⟩ := takeEffect_ok.mp h
  rw [reads_make] at hs
  refine takeEffect_ok.mpr ⟨values, args, key, c, ?_, ?_, ?_, rfl⟩
  · exact Expr.reads_of_agrees hvalues (hs.mono fun k hk => by simp [read, hk])
  · obtain ⟨-, -, -, -, hreads⟩ := Expr.evaluateAll_of_agrees e.target.args hargs
      (hs.mono fun k hk => by simp [read, hk])
    rw [hreads, hargs]
  · refine hmakes.of_agrees hvalues hargs (hs.mono fun k hk => ?_)
    simp only [read, List.mem_append] at hk ⊢
    tauto

theorem reads_of_fireEffect (h : fireEffect s f e = .ok f') : ∃ guards,
    e.guardReads s = .ok guards ∧ ∀ key, key ∈ f.reads ∨ key ∈ guards → key ∈ f'.reads := by
  simp only [fireEffect_eq, except_bind_ok] at h
  obtain ⟨guards, hguards, fires, -, h⟩ := h
  refine ⟨guards, hguards, fun key hk => ?_⟩
  cases fires with
  | false =>
      obtain rfl := except_pure_ok.mp h
      exact List.mem_append.mpr hk
  | true =>
      obtain ⟨values, args, k, c, -, -, -, rfl⟩ := takeEffect_ok.mp h
      rw [reads_make]
      simp only [read, List.mem_append]
      tauto

theorem fireEffect_of_agrees (h : fireEffect s f e = .ok f') (hs : s.Agrees s' f'.reads) :
    fireEffect s' f e = .ok f' := by
  obtain ⟨guards, hguards, hsub⟩ := reads_of_fireEffect h
  obtain ⟨hreads, hguard⟩ := Effect.guard_of_agrees hguards (hs.mono fun k hk => hsub k (.inr hk))
  rw [fireEffect_eq, hguards] at h
  rw [fireEffect_eq, hreads, hguard]
  obtain ⟨fires, hfires, h⟩ := except_bind_ok.mp (show e.guard s >>= _ = _ from h)
  refine except_bind_ok.mpr ⟨guards, rfl, except_bind_ok.mpr ⟨fires, hfires, ?_⟩⟩
  cases fires with
  | false => exact h
  | true => exact takeEffect_of_agrees h hs

theorem reads_of_foldlM (h : es.foldlM (fireEffect s) f = .ok f') :
    ∀ key ∈ f.reads, key ∈ f'.reads := by
  induction es generalizing f with
  | nil =>
      obtain rfl := except_pure_ok.mp h
      exact fun _ hk => hk
  | cons e es ih =>
      rw [List.foldlM_cons, except_bind_ok] at h
      obtain ⟨next, he, h⟩ := h
      obtain ⟨guards, -, hsub⟩ := reads_of_fireEffect he
      exact fun key hk => ih h key (hsub key (.inl hk))

theorem foldlM_of_agrees (h : es.foldlM (fireEffect s) f = .ok f') (hs : s.Agrees s' f'.reads) :
    es.foldlM (fireEffect s') f = .ok f' := by
  induction es generalizing f with
  | nil => exact h
  | cons e es ih =>
      rw [List.foldlM_cons, except_bind_ok] at h
      obtain ⟨next, he, h⟩ := h
      rw [List.foldlM_cons, except_bind_ok]
      exact ⟨next, fireEffect_of_agrees he (hs.mono (reads_of_foldlM h)), ih h⟩

end Firing

variable {a : InstantaneousAction} {fp : Footprint}

theorem InstantaneousAction.Performs.of_agrees (h : a.Performs s fp) (hs : s.Agrees s' fp.reads) :
    a.Performs s' fp := by
  obtain ⟨reads, firing, hreads, hfiring, hconflicts, rfl⟩ := h
  refine ⟨reads, firing, Simulator.checkConditions_of_agrees hreads (hs.mono fun key hk => ?_),
    Firing.foldlM_of_agrees hfiring (hs.mono fun key hk => ?_), hconflicts, rfl⟩
  · exact List.mem_eraseDups.mpr (List.mem_append_left _ hk)
  · exact List.mem_eraseDups.mpr (List.mem_append_right _ hk)

theorem InstantaneousAction.Performs.targets (h : a.Performs s fp) : ∃ keys,
    effectTargets s a.effects = .ok keys ∧ ∀ key, key ∈ keys ↔ key ∈ fp.updates.keys := by
  obtain ⟨reads, firing, -, hfiring, -, rfl⟩ := h
  obtain ⟨changes, hfires, hreflects⟩ := Firing.reflects_foldlM hfiring Firing.reflects_empty
  rw [List.nil_append] at hreflects
  exact ⟨_, effectTargets_of_fires hfires, fun key => hreflects.mem_updates.symm⟩

end Reads

section Courses

def Valuation.Same (v w : Valuation) : Prop := ∀ key, w.get? key = v.get? key

structure Deed where
  time : Rat
  ground : GroundAction
  footprint : Footprint

def GroundAction.Performs (defaults : OrderedMap String Value) (g : GroundAction) (v : Valuation)
    (fp : Footprint) : Prop :=
  ∃ a, g.action = .instantaneous a ∧ a.Performs ⟨defaults, v, g.bindings⟩ fp

def Footprint.Interferes (a b : Footprint) : Prop :=
  ∃ key, key ∈ a.updates.keys ∧ (key ∈ b.reads ∨ key ∈ b.updates.keys) ∨
    key ∈ b.updates.keys ∧ key ∈ a.reads

inductive Course (defaults : OrderedMap String Value) : Valuation → List Deed → Valuation → Prop
  | nil {v w : Valuation} (same : v.Same w) : Course defaults v [] w
  | cons {v v' w : Valuation} {d : Deed} {ds : List Deed}
      (performs : d.ground.Performs defaults v d.footprint)
      (after : (v.update d.footprint.updates).Same v') (rest : Course defaults v' ds w) :
      Course defaults v (d :: ds) w

variable {defaults : OrderedMap String Value} {v v' w w' : Valuation} {a b d : Deed}
  {ds es before after : List Deed}

theorem Valuation.Same.refl (v : Valuation) : v.Same v := fun _ => rfl

theorem Valuation.Same.symm (h : v.Same w) : w.Same v := fun key => (h key).symm

theorem Valuation.Same.trans (h : v.Same v') (h' : v'.Same w) : v.Same w :=
  fun key => (h' key).trans (h key)

theorem Valuation.Same.update (h : v.Same v') (changes : OrderedMap String Value) :
    (v.update changes).Same (v'.update changes) := by
  intro key
  rw [get?_update, get?_update, h key]

theorem GroundAction.Performs.of_reads {g : GroundAction} {fp : Footprint}
    (h : g.Performs defaults v fp) (hv : ∀ key ∈ fp.reads, v'.get? key = v.get? key) :
    g.Performs defaults v' fp := by
  obtain ⟨a, ha, h⟩ := h
  exact ⟨a, ha, h.of_agrees ⟨rfl, rfl, hv⟩⟩

theorem Occurrence.performs_iff {o : Occurrence} {fp : Footprint} :
    o.ground.Performs defaults v fp ↔
      o.action.Performs ⟨defaults, v, o.ground.bindings⟩ fp := by
  constructor
  · rintro ⟨a, ha, h⟩
    rwa [← Action.instantaneous.inj (o.instantaneous.symm.trans ha)] at h
  · exact fun h => ⟨o.action, o.instantaneous, h⟩

def Deed.Clear (epsilon : Rat) (a b : Deed) : Prop :=
  a.footprint.Interferes b.footprint → epsilon ≤ |a.time - b.time|

theorem Deed.Clear.symm {epsilon : Rat} (h : a.Clear epsilon b) : b.Clear epsilon a := by
  rintro ⟨key, hkey⟩
  rw [abs_sub_comm]
  exact h ⟨key, by tauto⟩

theorem Deed.Clear.not_interferes {epsilon : Rat} (h : a.Clear epsilon b)
    (hepsilon : 0 < epsilon) (ht : a.time = b.time) : ¬ a.footprint.Interferes b.footprint := by
  intro hinterferes
  have hfar := h hinterferes
  rw [ht, sub_self, abs_zero] at hfar
  exact absurd hfar (not_le.mpr hepsilon)

namespace Course

theorem from_same (h : Course defaults v ds w) (hv : v.Same v') : Course defaults v' ds w := by
  cases h with
  | nil same => exact .nil fun key => (same key).trans (hv key).symm
  | cons performs after rest =>
      refine .cons (performs.of_reads fun key _ => hv key) (fun key => ?_) rest
      exact (after key).trans (hv.update _ key).symm

theorem to_same (h : Course defaults v ds w) (hw : w.Same w') : Course defaults v ds w' := by
  induction h with
  | nil same => exact .nil (same.trans hw)
  | cons performs after _ ih => exact .cons performs after (ih hw)

theorem swap (h : Course defaults v (a :: b :: ds) w)
    (hfree : ¬ a.footprint.Interferes b.footprint) : Course defaults v (b :: a :: ds) w := by
  cases h with
  | @cons _ v₁ _ _ _ ha hv₁ h =>
      cases h with
      | @cons _ v₂ _ _ _ hb hv₂ h =>
          have hbefore : b.ground.Performs defaults v b.footprint := by
            refine hb.of_reads fun key hk => ?_
            rw [hv₁ key]
            refine (Valuation.get?_update_of_notMem _ fun hwrites => hfree ?_).symm
            exact ⟨key, .inl ⟨hwrites, .inl hk⟩⟩
          have hafter : a.ground.Performs defaults (v.update b.footprint.updates) a.footprint := by
            refine ha.of_reads fun key hk => ?_
            refine Valuation.get?_update_of_notMem _ fun hwrites => hfree ?_
            exact ⟨key, .inr ⟨hwrites, hk⟩⟩
          refine .cons hbefore (fun _ => rfl) (.cons hafter (fun key => ?_) h)
          rw [hv₂ key, Valuation.get?_update, hv₁ key, Valuation.get?_update,
            Valuation.get?_update, Valuation.get?_update]
          by_cases hkey : key ∈ a.footprint.updates.keys
          · have hnone : b.footprint.updates.get? key = none := by
              rw [OrderedMap.get?_eq_none_iff]
              exact fun hwrites => hfree ⟨key, .inl ⟨hkey, .inr hwrites⟩⟩
            simp [hnone]
          · simp [OrderedMap.get?_eq_none_iff.mpr hkey]

theorem to_front (h : Course defaults v (before ++ d :: after) w)
    (hfree : ∀ b ∈ before, ¬ b.footprint.Interferes d.footprint) :
    Course defaults v (d :: before ++ after) w := by
  induction before generalizing v with
  | nil => exact h
  | cons b before ih =>
      obtain ⟨hb, hfree⟩ := List.forall_mem_cons.mp hfree
      cases h with
      | cons performs after rest => exact swap (.cons performs after (ih rest hfree)) hb

theorem performs (h : Course defaults v (before ++ d :: after) w)
    (hfree : ∀ b ∈ before, ¬ b.footprint.Interferes d.footprint) :
    d.ground.Performs defaults v d.footprint := by
  cases h.to_front hfree with
  | cons performs _ _ => exact performs

theorem of_perm (h : Course defaults v ds w) (hperm : ds.Perm es)
    (hds : ds.Pairwise fun a b => a.time ≤ b.time) (hes : es.Pairwise fun a b => a.time ≤ b.time)
    (hfree : ds.Pairwise fun a b => a.time = b.time → ¬ a.footprint.Interferes b.footprint) :
    Course defaults v es w := by
  induction es generalizing ds v with
  | nil => exact hperm.eq_nil ▸ h
  | cons e es ih =>
      obtain ⟨before, after, rfl⟩ := List.append_of_mem (hperm.mem_iff.mpr List.mem_cons_self)
      -- what comes before `e` in the one order and after it in the other is of the same time
      have hearlier : ∀ b ∈ before, b.time = e.time := by
        intro b hb
        have hle : b.time ≤ e.time :=
          (List.pairwise_append.mp hds).2.2 b hb e List.mem_cons_self
        have hmem : b ∈ e :: es := hperm.mem_iff.mp (List.mem_append_left _ hb)
        rcases List.mem_cons.mp hmem with rfl | hmem
        · rfl
        · exact le_antisymm hle (List.rel_of_pairwise_cons hes hmem)
      have hfront := h.to_front fun b hb =>
        (List.pairwise_append.mp hfree).2.2 b hb e List.mem_cons_self (hearlier b hb)
      have hsub : (before ++ after).Sublist (before ++ e :: after) :=
        (List.sublist_cons_self e after).append_left before
      cases hfront with
      | cons performs later rest =>
          refine .cons performs later (ih rest ?_ (hds.sublist hsub) hes.of_cons
            (hfree.sublist hsub))
          exact (List.perm_middle.symm.trans hperm).cons_inv

end Course

end Courses

end TemporalPlanning
