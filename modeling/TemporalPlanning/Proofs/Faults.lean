import TemporalPlanning.Proofs.Attempts
import TemporalPlanning.Validation.Metrics
import TemporalPlanning.Validation.Schedule
import TemporalPlanning.Validation.Trajectory

namespace TemporalPlanning

variable {α β : Type} {P : Fault → Prop}

def FaultsOnly (P : Fault → Prop) (x : Except Fault α) : Prop := ∀ f, x = .error f → P f

namespace FaultsOnly

theorem ok (a : α) : FaultsOnly P (.ok a) := nofun

theorem pure (a : α) : FaultsOnly P (Pure.pure a) := nofun

theorem mono {Q : Fault → Prop} {x : Except Fault α} (hx : FaultsOnly P x)
    (h : ∀ f, P f → Q f) : FaultsOnly Q x := fun f hf => h f (hx f hf)

theorem error {f : Fault} (h : P f) : FaultsOnly P (.error f : Except Fault α) := by
  intro g hg
  rwa [← Except.error.inj hg]

theorem bind {x : Except Fault α} {g : α → Except Fault β} (hx : FaultsOnly P x)
    (hg : ∀ a, x = .ok a → FaultsOnly P (g a)) : FaultsOnly P (x >>= g) := by
  cases x with
  | ok a => exact hg a rfl
  | error f => exact error (hx f rfl)

theorem map {x : Except Fault α} (g : α → β) (hx : FaultsOnly P x) : FaultsOnly P (g <$> x) := by
  cases x with
  | ok a => exact ok (g a)
  | error f => exact error (hx f rfl)

theorem foldlM {g : β → α → Except Fault β} {xs : List α}
    (hg : ∀ b, ∀ x ∈ xs, FaultsOnly P (g b x)) (b : β) : FaultsOnly P (xs.foldlM g b) := by
  induction xs generalizing b with
  | nil => exact pure b
  | cons x xs ih =>
      rw [List.foldlM_cons]
      exact (hg b x List.mem_cons_self).bind fun b _ =>
        ih (fun b x hx => hg b x (List.mem_cons_of_mem _ hx)) b

theorem mapM {g : α → Except Fault β} (hg : ∀ x, FaultsOnly P (g x)) (xs : List α) :
    FaultsOnly P (xs.mapM g) := by
  induction xs with
  | nil => exact pure []
  | cons x xs ih =>
      rw [List.mapM_cons]
      exact (hg x).bind fun y _ => ih.bind fun ys _ => pure _

end FaultsOnly

def Fault.OfExecution : Fault → Prop
  | .divisionByZero _ | .unboundParameter _ | .notBoolean _ _ | .notNumber _ _ | .notObject _ _ =>
      True
  | .undefinedFluent _ | .changeByNonNumber _ _ _ | .wrongValueCount _ _ _ => True
  | .missingProvider _ | .unusableLogger => True
  | _ => False

def Fault.Ordinary : Fault → Prop
  | .foreignEvent _ => False
  | .activityNotStarted _ _ => False
  | .activityEnded _ _ => False
  | _ => True

theorem Fault.ordinary_iff {f : Fault} : f.Ordinary ↔ f.kind ≠ .foreignEvent ∧
    f.kind ≠ .activityNotStarted ∧ f.kind ≠ .activityEnded := by
  cases f <;> simp [Ordinary, kind]

namespace Fault.OfExecution

variable {f : Fault}

theorem ordinary (h : f.OfExecution) : f.Ordinary := by
  cases f <;> trivial

theorem kind_ne (h : f.OfExecution) : f.kind ≠ .invalidDuration := by
  cases f <;> simp_all [OfExecution, kind]

end Fault.OfExecution

open FaultsOnly

variable (hP : ∀ f : Fault, f.OfExecution → P f)
include hP

section Values

theorem faultsOnly_lookup (s : Situation) (key name : String) :
    FaultsOnly P (s.lookup key name) := by
  unfold Situation.lookup
  split
  · exact ok _
  · split
    · exact ok _
    · exact error (hP _ trivial)

theorem faultsOnly_toBool (kind : String) (v : Value) : FaultsOnly P (v.toBool kind) := by
  cases v with
  | bool b => exact ok b
  | _ => exact error (hP _ trivial)

theorem faultsOnly_toNumber (kind : String) (v : Value) : FaultsOnly P (v.toNumber kind) := by
  cases v with
  | number q => exact ok q
  | _ => exact error (hP _ trivial)

theorem faultsOnly_toObject (fluent : String) (v : Value) : FaultsOnly P (v.toObject fluent) := by
  cases v with
  | object o => exact ok o
  | _ => exact error (hP _ trivial)

theorem faultsOnly_apply (op : Operator) (a b : Rat) : FaultsOnly P (op.apply a b) := by
  cases op with
  | div =>
      change FaultsOnly P (Number.divide a b)
      unfold Number.divide
      split
      · exact error (hP _ trivial)
      · exact ok _
  | _ => exact ok _

theorem faultsOnly_combine (op : Operator) (qs : List Rat) : FaultsOnly P (op.combine qs) := by
  match qs with
  | [] => exact ok _
  | [a] => exact ok _
  | a :: b :: rest => exact foldlM (fun a b _ => faultsOnly_apply hP op a b) a

end Values

section Expressions

variable (s : Situation)

mutual

theorem faultsOnly_evaluate : ∀ e : Expr, FaultsOnly P (e.evaluate s)
  | .constant v => ok v
  | .param name => by
      unfold Expr.evaluate
      split
      · exact ok _
      · exact error (hP _ trivial)
  | .fluent name args => by
      unfold Expr.evaluate
      exact ((faultsOnly_operands args).1 name).bind fun os _ => faultsOnly_lookup hP s _ _
  | .not arg => by
      unfold Expr.evaluate
      exact (faultsOnly_evaluate arg).bind fun v _ =>
        (faultsOnly_toBool hP _ v).bind fun b _ => pure _
  | .junction .and args => by
      unfold Expr.evaluate
      exact (faultsOnly_operands args).2.2.1.map _
  | .junction .or args => by
      unfold Expr.evaluate
      exact (faultsOnly_operands args).2.2.2.map _
  | .relation .implies left right => by
      unfold Expr.evaluate
      refine (faultsOnly_evaluate left).bind fun v _ =>
        (faultsOnly_toBool hP _ v).bind fun b _ => ?_
      split
      · exact (faultsOnly_evaluate right).bind fun v _ =>
          (faultsOnly_toBool hP _ v).bind fun b _ => pure _
      · exact pure _
  | .relation .equals left right => by
      unfold Expr.evaluate
      exact (faultsOnly_evaluate left).bind fun _ _ => (faultsOnly_evaluate right).bind fun _ _ =>
        pure _
  | .relation .less left right => by
      unfold Expr.evaluate
      exact (faultsOnly_evaluate left).bind fun v _ => (faultsOnly_toNumber hP _ v).bind fun _ _ =>
        (faultsOnly_evaluate right).bind fun v _ => (faultsOnly_toNumber hP _ v).bind fun _ _ =>
          pure _
  | .relation .atMost left right => by
      unfold Expr.evaluate
      exact (faultsOnly_evaluate left).bind fun v _ => (faultsOnly_toNumber hP _ v).bind fun _ _ =>
        (faultsOnly_evaluate right).bind fun v _ => (faultsOnly_toNumber hP _ v).bind fun _ _ =>
          pure _
  | .arithmetic op args => by
      unfold Expr.evaluate
      exact (faultsOnly_operands args).2.1.bind fun qs _ => (faultsOnly_combine hP op qs).map _

theorem faultsOnly_operands : ∀ es : List Expr,
    (∀ name, FaultsOnly P (Expr.evaluateObjects s name es)) ∧
      FaultsOnly P (Expr.evaluateNumbers s es) ∧ FaultsOnly P (Expr.evaluateAll s es) ∧
      FaultsOnly P (Expr.evaluateAny s es)
  | [] => ⟨fun _ => ok _, ok _, ok _, ok _⟩
  | e :: es => by
      obtain ⟨hobjects, hnumbers, hall, hany⟩ := faultsOnly_operands es
      have he := faultsOnly_evaluate e
      refine ⟨fun name => ?_, ?_, ?_, ?_⟩
      · unfold Expr.evaluateObjects
        exact he.bind fun v _ => (faultsOnly_toObject hP _ v).bind fun _ _ =>
          (hobjects name).bind fun _ _ => pure _
      · unfold Expr.evaluateNumbers
        exact he.bind fun v _ => (faultsOnly_toNumber hP _ v).bind fun _ _ =>
          hnumbers.bind fun _ _ => pure _
      · unfold Expr.evaluateAll
        refine he.bind fun v _ => (faultsOnly_toBool hP _ v).bind fun _ _ => ?_
        split
        · exact hall
        · exact pure _
      · unfold Expr.evaluateAny
        refine he.bind fun v _ => (faultsOnly_toBool hP _ v).bind fun _ _ => ?_
        split
        · exact pure _
        · exact hany

end

theorem faultsOnly_holds (e : Expr) : FaultsOnly P (e.holds s) :=
  (faultsOnly_evaluate hP s e).bind fun v _ => faultsOnly_toBool hP _ v

theorem faultsOnly_amount (e : Expr) : FaultsOnly P (e.amount s) :=
  (faultsOnly_evaluate hP s e).bind fun v _ => faultsOnly_toNumber hP _ v

theorem faultsOnly_ground (f : FluentTerm) : FaultsOnly P (f.ground s) :=
  ((faultsOnly_operands hP s f.args).1 f.name).bind fun _ _ => pure _

omit hP in
theorem faultsOnly_readsAll {es : List Expr} (h : ∀ e ∈ es, FaultsOnly P (e.reads s)) :
    FaultsOnly P (Expr.readsAll s es) := by
  induction es with
  | nil => exact ok []
  | cons e es ih =>
      rw [List.forall_mem_cons] at h
      unfold Expr.readsAll
      exact h.1.bind fun _ _ => (ih h.2).bind fun _ _ => pure _

theorem faultsOnly_reads : ∀ e : Expr, FaultsOnly P (e.reads s)
  | .constant _ => ok _
  | .param _ => ok _
  | .fluent name args => by
      unfold Expr.reads
      exact (faultsOnly_readsAll s fun e _ => faultsOnly_reads e).bind fun _ _ =>
        (faultsOnly_ground hP s ⟨name, args⟩).bind fun _ _ => pure _
  | .not arg => by
      unfold Expr.reads
      exact faultsOnly_reads arg
  | .junction _ args => by
      unfold Expr.reads
      exact faultsOnly_readsAll s fun e _ => faultsOnly_reads e
  | .relation _ left right => by
      unfold Expr.reads
      exact (faultsOnly_reads left).bind fun _ _ => (faultsOnly_reads right).bind fun _ _ => pure _
  | .arithmetic _ args => by
      unfold Expr.reads
      exact faultsOnly_readsAll s fun e _ => faultsOnly_reads e

omit hP in
theorem faultsOnly_literalsAll {es : List Expr} (h : ∀ e ∈ es, FaultsOnly P (e.literals s)) :
    FaultsOnly P (Expr.literalsAll s es) := by
  induction es with
  | nil => exact ok []
  | cons e es ih =>
      rw [List.forall_mem_cons] at h
      unfold Expr.literalsAll
      exact h.1.bind fun _ _ => (ih h.2).bind fun _ _ => pure _

theorem faultsOnly_literals (e : Expr) : FaultsOnly P (e.literals s) := by
  unfold Expr.literals
  split
  · exact (faultsOnly_ground hP s _).bind fun _ _ => pure _
  · exact (faultsOnly_ground hP s _).bind fun _ _ => pure _
  · exact faultsOnly_literalsAll s fun e _ => faultsOnly_literals e
  · exact ok _

end Expressions

section Effects

variable (s : Situation)

theorem faultsOnly_fireEffect (f : Firing) (e : Effect) :
    FaultsOnly P (Firing.fireEffect s f e) := by
  unfold Firing.fireEffect
  cases e.condition
  case' none => refine (pure []).bind fun keys _ => (pure true).bind fun fires _ => ?_
  case' some c =>
    refine (faultsOnly_reads hP s c).bind fun keys _ =>
      (faultsOnly_holds hP s c).bind fun fires _ => ?_
  all_goals
    dsimp only
    split
    · exact pure _
    · refine (faultsOnly_reads hP s _).bind fun _ _ =>
        (faultsOnly_readsAll s fun e _ => faultsOnly_reads hP s e).bind fun _ _ =>
        (faultsOnly_ground hP s _).bind fun _ _ => (faultsOnly_evaluate hP s _).bind fun v _ => ?_
      split
      · exact pure _
      · exact (faultsOnly_amount hP s _).bind fun _ _ => pure _
      · exact error (hP _ trivial)

theorem faultsOnly_fireContinuous (elapsed : Rat) (f : Firing) (e : ContinuousEffect) :
    FaultsOnly P (Firing.fireContinuous s elapsed f e) :=
  (faultsOnly_reads hP s _).bind fun _ _ => (faultsOnly_ground hP s _).bind fun _ _ =>
    (faultsOnly_amount hP s _).bind fun _ _ => (faultsOnly_amount hP s _).bind fun _ _ => pure _

theorem faultsOnly_fireTargets (f : Firing) (ts : List (FluentTerm × Value)) :
    FaultsOnly P (Firing.fireTargets s f ts) := by
  induction ts generalizing f with
  | nil => exact ok f
  | cons t ts ih => exact (faultsOnly_ground hP s t.1).bind fun _ _ => ih _

variable {provider : Option EffectProvider}
  (hprovider : ∀ p ∈ provider, ∀ request, FaultsOnly P (p.values request))
include hprovider

theorem faultsOnly_ofEvent (e : Event) : FaultsOnly P (Firing.ofEvent provider s e) := by
  unfold Firing.ofEvent
  refine (foldlM (fun f e _ => faultsOnly_fireEffect hP s f e) _).bind fun f _ =>
    (foldlM (fun f c _ => faultsOnly_fireContinuous hP s _ f c) f).bind fun f _ => ?_
  cases e.simulated with
  | none => exact pure f
  | some simulated =>
      cases provider with
      | none => exact error (hP _ trivial)
      | some p =>
          refine (hprovider p rfl _).bind fun values _ => ?_
          split
          · exact faultsOnly_fireTargets hP s f _
          · exact error (hP _ trivial)

end Effects

section Attempts

omit hP

namespace FaultsOnly

theorem attempt {x : Attempt α} {g : α → Attempt β} (hx : FaultsOnly P x.run)
    (hg : ∀ a, FaultsOnly P (g a).run) : FaultsOnly P (x >>= g).run := by
  rw [ExceptT.run_bind]
  refine hx.bind fun r _ => ?_
  cases r with
  | ok a => exact hg a
  | error c => exact pure _

theorem given (a : α) : FaultsOnly P (Pure.pure a : Attempt α).run := nofun

theorem refused (c : Cause) : FaultsOnly P (Attempt.refuse c : Attempt α).run := nofun

theorem required (b : Bool) (c : Cause) : FaultsOnly P (Attempt.require b c).run := by
  cases b with
  | true => exact given ()
  | false => exact refused c

theorem ofExcept {x : Except Fault α} (hx : FaultsOnly P x) :
    FaultsOnly P (Attempt.ofExcept x).run :=
  hx.map (Except.ok : α → Except Cause α)

end FaultsOnly

open Simulator

variable (sim : Simulator) {e : Event} {s : State}

theorem faultsOnly_checkPlanOrder (e : Event) (pending : List Event) (s : State) :
    FaultsOnly P (checkPlanOrder e pending s).run := by
  refine (required _ _).attempt fun _ => ?_
  cases e with
  | startAction => exact given ()
  | startCondition => exact given ()
  | endCondition => exact required _ _
  | endAction => exact (required _ _).attempt fun _ => required _ _

theorem faultsOnly_checkClosed (e : Event) (s : State) : FaultsOnly P (checkClosed e s).run := by
  cases e with
  | startAction => exact given ()
  | startCondition => exact given ()
  | endCondition => exact given ()
  | endAction => exact required _ _

theorem faultsOnly_checkLifecycle (hended : ∀ e a, P (.activityEnded e a))
    (hidle : ∀ e a, P (.activityNotStarted e a)) (e : Event) (s : State) :
    FaultsOnly P (checkLifecycle e s).run := by
  have hnext : FaultsOnly P (checkNext e s >>= fun _ => checkClosed e s).run := by
    refine attempt ?_ fun _ => faultsOnly_checkClosed e s
    unfold checkNext
    dsimp only
    split
    · split
      · exact error (hended _ _)
      · exact error (hidle _ _)
    · split
      · exact faultsOnly_checkPlanOrder e _ s
      · exact required _ _
  cases e with
  | startAction =>
      refine (required _ _).attempt fun _ => ?_
      split
      · exact error (hended _ _)
      · exact given ()
  | startCondition => exact hnext
  | endCondition => exact hnext
  | endAction => exact hnext

include hP

theorem faultsOnly_checkDuration (e : Event) (here : Situation) :
    FaultsOnly P (checkDuration e here).run := by
  unfold checkDuration
  split
  · exact (ofExcept (faultsOnly_reads hP here _)).attempt fun _ =>
      (ofExcept (faultsOnly_reads hP here _)).attempt fun _ =>
      (ofExcept (faultsOnly_amount hP here _)).attempt fun _ =>
      (ofExcept (faultsOnly_amount hP here _)).attempt fun _ =>
      (required _ _).attempt fun _ => given _
  · exact given _

theorem faultsOnly_checkConditions (here : Situation) (cs : List Expr) :
    FaultsOnly P (checkConditions here cs).run := by
  induction cs with
  | nil => exact given _
  | cons c cs ih =>
      exact (ofExcept (faultsOnly_reads hP here c)).attempt fun _ =>
        (ofExcept (faultsOnly_holds hP here c)).attempt fun _ =>
        (required _ _).attempt fun _ => ih.attempt fun _ => given _

theorem faultsOnly_contradictedBy (v : Valuation) (mine : List FluentLiteral)
    (is : List IntervalCondition) : FaultsOnly P (sim.contradictedBy v mine is) := by
  induction is with
  | nil => exact ok _
  | cons i is ih =>
      refine (faultsOnly_literals hP _ _).bind fun theirs _ => ?_
      split
      · exact pure _
      · exact ih

theorem faultsOnly_checkOpening (e : Event) (s : State) :
    FaultsOnly P (sim.checkOpening e s).run := by
  cases e with
  | startAction => exact given _
  | endCondition => exact given _
  | endAction => exact given _
  | startCondition p i =>
      refine (ofExcept (faultsOnly_reads hP _ _)).attempt fun reads =>
        (ofExcept (faultsOnly_literals hP _ _)).attempt fun mine =>
        (ofExcept ?_).attempt fun clash => ?_
      · split
        · exact ok _
        · exact faultsOnly_contradictedBy hP sim _ mine _
      · cases clash with
        | some other => exact refused _
        | none => exact given _

theorem faultsOnly_checkOpen (v : Valuation) (is : List IntervalCondition) :
    FaultsOnly P (sim.checkOpen v is).run := by
  induction is with
  | nil => exact given _
  | cons i is ih =>
      exact (ofExcept (faultsOnly_holds hP _ _)).attempt fun _ => (required _ _).attempt fun _ => ih

variable {sim} (hprovider : ∀ p ∈ sim.provider, ∀ request, FaultsOnly P (p.values request))
include hprovider

theorem faultsOnly_examine (horigin : e.origin ≠ sim.origin → P (.foreignEvent e.label))
    (hlife : FaultsOnly P (checkLifecycle e s).run) : FaultsOnly P (sim.examine e s).run := by
  unfold examine
  split
  · rename_i hne
    exact FaultsOnly.error (horigin hne)
  · exact hlife.attempt fun _ => (faultsOnly_checkDuration hP e _).attempt fun _ =>
      (faultsOnly_checkConditions hP _ _).attempt fun _ =>
      (faultsOnly_checkOpening hP sim e s).attempt fun _ =>
      (ofExcept (faultsOnly_ofEvent hP _ hprovider e)).attempt fun _ =>
      (required _ _).attempt fun _ =>
      (faultsOnly_checkOpen hP sim _ _).attempt fun _ => given _

theorem faultsOnly_transition {time : Option Rat}
    (horigin : e.origin ≠ sim.origin → P (.foreignEvent e.label))
    (hlife : FaultsOnly P (checkLifecycle e s).run) : FaultsOnly P (sim.transition e s time).run :=
  (faultsOnly_examine hP hprovider horigin hlife).attempt fun _ => (required _ _).attempt fun _ =>
    given _

end Attempts

section Watching

variable (sim : Simulator)

theorem faultsOnly_unsatisfiedIn (here : Situation) (gs : List Expr) :
    FaultsOnly P (Simulator.unsatisfiedIn here gs) := by
  induction gs with
  | nil => exact ok _
  | cons g gs ih =>
      exact (faultsOnly_holds hP here g).bind fun _ _ => ih.bind fun _ _ => pure _

theorem faultsOnly_visit (here : Situation) (time : Rat) (m : Monitor) :
    FaultsOnly P (m.visit (Expr.holds here) time) := by
  induction m with
  | nil => exact ok _
  | cons w m ih =>
      refine (faultsOnly_holds hP here _).bind fun b _ => ?_
      dsimp only
      split
      · exact pure _
      · exact ih.bind fun _ _ => pure _

theorem faultsOnly_effectTargets (here : Situation) (es : List Effect) :
    FaultsOnly P (effectTargets here es) := by
  induction es with
  | nil => exact ok _
  | cons e es ih =>
      unfold effectTargets
      cases e.condition
      case' none => refine (pure true).bind fun fires _ => ?_
      case' some c => refine (faultsOnly_holds hP here c).bind fun fires _ => ?_
      all_goals
        dsimp only
        split
        · exact ((faultsOnly_ground hP here _).bind fun _ _ => pure _).bind fun _ _ =>
            ih.bind fun _ _ => pure _
        · exact (pure _).bind fun _ _ => ih.bind fun _ _ => pure _

theorem faultsOnly_writtenBy (v : Valuation) (e : Event) : FaultsOnly P (writtenBy sim v e) :=
  (faultsOnly_effectTargets hP _ _).bind fun _ _ =>
    (FaultsOnly.mapM (fun t => faultsOnly_ground hP _ t) _).bind fun _ _ =>
    (FaultsOnly.mapM (fun _ => faultsOnly_ground hP _ _) _).bind fun _ _ => pure _

theorem faultsOnly_simultaneousWrites (v : Valuation) (xs : List Scheduled)
    (writers : OrderedMap String Scheduled) :
    FaultsOnly P (simultaneousWrites sim v xs writers) := by
  induction xs generalizing writers with
  | nil => exact ok _
  | cons x xs ih =>
      refine (faultsOnly_writtenBy hP sim v x.event).bind fun keys _ => ?_
      split
      · exact pure _
      · exact ih _

end Watching

section Metrics

omit hP in
theorem faultsOnly_sum {f : α → Except Fault Rat} (hf : ∀ x, FaultsOnly P (f x)) (xs : List α) :
    FaultsOnly P (Achievement.sum f xs) :=
  foldlM (fun _ x _ => (hf x).bind fun _ _ => pure _) 0

theorem faultsOnly_stepCost (a : Achievement) (costs : OrderedMap String Expr)
    (default : Option Expr) (s : TimedStep) : FaultsOnly P (a.stepCost costs default s) := by
  unfold Achievement.stepCost
  split
  · exact ok 0
  · exact faultsOnly_amount hP _ _

theorem faultsOnly_gain (a : Achievement) (g : SoftGoal) : FaultsOnly P (a.gain g) :=
  (faultsOnly_holds hP _ _).bind fun _ _ => pure _

theorem faultsOnly_value (a : Achievement) (m : Metric) : FaultsOnly P (m.value a) := by
  cases m with
  | makespan => exact ok _
  | planLength => exact ok _
  | actionCosts costs default => exact faultsOnly_sum (faultsOnly_stepCost hP a costs default) _
  | minimize e => exact faultsOnly_amount hP _ e
  | maximize e => exact faultsOnly_amount hP _ e
  | oversubscription goals => exact faultsOnly_sum (faultsOnly_gain hP a) goals

theorem faultsOnly_metricValues (p : Problem) (a : Achievement) :
    FaultsOnly P (p.metricValues a) :=
  FaultsOnly.mapM (fun m => (faultsOnly_value hP a m).bind fun _ _ => pure _) _

end Metrics

end TemporalPlanning
