import TemporalPlanning.Proofs.SnapshotSteps

namespace TemporalPlanning

theorem Expr.reads_decide {defaults : OrderedMap String Value} {bindings : OrderedMap String String}
    {v v' : Valuation} {e : Expr} {keys : List String}
    (hreads : e.reads ⟨defaults, v, bindings⟩ = .ok keys)
    (hvalues : ∀ key ∈ keys, v'.get? key = v.get? key) :
    e.reads ⟨defaults, v', bindings⟩ = .ok keys ∧
      e.evaluate ⟨defaults, v', bindings⟩ = e.evaluate ⟨defaults, v, bindings⟩ ∧
      e.holds ⟨defaults, v', bindings⟩ = e.holds ⟨defaults, v, bindings⟩ ∧
      e.amount ⟨defaults, v', bindings⟩ = e.amount ⟨defaults, v, bindings⟩ := by
  have hagrees : Situation.Agrees ⟨defaults, v, bindings⟩ ⟨defaults, v', bindings⟩ keys :=
    ⟨rfl, rfl, hvalues⟩
  exact ⟨Expr.reads_of_agrees hreads hagrees, (Expr.evaluate_of_agrees e hreads hagrees).1,
    Expr.holds_of_agrees hreads hagrees, Expr.amount_of_agrees hreads hagrees⟩

theorem Simulator.recorded_reads {sim : Simulator} {e : Event} (he : e.simulated = none) :
    (∀ s v a, (sim.examine e s).Gives (v, a) → ∃ fp, e.Performs sim s.valuation fp ∧
      a = ⟨e, fp.reads, fp.updates.keys⟩ ∧ v = s.valuation.update fp.updates) ∧
    ∀ v v' fp, e.Performs sim v fp → (∀ key ∈ fp.reads, v'.get? key = v.get? key) →
      (∀ x ∈ e.continuousEffects, ∀ keys,
        Expr.readsAll (sim.situation v e.activity.bindings) x.target.args = .ok keys →
          ∀ key ∈ keys, v'.get? key = v.get? key) →
      e.Performs sim v' fp := by
  constructor
  · intro s v a h
    obtain ⟨-, -, fp, hperforms, -, hv, -, ha⟩ := Simulator.examine_iff.mp h
    exact ⟨fp, hperforms, ha, hv⟩
  · intro v v' fp h hreads hargs
    exact h.of_reads he hreads hargs

namespace Tank

def active : Expr := .fluent "active" []

def rising : ContinuousEffect :=
  ⟨.increase, .closed ⟨.start, 0⟩ ⟨.finish, 0⟩, ⟨"level", [active]⟩, .number 1⟩

def action : DurativeAction :=
  { DurativeAction.ofLength "fill" 2 [] [] with continuousEffects := [rising] }

def ground : GroundAction := .ofAction (.durative action)

def problem : Problem :=
  { Problem.ofActions "tank" [⟨"active", "tank", [], none⟩, ⟨"level", "real", ["tank"], none⟩]
      [.durative action] with
    objects := [⟨"a", "tank"⟩, ⟨"b", "tank"⟩]
    initial := .ofList
      [("active", .object "a"), ("level(a)", .number 0), ("level(b)", .number 5)] }

def sim : Simulator := .unused 0 problem 1 none "tank" []

def filling : Activity := ⟨0, 1, some ground⟩

def closing : Event :=
  .endCondition (sim.clock.place 2 filling 2 false "close[0, 2]")
    ⟨3, filling, .conjunction [], 0, 2, false, false, [rising], [], none, "[0, 2]"⟩

def before : Valuation := .ofMap problem.initial

def drained : Valuation := before.update (.ofList [("level(b)", .number 0)])

def switched : Valuation := before.update (.ofList [("active", .object "b")])

def ready : Expr :=
  .junction .and [.relation .less (.fluent "level" [active]) (.number 3), active]

theorem reads_decide_ready :
    ready.reads (sim.situation before .empty) = .ok ["active", "level(a)", "active"] ∧
    (∀ key ∈ ["active", "level(a)", "active"], drained.get? key = before.get? key) ∧
    ready.reads (sim.situation drained .empty) = .ok ["active", "level(a)", "active"] ∧
    ready.evaluate (sim.situation drained .empty) = .error (.notBoolean "fluent" "a") := by
  have hreads : ready.reads (sim.situation before .empty) =
      .ok ["active", "level(a)", "active"] := by
    with_unfolding_all rfl
  have hvalues : ∀ key ∈ ["active", "level(a)", "active"],
      drained.get? key = before.get? key := by
    decide +kernel
  obtain ⟨hsame, hvalue, -⟩ := Expr.reads_decide hreads hvalues
  refine ⟨hreads, hvalues, hsame, hvalue.trans ?_⟩
  with_unfolding_all rfl

theorem performs_before : ∃ fp, closing.Performs sim before fp ∧ fp.reads = ["level(a)"] ∧
    fp.updates.entries = [("level(a)", .number 2)] := by
  refine ⟨_, ⟨[], [], [], _, rfl, rfl, rfl, rfl, rfl, rfl⟩, ?_, ?_⟩
  · decide +kernel
  · decide +kernel

theorem recorded_reads_drained : ∃ fp, closing.Performs sim drained fp ∧
    fp.reads = ["level(a)"] ∧ fp.updates.entries = [("level(a)", .number 2)] := by
  obtain ⟨fp, hfp, hreads, hupdates⟩ := performs_before
  have hnone : closing.simulated = none := rfl
  refine ⟨fp, (Simulator.recorded_reads hnone).2 before drained fp hfp ?_ ?_, hreads, hupdates⟩
  · rw [hreads]
    decide +kernel
  · intro x hx keys hkeys
    obtain rfl := List.mem_singleton.mp hx
    obtain rfl : ["active"] = keys := Except.ok.inj hkeys
    decide +kernel

theorem reads_missed : ∃ fp fp', closing.simulated = none ∧ closing.Performs sim before fp ∧
    (∀ key ∈ fp.reads, switched.get? key = before.get? key) ∧
    closing.Performs sim switched fp' ∧ fp.reads = ["level(a)"] ∧ fp'.reads = ["level(b)"] ∧
    fp.updates.entries = [("level(a)", .number 2)] ∧
    fp'.updates.entries = [("level(b)", .number 7)] := by
  refine ⟨_, _, rfl, ⟨[], [], [], _, rfl, rfl, rfl, rfl, rfl, rfl⟩, ?_,
    ⟨[], [], [], _, rfl, rfl, rfl, rfl, rfl, rfl⟩, ?_⟩
  · decide +kernel
  · decide +kernel

end Tank

end TemporalPlanning
