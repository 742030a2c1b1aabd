import TemporalPlanning.Stn.Plan

namespace TemporalPlanning.StnPlan

variable {σ : Type} [DecidableEq σ]

def impliedByAnchors (a b : Timepoint σ) (w : Rat) : Bool :=
  0 ≤ w && (b = .planStart || a = .planEnd)

def tightenUnlessImplied (rows : Rows (Timepoint σ)) (a b : Timepoint σ) (w : Rat) :
    Rows (Timepoint σ) :=
  if a ≠ b && impliedByAnchors a b w then rows else tightenRows rows a b w

def incoming (rows : Rows (Timepoint σ)) (t : Timepoint σ) : List (Timepoint σ × Rat) :=
  (.planEnd, 0) :: rows.entries.filterMap fun r =>
    if r.1 = t then none else (r.2.get? t).map (r.1, ·)

def outgoing (rows : Rows (Timepoint σ)) (t : Timepoint σ) : List (Timepoint σ × Rat) :=
  (.planStart, 0) :: (rows.row t).entries.filter fun e => !decide (e.1 = t)

def eliminate (rows : Rows (Timepoint σ)) (t : Timepoint σ) : Rows (Timepoint σ) :=
  let into := incoming rows t
  let out := outgoing rows t
  let rest := (rows.erase t).mapValues (·.erase t)
  into.foldl (fun rows a =>
    out.foldl (fun rows b => tightenUnlessImplied rows a.1 b.1 (a.2 + b.2)) rows) rest

def rename (f : σ → Option σ) : Timepoint σ → Timepoint σ
  | .start s => .start ((f s).getD s)
  | .finish s => .finish ((f s).getD s)
  | t => t

def dropNode (p : StnPlan σ) (t : Timepoint σ) : StnPlan σ :=
  if p.nodes.contains t then ⟨p.nodes.filter fun u => !decide (u = t), eliminate p.rows t⟩ else p

def dropSteps (p : StnPlan σ) (f : σ → Option σ) : StnPlan σ :=
  (p.instances.filter fun s => (f s).isNone).foldl
    (fun p s => (p.dropNode (.start s)).dropNode (.finish s)) p

def replaceSteps (p : StnPlan σ) (f : σ → Option σ) : StnPlan σ :=
  let kept := p.dropSteps f
  let result := kept.nodes.foldl (fun (q : StnPlan σ) t => q.addNode (rename f t)) anchors
  kept.nodes.foldl (fun q t =>
    (kept.rows.row t).entries.foldl
      (fun (q : StnPlan σ) e => q.addBound (rename f t) (rename f e.1) e.2) q) result

end TemporalPlanning.StnPlan
