import TemporalPlanning.Network
import TemporalPlanning.Fault
import TemporalPlanning.Stn.Timepoint

namespace TemporalPlanning

/-- A constraint `lower ≤ time target - time owner ≤ upper`, as its owner sees it. -/
structure StnConstraint (σ : Type) where
  lower : Option Rat
  upper : Option Rat
  target : Timepoint σ
  deriving DecidableEq

structure StnPlan (σ : Type) where
  nodes : List (Timepoint σ)
  rows : Rows (Timepoint σ)

namespace StnPlan

variable {σ : Type} [DecidableEq σ]

def anchors : StnPlan σ := ⟨[.planStart, .planEnd], .empty⟩

def addNode (p : StnPlan σ) (t : Timepoint σ) : StnPlan σ :=
  if t ∈ p.nodes then p else { p with nodes := p.nodes ++ [t] }

/-- Tightens the bound of an ordered pair; of a pair of equal timepoints only a clash counts. -/
def tightenRows (rows : Rows (Timepoint σ)) (a b : Timepoint σ) (w : Rat) : Rows (Timepoint σ) :=
  if a = b then (if w < 0 then rows.tighten .planStart .planEnd w else rows)
  else rows.tighten a b w

def addBound (p : StnPlan σ) (a b : Timepoint σ) (w : Rat) : StnPlan σ :=
  let p := (p.addNode a).addNode b
  { p with rows := tightenRows p.rows a b w }

def addUpper (p : StnPlan σ) (a b : Timepoint σ) : Option Rat → StnPlan σ
  | none => p
  | some u => p.addBound a b u

def addLower (p : StnPlan σ) (a b : Timepoint σ) : Option Rat → StnPlan σ
  | none => p
  | some l => p.addBound b a (-l)

def addConstraint (p : StnPlan σ) (a : Timepoint σ) (c : StnConstraint σ) : StnPlan σ :=
  let p := (p.addNode a).addNode c.target
  (p.addUpper a c.target c.upper).addLower a c.target c.lower

def ofConstraints (cs : List (Timepoint σ × StnConstraint σ)) : StnPlan σ :=
  cs.foldl (fun p c => p.addConstraint c.1 c.2) anchors

def addOwned (p : StnPlan σ) (owner : Timepoint σ) (cs : List (StnConstraint σ)) : StnPlan σ :=
  cs.foldl (fun p c => p.addConstraint owner c) (p.addNode owner)

def ofConstraintMap (m : OrderedMap (Timepoint σ) (List (StnConstraint σ))) : StnPlan σ :=
  m.entries.foldl (fun p e => p.addOwned e.1 e.2) anchors

def instances (p : StnPlan σ) : List σ := (p.nodes.filterMap Timepoint.step?).eraseDups

def contains (p : StnPlan σ) (s : σ) : Bool :=
  p.nodes.contains (.start s) || p.nodes.contains (.finish s)

def anchorNetwork (nodes : List (Timepoint σ)) : Network (Timepoint σ) :=
  let net := nodes.foldl Network.addNode (Network.empty : Network (Timepoint σ))
  let net := net.add .planStart .planEnd (some 0) none
  (nodes.filter fun t => !t.isGlobal).foldl (fun net t =>
    (net.add .planStart t (some 0) none).add t .planEnd (some 0) none) net

def toNetwork (p : StnPlan σ) : Network (Timepoint σ) :=
  p.rows.triples.foldl (fun net e => net.add e.1 e.2.1 none (some e.2.2)) (anchorNetwork p.nodes)

def isConsistent (p : StnPlan σ) : Bool := p.toNetwork.check

def directDistances (p : StnPlan σ) : Rows (Timepoint σ) :=
  let rows := p.nodes.foldl
    (fun (rows : Rows (Timepoint σ)) t => rows.put t (OrderedMap.empty.put t 0)) .empty
  p.toNetwork.edges.foldl (fun rows e => rows.tighten e.1 e.2.1 e.2.2) rows

def detour (k : Timepoint σ) (rows : Rows (Timepoint σ)) (a : Timepoint σ) :
    Rows (Timepoint σ) :=
  match rows.weight? a k with
  | none => rows
  | some w => (rows.row k).entries.foldl (fun rows e => rows.tighten a e.1 (w + e.2)) rows

def closure (p : StnPlan σ) : Except Fault (Rows (Timepoint σ)) :=
  if p.isConsistent then
    .ok (p.nodes.foldl (fun rows k => p.nodes.foldl (detour k) rows) p.directDistances)
  else .error .closingInconsistent

/--
The owner of the constraint on a pair with the distances `ab` and `ba`, and the constraint: an
owner with a lower bound of at least zero, if there is one.
-/
def oriented (a b : Timepoint σ) : Option Rat → Option Rat →
    Option (Timepoint σ × StnConstraint σ)
  | none, none => none
  | ab, ba =>
      let atLeastZero (w : Option Rat) : Bool := w.any (· ≤ 0)
      if atLeastZero ba then some (a, ⟨ba.map (- ·), ab, b⟩)
      else if atLeastZero ab then some (b, ⟨ab.map (- ·), ba, a⟩)
      else if ab.isNone then some (b, ⟨none, ba, a⟩)
      else some (a, ⟨ba.map (- ·), ab, b⟩)

def pairs {α : Type} : List α → List (α × α)
  | [] => []
  | a :: as => as.map (a, ·) ++ pairs as

def constraintsOf (nodes : List (Timepoint σ)) (rows : Rows (Timepoint σ)) :
    OrderedMap (Timepoint σ) (List (StnConstraint σ)) :=
  (pairs nodes).foldl (fun m ab =>
    match oriented ab.1 ab.2 (rows.weight? ab.1 ab.2) (rows.weight? ab.2 ab.1) with
    | none => m
    | some (owner, c) => m.put owner ((m.get? owner).getD [] ++ [c])) .empty

def constraints (p : StnPlan σ) : OrderedMap (Timepoint σ) (List (StnConstraint σ)) :=
  constraintsOf p.nodes p.rows

def closedConstraints (p : StnPlan σ) :
    Except Fault (OrderedMap (Timepoint σ) (List (StnConstraint σ))) :=
  constraintsOf p.nodes <$> p.closure

end StnPlan

end TemporalPlanning
