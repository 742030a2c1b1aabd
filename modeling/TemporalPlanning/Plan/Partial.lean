import TemporalPlanning.OrderedMap
import TemporalPlanning.Fault

namespace TemporalPlanning

structure PartialPlan (σ : Type) where
  steps : List σ
  successors : OrderedMap σ (List σ)

namespace PartialPlan

variable {σ : Type} [DecidableEq σ]

def successorsOf (p : PartialPlan σ) (a : σ) : List σ := (p.successors.get? a).getD []

def precedes (p : PartialPlan σ) (a b : σ) : Bool := (p.successorsOf a).contains b

section Counts

def countOf (counts : OrderedMap σ Int) (a : σ) : Int := (counts.get? a).getD 0

def shift (d : Int) (counts : OrderedMap σ Int) (a : σ) : OrderedMap σ Int :=
  counts.put a (countOf counts a + d)

def predecessorCounts (p : PartialPlan σ) : OrderedMap σ Int :=
  (p.steps.flatMap p.successorsOf).foldl (shift 1) (.ofList (p.steps.map fun a => (a, 0)))

end Counts

section Sequence

/-- The counts of the predecessors not taken yet, and the steps that are ready to be taken. -/
structure Front (σ : Type) where
  counts : OrderedMap σ Int
  ready : List σ

def Front.release (f : Front σ) (a : σ) : Front σ :=
  let counts := shift (-1) f.counts a
  ⟨counts, if countOf counts a = 0 then f.ready ++ [a] else f.ready⟩

def byDeclaration (p : PartialPlan σ) (l : List σ) : List σ :=
  l.mergeSort fun a b => p.steps.idxOf a ≤ p.steps.idxOf b

def takeReady (p : PartialPlan σ) : Nat → Front σ → List σ
  | 0, _ => []
  | n + 1, f =>
      match p.byDeclaration f.ready with
      | [] => []
      | a :: ready => a :: takeReady p n ((p.successorsOf a).foldl .release ⟨f.counts, ready⟩)

def toSequence (p : PartialPlan σ) : List σ :=
  let counts := p.predecessorCounts
  p.takeReady p.steps.length ⟨counts, p.steps.filter fun a => countOf counts a = 0⟩

def ofEntries (ordering : OrderedMap σ (List σ)) : PartialPlan σ :=
  ⟨(ordering.entries.flatMap fun e => e.1 :: e.2).eraseDups, ordering.mapValues List.eraseDups⟩

def ofOrdering (label : σ → String) (ordering : OrderedMap σ (List σ)) :
    Except Fault (PartialPlan σ) :=
  let p := ofEntries ordering
  match ordering.entries.find? fun e => e.2.contains e.1 with
  | some e => .error (.selfOrdered (label e.1))
  | none => if p.toSequence.length = p.steps.length then .ok p else .error .cyclicOrdering

end Sequence

section Walk

/-- The steps placed so far, and the counts of the predecessors that were not placed. -/
structure Search (σ : Type) where
  counts : OrderedMap σ Int
  placed : List σ

namespace Search

def start (p : PartialPlan σ) : Search σ := ⟨p.predecessorCounts, []⟩

def admits (s : Search σ) (a : σ) : Bool := !s.placed.contains a && countOf s.counts a = 0

def place (p : PartialPlan σ) (s : Search σ) (a : σ) : Search σ :=
  ⟨(p.successorsOf a).foldl (shift (-1)) s.counts, s.placed ++ [a]⟩

def withdraw (p : PartialPlan σ) (s : Search σ) (a : σ) : Search σ :=
  ⟨(p.successorsOf a).foldl (shift 1) s.counts, s.placed.dropLast⟩

end Search

variable {m : Type → Type} [Monad m] {α β γ : Type}

def onValue (f : β → γ) : ForInStep β → ForInStep γ
  | .done b => .done (f b)
  | .yield b => .yield (f b)

def visitEach (visit : α → β → m (ForInStep β)) : List α → β → m (ForInStep β)
  | [], b => pure (.yield b)
  | a :: as, b => do
      match ← visit a b with
      | .done b => pure (.done b)
      | .yield b => visitEach visit as b

def walkFrom (p : PartialPlan σ) (visit : List σ → β → m (ForInStep β)) :
    Nat → β × Search σ → m (ForInStep (β × Search σ))
  | 0, (b, s) => onValue (·, s) <$> visit s.placed b
  | n + 1, x =>
      visitEach (fun a (b, s) =>
        if s.admits a then
          onValue (fun (b, s) => (b, s.withdraw p a)) <$> walkFrom p visit n (b, s.place p a)
        else pure (.yield (b, s))) p.steps x

def walk (p : PartialPlan σ) (visit : List σ → β → m (ForInStep β)) (b : β) : m (ForInStep β) :=
  onValue Prod.fst <$> p.walkFrom visit p.steps.length (b, .start p)

end Walk

def firstLinearizations (p : PartialPlan σ) (n : Nat) : List (List σ) :=
  let visit (l : List σ) (found : List (List σ)) : Id (ForInStep (List (List σ))) :=
    if found.length + 1 < n then .yield (found ++ [l]) else .done (found ++ [l])
  if n = 0 then [] else
    match Id.run (p.walk visit []) with
    | .done found => found
    | .yield found => found

end PartialPlan

end TemporalPlanning
