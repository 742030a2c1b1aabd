
namespace TemporalPlanning

inductive Timepoint (σ : Type) where
  | planStart
  | planEnd
  | start (step : σ)
  | finish (step : σ)
  deriving DecidableEq

namespace Timepoint

variable {σ : Type}

def kind : Timepoint σ → String
  | .planStart => "global-start"
  | .planEnd => "global-end"
  | .start _ => "start"
  | .finish _ => "end"

def step? : Timepoint σ → Option σ
  | .start s => some s
  | .finish s => some s
  | _ => none

def isGlobal (t : Timepoint σ) : Bool := t.step?.isNone

def label (name : σ → String) (t : Timepoint σ) : String :=
  match t.step? with
  | none => t.kind
  | some s => t.kind ++ "(" ++ name s ++ ")"

end Timepoint

end TemporalPlanning
