import TemporalPlanning.Settings

namespace TemporalPlanning

inductive Severity where
  | debug
  | info
  deriving DecidableEq

def Severity.name : Severity → String
  | .debug => "debug"
  | .info => "info"

structure Record where
  component : String
  severity : Severity
  fields : List (String × String)
  message : String
  deriving DecidableEq

structure Logger where
  name : String
  level : LogLevel
  component : String
  deriving DecidableEq

def Logger.ofSettings (s : Settings) (component : String) : Logger :=
  ⟨"temporal-plan-engine", s.level, component⟩

/-- A computation that writes records, kept with the latest first, and may end in a fault. -/
abbrev Logged (α : Type) : Type := ExceptT Fault (StateM (List Record)) α

namespace Logged

def write (r : Record) : Logged Unit := modify (r :: ·)

def ofExcept {α : Type} (x : Except Fault α) : Logged α := ExceptT.mk (pure x)

def outcome {α : Type} (x : Logged α) : Except Fault α × List Record :=
  let (r, records) := (ExceptT.run x).run []
  (r, records.reverse)

/-- A computation whose records cannot be written: the first of them ends it. -/
def unwritten {α : Type} (x : Logged α) : Logged α :=
  ofExcept <| match x.outcome with
    | (r, []) => r
    | (_, _ :: _) => .error .unusableLogger

end Logged

end TemporalPlanning
