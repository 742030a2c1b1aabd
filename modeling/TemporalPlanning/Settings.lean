import TemporalPlanning.Number.Numeral

namespace TemporalPlanning

open Number

inductive LogLevel where
  | fatal
  | error
  | warn
  | info
  | debug
  | trace
  | silent
  deriving DecidableEq

namespace LogLevel

def all : List LogLevel := [.fatal, .error, .warn, .info, .debug, .trace, .silent]

def name : LogLevel → String
  | .fatal => "fatal"
  | .error => "error"
  | .warn => "warn"
  | .info => "info"
  | .debug => "debug"
  | .trace => "trace"
  | .silent => "silent"

def ofName? (s : String) : Option LogLevel := all.find? fun l => l.name = s

end LogLevel

structure Settings where
  epsilon : Rat
  level : LogLevel
  limit : Option Nat
  deriving DecidableEq

def defaultEpsilon : Rat := Rat.divInt 1 1000

def positiveRational (shown : String) (n : Numeral) : Except String Rat :=
  match n.toRat with
  | .error _ => .error s!"'{shown}' is not a rational number"
  | .ok q => if q ≤ 0 then .error "must be strictly positive" else .ok q

def positiveInteger (x : Binary64) : Except (List String) Nat :=
  let fraction := match x.integer? with
    | some _ => []
    | none => ["Expected integer, received float"]
  let sign := match x with
    | .infinite negative => if negative then ["Number must be greater than 0"] else []
    | x => match x.value? with
      | some q => if q ≤ 0 then ["Number must be greater than 0"] else []
      | none => []
  match x, fraction ++ sign with
  | .nan, _ => .error ["Expected number, received nan"]
  | x, [] => .ok ((x.integer?.getD 0).toNat)
  | _, wrong => .error wrong

namespace Settings

def readEpsilon (s : String) : Except (List String) Rat :=
  let t := String.ofList (Text.trim s.toList)
  if t.isEmpty then .error ["String must contain at least 1 character(s)"]
  else (positiveRational t (.text t)).mapError ([·])

def readLevel (s : String) : Except (List String) LogLevel :=
  match LogLevel.ofName? s with
  | some l => .ok l
  | none =>
      let names := " | ".intercalate (LogLevel.all.map fun l => "'" ++ l.name ++ "'")
      .error [s!"Invalid enum value. Expected {names}, received '{s}'"]

def readLimit (s : String) : Except (List String) Nat := positiveInteger (.ofText s)

def readEntry {α : Type} (env : String → Option String) (name : String)
    (read : String → Except (List String) α) : List Issue × Option α :=
  match env name with
  | none => ([], none)
  | some s =>
      if s.isEmpty then ([], none)
      else match read s with
        | .ok a => ([], some a)
        | .error wrong => (wrong.map (⟨name, ·⟩), none)

def read (env : String → Option String) : Except Fault Settings :=
  let epsilon := readEntry env "TEMPORAL_EPSILON" readEpsilon
  let level := readEntry env "LOG_LEVEL" readLevel
  let limit := readEntry env "VALIDATOR_LINEARIZATION_LIMIT" readLimit
  match epsilon.1 ++ level.1 ++ limit.1 with
  | [] => .ok ⟨epsilon.2.getD defaultEpsilon, level.2.getD .info, limit.2⟩
  | issues => .error (.invalidConfiguration issues)

def readOnce (kept : Option Settings) (env : String → Option String) :
    Except Fault Settings × Option Settings :=
  match kept with
  | some s => (.ok s, kept)
  | none =>
      match read env with
      | .ok s => (.ok s, some s)
      | .error e => (.error e, none)

end Settings

end TemporalPlanning
