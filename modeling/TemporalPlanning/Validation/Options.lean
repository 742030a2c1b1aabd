import TemporalPlanning.Settings
import TemporalPlanning.Execution.Provider

namespace TemporalPlanning

open Number (Numeral Binary64)

inductive OptionValue where
  | null
  | bool (b : Bool)
  | numeral (n : Numeral)
  | list
  | provider (p : EffectProvider)
  | record (fields : List (String × OptionValue))
  deriving Inhabited

namespace OptionValue

def typeName : OptionValue → String
  | .null => "null"
  | .bool _ => "boolean"
  | .numeral (.text _) => "string"
  | .numeral (.integer _) => "bigint"
  | .numeral (.binary .nan) => "nan"
  | .numeral (.binary _) => "number"
  | .list => "array"
  | _ => "object"

end OptionValue

structure Options where
  epsilon : Option Rat
  limit : Option Nat
  provider : Option EffectProvider
  /-- Whether a logger is given. As it is known by its entries only, it cannot take records. -/
  logger : Bool

namespace Options

def shown : Numeral → String
  | .exact q => Number.text q
  | .integer n => Number.text n
  | .binary x => x.text
  | .text s => s

def readEpsilon : OptionValue → Except (List String) Rat
  | .numeral (.binary .nan) => .error ["Invalid input"]
  | .numeral n => (positiveRational (shown n) n).mapError ([·])
  | _ => .error ["Invalid input"]

def readLimit : OptionValue → Except (List String) Nat
  | .numeral (.binary x) => positiveInteger x
  | v => .error [s!"Expected number, received {v.typeName}"]

def readProvider : OptionValue → Except (List String) EffectProvider
  | .provider p => .ok p
  | .list => .ok .uncounted
  | _ => .error ["must implement values()"]

def readLogger : OptionValue → Except (List String) Unit
  | .record fields =>
      if fields.any (·.1 = "info") && fields.any (·.1 = "debug") then .ok ()
      else .error ["must be a pino logger"]
  | _ => .error ["must be a pino logger"]

def readEntry {α : Type} (fields : List (String × OptionValue)) (name : String)
    (read : OptionValue → Except (List String) α) : List Issue × Option α :=
  match fields.find? fun f => f.1 = name with
  | none => ([], none)
  | some f =>
      match read f.2 with
      | .ok a => ([], some a)
      | .error wrong => (wrong.map (⟨name, ·⟩), none)

def known : List String := ["epsilon", "linearizationLimit", "simulatedEffects", "logger"]

def index? (name : String) : Option Nat :=
  let n := Number.ofDigits name.toList
  if Number.text n = name ∧ n < 4294967295 then some n else none

def indicesFirst (names : List String) : List String :=
  let indices := (names.filterMap index?).mergeSort
  indices.map (fun n : Nat => Number.text n) ++ names.filter fun n => (index? n).isNone

def unknownEntries (fields : List (String × OptionValue)) : List Issue :=
  match (fields.map (·.1)).filter fun n => !known.contains n with
  | [] => []
  | names =>
      let quoted := ", ".intercalate ((indicesFirst names).map fun n => "'" ++ n ++ "'")
      [⟨"", s!"Unrecognized key(s) in object: {quoted}"⟩]

def readFields (fields : List (String × OptionValue)) : Except Fault Options :=
  let epsilon := readEntry fields "epsilon" readEpsilon
  let limit := readEntry fields "linearizationLimit" readLimit
  let provider := readEntry fields "simulatedEffects" readProvider
  let logger := readEntry fields "logger" readLogger
  match epsilon.1 ++ limit.1 ++ provider.1 ++ logger.1 ++ unknownEntries fields with
  | [] => .ok ⟨epsilon.2, limit.2, provider.2, logger.2.isSome⟩
  | issues => .error (.invalidOptions issues)

def read : OptionValue → Except Fault Options
  | .record fields => readFields fields
  | v => .error (.invalidOptions [⟨"", s!"Expected object, received {v.typeName}"⟩])

end Options

end TemporalPlanning
