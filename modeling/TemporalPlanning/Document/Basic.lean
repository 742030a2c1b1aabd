import TemporalPlanning.Text.Units
import TemporalPlanning.Number.Literal

namespace TemporalPlanning

inductive Document where
  | null
  | bool (b : Bool)
  | integer (n : Int)
  | text (s : String)
  | list (items : List Document)
  | record (fields : List (String × Document))

namespace Document

def rat (q : Rat) : Document := .text (Number.text q)

def natural (n : Nat) : Document := .integer n

def each {α : Type} (describe : α → Document) (xs : List α) : Document := .list (xs.map describe)

def texts (xs : List String) : Document := each .text xs

def orNull {α : Type} (describe : α → Document) : Option α → Document
  | none => .null
  | some a => describe a

def optional {α : Type} (name : String) (describe : α → Document) :
    Option α → List (String × Document)
  | none => []
  | some a => [(name, describe a)]

def sorted (xs : List String) : Document :=
  texts (xs.mergeSort fun a b => !Text.unitsBefore b a)

end Document

end TemporalPlanning
