import TemporalPlanning.OrderedMap
import TemporalPlanning.Model.Expr

namespace TemporalPlanning

structure Valuation where
  base : OrderedMap String Value
  /-- The layers over it, the newest first. -/
  layers : List (OrderedMap String Value)

namespace Valuation

def maxLayers : Nat := 32

def ofMap (m : OrderedMap String Value) : Valuation := ⟨m, []⟩

def getFrom (base : OrderedMap String Value) (key : String) :
    List (OrderedMap String Value) → Option Value
  | [] => base.get? key
  | l :: ls =>
      match l.get? key with
      | some v => some v
      | none => getFrom base key ls

def get? (v : Valuation) (key : String) : Option Value := getFrom v.base key v.layers

def contains (v : Valuation) (key : String) : Bool := (v.get? key).isSome

def joinLayers (base : OrderedMap String Value) :
    List (OrderedMap String Value) → OrderedMap String Value
  | [] => base
  | l :: ls => (joinLayers base ls).putAll l.entries

def toMap (v : Valuation) : OrderedMap String Value := joinLayers v.base v.layers

def update (v : Valuation) (changes : OrderedMap String Value) : Valuation :=
  if changes.isEmpty then v
  else if maxLayers ≤ v.layers.length then ofMap (v.toMap.putAll changes.entries)
  else { v with layers := changes :: v.layers }

end Valuation

end TemporalPlanning
