import FlatCircuit.Bits
import FlatCircuit.Source.Printer

namespace FlatCircuit

inductive Breach where
  | noDefinitions
  | earlyReturn
  | lastNotReturn
  | unknownDefinition
  | notFlat (d : Definition)
  | undefined (name : String)
  | booleanness (bit : String)
  | weightedSum (name : String)
deriving DecidableEq, Repr

def Breach.message : Breach → String
  | .noDefinitions => "program has no definitions"
  | .earlyReturn => "return before the final definition"
  | .lastNotReturn => "last definition is not a return"
  | .unknownDefinition => "unknown definition " ++ Hole.definition.tag
  | .notFlat d => "not flat: " ++ d.text
  | .undefined x => x ++ " read before definition"
  | .booleanness b => "expected booleanness constraint for " ++ b
  | .weightedSum x => "expected weighted-sum redefinition of " ++ x

def Breach.shown : Breach → List Int
  | .notFlat d => d.literals
  | _ => []

structure Finding where
  breach : Breach
  index : Nat
deriving DecidableEq, Repr

def Finding.text (f : Finding) : String :=
  f.breach.message ++ " at definition " ++ toString f.index

end FlatCircuit
