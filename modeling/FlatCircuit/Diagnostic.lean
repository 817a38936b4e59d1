namespace FlatCircuit

structure Diagnostic where
  kind : String
  message : String
  function : String
  line : Nat
deriving DecidableEq, Repr

namespace Diagnostic

variable (d : Diagnostic)

def inFunction : String :=
  if d.function = "" then "" else " in function '" ++ d.function ++ "'"

def atLine : String :=
  if d.line = 0 then "" else " at line " ++ toString d.line

def text : String :=
  d.kind ++ ": " ++ d.message ++ d.inFunction ++ d.atLine

end Diagnostic

end FlatCircuit
