import FlatCircuit.Source.Expr
import FlatCircuit.Text.Blank
import FlatCircuit.Text.Word

namespace FlatCircuit.Source

open Text

def isSkipped : List Char → Bool
  | [] => true
  | '/' :: '/' :: _ => true
  | _ => false

def returned? : List Char → Option (List Char)
  | 'r' :: 'e' :: 't' :: 'u' :: 'r' :: 'n' :: cs =>
    let rest := stripStart cs
    if cs.head?.any isWordChar || rest.contains '\n' then none else some rest
  | _ => none

def equation? (cs : List Char) : Option (List Char × List Char) := do
  let (name, cs) ← Form.word? cs
  guard (Form.isIdentifier name)
  let '=' :: cs := stripStart cs | none
  let rest := stripStart cs
  if rest.contains '\n' then none else some (name, rest)

def readDefinition (cs : List Char) : Except SourceCause Definition :=
  match returned? cs with
  | some [] => .error (.emptyReturn (.ofList cs))
  | some rest => .ret <$> readExpr rest
  | none =>
    match equation? cs with
    | none | some (_, []) => .error (.malformedLine (.ofList cs))
    | some (name, rest) => .assign (.ofList name) <$> readExpr rest

end FlatCircuit.Source
