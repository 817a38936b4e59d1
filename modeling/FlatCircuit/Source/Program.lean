import FlatCircuit.Source.Header
import FlatCircuit.Source.Line
import FlatCircuit.Text.Lines

namespace FlatCircuit

namespace Source

open Text

def readHeader (n : Nat) : List (List Char) → Except SourceError (Header × Nat × List (List Char))
  | [] => .error ⟨.missingDefinition, "", 0⟩
  | line :: rest =>
    let cs := strip line
    match Header.def? cs with
    | some after =>
      match Header.afterDef? after with
      | none => .error ⟨.malformedHeader (.ofList cs), "", n⟩
      | some (name, arguments) =>
        match Header.readParameters arguments with
        | .ok ps => .ok (⟨.ofList name, ps⟩, n + 1, rest)
        | .error cause => .error ⟨cause, .ofList name, n⟩
    | none =>
      if isSkipped cs then readHeader (n + 1) rest
      else .error ⟨.contentBefore (.ofList cs), "", n⟩

def readBody (function : String) (n : Nat) : List (List Char) → Except SourceError (List Definition)
  | [] => .ok []
  | line :: rest =>
    let cs := strip line
    if isSkipped cs then readBody function (n + 1) rest
    else
      match readDefinition cs with
      | .ok d => (d :: ·) <$> readBody function (n + 1) rest
      | .error cause => .error ⟨cause, function, n⟩

def misplaced? (ds : List Definition) : Option SourceCause :=
  match ds.getLast? with
  | none => some .noReturn
  | some last =>
    if !last.isReturn then some (.lastNotReturn last)
    else if ds.dropLast.any Definition.isReturn then some .earlyReturn
    else none

def readLines (lines : List (List Char)) : Except SourceError Program := do
  let (header, n, rest) ← readHeader 1 lines
  let ds ← readBody header.function n rest
  match misplaced? ds with
  | some cause => .error ⟨cause, header.function, 0⟩
  | none => return ⟨header.function, header.parameters, ds⟩

end Source

def Program.read (s : String) : Except SourceError Program :=
  Source.readLines (Text.lines s.toList)

end FlatCircuit
