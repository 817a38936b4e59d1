import FlatCircuit.Command.Options
import FlatCircuit.Contract.Checker
import FlatCircuit.Document
import FlatCircuit.Evaluation.Program
import FlatCircuit.Lowering.Program
import FlatCircuit.Source.Limited

namespace FlatCircuit.Command

inductive Failure where
  | usage (e : UsageError)
  | cannotOpen (path : String)
  | badEncoding
  | noInput
  | source (e : SourceError)
  | lowering (function : String) (e : LoweringError)
  | contract (findings : List Finding)
  | hole (h : Hole)
  | fault (f : Fault)
  | cannotWrite (path : String)
  | overlong
deriving DecidableEq, Repr

namespace Failure

def halted (f : ε → Failure) : Halt ε → Failure
  | .overlong => .overlong
  | .raised err => f err

/-- What is reported with an exit code. The other failures are not caught. -/
def isHandled : Failure → Bool
  | .hole _ | .lowering _ (.hole ..) | .overlong => false
  | .fault f => f.isRuntime
  | _ => true

def messages : Failure → List String
  | .usage e => [e.message]
  | .cannotOpen path => ["cannot open '" ++ path ++ "'"]
  | .badEncoding => ["invalid utf-8 in input"]
  | .noInput => ["no input provided"]
  | .source e => [e.diagnostic.text]
  | .lowering f e => [e.text f]
  | .contract fs => fs.map Finding.text
  | .hole h => [h.message]
  | .fault f => ["runtime: " ++ f.message]
  | .cannotWrite path => ["cannot write '" ++ path ++ "'"]
  | .overlong => ["number too long"]

def exitCode : Failure → Nat
  | .usage _ | .noInput => 2
  | _ => 1

def text (f : Failure) : String :=
  String.join (f.messages.map fun m => "error: " ++ m ++ "\n")

end Failure

variable (limit : DigitLimit) (o : Options)

def verify (p : Program) : Except Failure Unit := do
  match ← p.check.mapError .hole with
  | [] => return
  | findings => throw (.halted .contract (.showing limit (findings.flatMap (·.breach.shown)) findings))

def lowered (p : Program) : Except Failure Program := do
  match o.phase with
  | .parse => return p
  | .flatten =>
    let q ← (p.lowerWithin o.strict limit).mapError (.halted (.lowering p.name))
    if o.check then verify limit q
    return q

def rendered (p : Program) : Except Failure String := do
  match o.arguments with
  | some ns =>
    let v ← (p.runWithin limit (.positional ns)).mapError (.halted .fault)
    if limit.writes v then return toString v ++ "\n" else throw .overlong
  | none =>
    if o.json then
      let document ← p.toDocument.mapError .hole
      let text ← (document.textWithin limit).mapError (.halted .hole)
      return text ++ "\n"
    else (p.renderWithin limit).mapError (.halted .hole)

def compile (source : String) : Except Failure String := do
  if Text.strip source.toList = [] then throw .noInput
  let p ← (Program.readWithin limit source).mapError (.halted .source)
  let p ← lowered limit o p
  rendered limit o p

end FlatCircuit.Command
