import FlatCircuit.Evaluation.Expr
import FlatCircuit.Program

namespace FlatCircuit

inductive Arguments where
  | positional (values : List Int)
  | named (values : List (String × Int))

namespace Evaluation

def assign (x : String) (v : Int) : Evaluation Unit :=
  modify (·.assign x v)

def define (x : String) (e : Expr) : Evaluation Unit := do
  let v ← e.eval
  let m ← get
  if x ∈ m.witness ∧ m[x]? ≠ some v then throw (.constraint (.assign x e))
  assign x v

def execute : List Definition → Evaluation Int
  | [] => throw .noReturn
  | .ret e :: _ => e.eval
  | .assign x e :: ds => do
    define x e
    execute ds
  | .hole :: ds => execute ds

end Evaluation

open Evaluation

namespace Program

variable (p : Program)

def bindArguments : Arguments → Evaluation Unit
  | .positional vs =>
    if vs.length = p.parameters.length then
      (p.parameters.zip vs).forM fun (x, v) => assign x v
    else throw (.argumentCount p.name p.parameters.length vs.length)
  | .named vs =>
    p.parameters.forM fun x =>
      match vs.lookup x with
      | some v => assign x v
      | none => throw (.missingArgument x)

def execute : Evaluation Int :=
  Evaluation.execute p.definitions

def evaluation (args : Arguments) : Evaluation Int := do
  p.bindArguments args
  p.execute

def run (args : Arguments) : Except Fault Int :=
  ((p.evaluation args).runFrom Memory.empty).1

def runWithin (limit : DigitLimit) (args : Arguments) : Except (Halt Fault) Int :=
  (p.run args).mapError (·.halt limit)

end Program

end FlatCircuit
