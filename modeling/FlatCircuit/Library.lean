import FlatCircuit.Evaluation.Program
import FlatCircuit.Lowering.Program
import FlatCircuit.Source.Limited

namespace FlatCircuit.Library

inductive Raised where
  | source (err : SourceError)
  | lowering (function : String) (err : LoweringError)
  | fault (err : Fault)
deriving DecidableEq, Repr

def Raised.message : Raised → String
  | .source err => err.diagnostic.text
  | .lowering f err => err.text f
  | .fault err => err.message

variable (limit : DigitLimit)

def parse (source : String) : Except (Halt Raised) Program :=
  (Program.readWithin limit source).mapError (·.map .source)

def flatten (strict : Bool) (p : Program) : Except (Halt Raised) Program :=
  (p.lowerWithin strict limit).mapError (·.map (.lowering p.name))

def run (args : Arguments) (p : Program) : Except (Halt Raised) Int :=
  (p.runWithin limit args).mapError (·.map .fault)

end FlatCircuit.Library
