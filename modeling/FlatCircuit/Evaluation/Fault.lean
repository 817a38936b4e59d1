import FlatCircuit.Name
import FlatCircuit.Source.Printer
import FlatCircuit.Text.Digit
import FlatCircuit.Text.Quoted

/-! Why a program has no value. The last two causes concern names that ask for a bit of a bound value
and are not the name of that bit. Digits that are no number are quoted up to 200 characters. Where the length
of numbers is limited, an index or a number that the message shows may be too long. -/

namespace FlatCircuit

inductive Fault where
  | missingArgument (name : String)
  | argumentCount (function : String) (expected given : Nat)
  | constraint (d : Definition)
  | noReturn
  | hole (h : Hole)
  | blankOperator
  | divisionByZero
  | inexactDivision (dividend divisor : Int)
  | negativeExponent
  | undefined (name : String)
  | otherSpelling (name : String)
  | badIndex (index : String)
deriving DecidableEq, Repr

namespace Fault

def message : Fault → String
  | .missingArgument x => "missing argument " ++ Text.quote x
  | .argumentCount f expected given =>
    f ++ " expects " ++ toString expected ++ " arguments, got " ++ toString given
  | .constraint d => "constraint failed: " ++ d.text
  | .noReturn => "program ended without return"
  | .hole h => "cannot evaluate " ++ h.tag
  | .blankOperator => "cannot evaluate BinaryOp"
  | .divisionByZero => "division by zero"
  | .inexactDivision a b => "inexact division " ++ toString a ++ " / " ++ toString b
  | .negativeExponent => "negative exponent"
  | .undefined x => "undefined variable " ++ Text.quote x
  | .otherSpelling x => Text.quote x
  | .badIndex i => "invalid literal for int() with base 10: " ++ Text.quoteUpTo 200 i

/-- A fault that is reported as one of the program. The others are errors of its evaluation. -/
def isRuntime : Fault → Bool
  | .negativeExponent | .otherSpelling _ | .badIndex _ => false
  | _ => true

def shown : Fault → List Int
  | .constraint d => d.literals
  | .inexactDivision a b => [a, b]
  | _ => []

/-- The digits that a name which is not bound ends in. They are converted to see whether it names a bit. -/
def index? : Fault → Option (List Char)
  | .undefined x | .otherSpelling x =>
    (Name.splitBit? x).bind fun (_, index) => if index.all Text.isDigit then some index else none
  | _ => none

def halt (limit : DigitLimit) (err : Fault) : Halt Fault :=
  if err.index?.all limit.reads then .showing limit err.shown err else .overlong

end Fault

end FlatCircuit
