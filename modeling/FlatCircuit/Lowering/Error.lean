import FlatCircuit.Bits
import FlatCircuit.Diagnostic
import FlatCircuit.Source.Printer

namespace FlatCircuit

inductive Unsupported where
  | exponent (power : Expr)
  | base (power : Expr)
  | condition
  | range (left right : Int)
  | expression
deriving DecidableEq, Repr

namespace Unsupported

def kind : Unsupported → String
  | .exponent _ => "UnsupportedPowExponent"
  | .base _ => "UnsupportedPowBase"
  | .condition => "UnsupportedConditionOperator"
  | .range _ _ => "ComparisonOutOfRange"
  | .expression => "UnsupportedExpression"

def message : Unsupported → String
  | .exponent e => "expected number > 1 as pow exponent in " ++ e.text
  | .base e => "only variables and numbers allowed in pow base: " ++ e.text
  | .condition => "unsupported condition " ++ Hole.condition.tag
  | .range a b =>
    "difference of " ++ (Condition.less (.lit a) (.lit b)).text ++ " does not fit in " ++
      toString Bits.width ++ " bits"
  | .expression => "cannot flatten " ++ Hole.expression.tag

def shown : Unsupported → List Int
  | .exponent e | .base e => e.literals
  | .range a b => [a, b]
  | .condition | .expression => []

def diagnostic (cause : Unsupported) (function : String) : Diagnostic :=
  ⟨cause.kind, cause.message, function, 0⟩

end Unsupported

inductive LoweringError where
  | unsupported (cause : Unsupported)
  | hole (h : Hole) (quoted : Expr)
deriving DecidableEq, Repr

def LoweringError.text (function : String) : LoweringError → String
  | .unsupported cause => (cause.diagnostic function).text
  | .hole h _ => h.message

namespace LoweringError

/-- Numbers that stand left of a hole are met before it. -/
def halt (limit : DigitLimit) : LoweringError → Halt LoweringError
  | .unsupported cause => .showing limit cause.shown (.unsupported cause)
  | .hole h quoted =>
    match quoted.renderWithin limit with
    | .error .overlong => .overlong
    | _ => .raised (.hole h quoted)

end LoweringError

end FlatCircuit
