import FlatCircuit.Diagnostic
import FlatCircuit.Source.Printer
import FlatCircuit.Text.Quoted

namespace FlatCircuit

inductive Comparison where
  | less
  | lessEqual
  | greater
  | greaterEqual
  | equal
  | notEqual
deriving DecidableEq, Repr

def Comparison.symbol : Comparison → String
  | .less => "<"
  | .lessEqual => "<="
  | .greater => ">"
  | .greaterEqual => ">="
  | .equal => "=="
  | .notEqual => "!="

inductive SourceCause where
  | missingDefinition
  | contentBefore (line : String)
  | malformedHeader (line : String)
  | malformedArguments (arguments : String)
  | duplicateParameter (name : String)
  | malformedLine (line : String)
  | emptyReturn (line : String)
  | noReturn
  | earlyReturn
  | lastNotReturn (last : Definition)
  | unreadableOperand (operand : String)
  | unreadableCompared (operand : String)
  | badExponent (expression : String)
  | unparsable (expression : String)
  | unsupportedComparison (comparison : Comparison)
deriving DecidableEq, Repr

namespace SourceCause

def kind : SourceCause → String
  | .missingDefinition => "MissingFunctionDefinition"
  | .contentBefore _ => "UnexpectedContentBeforeDefinition"
  | .malformedHeader _ => "MalformedHeader"
  | .malformedArguments _ | .duplicateParameter _ => "MalformedArgumentList"
  | .malformedLine _ | .emptyReturn _ => "MalformedDefinitionLine"
  | .noReturn | .earlyReturn => "MissingOrMisplacedReturn"
  | .lastNotReturn _ => "LastStatementNotReturn"
  | .unreadableOperand _ | .unreadableCompared _ | .badExponent _ | .unparsable _ =>
    "UnparsableExpression"
  | .unsupportedComparison _ => "UnsupportedConditionOperator"

def message : SourceCause → String
  | .missingDefinition => "end of input reached without a function definition"
  | .contentBefore line => "found " ++ Text.quote line ++ " outside of function"
  | .malformedHeader line => "wrong definition of function: " ++ Text.quote line
  | .malformedArguments s => "wrong argument definition: " ++ Text.quote s
  | .duplicateParameter x => "duplicate parameter " ++ Text.quote x
  | .malformedLine line => "wrong definition line: " ++ Text.quote line
  | .emptyReturn line => "return without expression: " ++ Text.quote line
  | .noReturn => "function has no return"
  | .earlyReturn => "return must be the final definition"
  | .lastNotReturn d => "last definition is not a return: " ++ d.text
  | .unreadableOperand s => "could not read left operand: " ++ Text.quote s
  | .unreadableCompared s => "could not read comparison operand: " ++ Text.quote s
  | .badExponent s => "exponent must be an integer literal: " ++ Text.quote s
  | .unparsable s => "could not parse expression: " ++ Text.quote s
  | .unsupportedComparison c => "unsupported comparison operator " ++ Text.quote c.symbol

end SourceCause

structure SourceError where
  cause : SourceCause
  function : String
  line : Nat
deriving DecidableEq, Repr

def SourceCause.shown : SourceCause → List Int
  | .lastNotReturn d => d.literals
  | _ => []

def SourceError.halt (limit : DigitLimit) (err : SourceError) : Halt SourceError :=
  .showing limit err.cause.shown err

def SourceError.diagnostic (e : SourceError) : Diagnostic :=
  ⟨e.cause.kind, e.cause.message, e.function, e.line⟩

end FlatCircuit
