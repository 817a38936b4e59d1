import FlatCircuit.Source.Form

/-! Reading expressions. Spaces and tabs count for nothing, the left operand of an operation is an atom,
and there is no precedence: whatever stands right of an operator is its right operand. -/

namespace FlatCircuit

namespace Source

def withoutSpaces (cs : List Char) : List Char :=
  cs.filter fun c => c ≠ ' ' && c ≠ '\t'

theorem length_withoutSpaces_le (cs : List Char) : (withoutSpaces cs).length ≤ cs.length :=
  List.length_filter_le _ _

def readAtom (cause : String → SourceCause) (cs : List Char) : Except SourceCause Expr :=
  match Form.atom? cs with
  | some e => .ok e
  | none => .error (cause (.ofList cs))

def readExponent (text cs : List Char) : Except SourceCause Expr :=
  if Form.isNumeral cs then .ok (.lit (Nat.ofDigitChars 10 cs 0))
  else .error (.badExponent (.ofList text))

def readCondition (left : List Char) (comparison : Comparison) (right : List Char) :
    Except SourceCause Condition :=
  match comparison with
  | .less => do
    let l ← readAtom .unreadableCompared left
    let r ← readAtom .unreadableCompared right
    return .less l r
  | c => .error (.unsupportedComparison c)

def readExpr (text : List Char) : Except SourceCause Expr :=
  match _h : Form.of? (withoutSpaces text) with
  | none => .error (.unparsable (.ofList text))
  | some (.atom e) => .ok e
  | some (.operation left op right) => do
    let l ← readAtom .unreadableOperand left
    let r ← readExpr right
    return .bin op l r
  | some (.power base exponent) => do
    let b ← readAtom .unreadableOperand base
    let n ← readExponent text exponent
    return .pow b n
  | some (.choice left comparison right consequent alternative) => do
    let c ← readCondition left comparison right
    let x ← readExpr consequent
    let y ← readExpr alternative
    return .ite c x y
termination_by text.length
decreasing_by
  all_goals
    have hw := Form.within_of? ‹_›
    have hp := Form.length_pos_of_of? ‹_›
    have hl := length_withoutSpaces_le text
    simp only [Form.Within] at hw
    omega

end Source

def Expr.read (s : String) : Except SourceCause Expr :=
  Source.readExpr s.toList

end FlatCircuit
