import FlatCircuit.Program
import FlatCircuit.Text.Limit

/-! The text of programs. Atoms stand bare, compound left operands and both operands of a power are
enclosed, and so is a choice that is a branch of a choice. Only what has no hole is rendered. -/

namespace FlatCircuit

namespace Hole

def noun : Hole → String
  | .expression => "expression"
  | .condition => "condition"
  | .definition => "definition"

def tag : Hole → String
  | .expression => "Expr"
  | .condition => "Condition"
  | .definition => "Definition"

def message (h : Hole) : String :=
  "unknown " ++ h.noun ++ ": " ++ h.tag

end Hole

def Operator.symbol : Operator → String
  | .add => "+"
  | .sub => "-"
  | .mul => "*"
  | .div => "/"
  | .blank => ""

def enclose (needed : Bool) (s : String) : String :=
  if needed then "(" ++ s ++ ")" else s

mutual

def Expr.text : Expr → String
  | .lit n => toString n
  | .var x => x
  | .bin op l r => enclose (!l.isAtom) l.text ++ " " ++ op.symbol ++ " " ++ r.text
  | .pow b e => enclose (!b.isAtom) b.text ++ " ** " ++ enclose (!e.isAtom) e.text
  | .ite c x y =>
    c.text ++ " ? " ++ enclose x.isChoice x.text ++ " : " ++ enclose y.isChoice y.text
  | .hole => Hole.expression.tag

def Condition.text : Condition → String
  | .less l r => enclose (!l.isAtom) l.text ++ " < " ++ enclose (!r.isAtom) r.text
  | .hole => Hole.condition.tag

end

def Definition.text : Definition → String
  | .assign x e => x ++ " = " ++ e.text
  | .ret e => "return " ++ e.text
  | .hole => Hole.definition.tag

namespace Program

def header (p : Program) : String :=
  "def " ++ p.name ++ "(" ++ ", ".intercalate p.parameters ++ "):"

def text (p : Program) : String :=
  p.header ++ "\n" ++ String.join (p.definitions.map fun d => "    " ++ d.text ++ "\n")

def render (p : Program) : Except Hole String :=
  Hole.absent p.hole? p.text

end Program

def Expr.render (e : Expr) : Except Hole String :=
  Hole.absent e.hole? e.text

def Condition.render (c : Condition) : Except Hole String :=
  Hole.absent c.hole? c.text

def Definition.render (d : Definition) : Except Hole String :=
  Hole.absent d.hole? d.text

/-! Where the length of numbers is limited, parts are rendered from left to right up to the first hole or number
that stops this. -/

mutual

def Expr.renderWithin (limit : DigitLimit) : Expr → Except (Halt Hole) String
  | .lit n => if limit.writes n then return toString n else throw .overlong
  | .var x => return x
  | .bin op l r => do
    let left ← l.renderWithin limit
    let right ← r.renderWithin limit
    return enclose (!l.isAtom) left ++ " " ++ op.symbol ++ " " ++ right
  | .pow b e => do
    let base ← b.renderWithin limit
    let exponent ← e.renderWithin limit
    return enclose (!b.isAtom) base ++ " ** " ++ enclose (!e.isAtom) exponent
  | .ite c x y => do
    let test ← c.renderWithin limit
    let consequent ← x.renderWithin limit
    let alternative ← y.renderWithin limit
    return test ++ " ? " ++ enclose x.isChoice consequent ++ " : " ++ enclose y.isChoice alternative
  | .hole => throw (.raised .expression)

def Condition.renderWithin (limit : DigitLimit) : Condition → Except (Halt Hole) String
  | .less l r => do
    let left ← l.renderWithin limit
    let right ← r.renderWithin limit
    return enclose (!l.isAtom) left ++ " < " ++ enclose (!r.isAtom) right
  | .hole => throw (.raised .condition)

end

def Definition.renderWithin (limit : DigitLimit) : Definition → Except (Halt Hole) String
  | .assign x e => return x ++ " = " ++ (← e.renderWithin limit)
  | .ret e => return "return " ++ (← e.renderWithin limit)
  | .hole => throw (.raised .definition)

def Program.renderWithin (limit : DigitLimit) (p : Program) : Except (Halt Hole) String := do
  let lines ← p.definitions.mapM (Definition.renderWithin limit)
  return p.header ++ "\n" ++ String.join (lines.map fun line => "    " ++ line ++ "\n")

end FlatCircuit
