import FlatCircuit.Json
import FlatCircuit.Source.Printer

namespace FlatCircuit

namespace Json

def part (kind : String) (fields : List (String × Json)) : Json :=
  .object (("_type", .string kind) :: fields)

end Json

open Json

def Operator.kind : Operator → String
  | .add => "Add"
  | .sub => "Sub"
  | .mul => "Mult"
  | .div => "Div"
  | .blank => "BinaryOp"

mutual

def Expr.document : Expr → Json
  | .lit n => part "NumberLiteral" [("value", .number n)]
  | .var x => part "VariableReference" [("name", .string x)]
  | .bin op l r =>
    part op.kind [("op", .string op.symbol), ("left", l.document), ("right", r.document)]
  | .pow b e => part "Pow" [("base", b.document), ("exponent", e.document)]
  | .ite c x y =>
    part "IfElse" [("condition", c.document), ("consequent", x.document), ("alternative", y.document)]
  | .hole => part Hole.expression.tag []

def Condition.document : Condition → Json
  | .less l r => part "LessThan" [("lhs", l.document), ("rhs", r.document)]
  | .hole => part Hole.condition.tag []

end

def Definition.document : Definition → Json
  | .assign x e => part "Assignment" [("name", .string x), ("expr", e.document)]
  | .ret e => part "Return" [("expr", e.document)]
  | .hole => part Hole.definition.tag []

def Program.document (p : Program) : Json :=
  part "Program" [
    ("id", .string p.name),
    ("parameters", .array (p.parameters.map .string)),
    ("definitions", .array (p.definitions.map Definition.document))]

def Hole.documentMessage (h : Hole) : String :=
  "cannot serialize " ++ h.tag

def Expr.toDocument (e : Expr) : Except Hole Json :=
  Hole.absent e.hole? e.document

def Condition.toDocument (c : Condition) : Except Hole Json :=
  Hole.absent c.hole? c.document

def Definition.toDocument (d : Definition) : Except Hole Json :=
  Hole.absent d.hole? d.document

def Program.toDocument (p : Program) : Except Hole Json :=
  Hole.absent p.hole? p.document

end FlatCircuit
