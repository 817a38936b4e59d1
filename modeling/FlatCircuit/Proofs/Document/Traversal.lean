import FlatCircuit.Document
import FlatCircuit.Proofs.Source.Obstacles

namespace FlatCircuit

open Json Hole

mutual

def Expr.assemble : Expr → Except Hole Json
  | .lit n => return part "NumberLiteral" [("value", .number n)]
  | .var x => return part "VariableReference" [("name", .string x)]
  | .bin op l r => do
    let l ← l.assemble
    let r ← r.assemble
    return part op.kind [("op", .string op.symbol), ("left", l), ("right", r)]
  | .pow b e => do
    let b ← b.assemble
    let e ← e.assemble
    return part "Pow" [("base", b), ("exponent", e)]
  | .ite c x y => do
    let c ← c.assemble
    let x ← x.assemble
    let y ← y.assemble
    return part "IfElse" [("condition", c), ("consequent", x), ("alternative", y)]
  | .hole => throw .expression

def Condition.assemble : Condition → Except Hole Json
  | .less l r => do
    let l ← l.assemble
    let r ← r.assemble
    return part "LessThan" [("lhs", l), ("rhs", r)]
  | .hole => throw .condition

end

def Definition.assemble : Definition → Except Hole Json
  | .assign x e => return part "Assignment" [("name", .string x), ("expr", ← e.assemble)]
  | .ret e => return part "Return" [("expr", ← e.assemble)]
  | .hole => throw .definition

def Program.assemble (p : Program) : Except Hole Json := do
  let definitions ← p.definitions.mapM Definition.assemble
  return part "Program" [("id", .string p.name), ("parameters", .array (p.parameters.map .string)),
    ("definitions", .array definitions)]

section Parts

variable {l r : Expr}

theorem Condition.assemble_less (hl : l.assemble = l.toDocument) (hr : r.assemble = r.toDocument) :
    (less l r).assemble = (less l r).toDocument := by
  rw [assemble, hl, hr]
  exact absent_bind (absent_map _)

theorem Expr.assemble_eq (e : Expr) : e.assemble = e.toDocument := by
  induction e with
  | lit | var | hole => rfl
  | bin op l r ihl ihr =>
    rw [assemble, ihl, ihr]
    exact absent_bind (absent_map _)
  | pow b e ihb ihe =>
    rw [assemble, ihb, ihe]
    exact absent_bind (absent_map _)
  | less l r x y ihl ihr ihx ihy =>
    rw [assemble, Condition.assemble_less ihl ihr, ihx, ihy]
    exact absent_bind (absent_bind (absent_map _))
  | untested x y => rfl

end Parts

theorem Definition.assemble_eq (d : Definition) : d.assemble = d.toDocument := by
  cases d with
  | assign x e | ret e =>
    rw [assemble, e.assemble_eq]
    exact absent_map _
  | hole => rfl

theorem Json.numbersOfItems_map {α : Type} (xs : List α) (f : α → Json) :
    numbersOfItems (xs.map f) = xs.flatMap fun x => (f x).numbers := by
  induction xs with
  | nil => rfl
  | cons x xs ih => rw [List.map_cons, numbersOfItems, ih, List.flatMap_cons]

theorem Expr.numbers_document (e : Expr) : e.document.numbers = e.literals := by
  induction e with
  | lit | var | hole => rfl
  | bin op l r ihl ihr =>
    simp only [document, part, numbers, numbersOfFields, literals, ihl, ihr, List.nil_append, List.append_nil]
  | pow b e ihb ihe =>
    simp only [document, part, numbers, numbersOfFields, literals, ihb, ihe, List.nil_append, List.append_nil]
  | less l r x y ihl ihr ihx ihy =>
    simp only [document, Condition.document, part, numbers, numbersOfFields, literals, Condition.literals, ihl, ihr,
      ihx, ihy, List.nil_append, List.append_nil, List.append_assoc]
  | untested x y ihx ihy =>
    simp only [document, Condition.document, part, numbers, numbersOfFields, literals, Condition.literals, ihx, ihy,
      List.nil_append, List.append_nil]

theorem Definition.numbers_document (d : Definition) : d.document.numbers = d.literals := by
  cases d with
  | assign x e | ret e =>
    simp only [document, part, numbers, numbersOfFields, literals, e.numbers_document, List.nil_append,
      List.append_nil]
  | hole => rfl

namespace Program

variable (p : Program)

theorem assemble_eq : p.assemble = p.toDocument := by
  have hd : Definition.assemble = fun d => absent d.hole? d.document := funext Definition.assemble_eq
  rw [assemble, hd, mapM_absent]
  exact absent_map _

theorem numbers_document : p.document.numbers = p.literals := by
  have hparameters : (p.parameters.flatMap fun _ => ([] : List Int)) = [] :=
    List.flatMap_eq_nil_iff.mpr fun _ _ => rfl
  simp only [document, part, numbers, numbersOfFields, numbersOfItems_map, hparameters, literals, List.nil_append,
    List.append_nil]
  exact congrArg (p.definitions.flatMap ·) (funext Definition.numbers_document)

end Program

end FlatCircuit
