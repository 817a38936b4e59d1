/-! Expressions over named integers and the comparisons that choose between them. A hole stands where a
part of a program is missing: it can be carried about, but not written, lowered or evaluated. -/

namespace FlatCircuit

inductive Hole where
  | expression
  | condition
  | definition
deriving DecidableEq, Repr

inductive Operator where
  | add
  | sub
  | mul
  | div
  | blank
deriving DecidableEq, Repr

mutual

inductive Expr where
  | lit (value : Int)
  | var (name : String)
  | bin (op : Operator) (left right : Expr)
  | pow (base exponent : Expr)
  | ite (test : Condition) (consequent alternative : Expr)
  | hole
deriving DecidableEq, Repr

inductive Condition where
  | less (left right : Expr)
  | hole
deriving DecidableEq, Repr

end

@[induction_eliminator]
theorem Expr.induction {motive : Expr → Prop}
    (lit : ∀ value, motive (.lit value)) (var : ∀ name, motive (.var name))
    (bin : ∀ op left right, motive left → motive right → motive (.bin op left right))
    (pow : ∀ base exponent, motive base → motive exponent → motive (.pow base exponent))
    (less : ∀ left right consequent alternative, motive left → motive right → motive consequent →
      motive alternative → motive (.ite (.less left right) consequent alternative))
    (untested : ∀ consequent alternative, motive consequent → motive alternative →
      motive (.ite .hole consequent alternative))
    (hole : motive .hole) (e : Expr) : motive e :=
  Expr.rec (motive_1 := motive)
    (motive_2 := fun c => ∀ x y, motive x → motive y → motive (.ite c x y))
    lit var bin pow (fun _ x y hc hx hy => hc x y hx hy) hole
    (fun l r hl hr x y hx hy => less l r x y hl hr hx hy) untested e

namespace Expr

def isAtom : Expr → Bool
  | .lit _ | .var _ => true
  | _ => false

def isFlat : Expr → Bool
  | .bin _ l r => l.isAtom && r.isAtom
  | e => e.isAtom

def isChoice : Expr → Bool
  | .ite .. => true
  | _ => false

theorem isFlat_of_isAtom {e : Expr} (h : e.isAtom = true) : e.isFlat = true := by
  cases e <;> simp_all [isAtom, isFlat]

end Expr

mutual

def Expr.variables : Expr → List String
  | .lit _ | .hole => []
  | .var x => [x]
  | .bin _ l r => l.variables ++ r.variables
  | .pow b e => b.variables ++ e.variables
  | .ite c x y => c.variables ++ x.variables ++ y.variables

def Condition.variables : Condition → List String
  | .less l r => l.variables ++ r.variables
  | .hole => []

end

mutual

def Expr.literals : Expr → List Int
  | .lit n => [n]
  | .var _ | .hole => []
  | .bin _ l r => l.literals ++ r.literals
  | .pow b e => b.literals ++ e.literals
  | .ite c x y => c.literals ++ x.literals ++ y.literals

def Condition.literals : Condition → List Int
  | .less l r => l.literals ++ r.literals
  | .hole => []

end

mutual

def Expr.hole? : Expr → Option Hole
  | .lit _ | .var _ => none
  | .bin _ l r => l.hole?.or r.hole?
  | .pow b e => b.hole?.or e.hole?
  | .ite c x y => c.hole?.or (x.hole?.or y.hole?)
  | .hole => some .expression

def Condition.hole? : Condition → Option Hole
  | .less l r => l.hole?.or r.hole?
  | .hole => some .condition

end

end FlatCircuit
