import FlatCircuit.Expr

namespace FlatCircuit

inductive Definition where
  | assign (name : String) (value : Expr)
  | ret (value : Expr)
  | hole
deriving DecidableEq, Repr

structure Program where
  name : String
  parameters : List String
  definitions : List Definition
deriving DecidableEq, Repr

namespace Definition

def isReturn : Definition → Bool
  | .ret _ => true
  | _ => false

def hole? : Definition → Option Hole
  | .assign _ e | .ret e => e.hole?
  | .hole => some .definition

def literals : Definition → List Int
  | .assign _ e | .ret e => e.literals
  | .hole => []

end Definition

def Program.literals (p : Program) : List Int :=
  p.definitions.flatMap Definition.literals

def Program.hole? (p : Program) : Option Hole :=
  p.definitions.findSome? Definition.hole?

/-- A value made from something that has no hole, and where nothing else stops this either. -/
def Hole.absent (h : Option ε) (a : α) : Except ε α :=
  match h with
  | none => .ok a
  | some h => .error h

@[simp]
theorem Hole.absent_eq_ok_iff {h : Option ε} {a b : α} :
    Hole.absent h a = .ok b ↔ h = none ∧ a = b := by
  cases h <;> simp [Hole.absent]

end FlatCircuit
