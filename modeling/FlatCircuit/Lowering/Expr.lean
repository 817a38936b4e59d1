import FlatCircuit.Lowering.Emission

/-! Lowering to the flat form, in which an expression is an atom or one operation over two atoms. Powers
become chains of products, and a choice with sign bit `t` becomes `t * x + (1 - t) * y`, where `t` is read
off the bits of the compared difference. -/

namespace FlatCircuit

namespace Lowering

def multiply (b : Expr) : Nat → Expr → Lowering Expr
  | 0, product => return product
  | k + 1, product => do multiply b k (.bin .mul (.var (← store product)) b)

def chain (b : Expr) (exponent : Int) : Lowering Expr :=
  multiply b (exponent - 2).toNat (.bin .mul b b)

def power (strict : Bool) (b e : Expr) : Lowering Expr :=
  match e with
  | .lit n =>
    if n ≤ 1 then reject (.exponent (.pow b e)) (.pow b e)
    else
      match b with
      | .var _ => chain b n
      | .lit _ => if strict then chain b n else return .bin .mul b b
      | _ => reject (.base (.pow b e)) (.pow b e)
  | _ => reject (.exponent (.pow b e)) (.pow b e)

def checkRange : Expr → Expr → Lowering Unit
  | .lit a, .lit b =>
    if a - b < Bits.least ∨ Bits.greatest < a - b then fail (.unsupported (.range a b)) else return
  | _, _ => return

def compare (l r : Expr) : Lowering Expr := do
  checkRange l r
  let x ← store l
  let y ← store r
  let d ← store (.bin .sub (.var x) (.var y))
  emit (Bits.constraints d)
  return .var (Bits.sign d)

end Lowering

open Lowering

mutual

def Expr.lower (strict : Bool) : Expr → Lowering Expr
  | .lit n => return .lit n
  | .var x => return .var x
  | .bin op l r => do
    let l ← l.lower strict
    let r ← r.lower strict
    return .bin op (← operand l) (← operand r)
  | .pow b e => power strict b e
  | .ite c x y => do
    let t ← c.lower strict
    let chosen := .bin .mul t (← operand (← x.lower strict))
    let y ← y.lower strict
    let other := .bin .mul (← operand (.bin .sub (.lit 1) t)) (← operand y)
    return .bin .add (← operand chosen) (← operand other)
  | .hole => fail (.unsupported .expression)

def Condition.lower (strict : Bool) : Condition → Lowering Expr
  | .less l r => do
    let l ← l.lower strict
    let r ← r.lower strict
    compare l r
  | .hole => fail (.unsupported .condition)

end

end FlatCircuit
