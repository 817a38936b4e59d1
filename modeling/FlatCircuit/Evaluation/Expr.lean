import FlatCircuit.Evaluation.Monad

/-! Values of expressions in a memory that a lookup may extend by the bits of a bound value. Division has
to be exact, and a choice evaluates both of its branches. -/

namespace FlatCircuit

namespace Evaluation

def lookup (x : String) : Evaluation Int := do
  let m ← get
  match m[x]? with
  | some v => return v
  | none =>
    match ← m.owner? x with
    | none => throw (.undefined x)
    | some (owner, v) =>
      set (m.supply owner v)
      match (m.supply owner v)[x]? with
      | some b => return b
      | none => throw (.otherSpelling x)

def divide (a b : Int) : Except Fault Int :=
  if b = 0 then .error .divisionByZero
  else if a % b ≠ 0 then .error (.inexactDivision a b)
  else .ok (a / b)

/-- The powers of 0, 1 and -1 repeat with period two, so an exponent of any size comes down to 1 or 2. -/
def effectiveExponent (a : Int) (n : Nat) : Nat :=
  if a.natAbs ≤ 1 ∧ 2 < n then 2 - n % 2 else n

theorem pow_effectiveExponent (a : Int) (n : Nat) : a.pow (effectiveExponent a n) = a.pow n := by
  unfold effectiveExponent
  split
  · next h =>
    have hn : n ≠ 0 := by omega
    have hk : 2 - n % 2 ≠ 0 := by omega
    have hp : (2 - n % 2) % 2 = n % 2 := by omega
    have ha : a = 0 ∨ a = 1 ∨ a = -1 := by omega
    rcases ha with rfl | rfl | rfl
    · have h := Nat.zero_pow (Nat.pos_of_ne_zero hk)
      exact congrArg Int.ofNat (h.trans (Nat.zero_pow (Nat.pos_of_ne_zero hn)).symm)
    · exact congrArg Int.ofNat ((Nat.one_pow _).trans (Nat.one_pow _).symm)
    · show (if (2 - n % 2) % 2 = 0 then Int.ofNat (1 ^ (2 - n % 2)) else -Int.ofNat (1 ^ (2 - n % 2))) =
        if n % 2 = 0 then Int.ofNat (1 ^ n) else -Int.ofNat (1 ^ n)
      rw [hp, Nat.one_pow, Nat.one_pow]
  · rfl

/-- A negative exponent leads out of the integers, to fractions that no program read from a text can ask for. Evaluation
here is about integers and ends with a fault of its own. -/
def raise (a n : Int) : Except Fault Int :=
  if n < 0 then .error .negativeExponent else .ok (a.pow (effectiveExponent a n.toNat))

theorem raise_of_nonneg (a : Int) {n : Int} (h : 0 ≤ n) : raise a n = .ok (a.pow n.toNat) := by
  rw [raise, if_neg (by omega), pow_effectiveExponent]

end Evaluation

def Operator.apply (a b : Int) : Operator → Except Fault Int
  | .add => .ok (a + b)
  | .sub => .ok (a - b)
  | .mul => .ok (a * b)
  | .div => Evaluation.divide a b
  | .blank => .error .blankOperator

open Evaluation

mutual

/-- A blank operator is noticed before its operands are evaluated. -/
def Expr.eval : Expr → Evaluation Int
  | .lit n => return n
  | .var x => lookup x
  | .bin .blank _ _ => throw .blankOperator
  | .bin op l r => do
    let a ← l.eval
    let b ← r.eval
    op.apply a b
  | .pow b e => do
    let a ← b.eval
    let n ← e.eval
    raise a n
  | .ite c x y => do
    let t ← c.eval
    let a ← x.eval
    let b ← y.eval
    return t * a + (1 - t) * b
  | .hole => throw (.hole .expression)

def Condition.eval : Condition → Evaluation Int
  | .less l r => do
    let a ← l.eval
    let b ← r.eval
    return if a < b then 1 else 0
  | .hole => throw (.hole .condition)

end

end FlatCircuit
