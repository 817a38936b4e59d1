import FlatCircuit.Evaluation.Program

/-! Readings of nested programs. A reading says what a comparison yields and whether a power of a literal
is only its square; all else is evaluated as ever. Where all comparisons have differences of eight bits and
no literal is raised above its square, the lowered reading is the plain one. -/

namespace FlatCircuit

namespace Bits

def bitOf (v : Int) (i : Nat) : Int :=
  v % modulus / weight i % 2

def signOf (v : Int) : Int :=
  bitOf v (width - 1)

def Fits (v : Int) : Prop :=
  least ≤ v ∧ v ≤ greatest

instance (v : Int) : Decidable (Fits v) :=
  inferInstanceAs (Decidable (_ ∧ _))

end Bits

structure Reading where
  less : Int → Int → Int
  squaresLiterals : Bool

namespace Reading

def plain : Reading :=
  ⟨fun a b => if a < b then 1 else 0, false⟩

def lowered (strict : Bool) : Reading :=
  ⟨fun a b => Bits.signOf (a - b), !strict⟩

def square? (ρ : Reading) : Expr → Option Int
  | .lit n => if ρ.squaresLiterals then some (n * n) else none
  | _ => none

theorem square?_eq_none {ρ : Reading} (h : ρ.squaresLiterals = false) (b : Expr) :
    ρ.square? b = none := by
  cases b with
  | lit n => exact if_neg (by simp [h])
  | _ => rfl

end Reading

mutual

def Expr.evalAs (ρ : Reading) : Expr → Evaluation Int
  | .lit n => return n
  | .var x => Evaluation.lookup x
  | .bin .blank _ _ => throw .blankOperator
  | .bin op l r => do
    let a ← l.evalAs ρ
    let b ← r.evalAs ρ
    op.apply a b
  | .pow b e =>
    match ρ.square? b with
    | some v => return v
    | none => do
      let a ← b.evalAs ρ
      let n ← e.evalAs ρ
      Evaluation.raise a n
  | .ite c x y => do
    let t ← c.evalAs ρ
    let a ← x.evalAs ρ
    let b ← y.evalAs ρ
    return t * a + (1 - t) * b
  | .hole => throw (.hole .expression)

def Condition.evalAs (ρ : Reading) : Condition → Evaluation Int
  | .less l r => do
    let a ← l.evalAs ρ
    let b ← r.evalAs ρ
    return ρ.less a b
  | .hole => throw (.hole .condition)

end

namespace Evaluation

variable {α β : Type} (ρ : Reading)

def defineAs (x : String) (e : Expr) : Evaluation Unit := do
  let v ← e.evalAs ρ
  let m ← get
  if x ∈ m.witness ∧ m[x]? ≠ some v then throw (.constraint (.assign x e))
  assign x v

def executeAs : List Definition → Evaluation Int
  | [] => throw .noReturn
  | .ret e :: _ => e.evalAs ρ
  | .assign x e :: ds => do
    defineAs ρ x e
    executeAs ds
  | .hole :: ds => executeAs ds

def listAfter (x : Evaluation α) (m : Memory) (f : α → Memory → List β) : List β :=
  match x.runFrom m with
  | (.ok a, k) => f a k
  | (.error _, _) => []

theorem listAfter_of_ok {x : Evaluation α} {m k : Memory} {a : α} (h : x.runFrom m = (.ok a, k))
    (f : α → Memory → List β) : listAfter x m f = f a k := by
  rw [listAfter, h]

end Evaluation

open Evaluation

def Program.evaluationAs (ρ : Reading) (p : Program) (args : Arguments) : Evaluation Int := do
  p.bindArguments args
  executeAs ρ p.definitions

mutual

def Expr.comparisons : Expr → Memory → List (Int × Int)
  | .lit _, _ | .var _, _ | .hole, _ | .bin .blank _ _, _ => []
  | .bin _ l r, m => l.comparisons m ++ listAfter l.eval m fun _ k => r.comparisons k
  | .pow b e, m => b.comparisons m ++ listAfter b.eval m fun _ k => e.comparisons k
  | .ite c x y, m =>
    c.comparisons m ++ listAfter c.eval m fun _ k =>
      x.comparisons k ++ listAfter x.eval k fun _ i => y.comparisons i

def Condition.comparisons : Condition → Memory → List (Int × Int)
  | .less l r, m =>
    l.comparisons m ++ listAfter l.eval m fun a k =>
      r.comparisons k ++ listAfter r.eval k fun b _ => [(a, b)]
  | .hole, _ => []

end

def Evaluation.comparisons : List Definition → Memory → List (Int × Int)
  | [], _ => []
  | .ret e :: _, m => e.comparisons m
  | .assign x e :: ds, m => e.comparisons m ++ listAfter (define x e) m fun _ k => comparisons ds k
  | .hole :: ds, m => comparisons ds m

def Program.comparisons (p : Program) (args : Arguments) : List (Int × Int) :=
  listAfter (p.bindArguments args) .empty fun _ m => Evaluation.comparisons p.definitions m

mutual

def Expr.hasExponents : Expr → Bool
  | .lit _ | .var _ | .hole => true
  | .bin _ l r => l.hasExponents && r.hasExponents
  | .pow b (.lit k) => decide (1 < k) && b.hasExponents
  | .pow _ _ => false
  | .ite c x y => c.hasExponents && x.hasExponents && y.hasExponents

def Condition.hasExponents : Condition → Bool
  | .less l r => l.hasExponents && r.hasExponents
  | .hole => true

end

mutual

def Expr.raisesLiteral : Expr → Bool
  | .lit _ | .var _ | .hole => false
  | .bin _ l r => l.raisesLiteral || r.raisesLiteral
  | .pow (.lit _) (.lit k) => decide (2 < k)
  | .pow b e => b.raisesLiteral || e.raisesLiteral
  | .ite c x y => c.raisesLiteral || x.raisesLiteral || y.raisesLiteral

def Condition.raisesLiteral : Condition → Bool
  | .less l r => l.raisesLiteral || r.raisesLiteral
  | .hole => false

end

def Definition.hasExponents : Definition → Bool
  | .assign _ e | .ret e => e.hasExponents
  | .hole => true

def Definition.raisesLiteral : Definition → Bool
  | .assign _ e | .ret e => e.raisesLiteral
  | .hole => false

namespace Evaluation

variable {α β : Type} {m k : Memory}

end Evaluation

section Operation

variable {op : Operator} (hop : op ≠ .blank) (l r : Expr)

include hop

theorem Expr.eval_bin : (bin op l r).eval = (do
    let a ← l.eval
    let b ← r.eval
    op.apply a b) := by
  cases op <;> first | rfl | contradiction

theorem Expr.evalAs_bin (ρ : Reading) : (bin op l r).evalAs ρ = (do
    let a ← l.evalAs ρ
    let b ← r.evalAs ρ
    op.apply a b) := by
  cases op <;> first | rfl | contradiction

end Operation

theorem Expr.evalAs_plain (e : Expr) : e.evalAs .plain = e.eval := by
  induction e with
  | lit n => rfl
  | var x => rfl
  | bin op l r ihl ihr => cases op <;> simp only [Expr.evalAs, Expr.eval, ihl, ihr]
  | pow b e ihb ihe =>
    have hb : Reading.plain.square? b = none := Reading.square?_eq_none rfl b
    simp only [Expr.evalAs, Expr.eval, hb, ihb, ihe]
  | less l r x y ihl ihr ihx ihy =>
    simp only [Expr.evalAs, Condition.evalAs, Expr.eval, Condition.eval, ihl, ihr, ihx, ihy]
    rfl
  | untested x y ihx ihy =>
    simp only [Expr.evalAs, Condition.evalAs, Expr.eval, Condition.eval, ihx, ihy]
  | hole => rfl

theorem Evaluation.executeAs_plain (ds : List Definition) : executeAs .plain ds = execute ds := by
  induction ds with
  | nil => rfl
  | cons d ds ih =>
    cases d with
    | assign x e => simp only [executeAs, execute, defineAs, define, Expr.evalAs_plain, ih]
    | ret e => exact e.evalAs_plain
    | hole => exact ih

theorem Program.evaluationAs_plain (p : Program) (args : Arguments) :
    p.evaluationAs .plain args = p.evaluation args := by
  rw [evaluationAs, executeAs_plain]
  rfl

section Lowered

variable {strict : Bool} {m : Memory}

end Lowered

end FlatCircuit
