import FlatCircuit.Lowering.Expr

namespace FlatCircuit

open Lowering

def Definition.lower (strict : Bool) : Definition → Lowering Unit
  | .assign x e => do emit [.assign x (← e.lower strict)]
  | .ret e => do emit [.ret (← e.lower strict)]
  | .hole => return

namespace Program

variable (strict : Bool) (p : Program)

def emission : Emission Unit :=
  (p.definitions.forM (Definition.lower strict)) 0

def lower : Except LoweringError Program :=
  (p.emission strict).value.map fun _ => { p with definitions := (p.emission strict).emitted }

def lowerWithin (limit : DigitLimit) : Except (Halt LoweringError) Program :=
  (p.lower strict).mapError (·.halt limit)

theorem lower_eq_ok_iff {q : Program} :
    p.lower strict = .ok q ↔
      (p.emission strict).value = .ok () ∧ q = { p with definitions := (p.emission strict).emitted } := by
  unfold lower
  cases (p.emission strict).value <;> simp [Except.map, eq_comm]

theorem lowerWithin_eq_ok_iff {limit : DigitLimit} {q : Program} :
    p.lowerWithin strict limit = .ok q ↔ p.lower strict = .ok q := by
  unfold lowerWithin
  cases p.lower strict with
  | ok r =>
    constructor <;> intro h <;> cases h
    · rfl
    · rfl
  | error err => constructor <;> intro h <;> cases h

end Program

end FlatCircuit
