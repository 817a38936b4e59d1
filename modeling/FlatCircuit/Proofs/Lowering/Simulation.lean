import FlatCircuit.Proofs.Lowering.Stages

namespace FlatCircuit

open Lowering Evaluation

section Power

variable {strict : Bool} {b : Expr} {m : Memory} {k : Int}

theorem Lowering.Expands.square?_eq_none (h : Expands strict b) :
    (Reading.lowered strict).square? b = none := by
  cases b with
  | lit n =>
    have hs : strict = true := h
    exact Reading.square?_eq_none (by rw [hs]; rfl) _
  | _ => rfl

theorem Lowering.Expands.isAtom (h : Expands strict b) : b.isAtom = true := by
  cases b <;> first | rfl | cases h

end Power

section Expression

variable {strict : Bool} {e f : Expr} {n j : Nat} {ds : List Definition} {m : Memory}

end Expression

end FlatCircuit
