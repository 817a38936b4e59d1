import FlatCircuit.Lowering.Program

namespace FlatCircuit.Lowering

structure Session where
  function : String
  strict : Bool
  counter : Nat
  definitions : List Definition

inductive Request where
  | expr (e : Expr)
  | condition (c : Condition)
  | store (e : Expr)
  | fresh

inductive Answer where
  | expr (e : Expr)
  | name (x : String)

def Request.lowering (strict : Bool) : Request → Lowering Answer
  | .expr e => .expr <$> e.lower strict
  | .condition c => .expr <$> c.lower strict
  | .store e => return .expr (.var (← Lowering.store e))
  | .fresh => .name <$> Lowering.fresh

namespace Session

def start (function : String) (strict : Bool) : Session :=
  ⟨function, strict, 0, []⟩

variable {α : Type} (s : Session)

def run (x : Lowering α) : Except LoweringError α × Session :=
  let e := x s.counter
  (e.value, { s with counter := e.next, definitions := s.definitions ++ e.emitted })

def perform (r : Request) : Except LoweringError Answer × Session :=
  s.run (r.lowering s.strict)

@[simp]
theorem run_definitions (x : Lowering α) :
    (s.run x).2.definitions = s.definitions ++ (x s.counter).emitted := rfl

@[simp]
theorem run_counter (x : Lowering α) : (s.run x).2.counter = (x s.counter).next := rfl

end Session

end FlatCircuit.Lowering
