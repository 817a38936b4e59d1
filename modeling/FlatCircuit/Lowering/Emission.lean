import FlatCircuit.Lowering.Error

/-! Computations that emit definitions and number their temporaries. What was emitted and counted before
a failure is kept, and what a computation emits does not depend on what was emitted earlier. -/

namespace FlatCircuit

structure Emission (α : Type) where
  emitted : List Definition
  next : Nat
  value : Except LoweringError α

def Lowering (α : Type) := Nat → Emission α

namespace Lowering

variable {α β : Type}

def pure (a : α) : Lowering α :=
  fun n => ⟨[], n, .ok a⟩

def bind (x : Lowering α) (f : α → Lowering β) : Lowering β := fun n =>
  let e := x n
  match e.value with
  | .ok a =>
    let r := f a e.next
    ⟨e.emitted ++ r.emitted, r.next, r.value⟩
  | .error err => ⟨e.emitted, e.next, .error err⟩

instance : Monad Lowering where
  pure := Lowering.pure
  bind := Lowering.bind

theorem pure_apply (a : α) (n : Nat) : (Pure.pure a : Lowering α) n = ⟨[], n, .ok a⟩ := rfl

theorem bind_apply (x : Lowering α) (f : α → Lowering β) (n : Nat) :
    (x >>= f) n =
      match (x n).value with
      | .ok a => ⟨(x n).emitted ++ (f a (x n).next).emitted, (f a (x n).next).next,
          (f a (x n).next).value⟩
      | .error err => ⟨(x n).emitted, (x n).next, .error err⟩ := rfl

theorem bind_ok {x : Lowering α} {n m : Nat} {ds : List Definition} {a : α}
    (h : x n = ⟨ds, m, .ok a⟩) (f : α → Lowering β) :
    (x >>= f) n = ⟨ds ++ (f a m).emitted, (f a m).next, (f a m).value⟩ := by
  simp only [bind_apply, h]

theorem bind_error {x : Lowering α} {n m : Nat} {ds : List Definition} {err : LoweringError}
    (h : x n = ⟨ds, m, .error err⟩) (f : α → Lowering β) :
    (x >>= f) n = ⟨ds, m, .error err⟩ := by
  simp only [bind_apply, h]

def fail (err : LoweringError) : Lowering α :=
  fun n => ⟨[], n, .error err⟩

def emit (ds : List Definition) : Lowering Unit :=
  fun n => ⟨ds, n, .ok ()⟩

def fresh : Lowering String :=
  fun n => ⟨[], n + 1, .ok (Name.temporary n)⟩

/-- Rejects an expression that the message quotes, so its holes are noticed first. -/
def reject (cause : Unsupported) (quoted : Expr) : Lowering α :=
  fail ((quoted.hole?.map (.hole · quoted)).getD (.unsupported cause))

def store (e : Expr) : Lowering String := do
  let x ← fresh
  emit [.assign x e]
  return x

@[simp]
theorem store_apply (e : Expr) (n : Nat) :
    store e n = ⟨[.assign (Name.temporary n) e], n + 1, .ok (Name.temporary n)⟩ := rfl

def operand (e : Expr) : Lowering Expr :=
  if e.isAtom then return e else return .var (← store e)

theorem operand_of_isAtom {e : Expr} (h : e.isAtom = true) (n : Nat) :
    operand e n = ⟨[], n, .ok e⟩ := by
  rw [operand, if_pos h, pure_apply]

theorem operand_of_not_isAtom {e : Expr} (h : e.isAtom = false) (n : Nat) :
    operand e n =
      ⟨[.assign (Name.temporary n) e], n + 1, .ok (.var (Name.temporary n))⟩ := by
  rw [operand, h]
  rfl

end Lowering

end FlatCircuit
