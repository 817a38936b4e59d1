import FlatCircuit.Evaluation.Memory

namespace FlatCircuit

abbrev Evaluation := ExceptT Fault (StateM Memory)

namespace Evaluation

variable {α β : Type}

def runFrom (m : Memory) (x : Evaluation α) : Except Fault α × Memory :=
  x.run.run m

variable (m : Memory)

@[simp]
theorem runFrom_pure (a : α) : (pure a : Evaluation α).runFrom m = (.ok a, m) := rfl

theorem runFrom_bind (x : Evaluation α) (f : α → Evaluation β) :
    (x >>= f).runFrom m =
      match x.runFrom m with
      | (.ok a, k) => (f a).runFrom k
      | (.error err, k) => (.error err, k) := by
  simp only [runFrom, ExceptT.run_bind, StateT.run_bind]
  rcases x.run.run m with ⟨_ | _, k⟩ <;> rfl

@[simp]
theorem runFrom_throw (err : Fault) : (throw err : Evaluation α).runFrom m = (.error err, m) := rfl

@[simp]
theorem runFrom_get : (get : Evaluation Memory).runFrom m = (.ok m, m) := rfl

@[simp]
theorem runFrom_set (k : Memory) : (set k : Evaluation PUnit).runFrom m = (.ok ⟨⟩, k) := rfl

@[simp]
theorem runFrom_modify (f : Memory → Memory) :
    (modify f : Evaluation PUnit).runFrom m = (.ok ⟨⟩, f m) := rfl

@[simp]
theorem runFrom_lift (x : Except Fault α) : (liftM x : Evaluation α).runFrom m = (x, m) := by
  cases x <;> rfl

theorem runFrom_bind_ok {x : Evaluation α} {k : Memory} {a : α} (h : x.runFrom m = (.ok a, k))
    (f : α → Evaluation β) : (x >>= f).runFrom m = (f a).runFrom k := by
  rw [runFrom_bind, h]

theorem runFrom_bind_error {x : Evaluation α} {k : Memory} {err : Fault}
    (h : x.runFrom m = (.error err, k)) (f : α → Evaluation β) :
    (x >>= f).runFrom m = (.error err, k) := by
  rw [runFrom_bind, h]

end Evaluation

end FlatCircuit
