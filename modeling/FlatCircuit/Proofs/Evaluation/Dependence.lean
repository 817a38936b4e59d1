import FlatCircuit.Proofs.Evaluation.Settled

namespace FlatCircuit

def Memory.Shares (m k : Memory) (x : String) : Prop :=
  ∃ v, m[x]? = some v ∧ k[x]? = some v

namespace Evaluation

variable {α β : Type} {x : Evaluation α} {f : α → Evaluation β} {m k : Memory}

def Coincides (x : Evaluation α) (m k : Memory) : Prop :=
  ∃ r, x.runFrom m = (r, m) ∧ x.runFrom k = (r, k)

theorem coincides_pure (a : α) : Coincides (pure a) m k :=
  ⟨.ok a, rfl, rfl⟩

theorem coincides_throw (err : Fault) : Coincides (throw err : Evaluation α) m k :=
  ⟨.error err, rfl, rfl⟩

theorem coincides_liftM (r : Except Fault α) : Coincides (liftM r : Evaluation α) m k :=
  ⟨r, runFrom_lift m r, runFrom_lift k r⟩

theorem Coincides.bind (hx : Coincides x m k) (hf : ∀ a, Coincides (f a) m k) : Coincides (x >>= f) m k := by
  obtain ⟨r, hm, hk⟩ := hx
  cases r with
  | ok a =>
    obtain ⟨s, hm', hk'⟩ := hf a
    exact ⟨s, (runFrom_bind_ok m hm f).trans hm', (runFrom_bind_ok k hk f).trans hk'⟩
  | error err => exact ⟨.error err, runFrom_bind_error m hm f, runFrom_bind_error k hk f⟩

theorem coincides_lookup {y : String} (h : m.Shares k y) : Coincides (lookup y) m k := by
  obtain ⟨v, hm, hk⟩ := h
  exact ⟨.ok v, runFrom_lookup hm, runFrom_lookup hk⟩

theorem coincides_less {l r : Expr} (hl : Coincides l.eval m k) (hr : Coincides r.eval m k) :
    Coincides (Condition.less l r).eval m k :=
  hl.bind fun _ => hr.bind fun _ => coincides_pure _

theorem coincides_eval {e : Expr} (h : ∀ y ∈ e.variables, m.Shares k y) : Coincides e.eval m k := by
  induction e with
  | lit n => exact coincides_pure n
  | var y => exact coincides_lookup (h y List.mem_cons_self)
  | bin op l r ihl ihr =>
    rw [Expr.variables, List.forall_mem_append] at h
    by_cases hop : op = .blank
    · subst hop
      exact coincides_throw .blankOperator
    · rw [Expr.eval_bin hop]
      exact (ihl h.1).bind fun _ => (ihr h.2).bind fun _ => coincides_liftM _
  | pow b e ihb ihe =>
    rw [Expr.variables, List.forall_mem_append] at h
    exact (ihb h.1).bind fun _ => (ihe h.2).bind fun _ => coincides_liftM _
  | less l r x y ihl ihr ihx ihy =>
    simp only [Expr.variables, Condition.variables, List.forall_mem_append] at h
    obtain ⟨⟨⟨hl, hr⟩, hx⟩, hy⟩ := h
    refine (coincides_less (ihl hl) (ihr hr)).bind fun _ => ?_
    exact (ihx hx).bind fun _ => (ihy hy).bind fun _ => coincides_pure _
  | untested x y _ _ =>
    -- a missing condition fails before the branches are evaluated
    exact ⟨.error (.hole .condition), rfl, rfl⟩
  | hole => exact coincides_throw (.hole .expression)

end Evaluation

open Evaluation

namespace Expr

/-- In memories that bind the names that an expression reads, and bind them to the same values, it evaluates to
the same value or ends in the same fault, whatever else they bind and whatever their witnesses are. The
memories are left as they are. -/
theorem eval_eq_of_shared (e : Expr) (m k : Memory)
    (h : ∀ x ∈ e.variables, ∃ v, m[x]? = some v ∧ k[x]? = some v) :
    ∃ r, e.eval.runFrom m = (r, m) ∧ e.eval.runFrom k = (r, k) :=
  coincides_eval h

theorem eval_eq_of_shared_division :
    let e : Expr := .ite (.less (.var "x") (.var "d_b0")) (.bin .div (.var "x") (.var "y")) (.bin .blank .hole (.lit 2))
    let m := (((Memory.empty.assign "x" 7).assign "y" 2).assign "d" 5).supply "d" 5
    let k := ((Memory.empty.assign "x" 7).assign "y" 2).assign "d_b0" 1
    (∀ x ∈ e.variables, ∃ v, m[x]? = some v ∧ k[x]? = some v) ∧
      e.eval.runFrom k = (.error (.inexactDivision 7 2), k) := by
  intro e m k
  have h : ∀ x ∈ e.variables, ∃ v, m[x]? = some v ∧ k[x]? = some v := by decide
  obtain ⟨r, hm, hk⟩ := eval_eq_of_shared e m k h
  have hr : r = .error (.inexactDivision 7 2) := (congrArg Prod.fst hm).symm
  exact ⟨h, hr ▸ hk⟩

end Expr

end FlatCircuit
