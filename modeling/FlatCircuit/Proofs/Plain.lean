import FlatCircuit.Proofs.Naming

namespace FlatCircuit

mutual

def Expr.isKnown : Expr → Bool
  | .lit _ | .var _ => true
  | .bin op l r => decide (op ≠ .blank) && l.isKnown && r.isKnown
  | .pow b e => b.isKnown && e.isKnown
  | .ite c x y => c.isKnown && x.isKnown && y.isKnown
  | .hole => false

def Condition.isKnown : Condition → Bool
  | .less l r => l.isKnown && r.isKnown
  | .hole => false

end

theorem Expr.isKnown_of_isAtom {e : Expr} (h : e.isAtom = true) : e.isKnown = true := by
  cases e <;> first | rfl | cases h

theorem Expr.hole?_eq_none_of_isKnown {e : Expr} (h : e.isKnown = true) : e.hole? = none := by
  induction e with
  | lit | var => rfl
  | bin op l r ihl ihr =>
    simp only [isKnown, Bool.and_eq_true] at h
    rw [hole?, ihl h.1.2, ihr h.2]
    rfl
  | pow b e ihb ihe =>
    simp only [isKnown, Bool.and_eq_true] at h
    rw [hole?, ihb h.1, ihe h.2]
    rfl
  | less l r x y ihl ihr ihx ihy =>
    simp only [isKnown, Condition.isKnown, Bool.and_eq_true] at h
    rw [hole?, Condition.hole?, ihl h.1.1.1, ihr h.1.1.2, ihx h.1.2, ihy h.2]
    rfl
  | untested | hole => cases h

def Expr.IsPlain (e : Expr) : Prop :=
  e.isKnown = true ∧ ∀ x ∈ e.variables, Name.IsPlain x

instance (e : Expr) : Decidable e.IsPlain :=
  inferInstanceAs (Decidable (_ ∧ _))

def Definition.IsPlain : Definition → Prop
  | .assign x e => Name.IsPlain x ∧ e.IsPlain
  | .ret e => e.IsPlain
  | .hole => False

instance (d : Definition) : Decidable d.IsPlain :=
  match d with
  | .assign x e => inferInstanceAs (Decidable (Name.IsPlain x ∧ e.IsPlain))
  | .ret e => inferInstanceAs (Decidable e.IsPlain)
  | .hole => inferInstanceAs (Decidable False)

structure Program.IsPlain (p : Program) : Prop where
  parameters : ∀ x ∈ p.parameters, Name.IsPlain x
  definitions : ∀ d ∈ p.definitions, d.IsPlain

end FlatCircuit
