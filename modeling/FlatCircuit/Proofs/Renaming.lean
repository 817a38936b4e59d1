import FlatCircuit.Lowering.Error
import FlatCircuit.Proofs.Contract.Numbering

namespace FlatCircuit

mutual

def Expr.rename (ρ : String → String) : Expr → Expr
  | .lit n => .lit n
  | .var x => .var (ρ x)
  | .bin op l r => .bin op (l.rename ρ) (r.rename ρ)
  | .pow b e => .pow (b.rename ρ) (e.rename ρ)
  | .ite c x y => .ite (c.rename ρ) (x.rename ρ) (y.rename ρ)
  | .hole => .hole

def Condition.rename (ρ : String → String) : Condition → Condition
  | .less l r => .less (l.rename ρ) (r.rename ρ)
  | .hole => .hole

end

def Definition.rename (ρ : String → String) : Definition → Definition
  | .assign x e => .assign (ρ x) (e.rename ρ)
  | .ret e => .ret (e.rename ρ)
  | .hole => .hole

def Unsupported.rename (ρ : String → String) : Unsupported → Unsupported
  | .exponent e => .exponent (e.rename ρ)
  | .base e => .base (e.rename ρ)
  | .condition => .condition
  | .range a b => .range a b
  | .expression => .expression

def LoweringError.rename (ρ : String → String) : LoweringError → LoweringError
  | .unsupported cause => .unsupported (cause.rename ρ)
  | .hole h quoted => .hole h (quoted.rename ρ)

def LoweringError.variables : LoweringError → List String
  | .unsupported (.exponent e) | .unsupported (.base e) | .hole _ e => e.variables
  | _ => []

section Expressions

variable {ρ σ : String → String}

theorem Expr.rename_congr {e : Expr} (h : ∀ x ∈ e.variables, ρ x = σ x) : e.rename ρ = e.rename σ := by
  induction e with
  | lit | hole => rfl
  | var x => rw [rename, rename, h x List.mem_cons_self]
  | bin op l r ihl ihr =>
    rw [Expr.variables, List.forall_mem_append] at h
    rw [rename, rename, ihl h.1, ihr h.2]
  | pow b e ihb ihe =>
    rw [Expr.variables, List.forall_mem_append] at h
    rw [rename, rename, ihb h.1, ihe h.2]
  | less l r x y ihl ihr ihx ihy =>
    simp only [Expr.variables, Condition.variables, List.forall_mem_append] at h
    obtain ⟨⟨⟨hl, hr⟩, hx⟩, hy⟩ := h
    simp only [rename, Condition.rename, ihl hl, ihr hr, ihx hx, ihy hy]
  | untested x y ihx ihy =>
    simp only [Expr.variables, Condition.variables, List.nil_append, List.forall_mem_append] at h
    simp only [rename, Condition.rename, ihx h.1, ihy h.2]

theorem Expr.rename_id (e : Expr) : e.rename id = e := by
  induction e with
  | lit | var | hole => rfl
  | bin op l r ihl ihr => rw [rename, ihl, ihr]
  | pow b e ihb ihe => rw [rename, ihb, ihe]
  | less l r x y ihl ihr ihx ihy => simp only [rename, Condition.rename, ihl, ihr, ihx, ihy]
  | untested x y ihx ihy => simp only [rename, Condition.rename, ihx, ihy]

theorem Expr.rename_eq_self {e : Expr} (h : ∀ x ∈ e.variables, ρ x = x) : e.rename ρ = e :=
  (rename_congr h).trans e.rename_id

theorem LoweringError.rename_eq_self {err : LoweringError} (h : ∀ x ∈ err.variables, ρ x = x) :
    err.rename ρ = err := by
  rcases err with (e | e | _ | _ | _) | ⟨_, e⟩
  · rw [rename, Unsupported.rename, Expr.rename_eq_self h]
  · rw [rename, Unsupported.rename, Expr.rename_eq_self h]
  · rfl
  · rfl
  · rfl
  · rw [rename, Expr.rename_eq_self h]

theorem Expr.isAtom_rename (e : Expr) : (e.rename ρ).isAtom = e.isAtom := by
  cases e <;> rfl

theorem Expr.hole?_rename (e : Expr) : (e.rename ρ).hole? = e.hole? := by
  induction e with
  | lit | var | hole => rfl
  | bin op l r ihl ihr => rw [rename, hole?, hole?, ihl, ihr]
  | pow b e ihb ihe => rw [rename, hole?, hole?, ihb, ihe]
  | less l r x y ihl ihr ihx ihy => simp only [rename, Condition.rename, hole?, Condition.hole?, ihl, ihr, ihx, ihy]
  | untested x y ihx ihy => simp only [rename, Condition.rename, hole?, Condition.hole?, ihx, ihy]

end Expressions

namespace Bits

variable {ρ : String → String} {x : String}

theorem rename_weighted (h : ∀ i : Nat, ρ (Name.bit x i) = Name.bit (ρ x) i) (i : Nat) :
    (weighted x i).rename ρ = weighted (ρ x) i := by
  induction i with
  | zero => exact congrArg Expr.var (h 0)
  | succ i ih => rw [weighted, weighted, Expr.rename, Expr.rename, Expr.rename, Expr.rename, ih, h]

theorem map_rename_constraints (h : ∀ i : Nat, ρ (Name.bit x i) = Name.bit (ρ x) i) :
    (constraints x).map (Definition.rename ρ) = constraints (ρ x) := by
  have hbits : ((names x).map bitConstraint).map (Definition.rename ρ) = (names (ρ x)).map bitConstraint := by
    simp only [names, List.map_map]
    apply List.map_congr_left
    intro i _
    simp only [Function.comp_apply, bitConstraint, Definition.rename, Expr.rename, h]
  have hsum : (Definition.assign x (weightedSum x)).rename ρ = .assign (ρ x) (weightedSum (ρ x)) :=
    congrArg (Definition.assign (ρ x)) (rename_weighted h (width - 1))
  rw [constraints, List.map_append, hbits, List.map_singleton, hsum]
  rfl

end Bits

namespace Name

/-- The temporaries from `m` on and their bits go to those from `n` on, in their order. -/
structure Moves (ρ : String → String) (m n : Nat) : Prop where
  temporary (j : Nat) : ρ (Name.temporary (m + j : Nat)) = Name.temporary (n + j : Nat)
  bit (j i : Nat) : ρ (Name.bit (Name.temporary (m + j : Nat)) i) = Name.bit (Name.temporary (n + j : Nat)) i

def shiftNumber (m n k : Nat) : Nat :=
  if m ≤ k then k - m + n else k

def shift (m n : Nat) (x : String) : String :=
  match number? x with
  | some k => temporary (shiftNumber m n k)
  | none =>
    match splitBit? x with
    | some (owner, index) =>
      match number? owner with
      | some k => temporary (shiftNumber m n k) ++ "_b" ++ .ofList index
      | none => x
    | none => x

theorem number?_eq_none_of_isPlain {x : String} (h : IsPlain x) : number? x = none := by
  apply number?_eq_none
  rintro n rfl
  exact not_isPlain_temporary n h

theorem shift_of_isPlain {x : String} (h : IsPlain x) (m n : Nat) : shift m n x = x := by
  rw [shift, number?_eq_none_of_isPlain h, splitBit?_eq_none_of_isPlain h]

theorem moves_shift (m n : Nat) : Moves (shift m n) m n := by
  have hnumber : ∀ j, shiftNumber m n (m + j) = n + j := by
    intro j
    rw [shiftNumber, if_pos (Nat.le_add_right m j)]
    omega
  constructor
  · intro j
    rw [shift, number?_temporary]
    exact congrArg (fun k : Nat => temporary k) (hnumber j)
  · intro j i
    have hnone : number? (Name.bit (temporary (m + j : Nat)) i) = none :=
      number?_eq_none fun k h => temporary_ne_bit k _ i h.symm
    rw [shift, hnone, splitBit?_bit (temporary_ne_empty _)]
    simp only [number?_temporary, hnumber]
    apply String.toList_inj.mp
    rw [toList_bit]
    simp

def onPlain (r : String → String) (x : String) : String :=
  if IsPlain x then r x else x

theorem onPlain_of_isPlain {x : String} (h : IsPlain x) (r : String → String) : onPlain r x = r x :=
  if_pos h

theorem moves_onPlain (r : String → String) (n : Nat) : Moves (onPlain r) n n where
  temporary j := if_neg (not_isPlain_temporary (n + j))
  bit _ i := if_neg (not_isPlain_bit _ i)

end Name

end FlatCircuit
