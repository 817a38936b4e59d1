import FlatCircuit.Proofs.Lowering.Twice

namespace FlatCircuit

open Lowering

namespace Definition

def isChoiceless : Definition → Bool
  | .assign _ e | .ret e => e.isChoiceless
  | .hole => true

end Definition

theorem Expr.isChoiceless_of_isFlat {e : Expr} (h : e.isFlat = true) : e.isChoiceless = true := by
  cases e with
  | bin op l r =>
    obtain ⟨hl, hr⟩ := Bool.and_eq_true_iff.mp h
    exact Bool.and_eq_true_iff.mpr ⟨isChoiceless_of_isAtom hl, isChoiceless_of_isAtom hr⟩
  | lit | var => rfl
  | pow | ite | hole => cases h

theorem Bits.isChoiceless_weighted (x : String) (i : Nat) : (weighted x i).isChoiceless = true := by
  induction i with
  | zero => rfl
  | succ i ih => exact ih

theorem Piece.isChoiceless_of_isFlat {p : Piece} (h : p.isFlat = true) :
    ∀ d ∈ p.definitions, d.isChoiceless = true := by
  cases p with
  | single d =>
    refine List.forall_mem_singleton.mpr ?_
    cases d with
    | assign x e | ret e => exact Expr.isChoiceless_of_isFlat h
    | hole => rfl
  | group x l r =>
    have hhead : (Expr.bin .sub l r).isChoiceless = true := Expr.isChoiceless_of_isFlat h
    exact forall_mem_group.mpr ⟨hhead, fun _ _ => rfl, Bits.isChoiceless_weighted x _⟩

namespace Lowering

variable {strict : Bool} {e f : Expr} {n m : Nat} {xs ds : List Definition}

theorem Lowers.isChoiceless (h : Lowers strict e n ds m f) : ∀ d ∈ ds, d.isChoiceless = true := by
  obtain ⟨ps, rfl, hc, _⟩ := h.emits
  intro d hd
  obtain ⟨p, hp, hd⟩ := List.mem_flatMap.mp hd
  exact Piece.isChoiceless_of_isFlat (hc.flat p hp) d hd

theorem Lowers.isFlat_iff_isChoiceless (h : Lowers strict e n ds m f) :
    (∀ d ∈ ds, d.isFlat = true) ↔ e.isChoiceless = true := by
  refine ⟨fun hf => ?_, h.isFlat_of_isChoiceless⟩
  induction h with
  | atom ha => exact Expr.isChoiceless_of_isAtom ha
  | operation _ _ _ _ _ ihl ihr =>
    simp only [List.forall_mem_append] at hf
    exact Bool.and_eq_true_iff.mpr ⟨ihl hf.1.1.1, ihr hf.1.1.2⟩
  | literalPower => rfl
  | square hb => exact Bool.and_eq_true_iff.mpr ⟨Expr.isChoiceless_of_isAtom hb.isAtom, rfl⟩
  | power hb => exact Bool.and_eq_true_iff.mpr ⟨Expr.isChoiceless_of_isAtom hb.isAtom, rfl⟩
  | @choice l r l' r' x y f n n₁ n₂ m _ _ _ _ _ _ _ _ _ =>
    let t := Name.temporary (n₂ + 2 : Nat)
    have hsum : (Definition.assign t (Bits.weightedSum t)).isFlat = true := by
      refine hf _ (List.mem_append_left _ (List.mem_append_right _ ?_))
      simp [comparison, Bits.constraints, t]
    cases hsum

theorem LowersAll.isChoiceless (h : LowersAll strict xs n ds m) : ∀ d ∈ ds, d.isChoiceless = true := by
  induction h with
  | nil => exact fun _ hd => absurd hd List.not_mem_nil
  | assign he _ ih =>
    refine List.forall_mem_append.mpr ⟨he.isChoiceless, List.forall_mem_cons.mpr ⟨?_, ih⟩⟩
    exact Expr.isChoiceless_of_isFlat he.isFlat
  | ret he _ ih =>
    refine List.forall_mem_append.mpr ⟨he.isChoiceless, List.forall_mem_cons.mpr ⟨?_, ih⟩⟩
    exact Expr.isChoiceless_of_isFlat he.isFlat
  | hole _ ih => exact ih

theorem LowersAll.isFlat_iff_isChoiceless (h : LowersAll strict xs n ds m) :
    (∀ d ∈ ds, d.isFlat = true) ↔ ∀ d ∈ xs, d.isChoiceless = true := by
  induction h with
  | nil => simp
  | @assign x e f n k m ds es fs he _ ih =>
    have hf : (Definition.assign x f).isFlat = true := he.isFlat
    rw [List.forall_mem_append, List.forall_mem_cons, List.forall_mem_cons, he.isFlat_iff_isChoiceless, ih]
    exact and_congr Iff.rfl (and_iff_right hf)
  | @ret e f n k m ds es fs he _ ih =>
    have hf : (Definition.ret f).isFlat = true := he.isFlat
    rw [List.forall_mem_append, List.forall_mem_cons, List.forall_mem_cons, he.isFlat_iff_isChoiceless, ih]
    exact and_congr Iff.rfl (and_iff_right hf)
  | hole _ ih =>
    rw [List.forall_mem_cons, ih]
    exact (and_iff_right rfl).symm

end Lowering

namespace Program

variable {strict : Bool} {p q : Program}

theorem lower_of_isFlat (h : ∀ d ∈ p.definitions, d.isFlat = true) : p.lower strict = .ok p := by
  have hl : p.emission strict = ⟨p.definitions, 0, .ok ()⟩ := lowersTo_of_isFlat h 0
  rw [lower, hl]
  rfl

theorem isFlat_iff_of_lower (h : p.lower strict = .ok q) :
    (∀ d ∈ q.definitions, d.isFlat = true) ↔ ∀ d ∈ p.definitions, d.isChoiceless = true := by
  obtain ⟨ds, m, hl, rfl⟩ := lowersAll_of_lower h
  exact hl.isFlat_iff_isChoiceless

theorem isFlat_of_lower_eq_self (h : p.lower strict = .ok p) : ∀ d ∈ p.definitions, d.isFlat = true := by
  refine (isFlat_iff_of_lower h).mpr ?_
  obtain ⟨ds, m, hl, hp⟩ := lowersAll_of_lower h
  rw [hp]
  exact hl.isChoiceless

/-- Lowering leaves a program as it is just when all of its definitions are flat, and it leaves a flat form as
it is just when it was made from a program without choices. -/
theorem lower_eq_self_iff (strict : Bool) (p : Program) :
    (p.lower strict = .ok p ↔ ∀ d ∈ p.definitions, d.isFlat = true) ∧
    ∀ q, p.lower strict = .ok q →
      ∀ again, q.lower again = .ok q ↔ ∀ d ∈ p.definitions, d.isChoiceless = true := by
  refine ⟨⟨isFlat_of_lower_eq_self, lower_of_isFlat⟩, fun q hq again => ?_⟩
  rw [← isFlat_iff_of_lower hq]
  exact ⟨isFlat_of_lower_eq_self, lower_of_isFlat⟩

theorem lower_eq_self_iff_clamp :
    let p : Program := ⟨"f", ["x"], [
      .assign "y" (.ite (.less (.var "x") (.lit 3)) (.var "x") (.lit 7)), .hole,
      .ret (.pow (.var "y") (.lit 3))]⟩
    ∃ q, p.lower false = .ok q ∧ q.lower false ≠ .ok q := by
  intro p
  have hok : (p.lower false).isOk = true := by decide +kernel
  cases h : p.lower false with
  | error => simp [h, Except.isOk, Except.toBool] at hok
  | ok q =>
    refine ⟨q, rfl, fun hq => ?_⟩
    exact absurd (((lower_eq_self_iff false p).2 q h false).mp hq) (by decide)

end Program

end FlatCircuit
