import Mathlib.Logic.Function.Iterate
import FlatCircuit.Proofs.Lowering.Derivation

/-! Lowering as a recursion that re-enters itself: a choice goes on with the sum of products that it stands
for, and a power with the power below it. The expressions that it goes on with need not be parts of the one
that it is at, but they are lighter, so the recursion ends, and what it gives is what lowering gives. -/

namespace FlatCircuit

namespace Lowering

section Laws

variable {α β γ : Type}

theorem pure_bind (a : α) (f : α → Lowering β) : (Pure.pure a >>= f) = f a := rfl

theorem bind_assoc (x : Lowering α) (f : α → Lowering β) (g : β → Lowering γ) :
    x >>= f >>= g = x >>= fun a => f a >>= g := by
  funext n
  simp only [bind_apply]
  cases (x n).value with
  | error => rfl
  | ok a =>
    cases hf : (f a (x n).next).value with
    | error => simp only [hf]
    | ok b => simp only [hf, List.append_assoc]

theorem bind_congr {x : Lowering α} {f g : α → Lowering β}
    (h : ∀ n ds m a, x n = ⟨ds, m, .ok a⟩ → f a = g a) : x >>= f = x >>= g := by
  funext n
  rcases hx : x n with ⟨ds, m, err | a⟩
  · rw [bind_error hx, bind_error hx]
  · rw [bind_ok hx, bind_ok hx, h n ds m a hx]

end Laws

def below (go : Expr → Lowering Expr) (b : Expr) (k : Int) : Lowering Expr :=
  if k = 2 then return .bin .mul b b
  else do
    let product ← go (.pow b (.lit (k - 1)))
    return .bin .mul (.var (← store product)) b

def reenterPower (strict : Bool) (go : Expr → Lowering Expr) (b e : Expr) : Lowering Expr :=
  match e with
  | .lit k =>
    if k ≤ 1 then reject (.exponent (.pow b e)) (.pow b e)
    else
      match b with
      | .var _ => below go b k
      | .lit _ => if strict then below go b k else return .bin .mul b b
      | _ => reject (.base (.pow b e)) (.pow b e)
  | _ => reject (.exponent (.pow b e)) (.pow b e)

def reenterCondition (go : Expr → Lowering Expr) : Condition → Lowering Expr
  | .less l r => do
    let l ← go l
    let r ← go r
    compare l r
  | .hole => fail (.unsupported .condition)

def reenter (strict : Bool) (go : Expr → Lowering Expr) : Expr → Lowering Expr
  | .lit n => return .lit n
  | .var x => return .var x
  | .bin op l r =>
    if (Expr.bin op l r).isFlat then return .bin op l r
    else do
      let l ← go l
      let r ← go r
      return .bin op (← operand l) (← operand r)
  | .pow b e => reenterPower strict go b e
  | .ite c x y => do
    let t ← reenterCondition go c
    go (.select t x y)
  | .hole => fail (.unsupported .expression)

section Equation

variable {strict : Bool} {go : Expr → Lowering Expr} {b : Expr} {k : Int}

theorem multiply_succ (b : Expr) (j : Nat) (product : Expr) :
    multiply b (j + 1) product =
      multiply b j product >>= fun f => do return .bin .mul (.var (← store f)) b := by
  induction j generalizing product with
  | zero => rfl
  | succ j ih =>
    rw [multiply, multiply, bind_assoc]
    exact bind_congr fun _ _ _ x _ => ih _

theorem chain_eq_below (hgo : ∀ k, 1 < k → go (.pow b (.lit k)) = chain b k) (hk : 1 < k) :
    chain b k = below go b k := by
  unfold below
  split
  · next h =>
    rw [h]
    rfl
  · next h =>
    have hj : (k - 2).toNat = (k - 1 - 2).toNat + 1 := by omega
    rw [hgo (k - 1) (by omega), chain, chain, hj, multiply_succ]

theorem power_var (x : String) (hk : 1 < k) : power strict (.var x) (.lit k) = chain (.var x) k :=
  if_neg (Int.not_le.mpr hk)

theorem power_lit (a : Int) (hk : 1 < k) : power true (.lit a) (.lit k) = chain (.lit a) k :=
  if_neg (Int.not_le.mpr hk)

theorem power_eq_reenterPower (b e : Expr) :
    power strict b e = reenterPower strict (Expr.lower strict) b e := by
  cases e with
  | lit k =>
    by_cases hk : k ≤ 1
    · simp only [power, reenterPower, if_pos hk]
    · simp only [power, reenterPower, if_neg hk]
      have hk : 1 < k := Int.not_le.mp hk
      cases b with
      | var x => exact chain_eq_below (fun _ => power_var x) hk
      | lit a =>
        cases strict with
        | true => exact chain_eq_below (fun _ => power_lit a) hk
        | false => rfl
      | bin | pow | ite | hole => rfl
  | var | bin | pow | ite | hole => rfl

theorem lower_select (s : String) (x y : Expr) :
    (Expr.select (.var s) x y).lower strict = do
      let chosen := .bin .mul (.var s) (← operand (← x.lower strict))
      let y ← y.lower strict
      let other := .bin .mul (← operand (.bin .sub (.lit 1) (.var s))) (← operand y)
      return .bin .add (← operand chosen) (← operand other) := by
  have hs : operand (.var s) = Pure.pure (.var s) := rfl
  have hone : operand (.lit 1) = Pure.pure (.lit 1) := rfl
  simp only [Expr.select, Expr.lower, pure_bind, bind_assoc, hs, hone]

theorem lower_eq_reenterCondition (c : Condition) :
    c.lower strict = reenterCondition (Expr.lower strict) c := by
  cases c <;> rfl

theorem exists_sign_of_reenterCondition {c : Condition} {n m : Nat} {ds : List Definition} {t : Expr}
    (h : reenterCondition go c n = ⟨ds, m, .ok t⟩) : ∃ s, t = .var s := by
  cases c with
  | less l r =>
    obtain ⟨_, _, _, _, _, h, _⟩ := bind_eq_ok h
    obtain ⟨_, _, _, _, _, h, _⟩ := bind_eq_ok h
    exact ⟨_, (compare_eq_ok h).2.2⟩
  | hole => cases h

theorem lower_eq_reenter (strict : Bool) (e : Expr) :
    e.lower strict = reenter strict (Expr.lower strict) e := by
  cases e with
  | lit n => rfl
  | var x => rfl
  | bin op l r =>
    cases hf : (Expr.bin op l r).isFlat with
    | true =>
      rw [reenter, if_pos hf]
      exact funext fun n => lower_of_isFlat hf n
    | false =>
      rw [reenter, hf]
      rfl
  | pow b e => exact power_eq_reenterPower b e
  | ite c x y =>
    rw [reenter, Expr.lower, lower_eq_reenterCondition]
    refine bind_congr fun n ds m t ht => ?_
    obtain ⟨s, rfl⟩ := exists_sign_of_reenterCondition ht
    exact (lower_select s x y).symm
  | hole => rfl

end Equation

end Lowering

mutual

/-- A measure that decreases wherever lowering re-enters itself. -/
def Expr.weight : Expr → Nat
  | .lit _ | .var _ | .hole => 0
  | .bin _ l r => l.weight + r.weight + 1
  | .pow _ (.lit k) => k.toNat
  | .pow _ _ => 0
  | .ite c x y => c.weight + x.weight + y.weight + 5

def Condition.weight : Condition → Nat
  | .less l r => l.weight + r.weight
  | .hole => 0

end

theorem Expr.weight_select (s : String) (x y : Expr) :
    (Expr.select (.var s) x y).weight = x.weight + y.weight + 4 := by
  simp only [select, weight]
  omega

namespace Lowering

variable {strict : Bool} {go go' : Expr → Lowering Expr} {b e x y : Expr} {c : Condition} {k : Int}

theorem below_congr (hk : 1 < k) (h : ∀ a : Expr, a.weight < (Expr.pow b (.lit k)).weight → go a = go' a) :
    below go b k = below go' b k := by
  have hw : (Expr.pow b (.lit (k - 1))).weight < (Expr.pow b (.lit k)).weight := by
    simp only [Expr.weight]
    omega
  rw [below, below, h _ hw]

theorem reenterPower_congr (h : ∀ a : Expr, a.weight < (Expr.pow b e).weight → go a = go' a) :
    reenterPower strict go b e = reenterPower strict go' b e := by
  cases e with
  | lit k =>
    by_cases hk : k ≤ 1
    · simp only [reenterPower, if_pos hk]
    · have hbelow := below_congr (Int.not_le.mp hk) h
      cases b with
      | var | lit => simp only [reenterPower, hbelow]
      | bin | pow | ite | hole => rfl
  | var | bin | pow | ite | hole => rfl

theorem reenterCondition_congr (h : ∀ a : Expr, a.weight < (Expr.ite c x y).weight → go a = go' a) :
    reenterCondition go c = reenterCondition go' c := by
  cases c with
  | less l r =>
    simp only [Expr.weight, Condition.weight] at h
    rw [reenterCondition, reenterCondition, h l (by omega), h r (by omega)]
  | hole => rfl

theorem reenter_congr (h : ∀ a : Expr, a.weight < e.weight → go a = go' a) :
    reenter strict go e = reenter strict go' e := by
  cases e with
  | lit | var | hole => rfl
  | bin op l r =>
    simp only [Expr.weight] at h
    simp only [reenter, h l (by omega), h r (by omega)]
  | pow b e => exact reenterPower_congr h
  | ite c x y =>
    rw [reenter, reenter, reenterCondition_congr h]
    refine bind_congr fun n ds m t ht => ?_
    obtain ⟨s, rfl⟩ := exists_sign_of_reenterCondition ht
    refine h _ ?_
    rw [Expr.weight_select]
    simp only [Expr.weight]
    omega

theorem iterate_reenter {depth : Nat} (h : e.weight < depth) (go : Expr → Lowering Expr) :
    (reenter strict)^[depth] go e = e.lower strict := by
  induction depth generalizing e with
  | zero => cases h
  | succ depth ih =>
    rw [Function.iterate_succ_apply', lower_eq_reenter]
    exact reenter_congr fun a ha => ih (by omega)

end Lowering

end FlatCircuit
