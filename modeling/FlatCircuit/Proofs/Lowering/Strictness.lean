import Mathlib.Algebra.GroupWithZero.Nat
import Mathlib.Algebra.Order.BigOperators.Group.List
import Mathlib.Algebra.Order.Group.Nat
import FlatCircuit.Proofs.Evaluation.Reading
import FlatCircuit.Proofs.Lowering.Cost
import FlatCircuit.Proofs.Lowering.Offences

namespace FlatCircuit

namespace Lowering

variable {α β γ δ : Type} {x : Lowering α} {y : Lowering β} {f : α → Lowering γ} {g : β → Lowering δ}

inductive Agree : Emission α → Emission β → Prop
  | ok {ds es : List Definition} {n m : Nat} {a : α} {b : β} : Agree ⟨ds, n, .ok a⟩ ⟨es, m, .ok b⟩
  | error {ds es : List Definition} {n m : Nat} {err : LoweringError} :
      Agree ⟨ds, n, .error err⟩ ⟨es, m, .error err⟩

def Concurs (x : Lowering α) (y : Lowering β) : Prop :=
  ∀ n m, Agree (x n) (y m)

theorem Concurs.bind (h : Concurs x y)
    (hf : ∀ n ds k a m es i b, x n = ⟨ds, k, .ok a⟩ → y m = ⟨es, i, .ok b⟩ → Concurs (f a) (g b)) :
    Concurs (x >>= f) (y >>= g) := by
  intro n m
  have hxy := h n m
  generalize hx : x n = r at hxy
  generalize hy : y m = s at hxy
  cases hxy with
  | @ok ds es k i a b =>
    rw [bind_ok hx, bind_ok hy]
    have hab := hf n ds k a m es i b hx hy k i
    generalize f a k = r at hab
    generalize g b i = s at hab
    cases hab with
    | ok => exact .ok
    | error => exact .error
  | error =>
    rw [bind_error hx, bind_error hy]
    exact .error

theorem Concurs.then (h : Concurs x y) (hf : ∀ a b, Concurs (f a) (g b)) :
    Concurs (x >>= f) (y >>= g) :=
  h.bind fun _ _ _ a _ _ _ b _ _ => hf a b

theorem concurs_pure (a : α) (b : β) : Concurs (Pure.pure a) (Pure.pure b) :=
  fun _ _ => .ok

theorem concurs_emit (ds es : List Definition) : Concurs (emit ds) (emit es) :=
  fun _ _ => .ok

theorem concurs_fail (err : LoweringError) : Concurs (fail err : Lowering α) (fail err : Lowering β) :=
  fun _ _ => .error

theorem Stops.concurs {o : Option Unsupported} (hx : Stops x o) (hy : Stops y o) : Concurs x y := by
  intro n m
  cases o with
  | none =>
    obtain ⟨ds, k, a, h⟩ := hx n
    obtain ⟨es, i, b, h'⟩ := hy m
    rw [h, h']
    exact .ok
  | some cause =>
    obtain ⟨ds, k, h⟩ := hx n
    obtain ⟨es, i, h'⟩ := hy m
    rw [h, h']
    exact .error

theorem concurs_operand (e f : Expr) : Concurs (operand e) (operand f) :=
  (stops_operand e).concurs (stops_operand f)

theorem concurs_power (b e : Expr) : Concurs (power true b e) (power false b e) := by
  cases e with
  | lit k =>
    by_cases hk : k ≤ 1
    · simp only [power, if_pos hk]
      exact concurs_fail _
    · simp only [power, if_neg hk]
      cases b with
      | var x => exact (stops_multiply _ _ _).concurs (stops_multiply _ _ _)
      | lit a => exact (stops_multiply _ _ _).concurs (stops_pure _)
      | bin | pow | ite | hole => exact concurs_fail _
  | var | bin | pow | ite | hole => exact concurs_fail _

theorem concurs_less {l r : Expr} (hl : Concurs (l.lower true) (l.lower false))
    (hr : Concurs (r.lower true) (r.lower false)) :
    Concurs ((Condition.less l r).lower true) ((Condition.less l r).lower false) := by
  refine hl.bind fun _ _ _ l' _ _ _ l'' hl' hl'' => ?_
  refine hr.bind fun _ _ _ r' _ _ _ r'' hr' hr'' => ?_
  have hs := stops_compare l' r'
  have hs' := stops_compare l'' r''
  rw [offence?_difference_of_lowers (lowers_of_lower hl') (lowers_of_lower hr')] at hs
  rw [offence?_difference_of_lowers (lowers_of_lower hl'') (lowers_of_lower hr'')] at hs'
  exact hs.concurs hs'

theorem concurs_lower (e : Expr) : Concurs (e.lower true) (e.lower false) := by
  induction e with
  | lit | var => exact concurs_pure _ _
  | bin op l r ihl ihr =>
    exact ihl.then fun l' l'' => ihr.then fun r' r'' =>
      (concurs_operand l' l'').then fun _ _ => (concurs_operand r' r'').then fun _ _ => concurs_pure _ _
  | pow b e => exact concurs_power b e
  | less l r x y ihl ihr ihx ihy =>
    exact (concurs_less ihl ihr).then fun _ _ => ihx.then fun x' x'' =>
      (concurs_operand x' x'').then fun _ _ => ihy.then fun y' y'' =>
        (concurs_operand _ _).then fun _ _ => (concurs_operand y' y'').then fun _ _ =>
          (concurs_operand _ _).then fun _ _ => (concurs_operand _ _).then fun _ _ => concurs_pure _ _
  | untested x y => exact fun _ _ => .error
  | hole => exact concurs_fail _

theorem concurs_definition (d : Definition) : Concurs (d.lower true) (d.lower false) := by
  cases d with
  | assign _ e | ret e => exact (concurs_lower e).then fun _ _ => concurs_emit _ _
  | hole => exact concurs_pure _ _

theorem concurs_forM (ds : List Definition) :
    Concurs (ds.forM (Definition.lower true)) (ds.forM (Definition.lower false)) := by
  induction ds with
  | nil => exact concurs_pure _ _
  | cons d ds ih => exact (concurs_definition d).then fun _ _ => ih

/-! Without a power of a literal above its square. -/

theorem power_eq_of_raisesLiteral {b e : Expr} (h : (Expr.pow b e).raisesLiteral = false) :
    power true b e = power false b e := by
  cases e with
  | lit k =>
    cases b with
    | lit a =>
      have hk : k ≤ 2 := Int.not_lt.mp (of_decide_eq_false h)
      by_cases hk' : k ≤ 1
      · simp only [power, if_pos hk']
      · obtain rfl : k = 2 := by omega
        rfl
    | var | bin | pow | ite | hole => rfl
  | var | bin | pow | ite | hole => rfl

theorem lower_eq_of_raisesLiteral {e : Expr} (h : e.raisesLiteral = false) :
    e.lower true = e.lower false := by
  induction e with
  | lit | var | hole => rfl
  | bin op l r ihl ihr =>
    obtain ⟨hl, hr⟩ := Bool.or_eq_false_iff.mp h
    simp only [Expr.lower, ihl hl, ihr hr]
  | pow b e => exact power_eq_of_raisesLiteral h
  | less l r x y ihl ihr ihx ihy =>
    simp only [Expr.raisesLiteral, Condition.raisesLiteral, Bool.or_eq_false_iff] at h
    obtain ⟨⟨⟨hl, hr⟩, hx⟩, hy⟩ := h
    simp only [Expr.lower, Condition.lower, ihl hl, ihr hr, ihx hx, ihy hy]
  | untested x y => rfl

theorem definition_lower_eq_of_raisesLiteral {d : Definition} (h : d.raisesLiteral = false) :
    d.lower true = d.lower false := by
  cases d with
  | assign x e | ret e => simp only [Definition.lower, lower_eq_of_raisesLiteral (e := e) h]
  | hole => rfl

theorem forM_eq_of_raisesLiteral {ds : List Definition} (h : ∀ d ∈ ds, d.raisesLiteral = false) :
    ds.forM (Definition.lower true) = ds.forM (Definition.lower false) := by
  induction ds with
  | nil => rfl
  | cons d ds ih =>
    obtain ⟨hd, hds⟩ := List.forall_mem_cons.mp h
    simp only [List.forM_eq_forM, List.forM_cons, definition_lower_eq_of_raisesLiteral hd] at ih ⊢
    rw [ih hds]

end Lowering

/-! With one: the costs of the two ways. -/

theorem Expr.temporaries_le (e : Expr) : e.temporaries false ≤ e.temporaries true := by
  induction e with
  | lit | var | hole => exact Nat.le_refl _
  | bin op l r ihl ihr =>
    simp only [temporaries]
    omega
  | pow b e =>
    cases e with
    | lit k =>
      cases b with
      | lit a => exact Nat.zero_le _
      | var | bin | pow | ite | hole => exact Nat.le_refl _
    | var | bin | pow | ite | hole => exact Nat.le_of_eq (by simp only [temporaries])
  | less l r x y ihl ihr ihx ihy =>
    simp only [temporaries, Condition.temporaries]
    omega
  | untested x y ihx ihy =>
    simp only [temporaries, Condition.temporaries]
    omega

theorem Expr.raisesLiteral_select (s : String) (x y : Expr) :
    (Expr.select (.var s) x y).raisesLiteral = (x.raisesLiteral || y.raisesLiteral) := by
  simp [select, raisesLiteral]

def Definition.cost (strict : Bool) : Definition → Nat
  | .assign _ e | .ret e => e.temporaries strict + 9 * e.choices + 1
  | .hole => 0

theorem Definition.cost_le (d : Definition) : d.cost false ≤ d.cost true := by
  cases d with
  | assign _ e | ret e =>
    have := e.temporaries_le
    simp only [cost]
    omega
  | hole => exact Nat.le_refl _

namespace Lowering

variable {strict : Bool} {e f : Expr} {n m : Nat} {xs ds : List Definition}

theorem Lowers.temporaries_lt (h : Lowers strict e n ds m f) (hp : e.raisesLiteral = true) :
    e.temporaries false < e.temporaries true := by
  induction h with
  | @atom e n ha => cases e <;> first | cases hp | cases ha
  | @operation op l r l' r' a b n n₁ n₂ n₃ n₄ ds₁ ds₂ ds₃ ds₄ _ _ _ _ ihl ihr =>
    have hl := l.temporaries_le
    have hr := r.temporaries_le
    simp only [Expr.temporaries]
    rcases Bool.or_eq_true_iff.mp hp with hp | hp
    · have := ihl hp
      omega
    · have := ihr hp
      omega
  | @literalPower a k n _ hk =>
    have hk : 2 < k := of_decide_eq_true hp
    change 0 < (k - 2).toNat
    omega
  | @square b n hb =>
    cases b with
    | var | lit => cases hp
    | bin | pow | ite | hole => cases hb
  | @power b f k n m ds hb hk _ _ =>
    cases b with
    | var => cases hp
    | lit a =>
      change 0 < (k + 1 - 2).toNat
      omega
    | bin | pow | ite | hole => cases hb
  | @choice l r l' r' x y f n n₁ n₂ m ds₁ ds₂ ds₃ _ _ _ ihl ihr ih =>
    have hl := l.temporaries_le
    have hr := r.temporaries_le
    have hx := x.temporaries_le
    have hy := y.temporaries_le
    -- the powers of both branches are those of the selection
    rw [Expr.temporaries_select, Expr.temporaries_select, Expr.raisesLiteral_select] at ih
    simp only [Expr.raisesLiteral, Condition.raisesLiteral, Bool.or_assoc] at hp
    simp only [Expr.temporaries, Condition.temporaries]
    rcases Bool.or_eq_true_iff.mp hp with hp | hp
    · have := ihl hp
      omega
    rcases Bool.or_eq_true_iff.mp hp with hp | hp
    · have := ihr hp
      omega
    · have := ih hp
      omega

theorem LowersAll.length_eq (h : LowersAll strict xs n ds m) :
    ds.length = (xs.map (Definition.cost strict)).sum := by
  induction h with
  | nil => rfl
  | assign he _ ih | ret he _ ih =>
    have hc := he.cost
    simp only [List.length_append, List.length_cons, List.map_cons, List.sum_cons, Definition.cost]
    omega
  | hole _ ih =>
    rw [List.map_cons, List.sum_cons, ih]
    exact (Nat.zero_add _).symm

theorem LowersAll.cost_lt (h : LowersAll strict xs n ds m) :
    ∀ d ∈ xs, d.raisesLiteral = true → d.cost false < d.cost true := by
  induction h with
  | nil => exact fun _ hd => absurd hd List.not_mem_nil
  | assign he _ ih | ret he _ ih =>
    refine List.forall_mem_cons.mpr ⟨fun hp => ?_, ih⟩
    have := he.temporaries_lt hp
    simp only [Definition.cost]
    omega
  | hole _ ih => exact List.forall_mem_cons.mpr ⟨nofun, ih⟩

end Lowering

namespace Program

open Lowering

variable {p q q' : Program}

theorem length_lt_of_raisesLiteral (h : p.lower true = .ok q) (h' : p.lower false = .ok q')
    (hp : ∃ d ∈ p.definitions, d.raisesLiteral = true) :
    q'.definitions.length < q.definitions.length := by
  obtain ⟨ds, m, hl, rfl⟩ := lowersAll_of_lower h
  obtain ⟨es, k, hl', rfl⟩ := lowersAll_of_lower h'
  obtain ⟨d, hd, hp⟩ := hp
  change es.length < ds.length
  rw [hl.length_eq, hl'.length_eq]
  exact List.sum_lt_sum _ _ (fun d _ => d.cost_le) ⟨d, hd, hl.cost_lt d hd hp⟩

/-- Both ways of taking powers lower a program, or both reject it for the same reason. The two flat forms are
the same just when no definition raises a literal above its square. -/
theorem lower_eq_iff_raisesLiteral (p : Program) :
    (∃ q q', p.lower true = .ok q ∧ p.lower false = .ok q' ∧
      (q = q' ↔ ∀ d ∈ p.definitions, d.raisesLiteral = false)) ∨
    ∃ err, p.lower true = .error err ∧ p.lower false = .error err := by
  have hagree : Agree (p.emission true) (p.emission false) := concurs_forM p.definitions 0 0
  generalize h : p.emission true = r at hagree
  generalize h' : p.emission false = r' at hagree
  cases hagree with
  | @error ds es n m err =>
    have he : p.lower true = .error err := by rw [lower, h, Except.map]
    have he' : p.lower false = .error err := by rw [lower, h', Except.map]
    exact .inr ⟨err, he, he'⟩
  | @ok ds es n m =>
    have hq : p.lower true = .ok { p with definitions := ds } := by rw [lower, h, Except.map]
    have hq' : p.lower false = .ok { p with definitions := es } := by rw [lower, h', Except.map]
    refine .inl ⟨_, _, hq, hq', ?_, fun hp => ?_⟩
    · intro heq d hd
      rw [← Bool.not_eq_true]
      intro hp
      have hlt := length_lt_of_raisesLiteral hq hq' ⟨d, hd, hp⟩
      rw [heq] at hlt
      exact Nat.lt_irrefl _ hlt
    · have he : p.emission true = p.emission false := congrFun (forM_eq_of_raisesLiteral hp) 0
      rw [h, h'] at he
      cases he
      rfl

end Program

end FlatCircuit
