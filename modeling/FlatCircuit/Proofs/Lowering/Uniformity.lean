import FlatCircuit.Lowering.Session
import FlatCircuit.Proofs.Renaming

namespace FlatCircuit

namespace Lowering

variable {α β γ δ : Type} {ρ : String → String} {p : String → Prop} {m n : Nat} {g : α → β} {g' : γ → δ}
  {x : Lowering α} {y : Lowering β} {f : α → Lowering γ} {f' : β → Lowering δ}

/-- From counters as far from `m` as from `n` the second computation does what the first does, renamed. The errors
quote variables with the property only. -/
def Follows (ρ : String → String) (p : String → Prop) (m n : Nat) (g : α → β) (x : Lowering α) (y : Lowering β) :
    Prop :=
  ∀ j, ∃ ds k v, x (m + j) = ⟨ds, m + k, v⟩ ∧
    y (n + j) = ⟨ds.map (Definition.rename ρ), n + k, (v.map g).mapError (LoweringError.rename ρ)⟩ ∧
    ∀ err, v = .error err → ∀ z ∈ err.variables, p z

theorem follows_pure (a : α) : Follows ρ p m n g (Pure.pure a) (Pure.pure (g a)) := by
  intro j
  refine ⟨[], j, .ok a, rfl, rfl, ?_⟩
  rintro err ⟨⟩

theorem follows_fail {err : LoweringError} (h : ∀ z ∈ err.variables, p z) :
    Follows ρ p m n g (fail err) (fail (err.rename ρ)) := by
  intro j
  refine ⟨[], j, .error err, rfl, rfl, ?_⟩
  rintro _ ⟨⟩
  exact h

theorem Follows.bind (hx : Follows ρ p m n g x y) (hf : ∀ a, Follows ρ p m n g' (f a) (f' (g a))) :
    Follows ρ p m n g' (x >>= f) (y >>= f') := by
  intro j
  obtain ⟨ds, k, v, hxj, hyj, hp⟩ := hx j
  cases v with
  | error err =>
    refine ⟨ds, k, .error err, bind_error hxj f, bind_error hyj f', ?_⟩
    rintro _ ⟨⟩
    exact hp err rfl
  | ok a =>
    obtain ⟨es, i, v, hfk, hfk', hp⟩ := hf a k
    refine ⟨ds ++ es, i, v, ?_, ?_, hp⟩
    · rw [bind_ok hxj, hfk]
    · rw [bind_ok hyj, hfk', List.map_append]

theorem follows_reject {cause : Unsupported} {quoted : Expr}
    (hc : ∀ z ∈ (LoweringError.unsupported cause).variables, p z) (hq : ∀ z ∈ quoted.variables, p z) :
    Follows ρ p m n g (reject cause quoted) (reject (cause.rename ρ) (quoted.rename ρ)) := by
  rw [reject, reject, Expr.hole?_rename]
  cases quoted.hole? with
  | none => exact follows_fail hc
  | some hole =>
    have hhole : ∀ z ∈ (LoweringError.hole hole quoted).variables, p z := hq
    exact follows_fail hhole

theorem follows_checkRange (l r : Expr) :
    Follows ρ p m n id (checkRange l r) (checkRange (l.rename ρ) (r.rename ρ)) := by
  cases l with
  | lit a =>
    cases r with
    | lit b =>
      simp only [checkRange, Expr.rename]
      split
      · have hnone : ∀ z ∈ (LoweringError.unsupported (.range a b)).variables, p z :=
          fun z hz => absurd hz List.not_mem_nil
        exact follows_fail hnone
      · exact follows_pure ()
    | var | bin | pow | ite | hole => exact follows_pure ()
  | var | bin | pow | ite | hole => exact follows_pure ()

section Moves

variable (hρ : Name.Moves ρ m n)
include hρ

theorem follows_store (e : Expr) : Follows ρ p m n ρ (store e) (store (e.rename ρ)) := by
  intro j
  refine ⟨[.assign (Name.temporary (m + j : Nat)) e], j + 1, .ok (Name.temporary (m + j : Nat)), rfl, ?_, ?_⟩
  · rw [store_apply, ← hρ.temporary]
    rfl
  · rintro err ⟨⟩

theorem follows_operand (e : Expr) : Follows ρ p m n (Expr.rename ρ) (operand e) (operand (e.rename ρ)) := by
  rw [operand, operand, Expr.isAtom_rename]
  split
  · exact follows_pure e
  · exact (follows_store hρ e).bind fun x => follows_pure (Expr.var x)

theorem follows_multiply (b : Expr) (k : Nat) (product : Expr) :
    Follows ρ p m n (Expr.rename ρ) (multiply b k product) (multiply (b.rename ρ) k (product.rename ρ)) := by
  induction k generalizing product with
  | zero => exact follows_pure product
  | succ k ih => exact (follows_store hρ product).bind fun x => ih (.bin .mul (.var x) b)

theorem follows_power (strict : Bool) {b e : Expr} (h : ∀ z ∈ (Expr.pow b e).variables, p z) :
    Follows ρ p m n (Expr.rename ρ) (power strict b e) (power strict (b.rename ρ) (e.rename ρ)) := by
  have hchain : ∀ k, Follows ρ p m n (Expr.rename ρ) (chain b k) (chain (b.rename ρ) k) :=
    fun k => follows_multiply hρ b _ (.bin .mul b b)
  cases e with
  | lit k =>
    by_cases hk : k ≤ 1
    · simp only [power, Expr.rename, if_pos hk]
      exact follows_reject h h
    · simp only [power, Expr.rename, if_neg hk]
      cases b with
      | var x => exact hchain k
      | lit a =>
        cases strict with
        | true => exact hchain k
        | false => exact follows_pure (Expr.bin .mul (.lit a) (.lit a))
      | bin | pow | ite | hole => exact follows_reject h h
  | var | bin | pow | ite | hole => exact follows_reject h h

theorem follows_decompose (e : Expr) :
    Follows ρ p m n (Expr.rename ρ)
      (do let d ← store e; emit (Bits.constraints d); return .var (Bits.sign d))
      (do let d ← store (e.rename ρ); emit (Bits.constraints d); return .var (Bits.sign d)) := by
  intro j
  have hbits : ∀ i : Nat, ρ (Name.bit (Name.temporary (m + j : Nat)) i) =
      Name.bit (ρ (Name.temporary (m + j : Nat))) i := by
    intro i
    rw [hρ.bit, hρ.temporary]
  have hsign : ρ (Bits.sign (Name.temporary (m + j : Nat))) = Bits.sign (Name.temporary (n + j : Nat)) :=
    hρ.bit j (Bits.width - 1)
  refine ⟨.assign (Name.temporary (m + j : Nat)) e :: Bits.constraints (Name.temporary (m + j : Nat)), j + 1,
    .ok (.var (Bits.sign (Name.temporary (m + j : Nat)))), rfl, ?_, ?_⟩
  · rw [List.map_cons, Bits.map_rename_constraints hbits, Definition.rename, hρ.temporary]
    simp only [Except.map, Except.mapError, Expr.rename, hsign]
    rfl
  · rintro err ⟨⟩

theorem follows_compare (l r : Expr) :
    Follows ρ p m n (Expr.rename ρ) (compare l r) (compare (l.rename ρ) (r.rename ρ)) := by
  refine (follows_checkRange l r).bind fun _ => ?_
  refine (follows_store hρ l).bind fun x => ?_
  refine (follows_store hρ r).bind fun y => ?_
  exact follows_decompose hρ (.bin .sub (.var x) (.var y))

theorem follows_lower (strict : Bool) {e : Expr} (h : ∀ z ∈ e.variables, p z) :
    Follows ρ p m n (Expr.rename ρ) (e.lower strict) ((e.rename ρ).lower strict) := by
  induction e with
  | lit v => exact follows_pure (Expr.lit v)
  | var x => exact follows_pure (Expr.var x)
  | bin op l r ihl ihr =>
    rw [Expr.variables, List.forall_mem_append] at h
    refine (ihl h.1).bind fun l => ?_
    refine (ihr h.2).bind fun r => ?_
    refine (follows_operand hρ l).bind fun a => ?_
    refine (follows_operand hρ r).bind fun b => ?_
    exact follows_pure (Expr.bin op a b)
  | pow b e => exact follows_power hρ strict h
  | less l r x y ihl ihr ihx ihy =>
    simp only [Expr.variables, Condition.variables, List.forall_mem_append] at h
    obtain ⟨⟨⟨hl, hr⟩, hx⟩, hy⟩ := h
    have ht : Follows ρ p m n (Expr.rename ρ) ((Condition.less l r).lower strict)
        (((Condition.less l r).rename ρ).lower strict) :=
      (ihl hl).bind fun l => (ihr hr).bind fun r => follows_compare hρ l r
    refine ht.bind fun t => ?_
    refine (ihx hx).bind fun x => ?_
    refine (follows_operand hρ x).bind fun x => ?_
    refine (ihy hy).bind fun y => ?_
    refine (follows_operand hρ (.bin .sub (.lit 1) t)).bind fun s => ?_
    refine (follows_operand hρ y).bind fun y => ?_
    refine (follows_operand hρ (.bin .mul t x)).bind fun c => ?_
    refine (follows_operand hρ (.bin .mul s y)).bind fun o => ?_
    exact follows_pure (Expr.bin .add c o)
  | untested x y _ _ =>
    intro j
    refine ⟨[], j, .error (.unsupported .condition), rfl, rfl, ?_⟩
    rintro _ ⟨⟩ z hz
    cases hz
  | hole =>
    have hnone : ∀ z ∈ (LoweringError.unsupported .expression).variables, p z :=
      fun z hz => absurd hz List.not_mem_nil
    exact follows_fail hnone

end Moves

namespace Session

def extend (s : Session) (k : Nat) (ds : List Definition) : Session :=
  { s with counter := s.counter + k, definitions := s.definitions ++ ds }

theorem perform_expr_eq {e : Expr} {s : Session} {ds : List Definition} {k : Nat} {v : Except LoweringError Expr}
    (h : e.lower s.strict s.counter = ⟨ds, s.counter + k, v⟩) :
    s.perform (.expr e) = (v.map .expr, s.extend k ds) := by
  have hmap : Request.lowering s.strict (.expr e) s.counter = ⟨ds, s.counter + k, v.map .expr⟩ := by
    cases v with
    | error err => exact bind_error h _
    | ok f =>
      have hf := bind_ok h fun f => Pure.pure (Answer.expr f)
      rwa [pure_apply, List.append_nil] at hf
  rw [perform, run, hmap]
  rfl

/-- Two sessions that differ in their counters and in what they hold already give the same error for an expression,
or they give its lowering with the temporaries of the one in place of those of the other. The names in the
expression do not matter: it may be renamed first or the answer afterwards, even where different names become
the same. -/
theorem perform_expr_uniform (e : Expr) (he : ∀ x ∈ e.variables, Name.IsPlain x) :
    (∀ s t : Session, s.strict = t.strict →
      ∃ (v : Except LoweringError Expr) (k : Nat) (ds : List Definition),
        s.perform (.expr e) = (v.map .expr, s.extend k ds) ∧
        t.perform (.expr e) = ((v.map (Expr.rename (Name.shift s.counter t.counter))).map .expr,
          t.extend k (ds.map (Definition.rename (Name.shift s.counter t.counter))))) ∧
    ∀ (r : String → String) (s : Session),
      ∃ (v : Except LoweringError Expr) (k : Nat) (ds : List Definition),
        s.perform (.expr e) = (v.map .expr, s.extend k ds) ∧
        s.perform (.expr (e.rename r)) =
          (((v.map (Expr.rename (Name.onPlain r))).mapError (LoweringError.rename (Name.onPlain r))).map .expr,
            s.extend k (ds.map (Definition.rename (Name.onPlain r)))) := by
  constructor
  · intro s t hs
    have hsame : e.rename (Name.shift s.counter t.counter) = e :=
      Expr.rename_eq_self fun x hx => Name.shift_of_isPlain (he x hx) _ _
    obtain ⟨ds, k, v, hv, hw, hplain⟩ := follows_lower (Name.moves_shift s.counter t.counter) s.strict he 0
    rw [hsame, hs] at hw
    refine ⟨v, k, ds, perform_expr_eq hv, ?_⟩
    rw [perform_expr_eq hw]
    cases v with
    | ok f => rfl
    | error err =>
      have herr : err.rename (Name.shift s.counter t.counter) = err :=
        LoweringError.rename_eq_self fun x hx => Name.shift_of_isPlain (hplain err rfl x hx) _ _
      simp only [Except.map, Except.mapError, herr]
  · intro r s
    have hsame : e.rename (Name.onPlain r) = e.rename r :=
      Expr.rename_congr fun x hx => Name.onPlain_of_isPlain (he x hx) r
    obtain ⟨ds, k, v, hv, hw, -⟩ := follows_lower (Name.moves_onPlain r s.counter) s.strict he 0
    rw [hsame] at hw
    exact ⟨v, k, ds, perform_expr_eq hv, perform_expr_eq hw⟩

theorem perform_expr_uniform_choice :
    let e : Expr := .ite (.less (.var "x") (.pow (.var "y") (.lit 3))) (.var "x") (.pow (.var "y") (.lit 2))
    let s : Session := ⟨"f", true, 98, [.ret (.var "sym_98")]⟩
    let t : Session := ⟨"g", true, 3, []⟩
    let ρ := Name.shift 98 3
    ρ "sym_101_b7" = "sym_6_b7" ∧ ∃ f ds, s.perform (.expr e) = (.ok (.expr f), s.extend 8 ds) ∧
      t.perform (.expr e) = (.ok (.expr (f.rename ρ)), t.extend 8 (ds.map (Definition.rename ρ))) := by
  intro e s t ρ
  refine ⟨by decide +kernel, ?_⟩
  obtain ⟨v, k, ds, hs, ht⟩ := (perform_expr_uniform e (by decide)).1 s t rfl
  have hok : (s.perform (.expr e)).1.isOk = true := by decide +kernel
  have hcounter : (s.perform (.expr e)).2.counter = 106 := by decide +kernel
  rw [hs] at hok hcounter
  obtain rfl : k = 8 := Nat.add_left_cancel hcounter
  cases v with
  | error err => cases hok
  | ok f => exact ⟨f, ds, hs, ht⟩

end Session

end Lowering

end FlatCircuit
