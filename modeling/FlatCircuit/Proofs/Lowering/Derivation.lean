import FlatCircuit.Lowering.Program

/-! Derivations of successful lowerings. `Lowers strict e n ds m f` says that `e` becomes the flat expression
`f` after the definitions `ds`, whose temporaries are numbered from `n` up to `m`. A choice is lowered as the
sum of products that it stands for, and a power by way of the power below it. -/

namespace FlatCircuit

def Expr.select (t x y : Expr) : Expr :=
  .bin .add (.bin .mul t x) (.bin .mul (.bin .sub (.lit 1) t) y)

namespace Lowering

variable {α β : Type} {n m k : Nat} {ds es : List Definition}

theorem bind_eq_ok {x : Lowering α} {f : α → Lowering β} {b : β} (h : (x >>= f) n = ⟨ds, m, .ok b⟩) :
    ∃ es k a fs, x n = ⟨es, k, .ok a⟩ ∧ f a k = ⟨fs, m, .ok b⟩ ∧ ds = es ++ fs := by
  rcases hx : x n with ⟨es, k, a | a⟩
  · rw [bind_error hx] at h
    cases h
  · rw [bind_ok hx] at h
    rcases hf : f a k with ⟨fs, l, r⟩
    rw [hf] at h
    cases h
    exact ⟨es, k, a, fs, rfl, hf, rfl⟩

def comparison (l r : Expr) (n : Nat) : List Definition :=
  .assign (Name.temporary n) l :: .assign (Name.temporary (n + 1 : Nat)) r ::
    .assign (Name.temporary (n + 2 : Nat))
      (.bin .sub (.var (Name.temporary n)) (.var (Name.temporary (n + 1 : Nat)))) ::
    Bits.constraints (Name.temporary (n + 2 : Nat))

inductive Takes : Expr → Nat → List Definition → Nat → Expr → Prop
  | atom {e : Expr} {n : Nat} : e.isAtom = true → Takes e n [] n e
  | stored {e : Expr} {n : Nat} : e.isAtom = false →
      Takes e n [.assign (Name.temporary n) e] (n + 1) (.var (Name.temporary n))

theorem takes_of_operand {e a : Expr} (h : operand e n = ⟨ds, m, .ok a⟩) : Takes e n ds m a := by
  cases he : e.isAtom with
  | true =>
    rw [operand_of_isAtom he] at h
    cases h
    exact .atom he
  | false =>
    rw [operand_of_not_isAtom he] at h
    cases h
    exact .stored he

theorem Takes.isAtom {e a : Expr} (h : Takes e n ds m a) : a.isAtom = true := by
  cases h with
  | atom he => exact he
  | stored _ => rfl

theorem compare_eq_ok {l r t : Expr} (h : compare l r n = ⟨ds, m, .ok t⟩) :
    ds = comparison l r n ∧ m = n + 3 ∧ t = .var (Bits.sign (Name.temporary (n + 2 : Nat))) := by
  obtain ⟨es, k, ⟨⟩, fs, hr, hc, rfl⟩ := bind_eq_ok h
  have he : es = [] ∧ k = n := by
    unfold checkRange at hr
    split at hr
    · split at hr <;> cases hr
      exact ⟨rfl, rfl⟩
    · cases hr
      exact ⟨rfl, rfl⟩
  obtain ⟨rfl, rfl⟩ := he
  cases hc
  exact ⟨rfl, rfl, rfl⟩

variable {strict : Bool}

theorem lower_of_isAtom {e : Expr} (ha : e.isAtom = true) (n : Nat) : e.lower strict n = ⟨[], n, .ok e⟩ := by
  cases e <;> first | rfl | cases ha

theorem lower_of_isFlat {e : Expr} (hf : e.isFlat = true) (n : Nat) : e.lower strict n = ⟨[], n, .ok e⟩ := by
  cases e with
  | bin op l r =>
    obtain ⟨hl, hr⟩ := Bool.and_eq_true_iff.mp hf
    simp only [Expr.lower, bind_apply, lower_of_isAtom hl, lower_of_isAtom hr, operand_of_isAtom hl,
      operand_of_isAtom hr, pure_apply, List.append_nil]
  | lit | var => rfl
  | pow | ite | hole => cases hf

def Expands (strict : Bool) : Expr → Prop
  | .var _ => True
  | .lit _ => strict = true
  | _ => False

inductive Lowers (strict : Bool) : Expr → Nat → List Definition → Nat → Expr → Prop
  | atom {e : Expr} {n : Nat} : e.isAtom = true → Lowers strict e n [] n e
  | operation (op : Operator) {l r l' r' a b : Expr} {n n₁ n₂ n₃ n₄ : Nat}
      {ds₁ ds₂ ds₃ ds₄ : List Definition} :
      Lowers strict l n ds₁ n₁ l' → Lowers strict r n₁ ds₂ n₂ r' → Takes l' n₂ ds₃ n₃ a →
      Takes r' n₃ ds₄ n₄ b →
      Lowers strict (.bin op l r) n (ds₁ ++ ds₂ ++ ds₃ ++ ds₄) n₄ (.bin op a b)
  | literalPower {a k : Int} {n : Nat} : strict = false → 1 < k →
      Lowers strict (.pow (.lit a) (.lit k)) n [] n (.bin .mul (.lit a) (.lit a))
  | square {b : Expr} {n : Nat} : Expands strict b →
      Lowers strict (.pow b (.lit 2)) n [] n (.bin .mul b b)
  | power {b f : Expr} {k : Int} {n m : Nat} {ds : List Definition} : Expands strict b → 1 < k →
      Lowers strict (.pow b (.lit k)) n ds m f →
      Lowers strict (.pow b (.lit (k + 1))) n (ds ++ [.assign (Name.temporary m) f]) (m + 1)
        (.bin .mul (.var (Name.temporary m)) b)
  | choice {l r l' r' x y f : Expr} {n n₁ n₂ m : Nat} {ds₁ ds₂ ds₃ : List Definition} :
      Lowers strict l n ds₁ n₁ l' → Lowers strict r n₁ ds₂ n₂ r' →
      Lowers strict (.select (.var (Bits.sign (Name.temporary (n₂ + 2 : Nat)))) x y) (n₂ + 3) ds₃ m f →
      Lowers strict (.ite (.less l r) x y) n (ds₁ ++ ds₂ ++ comparison l' r' n₂ ++ ds₃) m f

theorem lowers_of_multiply {b f product : Expr} {k : Int} {j : Nat} (hb : Expands strict b)
    (hk : 1 < k) (hp : Lowers strict (.pow b (.lit k)) n ds m product) {l : Nat}
    (h : multiply b j product m = ⟨es, l, .ok f⟩) :
    Lowers strict (.pow b (.lit (k + j))) n (ds ++ es) l f := by
  induction j generalizing k product m ds es with
  | zero =>
    cases h
    simpa using hp
  | succ j ih =>
    obtain ⟨fs, i, x, gs, hs, hm, rfl⟩ := bind_eq_ok h
    rw [store_apply] at hs
    cases hs
    have hn := ih (by omega) (.power hb hk hp) hm
    rw [List.append_assoc] at hn
    rwa [Int.natCast_succ, Int.add_comm (j : Int) 1, ← Int.add_assoc]

theorem lowers_of_chain {b f : Expr} {k : Int} (hb : Expands strict b) (hk : 1 < k)
    (h : chain b k n = ⟨ds, m, .ok f⟩) : Lowers strict (.pow b (.lit k)) n ds m f := by
  have hl := lowers_of_multiply hb (by decide) (.square hb) h
  have he : (2 : Int) + ((k - 2).toNat : Int) = k := by omega
  rwa [he] at hl

theorem lowers_of_power {b e f : Expr} (h : power strict b e n = ⟨ds, m, .ok f⟩) :
    Lowers strict (.pow b e) n ds m f := by
  unfold power at h
  split at h
  · next k =>
    by_cases hk : k ≤ 1
    · rw [if_pos hk] at h
      cases h
    · rw [if_neg hk] at h
      split at h
      · exact lowers_of_chain trivial (by omega) h
      · cases hs : strict with
        | true =>
          rw [hs, if_pos rfl] at h
          exact lowers_of_chain rfl (by omega) h
        | false =>
          rw [hs, if_neg (by decide)] at h
          cases h
          exact .literalPower rfl (by omega)
      · cases h
  · cases h

theorem lowers_of_lower {e f : Expr} (h : e.lower strict n = ⟨ds, m, .ok f⟩) :
    Lowers strict e n ds m f := by
  induction e generalizing n ds m f with
  | lit v =>
    cases h
    exact .atom rfl
  | var x =>
    cases h
    exact .atom rfl
  | bin op l r ihl ihr =>
    obtain ⟨ds₁, n₁, l', _, hl, h₁, rfl⟩ := bind_eq_ok h
    obtain ⟨ds₂, n₂, r', _, hr, h₂, rfl⟩ := bind_eq_ok h₁
    obtain ⟨ds₃, n₃, a, _, ha, h₃, rfl⟩ := bind_eq_ok h₂
    obtain ⟨ds₄, n₄, b, _, hb, h₄, rfl⟩ := bind_eq_ok h₃
    cases h₄
    have hd := Lowers.operation op (ihl hl) (ihr hr) (takes_of_operand ha)
      (takes_of_operand hb)
    simpa only [List.append_assoc, List.append_nil] using hd
  | pow b e => exact lowers_of_power h
  | less l r x y ihl ihr ihx ihy =>
    obtain ⟨_, _, t, _, hc, h₁, rfl⟩ := bind_eq_ok h
    obtain ⟨ds₁, n₁, l', _, hl, hc₁, rfl⟩ := bind_eq_ok hc
    obtain ⟨ds₂, n₂, r', _, hr, hc₂, rfl⟩ := bind_eq_ok hc₁
    obtain ⟨rfl, rfl, rfl⟩ := compare_eq_ok hc₂
    obtain ⟨ds₃, n₃, x', _, hx, h₂, rfl⟩ := bind_eq_ok h₁
    obtain ⟨ds₄, n₄, x₁, _, hx', h₃, rfl⟩ := bind_eq_ok h₂
    obtain ⟨ds₅, n₅, y', _, hy, h₄, rfl⟩ := bind_eq_ok h₃
    obtain ⟨ds₆, n₆, s, _, hs, h₅, rfl⟩ := bind_eq_ok h₄
    obtain ⟨ds₇, n₇, y₁, _, hy', h₆, rfl⟩ := bind_eq_ok h₅
    obtain ⟨ds₈, n₈, c, _, hc, h₇, rfl⟩ := bind_eq_ok h₆
    obtain ⟨ds₉, n₉, o, _, ho, h₈, rfl⟩ := bind_eq_ok h₇
    cases h₈
    -- The factors of the two products are an atom or a difference of atoms, so they emit nothing.
    let t := Expr.var (Bits.sign (Name.temporary (n₂ + 2 : Nat)))
    have ht : Lowers strict t (n₂ + 3) [] (n₂ + 3) t := .atom rfl
    have ht' : Lowers strict (.bin .sub (.lit 1) t) n₄ [] n₄ (.bin .sub (.lit 1) t) :=
      .operation .sub (.atom rfl) (.atom rfl) (.atom rfl) (.atom rfl)
    have hchosen := Lowers.operation .mul ht (ihx hx) (.atom rfl) (takes_of_operand hx')
    have hother := Lowers.operation .mul ht' (ihy hy) (takes_of_operand hs) (takes_of_operand hy')
    have hsum := Lowers.operation .add hchosen hother (takes_of_operand hc) (takes_of_operand ho)
    have hd := Lowers.choice (ihl hl) (ihr hr) hsum
    simpa only [List.append_assoc, List.append_nil, List.nil_append] using hd
  | untested x y =>
    obtain ⟨_, _, t, _, hc, _⟩ := bind_eq_ok h
    cases hc
  | hole => cases h

inductive LowersAll (strict : Bool) : List Definition → Nat → List Definition → Nat → Prop
  | nil {n : Nat} : LowersAll strict [] n [] n
  | assign {x : String} {e f : Expr} {n k m : Nat} {ds es fs : List Definition} :
      Lowers strict e n es k f → LowersAll strict ds k fs m →
      LowersAll strict (.assign x e :: ds) n (es ++ .assign x f :: fs) m
  | ret {e f : Expr} {n k m : Nat} {ds es fs : List Definition} :
      Lowers strict e n es k f → LowersAll strict ds k fs m →
      LowersAll strict (.ret e :: ds) n (es ++ .ret f :: fs) m
  | hole {n m : Nat} {ds fs : List Definition} : LowersAll strict ds n fs m →
      LowersAll strict (.hole :: ds) n fs m

theorem lowersAll_of_forM {ps : List Definition}
    (h : ps.forM (Definition.lower strict) n = ⟨ds, m, .ok ()⟩) : LowersAll strict ps n ds m := by
  induction ps generalizing n ds with
  | nil =>
    cases h
    exact .nil
  | cons d ps ih =>
    obtain ⟨es, k, ⟨⟩, fs, hd, hps, rfl⟩ := bind_eq_ok h
    cases d with
    | assign x e =>
      obtain ⟨es, k, f, _, he, hf, rfl⟩ := bind_eq_ok hd
      cases hf
      rw [List.append_assoc]
      exact .assign (lowers_of_lower he) (ih hps)
    | ret e =>
      obtain ⟨es, k, f, _, he, hf, rfl⟩ := bind_eq_ok hd
      cases hf
      rw [List.append_assoc]
      exact .ret (lowers_of_lower he) (ih hps)
    | hole =>
      cases hd
      exact .hole (ih hps)

theorem lowersAll_emission {p q : Program} (h : p.lower strict = .ok q) :
    LowersAll strict p.definitions 0 q.definitions (p.emission strict).next ∧
      q = ⟨p.name, p.parameters, q.definitions⟩ := by
  obtain ⟨hv, rfl⟩ := (p.lower_eq_ok_iff strict).mp h
  refine ⟨lowersAll_of_forM ?_, rfl⟩
  exact congrArg (Emission.mk (p.emission strict).emitted (p.emission strict).next) hv

theorem lowersAll_of_lower {p q : Program} (h : p.lower strict = .ok q) :
    ∃ ds m, LowersAll strict p.definitions 0 ds m ∧ q = ⟨p.name, p.parameters, ds⟩ :=
  ⟨_, _, lowersAll_emission h⟩

end Lowering

end FlatCircuit
