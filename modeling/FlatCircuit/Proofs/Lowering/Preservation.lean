import FlatCircuit.Proofs.Lowering.Simulation

namespace FlatCircuit

open Lowering Evaluation

def Agrees : Except Fault Int → Except Fault Int → Prop
  | .ok a, .ok b => a = b
  | .error f, .error g => f.IsOrdinary ∧ g.IsOrdinary
  | _, _ => False

structure SameOutcome (a b : Except Fault Int × Memory) : Prop where
  result : Agrees a.1 b.1
  memory : ∀ x : String, Name.IsPlain x → a.2[x]? = b.2[x]?

def Halt.IsOrdinary (limit : DigitLimit) : Halt Fault → Prop
  | .raised err => err.IsOrdinary
  | .overlong => ∃ n, limit.writes n = false

def AgreesWithin (limit : DigitLimit) : Except (Halt Fault) Int → Except (Halt Fault) Int → Prop
  | .ok a, .ok b => a = b
  | .error f, .error g => f.IsOrdinary limit ∧ g.IsOrdinary limit
  | _, _ => False

/-- The same where the length of numbers is limited. A run stops at a number that is too long just when it comes to
an inexact division of such a number or by one. -/
structure SameOutcomeWithin (limit : DigitLimit) (a b : Except Fault Int × Memory) : Prop where
  result : AgreesWithin limit (a.1.mapError (·.halt limit)) (b.1.mapError (·.halt limit))
  overlong : ∀ err, a.1 = .error err ∨ b.1 = .error err → (err.halt limit = .overlong ↔ err.IsOverlong limit)
  memory : ∀ x : String, Name.IsPlain x → a.2[x]? = b.2[x]?

theorem Fault.IsOrdinary.halt {err : Fault} (h : err.IsOrdinary) (limit : DigitLimit) :
    (err.halt limit).IsOrdinary limit := by
  rcases h.halt_cases limit with hr | ⟨ho, a, b, -, hw⟩
  · rw [hr]
    exact h
  · rw [ho]
    exact hw.elim (fun hw => ⟨a, hw⟩) fun hw => ⟨b, hw⟩

theorem SameOutcome.within {a b : Except Fault Int × Memory} (h : SameOutcome a b) (limit : DigitLimit) :
    SameOutcomeWithin limit a b := by
  obtain ⟨hr, hm⟩ := h
  obtain ⟨f | v, m⟩ := a
  · obtain ⟨g | w, k⟩ := b
    · refine ⟨⟨hr.1.halt limit, hr.2.halt limit⟩, ?_, hm⟩
      intro err he
      rcases he with he | he
      · cases he
        exact hr.1.halt_eq_overlong_iff
      · cases he
        exact hr.2.halt_eq_overlong_iff
    · cases hr
  · obtain ⟨g | w, k⟩ := b
    · cases hr
    · exact ⟨hr, nofun, hm⟩

theorem Lowering.Lowers.hasExponents {strict : Bool} {e f : Expr} {n j : Nat} {ds : List Definition}
    (h : Lowers strict e n ds j f) : e.hasExponents = true := by
  induction h with
  | atom ha => exact Expr.hasExponents_of_isFlat (Expr.isFlat_of_isAtom ha)
  | operation op _ _ _ _ ihl ihr => simp only [Expr.hasExponents, ihl, ihr, Bool.and_self]
  | literalPower _ hk => simp [Expr.hasExponents, hk]
  | square hb =>
    have hf := Expr.hasExponents_of_isFlat (Expr.isFlat_of_isAtom hb.isAtom)
    simp [Expr.hasExponents, hf]
  | power _ hk _ ih =>
    simp only [Expr.hasExponents, Bool.and_eq_true, decide_eq_true_eq] at ih ⊢
    exact ⟨by omega, ih.2⟩
  | choice _ _ _ ihl ihr ih =>
    simp only [Expr.select, Expr.hasExponents, Bool.and_eq_true] at ih
    simp only [Expr.hasExponents, Condition.hasExponents, ihl, ihr, ih.1.2, ih.2.2, Bool.and_self]

theorem Lowering.LowersAll.hasExponents {strict : Bool} {ps ds : List Definition} {n j : Nat}
    (h : LowersAll strict ps n ds j) : ∀ d ∈ ps, d.hasExponents = true := by
  induction h with
  | nil =>
    intro d hd
    cases hd
  | assign he _ ih => exact List.forall_mem_cons.mpr ⟨he.hasExponents, ih⟩
  | ret he _ ih => exact List.forall_mem_cons.mpr ⟨he.hasExponents, ih⟩
  | hole _ ih => exact List.forall_mem_cons.mpr ⟨rfl, ih⟩

section Program

variable {strict : Bool} {m k : Memory} {n j : Nat} {ds : List Definition}

/-- The memories of a nested run and of a flat one, the latter with temporaries below `n`. -/
structure Aligned (m k : Memory) (n : Nat) : Prop where
  madeUpTo : k.MadeUpTo n
  plain : ∀ x : String, Name.IsPlain x → k[x]? = m[x]?
  witness : ∀ x : String, x ∉ m.witness

theorem Aligned.assign (h : Aligned m k n) {x : String} (hx : Name.IsPlain x) (v : Int) :
    Aligned (m.assign x v) (k.assign x v) n := by
  refine ⟨h.madeUpTo.assign (.inl hx) v, fun y hy => ?_, h.witness⟩
  rw [Memory.getElem?_assign, Memory.getElem?_assign, h.plain y hy]

variable {ρ : Reading} {x : String} {e : Expr} {ps : List Definition}

end Program

section Arguments

def Memory.IsPlain (m : Memory) : Prop :=
  m.MadeUpTo 0 ∧ ∀ x : String, x ∉ m.witness

theorem Memory.IsPlain.assign {m : Memory} (h : m.IsPlain) {x : String} (hx : Name.IsPlain x) (v : Int) :
    (m.assign x v).IsPlain :=
  ⟨h.1.assign (.inl hx) v, h.2⟩

end Arguments

end FlatCircuit
