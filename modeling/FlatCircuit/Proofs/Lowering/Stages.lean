import FlatCircuit.Proofs.Evaluation.Decomposition
import FlatCircuit.Proofs.Lowering.Derivation

/-! Stages of a run through lowered definitions. A stage either ends in an extended memory, in which a flat
expression carries the value looked for, or it fails with an ordinary fault because there is no such value. -/

namespace FlatCircuit

structure Memory.MadeUpTo (m : Memory) (n : Nat) : Prop where
  bound : ∀ (x : String) (v : Int), m[x]? = some v → Name.IsPlain x ∨ Name.MadeBelow n x
  witness : ∀ x ∈ m.witness, ∃ (y : String) (i : Nat), x = Name.bit y i

namespace Memory.MadeUpTo

variable {m : Memory} {n : Nat} {x : String} {v : Int}

theorem getElem?_eq_none (h : m.MadeUpTo n) (hp : ¬ Name.IsPlain x) (hm : ¬ Name.MadeBelow n x) :
    m[x]? = none := by
  cases hx : m[x]? with
  | none => rfl
  | some v => exact absurd (h.bound x v hx) (not_or.mpr ⟨hp, hm⟩)

theorem temporary (h : m.MadeUpTo n) : m[Name.temporary n]? = none := by
  apply h.getElem?_eq_none (Name.not_isPlain_temporary n)
  rw [Name.MadeBelow.temporary_iff]
  exact Nat.lt_irrefl n

theorem bit (h : m.MadeUpTo n) (i : Nat) : m[Name.bit (Name.temporary n) i]? = none := by
  apply h.getElem?_eq_none (Name.not_isPlain_bit _ i)
  rw [Name.MadeBelow.bit_iff]
  exact Nat.lt_irrefl n

theorem mono (h : m.MadeUpTo n) {k : Nat} (hk : n ≤ k) : m.MadeUpTo k :=
  ⟨fun x v hx => (h.bound x v hx).imp_right (·.mono hk), h.witness⟩

theorem assign (h : m.MadeUpTo n) (hx : Name.IsPlain x ∨ Name.MadeBelow n x) (v : Int) :
    (m.assign x v).MadeUpTo n := by
  refine ⟨fun y w hy => ?_, h.witness⟩
  rw [getElem?_assign] at hy
  by_cases hxy : x = y
  · exact hxy ▸ hx
  · rw [if_neg hxy] at hy
    exact h.bound y w hy

theorem decompose (h : m.MadeUpTo n) (v : Int) :
    (m.decompose (Name.temporary n) v).MadeUpTo (n + 1) := by
  refine ⟨fun y w hy => ?_, fun y hy => ?_⟩
  · by_cases hx : Name.temporary n = y
    · exact .inr (hx ▸ .temporary (Nat.lt_succ_self n))
    by_cases hb : y ∈ Bits.names (Name.temporary n)
    · obtain ⟨i, _, rfl⟩ := (Bits.mem_names _).mp hb
      exact .inr (.bit i (Nat.lt_succ_self n))
    · rw [getElem?_decompose_of_ne hx hb] at hy
      exact (h.mono (Nat.le_succ n)).bound y w hy
  · rcases mem_witness_decompose.mp hy with hb | hw
    · obtain ⟨i, _, rfl⟩ := (Bits.mem_names _).mp hb
      exact ⟨_, i, rfl⟩
    · exact h.witness y hw

end Memory.MadeUpTo

theorem Memory.madeUpTo_empty : Memory.empty.MadeUpTo 0 := by
  refine ⟨fun x v hx => ?_, fun x hx => ?_⟩
  · rw [getElem?_def, empty, Std.ExtTreeMap.getElem?_empty] at hx
    cases hx
  · exact absurd hx Std.ExtTreeSet.not_mem_empty

theorem Expr.hasExponents_of_isFlat {f : Expr} (hf : f.isFlat = true) : f.hasExponents = true := by
  have ha : ∀ a : Expr, a.isAtom = true → a.hasExponents = true := by
    intro a h
    cases a <;> first | rfl | cases h
  cases f with
  | bin op l r =>
    obtain ⟨hl, hr⟩ := Bool.and_eq_true_iff.mp hf
    rw [hasExponents, ha l hl, ha r hr]
    rfl
  | _ => exact ha _ hf

structure Carries (ρ : Reading) (m : Memory) (f : Expr) (v : Option Int) : Prop where
  isFlat : f.isFlat = true
  isKnown : f.isKnown = true
  settles : ∀ x ∈ f.variables, m.Settles x
  value?_eq : f.value? ρ m = v

namespace Carries

variable {ρ : Reading} {k m : Memory} {f l r : Expr} {v w : Option Int} {x : String} {a : Int}

theorem of_extends (h : Carries ρ m f v) (hk : k.Extends m) : Carries ρ k f v :=
  ⟨h.isFlat, h.isKnown, fun x hx => hk.settles (h.settles x hx),
    (Expr.value?_of_extends hk h.settles).trans h.value?_eq⟩

theorem var (h : m[x]? = some a) : Carries ρ m (.var x) (some a) := by
  refine ⟨rfl, rfl, fun y hy => ?_, h⟩
  rw [List.mem_singleton.mp hy]
  exact .inr ⟨a, h⟩

theorem bin {op : Operator} (hop : op ≠ .blank) (hl : Carries ρ m l v) (hr : Carries ρ m r w)
    (hla : l.isAtom = true) (hra : r.isAtom = true) : Carries ρ m (.bin op l r)
      (v.bind fun a => w.bind fun b => (op.apply a b).toOption) := by
  refine ⟨?_, ?_, ?_, ?_⟩
  · rw [Expr.isFlat, hla, hra]
    rfl
  · rw [Expr.isKnown, hl.isKnown, hr.isKnown, decide_eq_true hop]
    rfl
  · simp only [Expr.variables, List.forall_mem_append]
    exact ⟨hl.settles, hr.settles⟩
  · simp only [Expr.value?, hl.value?_eq, hr.value?_eq, Option.bind_eq_bind]

end Carries

namespace Evaluation

def Executes (ds : List Definition) (m : Memory) (n : Nat) (post : Memory → Prop) (stuck : Prop) : Prop :=
  (∃ k, Runs ds m k ∧ k.MadeUpTo n ∧ k.Extends m ∧ post k) ∨
    (stuck ∧ ∃ err k, Fails ds m err k ∧ err.IsOrdinary ∧ ∀ x, Name.IsPlain x → k[x]? = m[x]?)

variable {ds es : List Definition} {m : Memory} {n j : Nat} {P Q : Memory → Prop} {S T : Prop}

theorem Executes.nil (hm : m.MadeUpTo n) (h : P m) : Executes [] m n P S :=
  .inl ⟨m, Runs.nil m, hm, .refl m, h⟩

theorem Executes.imp (h : Executes ds m n P S) (hP : ∀ k, P k → Q k) (hS : S → T) :
    Executes ds m n Q T := by
  rcases h with ⟨k, hr, hk, he, hp⟩ | ⟨hs, h⟩
  · exact .inl ⟨k, hr, hk, he, hP k hp⟩
  · exact .inr ⟨hS hs, h⟩

theorem Executes.append (h : Executes ds m n P S)
    (hn : ∀ k, k.MadeUpTo n → k.Extends m → P k → Executes es k j Q S) :
    Executes (ds ++ es) m j Q S := by
  rcases h with ⟨k, hr, hk, he, hp⟩ | ⟨hs, err, k, hf, ho, ha⟩
  · rcases hn k hk he hp with ⟨i, hi, hij, hei, hq⟩ | ⟨hs, err, i, hf, ho, ha⟩
    · exact .inl ⟨i, hr.append hi, hij, hei.trans he, hq⟩
    · refine .inr ⟨hs, err, i, hr.fails hf, ho, fun x hx => ?_⟩
      rw [ha x hx, he.plain x hx]
  · exact .inr ⟨hs, err, k, hf.append es, ho, ha⟩

variable {ρ : Reading} {f l r : Expr} {v w : Option Int}

theorem Executes.frame (h : Executes ds m n P S) (hf : Carries ρ m f v) :
    Executes ds m n (fun k => P k ∧ Carries ρ k f v) S := by
  rcases h with ⟨k, hr, hk, he, hp⟩ | h
  · exact .inl ⟨k, hr, hk, he, hp, hf.of_extends he⟩
  · exact .inr h

end Evaluation

end FlatCircuit
