import FlatCircuit.Proofs.Evaluation.Dependence
import FlatCircuit.Proofs.Evaluation.Owners
import FlatCircuit.Proofs.Evaluation.Reached
import FlatCircuit.Proofs.Lowering.Cost

namespace FlatCircuit

open Lowering Evaluation

namespace Bits

theorem bitOf_sign (v : Int) : bitOf v (width - 1) = if 128 ≤ v % 256 then 1 else 0 := by
  have hs : bitOf v (width - 1) = v % 256 / 128 % 2 := rfl
  rw [hs]
  split <;> omega

theorem bitOf_sign_eq_one_iff {a b : Int} (hl : -128 ≤ a - b) (hg : a - b ≤ 127) :
    bitOf (a - b) (width - 1) = 1 ↔ a < b := by
  rw [bitOf_sign]
  split <;> omega

end Bits

namespace Memory

variable {m : Memory} {n : Nat} {x : String} {v : Int}

theorem getElem?_decompose_self : (m.decompose x v)[x]? = some (v % 256) := by
  rw [decompose, getElem?_assign, if_pos rfl]
  rfl

def FreshFrom (m : Memory) (n : Nat) : Prop :=
  ∀ k : Nat, n ≤ k → ¬ m.Binds (Name.temporary k) ∧ ∀ i : Nat, i < 8 → ¬ m.Binds (Name.bit (Name.temporary k) i)

theorem FreshFrom.ne_of_binds (h : m.FreshFrom n) (hx : m.Binds x) {k : Nat} (hk : n ≤ k) :
    Name.temporary k ≠ x := by
  rintro rfl
  exact (h k hk).1 hx

theorem MadeUpTo.freshFrom (h : m.MadeUpTo n) : m.FreshFrom n := by
  intro k hk
  have hm := h.mono hk
  simp [Binds, hm.temporary, hm.bit]

end Memory

section Atoms

variable {strict : Bool} {l r t : Expr} {n j : Nat} {ds : List Definition} {m k : Memory} {x : String} {a b : Int}

theorem Condition.lower_less_of_isAtom (hl : l.isAtom = true) (hr : r.isAtom = true)
    (h : (Condition.less l r).lower strict n = ⟨ds, j, .ok t⟩) :
    ds = comparison l r n ∧ t = .var (Bits.sign (Name.temporary (n + 2 : Nat))) := by
  obtain ⟨_, _, l', _, hl', h₁, rfl⟩ := bind_eq_ok h
  obtain ⟨_, _, r', _, hr', h₂, rfl⟩ := bind_eq_ok h₁
  rw [lower_of_isAtom hl] at hl'
  cases hl'
  rw [lower_of_isAtom hr] at hr'
  cases hr'
  obtain ⟨rfl, -, rfl⟩ := compare_eq_ok h₂
  exact ⟨rfl, rfl⟩

theorem Expr.runFrom_eval_of_shares {e : Expr} (h : (e.eval.runFrom m).1 = .ok a)
    (hk : ∀ y ∈ e.variables, m.Shares k y) : e.eval.runFrom k = (.ok a, k) := by
  obtain ⟨s, hm, hs⟩ := coincides_eval hk
  rw [hm] at h
  rw [hs, ← h]

theorem Evaluation.runs_store {e : Expr} (hx : x ∉ m.witness) (he : e.eval.runFrom m = (.ok a, m)) :
    Runs [.assign x e] m (m.assign x a) :=
  runs_of_define (runFrom_define he fun h => absurd h hx)

variable (m n a b) in
def Memory.compared : Memory :=
  ((m.assign (Name.temporary n) a).assign (Name.temporary (n + 1 : Nat)) b).decompose
    (Name.temporary (n + 2 : Nat)) (a - b)

theorem Memory.getElem?_compared_of_ne (h₀ : x ≠ Name.temporary n) (h₁ : x ≠ Name.temporary (n + 1 : Nat))
    (h₂ : x ≠ Name.temporary (n + 2 : Nat)) (hb : x ∉ Bits.names (Name.temporary (n + 2 : Nat))) :
    (m.compared n a b)[x]? = m[x]? := by
  rw [compared, getElem?_decompose_of_ne h₂.symm hb, getElem?_assign, if_neg h₁.symm, getElem?_assign,
    if_neg h₀.symm]

theorem Memory.mem_witness_compared : x ∈ (m.compared n a b).witness ↔
    x ∈ m.witness ∨ x ∈ Bits.names (Name.temporary (n + 2 : Nat)) := by
  rw [compared, mem_witness_decompose, witness_assign, witness_assign, or_comm]

theorem Evaluation.runs_comparison (hm : m.Reached) (hn : m.FreshFrom n)
    (hlv : ∀ y ∈ l.variables, m.Binds y) (hrv : ∀ y ∈ r.variables, m.Binds y)
    (hl : (l.eval.runFrom m).1 = .ok a) (hr : (r.eval.runFrom m).1 = .ok b) :
    Runs (comparison l r n) m (m.compared n a b) := by
  have hw : ∀ k : Nat, n ≤ k → Name.temporary k ∉ m.witness :=
    fun k hk h => (hn k hk).1 (hm.binds_of_mem_witness h)
  have hne : ∀ i k : Nat, i < k → Name.temporary i ≠ Name.temporary k :=
    fun i k hik h => absurd (Name.temporary_inj.mp h) (Nat.ne_of_lt hik)
  have hl' : l.eval.runFrom m = (.ok a, m) := by
    apply Expr.runFrom_eval_of_shares hl
    intro y hy
    obtain ⟨v, hv⟩ := hlv y hy
    exact ⟨v, hv, hv⟩
  have hr' : r.eval.runFrom (m.assign (Name.temporary n) a) = (.ok b, m.assign (Name.temporary n) a) := by
    apply Expr.runFrom_eval_of_shares hr
    -- the first store has bound none of the names that the second expression reads
    intro y hy
    obtain ⟨v, hv⟩ := hrv y hy
    refine ⟨v, hv, ?_⟩
    rw [Memory.getElem?_assign, if_neg (hn.ne_of_binds ⟨v, hv⟩ (Nat.le_refl n)), hv]
  have hstores := (runs_store (hw n (Nat.le_refl n)) hl').append
    (runs_store (x := Name.temporary (n + 1 : Nat)) (hw (n + 1) (by omega)) hr')
  have hx : ((m.assign (Name.temporary n) a).assign (Name.temporary (n + 1 : Nat)) b)[Name.temporary n]? =
      some a := by
    rw [Memory.getElem?_assign, if_neg (hne n (n + 1) (by omega)).symm, Memory.getElem?_assign, if_pos rfl]
  have hy : ((m.assign (Name.temporary n) a).assign (Name.temporary (n + 1 : Nat)) b)[
      Name.temporary (n + 1 : Nat)]? = some b := by
    rw [Memory.getElem?_assign, if_pos rfl]
  have hbit : ((m.assign (Name.temporary n) a).assign (Name.temporary (n + 1 : Nat)) b)[
      Name.bit (Name.temporary (n + 2 : Nat)) (0 : Nat)]? = none := by
    rw [Memory.getElem?_assign, if_neg (Name.temporary_ne_bit _ _ 0), Memory.getElem?_assign,
      if_neg (Name.temporary_ne_bit _ _ 0)]
    cases hv : m[Name.bit (Name.temporary (n + 2 : Nat)) (0 : Nat)]? with
    | none => rfl
    | some v => exact absurd ⟨v, hv⟩ ((hn (n + 2) (by omega)).2 0 (by decide))
  have hgroup := runs_group (Name.temporary_ne_empty (n + 2)) hx hy hbit (hw (n + 2) (by omega))
  exact hstores.append hgroup

/-- The definitions of a comparison of atoms run without a fault where the atoms have values and the temporaries
from the counter on are fresh. They compute the difference modulo 256, its bits and its sign, and leave all
other names as they are; the eight bits are new in the witness. -/
theorem Condition.lower_less_computes_sign (hm : m.Reached) (hl : l.isAtom = true) (hr : r.isAtom = true)
    (hbound : ∀ y ∈ l.variables ++ r.variables, m.Binds y)
    (ha : (l.eval.runFrom m).1 = .ok a) (hb : (r.eval.runFrom m).1 = .ok b)
    (hfresh : ∀ k : Nat, n ≤ k →
      ¬ m.Binds (Name.temporary k) ∧ ∀ i : Nat, i < 8 → ¬ m.Binds (Name.bit (Name.temporary k) i))
    (h : (Condition.less l r).lower strict n = ⟨ds, j, .ok t⟩) :
    ds.length = 12 ∧ ∃ k, Runs ds m k ∧
      k[Name.temporary (n + 2 : Nat)]? = some ((a - b) % 256) ∧
      (∀ i : Nat, i < 8 →
        k[Name.bit (Name.temporary (n + 2 : Nat)) i]? = some ((a - b) % 256 / 2 ^ i % 2)) ∧
      t.eval.runFrom k = (.ok (if 128 ≤ (a - b) % 256 then 1 else 0), k) ∧
      (-128 ≤ a - b → a - b ≤ 127 → ((t.eval.runFrom k).1 = .ok 1 ↔ a < b)) ∧
      (∀ z, z ≠ Name.temporary n → z ≠ Name.temporary (n + 1 : Nat) → z ≠ Name.temporary (n + 2 : Nat) →
        (∀ i : Nat, i < 8 → z ≠ Name.bit (Name.temporary (n + 2 : Nat)) i) → k[z]? = m[z]?) ∧
      (∀ z, z ∈ k.witness ↔
        z ∈ m.witness ∨ ∃ i : Nat, i < 8 ∧ z = Name.bit (Name.temporary (n + 2 : Nat)) i) ∧
      ∀ i : Nat, i < 8 → Name.bit (Name.temporary (n + 2 : Nat)) i ∉ m.witness := by
  obtain ⟨rfl, rfl⟩ := lower_less_of_isAtom hl hr h
  obtain ⟨hlv, hrv⟩ := List.forall_mem_append.mp hbound
  have hbits : ∀ i : Nat, i < 8 →
      (m.compared n a b)[Name.bit (Name.temporary (n + 2 : Nat)) i]? = some (Bits.bitOf (a - b) i) :=
    fun i hi => Memory.getElem?_decompose_bit hi
  have hsign : (Expr.var (Bits.sign (Name.temporary (n + 2 : Nat)))).eval.runFrom (m.compared n a b) =
      (.ok (Bits.bitOf (a - b) (Bits.width - 1)), m.compared n a b) :=
    runFrom_lookup (hbits 7 (by decide))
  refine ⟨length_comparison l r n, m.compared n a b, runs_comparison hm hfresh hlv hrv ha hb, ?_, ?_, ?_, ?_, ?_,
    ?_, ?_⟩
  · exact Memory.getElem?_decompose_self
  · intro i hi
    rw [hbits i hi, Bits.bitOf_eq_ediv]
  · rw [hsign, Bits.bitOf_sign]
  · intro hge hle
    rw [hsign, Except.ok.injEq]
    exact Bits.bitOf_sign_eq_one_iff hge hle
  · intro z h₀ h₁ h₂ hz
    exact Memory.getElem?_compared_of_ne h₀ h₁ h₂ (Bits.notMem_names_iff.mpr hz)
  · intro z
    rw [Memory.mem_witness_compared, Bits.mem_names_iff]
  · intro i hi hw
    exact (hfresh (n + 2) (by omega)).2 i hi (hm.binds_of_mem_witness hw)

theorem Condition.lower_less_computes_sign_wrapped :
    let m := (Memory.empty.assign "x" (-200)).assign "sym_0" 9
    let c := Condition.less (.var "x") (.var "sym_0")
    ∃ k, Runs (c.lower true 1).emitted m k ∧ k["sym_3"]? = some 47 ∧ k["sym_3_b5"]? = some 1 ∧
      k["sym_3_b7"]? = some 0 ∧ k["sym_0"]? = some 9 ∧ "sym_3_b7" ∈ k.witness := by
  intro m c
  have hm : m.Reached := (Memory.Reached.empty.assign "x" (-200)).assign "sym_0" 9
  have hmade : m.MadeUpTo 1 := by
    have hx := (Memory.madeUpTo_empty.assign (.inl (show Name.IsPlain "x" by decide)) (-200)).mono (Nat.zero_le 1)
    exact hx.assign (.inr (.temporary (j := 0) Nat.one_pos)) 9
  have hbound : ∀ y ∈ c.variables, m.Binds y := by
    intro y hy
    rcases List.mem_cons.mp hy with rfl | hy
    · exact ⟨-200, by decide⟩
    · exact List.mem_singleton.mp hy ▸ ⟨9, by decide⟩
  obtain ⟨-, k, hk, hd, hbits, -, -, hother, hw, -⟩ := lower_less_computes_sign hm rfl rfl hbound
    (a := -200) (b := 9) (by decide) (by decide) hmade.freshFrom rfl
  refine ⟨k, hk, hd, hbits 5 (by decide), hbits 7 (by decide), ?_, (hw _).mpr (.inr ⟨7, by decide, by decide⟩)⟩
  exact (hother "sym_0" (by decide) (by decide) (by decide) (by decide)).trans (by decide)

end Atoms

end FlatCircuit
