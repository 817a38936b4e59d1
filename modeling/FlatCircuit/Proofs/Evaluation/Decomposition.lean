import Mathlib.Data.List.Nodup
import Mathlib.Tactic.Ring
import FlatCircuit.Proofs.Evaluation.Settled

namespace FlatCircuit

namespace Bits

variable (x : String)

theorem mem_names {y : String} : y ∈ names x ↔ ∃ i : Nat, i < width ∧ Name.bit x i = y := by
  simp only [names, List.mem_map, List.mem_range]

theorem eq_of_mem_names {x y z : String} (hx : z ∈ names x) (hy : z ∈ names y) : x = y := by
  obtain ⟨i, _, rfl⟩ := (mem_names x).mp hx
  obtain ⟨j, _, hj⟩ := (mem_names y).mp hy
  exact (Name.bit_inj.mp hj).1.symm

theorem nodup_names : (names x).Nodup := by
  apply List.Nodup.map _ List.nodup_range
  intro i j h
  exact (Name.bit_inj.mp h).2

theorem notMem_names_self : x ∉ names x := by
  intro h
  obtain ⟨i, _, hi⟩ := (mem_names x).mp h
  have hl := congrArg (fun y : String => y.toList.length) hi
  simp only [Name.toList_bit, List.length_append, List.length_cons] at hl
  omega

theorem mem_values {v : Int} {b : String × Int} :
    b ∈ values x v ↔ ∃ i : Nat, i < width ∧ (Name.bit x (i : Nat), bitOf v i) = b := by
  simp only [values, List.mem_map, List.mem_range, bitOf]

theorem bitOf_mul_self (v : Int) (i : Nat) : bitOf v i * bitOf v i = bitOf v i := by
  have h : bitOf v i = 0 ∨ bitOf v i = 1 := by
    unfold bitOf
    omega
  rcases h with h | h <;> rw [h] <;> rfl

theorem weight_pos (i : Nat) : 0 < weight i := by
  induction i with
  | zero => decide
  | succ i ih =>
    rw [weight]
    omega

theorem emod_weight_succ (w : Int) (i : Nat) :
    w / weight (i + 1) % 2 * weight (i + 1) + w % weight (i + 1) = w % weight (i + 2) := by
  have hw : weight (i + 2) = weight (i + 1) * 2 := by rw [weight, Int.mul_comm]
  have hq : w / weight (i + 1) / 2 = w / (weight (i + 1) * 2) :=
    Int.ediv_ediv_of_nonneg (Int.le_of_lt (weight_pos (i + 1)))
  rw [hw, Int.emod_def w (weight (i + 1) * 2), ← hq, Int.emod_def w, Int.emod_def _ 2]
  ring

end Bits

namespace Memory

variable {m : Memory} {bs : List (String × Int)} {x y : String} {v : Int}

theorem getElem?_foldl_addBit_of_notMem (h : y ∉ bs.map Prod.fst) : (bs.foldl addBit m)[y]? = m[y]? := by
  induction bs generalizing m with
  | nil => rfl
  | cons b bs ih =>
    rw [List.map_cons, List.mem_cons, not_or] at h
    rw [List.foldl_cons, ih h.2, getElem?_addBit, if_neg (Ne.symm h.1)]

theorem getElem?_foldl_addBit (hn : (bs.map Prod.fst).Nodup) {b : String × Int} (hb : b ∈ bs) :
    (bs.foldl addBit m)[b.1]? = some b.2 := by
  induction bs generalizing m with
  | nil => cases hb
  | cons c bs ih =>
    rw [List.map_cons, List.nodup_cons] at hn
    rw [List.foldl_cons]
    rcases List.mem_cons.mp hb with rfl | hb
    · rw [getElem?_foldl_addBit_of_notMem hn.1, getElem?_addBit, if_pos rfl]
    · exact ih hn.2 hb

theorem mem_witness_foldl_addBit :
    y ∈ (bs.foldl addBit m).witness ↔ y ∈ bs.map Prod.fst ∨ y ∈ m.witness := by
  induction bs generalizing m with
  | nil => simp
  | cons b bs ih =>
    have hb : y ∈ (m.addBit b).witness ↔ b.1 = y ∨ y ∈ m.witness := by
      simp only [addBit, Std.ExtTreeSet.mem_insert, Std.compare_eq_iff_eq]
    rw [List.foldl_cons, ih, hb, List.map_cons, List.mem_cons, eq_comm (a := y)]
    tauto

theorem getElem?_supply_bit {i : Nat} (hi : i < Bits.width) :
    (m.supply x v)[Name.bit x i]? = some (Bits.bitOf v i) := by
  have hn : ((Bits.values x v).map Prod.fst).Nodup := by
    rw [Bits.map_fst_values]
    exact Bits.nodup_names x
  exact getElem?_foldl_addBit hn ((Bits.mem_values x).mpr ⟨i, hi, rfl⟩)

theorem getElem?_supply_of_notMem (h : y ∉ Bits.names x) : (m.supply x v)[y]? = m[y]? := by
  apply getElem?_foldl_addBit_of_notMem
  rwa [Bits.map_fst_values]

theorem mem_witness_supply : y ∈ (m.supply x v).witness ↔ y ∈ Bits.names x ∨ y ∈ m.witness := by
  rw [← Bits.map_fst_values x v]
  exact mem_witness_foldl_addBit

theorem assign_eq_self (h : m[x]? = some v) : m.assign x v = m := by
  have hv : (m.assign x v).values = m.values := by
    apply Std.ExtTreeMap.ext_getElem?
    intro y
    have hy := m.getElem?_assign x y v
    simp only [getElem?_def] at hy h ⊢
    rw [hy]
    split
    · next he => rw [← he, h]
    · rfl
  exact congrArg (Memory.mk · m.witness) hv

theorem bitIndex?_toDigits {i : Nat} (hi : i < Bits.width) :
    bitIndex? (Nat.toDigits 10 i) = .ok (some i) := by
  have h : ∀ j < 8, bitIndex? (Nat.toDigits 10 j) = .ok (some j) := by decide
  exact h i hi

theorem owner?_bit (hx : x ≠ "") (hv : m[x]? = some v) {i : Nat} (hi : i < Bits.width) :
    m.owner? (Name.bit x i) = .ok (some (x, v)) := by
  simp only [owner?, Name.splitBit?_bit hx, bitIndex?_toDigits hi, hv, Except.map, Option.bind_some,
    Option.map_some]

end Memory

namespace Evaluation

variable {m k : Memory} {x : String} {v : Int}

theorem runFrom_lookup_bit (hx : x ≠ "") (hv : m[x]? = some v) {i : Nat} (hi : i < Bits.width)
    (hb : m[Name.bit x i]? = none) :
    (lookup (Name.bit x i)).runFrom m = (.ok (Bits.bitOf v i), m.supply x v) := by
  simp only [lookup, runFrom_bind, runFrom_get, hb, Memory.owner?_bit hx hv hi, runFrom_lift,
    runFrom_set, Memory.getElem?_supply_bit hi, runFrom_pure]

def Runs (ds : List Definition) (m k : Memory) : Prop :=
  ∀ es, (execute (ds ++ es)).runFrom m = (execute es).runFrom k

def Fails (ds : List Definition) (m : Memory) (err : Fault) (k : Memory) : Prop :=
  ∀ es, (execute (ds ++ es)).runFrom m = (.error err, k)

variable {ds es : List Definition} {i : Memory} {e : Expr} {err : Fault}

theorem Runs.nil (m : Memory) : Runs [] m m :=
  fun _ => rfl

theorem Runs.append (h : Runs ds m k) (hk : Runs es k i) : Runs (ds ++ es) m i := by
  intro fs
  rw [List.append_assoc, h, hk]

theorem Runs.fails (h : Runs ds m k) (hk : Fails es k err i) : Fails (ds ++ es) m err i := by
  intro fs
  rw [List.append_assoc, h, hk]

theorem Fails.append (h : Fails ds m err k) (es : List Definition) : Fails (ds ++ es) m err k := by
  intro fs
  rw [List.append_assoc, h]

theorem runs_of_define (h : (define x e).runFrom m = (.ok (), k)) : Runs [.assign x e] m k := by
  intro es
  exact runFrom_bind_ok m h _

theorem fails_of_define (h : (define x e).runFrom m = (.error err, k)) : Fails [.assign x e] m err k := by
  intro es
  exact runFrom_bind_error m h _

theorem runFrom_define (he : e.eval.runFrom m = (.ok v, k)) (hw : x ∈ k.witness → k[x]? = some v) :
    (define x e).runFrom m = (.ok (), k.assign x v) := by
  have hn : ¬ (x ∈ k.witness ∧ k[x]? ≠ some v) := fun h => h.2 (hw h.1)
  simp only [define, runFrom_bind, he, runFrom_get, if_neg hn]
  rfl

theorem runFrom_define_error (he : e.eval.runFrom m = (.error err, k)) :
    (define x e).runFrom m = (.error err, k) := by
  simp only [define, runFrom_bind, he]

theorem runs_bitConstraint {b : String} (ha : (lookup b).runFrom m = (.ok v, k)) (hk : k[b]? = some v)
    (hv : v * v = v) : Runs [Bits.bitConstraint b] m k := by
  have he : (Expr.bin .mul (.var b) (.var b)).eval.runFrom m = (.ok (v * v), k) := by
    have hb : (Expr.var b).eval.runFrom m = (.ok v, k) := ha
    have hb' : (Expr.var b).eval.runFrom k = (.ok v, k) := runFrom_lookup hk
    rw [Expr.eval_bin (by decide), runFrom_bind_ok m hb, runFrom_bind_ok k hb']
    exact runFrom_lift k (.ok (v * v))
  rw [hv] at he
  have hd := runFrom_define (x := b) he fun _ => hk
  rw [Memory.assign_eq_self hk] at hd
  exact runs_of_define hd

theorem runs_bitConstraints {bs : List String} (h : ∀ b ∈ bs, ∃ v : Int, m[b]? = some v ∧ v * v = v) :
    Runs (bs.map Bits.bitConstraint) m m := by
  induction bs with
  | nil => exact Runs.nil m
  | cons b bs ih =>
    obtain ⟨v, hb, hv⟩ := h b List.mem_cons_self
    refine (runs_bitConstraint (runFrom_lookup hb) hb hv).append (ih ?_)
    exact fun c hc => h c (List.mem_cons_of_mem _ hc)

theorem isKnown_weighted (i : Nat) :
    (Bits.weighted x i).isKnown = true ∧ (Bits.weighted x i).hasExponents = true := by
  induction i with
  | zero => exact ⟨rfl, rfl⟩
  | succ i ih => simp [Bits.weighted, Expr.isKnown, Expr.hasExponents, ih]

theorem mem_names_of_mem_weighted {i : Nat} (hi : i < Bits.width) {y : String}
    (hy : y ∈ (Bits.weighted x i).variables) : y ∈ Bits.names x := by
  induction i with
  | zero => exact (Bits.mem_names x).mpr ⟨0, hi, (List.mem_singleton.mp hy).symm⟩
  | succ i ih =>
    simp only [Bits.weighted, Expr.variables, List.append_nil, List.singleton_append,
      List.mem_cons] at hy
    rcases hy with rfl | hy
    · exact (Bits.mem_names x).mpr ⟨i + 1, hi, rfl⟩
    · exact ih (Nat.lt_of_succ_lt hi) hy

theorem value?_weighted {ρ : Reading}
    (h : ∀ i : Nat, i < Bits.width → m[Name.bit x i]? = some (Bits.bitOf v i)) {i : Nat}
    (hi : i < Bits.width) :
    (Bits.weighted x i).value? ρ m = some (v % Bits.modulus % Bits.weight (i + 1)) := by
  induction i with
  | zero =>
    have hb : Bits.bitOf v 0 = v % Bits.modulus % Bits.weight 1 := by
      rw [Bits.bitOf, Bits.weight, Int.ediv_one]
      rfl
    exact hb ▸ h 0 hi
  | succ i ih =>
    have hb := h (i + 1) hi
    have hw := ih (Nat.lt_of_succ_lt hi)
    simp only [Bits.weighted, Expr.value?, hb, hw, Option.bind_eq_bind, Option.bind_some,
      Operator.apply, Except.toOption, Option.some.injEq]
    exact Bits.emod_weight_succ _ i

theorem runFrom_weightedSum
    (h : ∀ i : Nat, i < Bits.width → m[Name.bit x i]? = some (Bits.bitOf v i)) :
    (Bits.weightedSum x).eval.runFrom m = (.ok (v % Bits.modulus), m) := by
  have hk := isKnown_weighted (x := x) (Bits.width - 1)
  have hs := Expr.settled_evalAs (ρ := .plain) (m := m) hk.1 hk.2 fun y hy => by
    obtain ⟨i, hi, rfl⟩ := (Bits.mem_names x).mp (mem_names_of_mem_weighted (by decide) hy)
    exact .inr ⟨_, h i hi⟩
  rw [Expr.evalAs_plain, value?_weighted h (by decide)] at hs
  have hv : v % Bits.modulus % Bits.weight (Bits.width - 1 + 1) = v % Bits.modulus :=
    Int.emod_emod_of_dvd v (Int.dvd_refl _)
  rw [hv] at hs
  exact hs.runFrom_ok

theorem runs_bits (hx : x ≠ "") (hv : m[x]? = some v) (hb : m[Name.bit x (0 : Nat)]? = none) :
    Runs ((Bits.names x).map Bits.bitConstraint) m (m.supply x v) := by
  have hbits : ∀ i : Nat, i < Bits.width →
      (m.supply x v)[Name.bit x i]? = some (Bits.bitOf v i) :=
    fun i hi => Memory.getElem?_supply_bit hi
  -- Only the first constraint finds its bit unbound, and it leaves the other bits bound too.
  have hfirst : Runs [Bits.bitConstraint (Name.bit x (0 : Nat))] m (m.supply x v) :=
    runs_bitConstraint (runFrom_lookup_bit hx hv (by decide) hb) (hbits 0 (by decide))
      (Bits.bitOf_mul_self v 0)
  have hrest : Runs ((Bits.names x).tail.map Bits.bitConstraint) (m.supply x v) (m.supply x v) := by
    apply runs_bitConstraints
    intro b hb
    obtain ⟨i, hi, rfl⟩ := (Bits.mem_names x).mp (List.mem_of_mem_tail hb)
    exact ⟨_, hbits i hi, Bits.bitOf_mul_self v i⟩
  exact hfirst.append hrest

theorem runs_constraints (hx : x ≠ "") (hv : m[x]? = some v) (hb : m[Name.bit x (0 : Nat)]? = none)
    (hw : x ∉ m.witness) :
    Runs (Bits.constraints x) m ((m.supply x v).assign x (v % Bits.modulus)) := by
  have hlast : Runs [.assign x (Bits.weightedSum x)] (m.supply x v)
      ((m.supply x v).assign x (v % Bits.modulus)) := by
    apply runs_of_define
    apply runFrom_define (runFrom_weightedSum fun i hi => Memory.getElem?_supply_bit hi)
    intro h
    rcases Memory.mem_witness_supply.mp h with h | h
    · exact absurd h (Bits.notMem_names_self x)
    · exact absurd h hw
  exact (runs_bits hx hv hb).append hlast

end Evaluation

namespace Memory

variable {m : Memory} {x y : String} {v : Int}

def decompose (m : Memory) (x : String) (v : Int) : Memory :=
  ((m.assign x v).supply x v).assign x (v % Bits.modulus)

theorem getElem?_decompose_bit {i : Nat} (hi : i < Bits.width) :
    (m.decompose x v)[Name.bit x i]? = some (Bits.bitOf v i) := by
  have hne : x ≠ Name.bit x i := fun h =>
    Bits.notMem_names_self x ((Bits.mem_names x).mpr ⟨i, hi, h.symm⟩)
  rw [decompose, getElem?_assign, if_neg hne, getElem?_supply_bit hi]

theorem getElem?_decompose_of_ne (hx : x ≠ y) (hy : y ∉ Bits.names x) :
    (m.decompose x v)[y]? = m[y]? := by
  rw [decompose, getElem?_assign, if_neg hx, getElem?_supply_of_notMem hy, getElem?_assign, if_neg hx]

theorem mem_witness_decompose : y ∈ (m.decompose x v).witness ↔ y ∈ Bits.names x ∨ y ∈ m.witness := by
  rw [decompose, witness_assign, mem_witness_supply, witness_assign]

end Memory

namespace Evaluation

theorem runs_group {m : Memory} {x y d : String} {a b : Int} (hd : d ≠ "") (hx : m[x]? = some a)
    (hy : m[y]? = some b) (hb : m[Name.bit d (0 : Nat)]? = none) (hw : d ∉ m.witness) :
    Runs (.assign d (.bin .sub (.var x) (.var y)) :: Bits.constraints d) m (m.decompose d (a - b)) := by
  have hsub : (Expr.bin .sub (.var x) (.var y)).eval.runFrom m = (.ok (a - b), m) := by
    have hx' : (Expr.var x).eval.runFrom m = (.ok a, m) := runFrom_lookup hx
    have hy' : (Expr.var y).eval.runFrom m = (.ok b, m) := runFrom_lookup hy
    rw [Expr.eval_bin (by decide), runFrom_bind_ok m hx', runFrom_bind_ok m hy']
    exact runFrom_lift m (.ok (a - b))
  have hhead : Runs [.assign d (.bin .sub (.var x) (.var y))] m (m.assign d (a - b)) :=
    runs_of_define (runFrom_define hsub fun h => absurd h hw)
  have hne : d ≠ Name.bit d (0 : Nat) := fun h =>
    Bits.notMem_names_self d ((Bits.mem_names d).mpr ⟨0, by decide, h.symm⟩)
  refine hhead.append (runs_constraints hd ?_ ?_ hw)
  · rw [Memory.getElem?_assign, if_pos rfl]
  · rw [Memory.getElem?_assign, if_neg hne, hb]

end Evaluation

end FlatCircuit
