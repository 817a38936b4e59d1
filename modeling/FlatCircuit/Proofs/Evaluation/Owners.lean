import FlatCircuit.Proofs.Evaluation.Decomposition

namespace FlatCircuit

namespace Bits

variable {x y : String} {v : Int}

theorem weight_eq (i : Nat) : weight i = 2 ^ i := by
  induction i with
  | zero => rfl
  | succ i ih => rw [weight, ih, pow_succ, mul_comm]

theorem bitOf_eq_ediv (v : Int) (i : Nat) : bitOf v i = v % 256 / 2 ^ i % 2 := by
  rw [bitOf, weight_eq]
  rfl

theorem mem_names_iff : y ∈ names x ↔ ∃ i : Nat, i < 8 ∧ y = Name.bit x i := by
  simp only [mem_names, eq_comm]
  rfl

theorem notMem_names_iff : y ∉ names x ↔ ∀ i : Nat, i < 8 → y ≠ Name.bit x i := by
  simp only [mem_names_iff, not_exists, not_and, ne_eq]

end Bits

open Evaluation

namespace Name

/-- The names of bits determine owner and number, and those of temporaries their number; the two are never the
same. A bit of a bound value that is not bound itself is found by its name, and the lookup binds all eight. -/
theorem bit_decodes_uniquely :
    (∀ (x y : String) (i j : Nat), bit x i = bit y j → x = y ∧ i = j) ∧
    (∀ m n : Nat, temporary m = temporary n → m = n) ∧
    (∀ n m i : Nat, temporary n ≠ bit (temporary m) i) ∧
    ∀ (x : String) (i : Nat) (m : Memory) (v : Int), x ≠ "" → i < 8 → m[x]? = some v → m[bit x i]? = none →
      (∃ index, (bit x i).toList = x.toList ++ '_' :: 'b' :: index ∧ ¬ ['_', 'b'] <:+: index ∧
        splitBit? (bit x i) = some (x, index) ∧ Memory.bitIndex? index = .ok (some i)) ∧
      ∃ k, (lookup (bit x i)).runFrom m = (.ok (v % 256 / 2 ^ i % 2), k) ∧
        (∀ j : Nat, j < 8 → k[bit x j]? = some (v % 256 / 2 ^ j % 2)) ∧
        (∀ y : String, (∀ j : Nat, j < 8 → y ≠ bit x j) → k[y]? = m[y]?) ∧
        ∀ y, y ∈ k.witness ↔ (∃ j : Nat, j < 8 ∧ y = bit x j) ∨ y ∈ m.witness := by
  refine ⟨fun x y i j => bit_inj.mp, fun m n => temporary_inj.mp, fun n m i => temporary_ne_bit n _ i, ?_⟩
  intro x i m v hx hi hv hb
  have hlast := splitAtLastMark_eq_some_iff.mp (splitAtLastMark_bit x i)
  refine ⟨⟨_, hlast.1, hlast.2, splitBit?_bit hx i, Memory.bitIndex?_toDigits hi⟩, m.supply x v, ?_, ?_, ?_, ?_⟩
  · rw [runFrom_lookup_bit hx hv hi hb, Bits.bitOf_eq_ediv]
  · intro j hj
    rw [Memory.getElem?_supply_bit hj, Bits.bitOf_eq_ediv]
  · intro y hy
    exact Memory.getElem?_supply_of_notMem (Bits.notMem_names_iff.mpr hy)
  · intro y
    rw [Memory.mem_witness_supply, Bits.mem_names_iff]

theorem bit_decodes_uniquely_nested :
    let m := (Memory.empty.assign "a" 9).assign "a_b7" (-3)
    "a_b7" ≠ "" ∧ m["a_b7"]? = some (-3) ∧ m[bit "a_b7" (1 : Nat)]? = none ∧
      splitBit? "a_b7_b1" = some ("a_b7", ['1']) ∧
      ∃ k, (lookup (bit "a_b7" (1 : Nat))).runFrom m = (.ok 0, k) ∧ k[bit "a_b7" (7 : Nat)]? = some 1 ∧
        k[bit "a" (1 : Nat)]? = none := by
  intro m
  have hv : m["a_b7"]? = some (-3) := by decide
  have hb : m[bit "a_b7" (1 : Nat)]? = none := by decide
  obtain ⟨-, k, hk, hbits, hother, -⟩ := bit_decodes_uniquely.2.2.2 "a_b7" 1 m (-3) (by decide) (by decide) hv hb
  refine ⟨by decide, hv, hb, by decide, k, hk, hbits 7 (by decide), ?_⟩
  exact (hother _ (by decide)).trans (by decide)

end Name

end FlatCircuit
