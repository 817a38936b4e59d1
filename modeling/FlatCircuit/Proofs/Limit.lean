import FlatCircuit.Text.Limit
import Mathlib.Data.Nat.Digits.Defs

namespace FlatCircuit

theorem ofDigitChars_lt {cs : List Char} (h : ∀ c ∈ cs, c.isDigit = true) :
    Nat.ofDigitChars 10 cs 0 < 10 ^ cs.length := by
  have hbound : ∀ cs : List Char, (∀ c ∈ cs, c.isDigit = true) → ∀ n,
      Nat.ofDigitChars 10 cs n < 10 ^ cs.length * (n + 1) := by
    intro cs
    induction cs with
    | nil => intro _ n; simp [Nat.ofDigitChars]
    | cons c cs ih =>
      intro h n
      obtain ⟨hc, hcs⟩ := List.forall_mem_cons.mp h
      have hd : c.toNat - '0'.toNat < 10 := by
        obtain ⟨hl, hg⟩ : 48 ≤ c.toNat ∧ c.toNat ≤ 57 := by simpa [Char.isDigit, UInt32.le_iff_toNat_le] using hc
        show c.toNat - 48 < 10
        omega
      rw [Nat.ofDigitChars_cons, List.length_cons, Nat.pow_succ, Nat.mul_assoc]
      refine Nat.lt_of_lt_of_le (ih hcs _) (Nat.mul_le_mul_left _ ?_)
      omega
  have h₀ := hbound cs h 0
  rwa [Nat.zero_add, Nat.mul_one] at h₀

namespace DigitLimit

variable {limit : DigitLimit} {cs : List Char}

theorem writes_ofDigitChars (hd : ∀ c ∈ cs, c.isDigit = true) (h : limit.reads cs = true) :
    limit.writes (Nat.ofDigitChars 10 cs 0 : Nat) = true := by
  unfold reads at h
  unfold writes
  cases hl : limit.digits with
  | none => rfl
  | some d =>
    rw [hl] at h
    have hle : cs.length ≤ d := of_decide_eq_true h
    exact decide_eq_true (Nat.lt_of_lt_of_le (ofDigitChars_lt hd) (Nat.pow_le_pow_right (by decide) hle))

theorem writes_of_natAbs_le {n m : Int} (hle : m.natAbs ≤ n.natAbs) (h : limit.writes n = true) :
    limit.writes m = true := by
  unfold writes at h ⊢
  cases hl : limit.digits with
  | none => rfl
  | some d =>
    rw [hl] at h
    exact decide_eq_true (Nat.lt_of_le_of_lt hle (of_decide_eq_true h))

theorem digits_ne_none_of_reads (h : limit.reads cs = false) : limit.digits ≠ none := by
  intro hn
  simp [reads, hn] at h

theorem digits_ne_none_of_writes {n : Int} (h : limit.writes n = false) : limit.digits ≠ none := by
  intro hn
  simp [writes, hn] at h

end DigitLimit

end FlatCircuit
