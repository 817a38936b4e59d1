import FlatCircuit.Command.Options
import FlatCircuit.Proofs.Text

namespace FlatCircuit.Text

variable {c : Char} {cs : List Char}

end FlatCircuit.Text

namespace FlatCircuit.Command

open Text

def digits (zeros n : Nat) : List Char :=
  List.replicate zeros '0' ++ Nat.toDigits 10 n

/-- A number, its digits, and the text in which they stand. -/
inductive Numeral : Int → List Char → List Char → Prop
  | bare (zeros n : Nat) : Numeral n (digits zeros n) (digits zeros n)
  | plus (zeros n : Nat) : Numeral n (digits zeros n) ('+' :: digits zeros n)
  | minus (zeros n : Nat) : Numeral (-n) (digits zeros n) ('-' :: digits zeros n)

section Numerals

variable {limit : DigitLimit} {zeros n : Nat} {i : Int} {c : Char} {cs ds : List Char}

theorem isDigit_of_mem_digits (h : c ∈ digits zeros n) : c.isDigit = true := by
  rcases List.mem_append.mp h with h | h
  · rw [List.eq_of_mem_replicate h]
    rfl
  · exact Nat.isDigit_of_mem_toDigits (by decide) (by decide) h

theorem digits_ne_nil (zeros n : Nat) : digits zeros n ≠ [] := by
  intro h
  exact Nat.toDigits_ne_nil (List.append_eq_nil_iff.mp h).2

theorem Numeral.forall_mem (h : Numeral i ds cs) : cs ≠ [] ∧ ∀ c ∈ cs, isBlank c = false ∧ c ≠ ',' := by
  have hdigits : ∀ zeros n, ∀ c ∈ digits zeros n, isBlank c = false ∧ c ≠ ',' := by
    intro zeros n c hc
    have hd := isDigit_of_mem_digits hc
    refine ⟨isBlank_eq_false_of_isDigit hd, ?_⟩
    rintro rfl
    cases hd
  cases h with
  | bare zeros n => exact ⟨digits_ne_nil zeros n, hdigits zeros n⟩
  | plus zeros n => exact ⟨List.cons_ne_nil _ _, List.forall_mem_cons.mpr ⟨by decide, hdigits zeros n⟩⟩
  | minus zeros n => exact ⟨List.cons_ne_nil _ _, List.forall_mem_cons.mpr ⟨by decide, hdigits zeros n⟩⟩

theorem Numeral.tight (h : Numeral i ds cs) : Tight cs := by
  obtain ⟨hne, hcs⟩ := h.forall_mem
  exact ⟨cs.head hne, cs.getLast hne, List.head?_eq_some_head hne, List.getLast?_eq_some_getLast hne,
    (hcs _ (List.head_mem hne)).1, (hcs _ (List.getLast_mem hne)).1⟩

end Numerals

section Lists

variable {limit : DigitLimit} {ns : List Int} {dss parts : List (List Char)} {text : String}

end Lists

end FlatCircuit.Command
