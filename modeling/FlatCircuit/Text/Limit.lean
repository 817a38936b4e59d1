/-! A limit on the length of numbers where integers and decimal digits are converted into each other. It is a
setting of the process, which the program neither makes nor looks at: there is no limit, or it is a number of
digits, 4300 unless it was set, and never less than 640. What stands on a number that is too long is given up,
and of all that the program does only the arguments of the command line are still reported as wrong then.

Functions that know of no limit are those of a process without one. Numbers that count parts of a program stay
far below 640 digits, and are converted as they are. -/

namespace FlatCircuit

structure DigitLimit where
  digits : Option Nat
  least : ∀ d ∈ digits, 640 ≤ d

namespace DigitLimit

def free : DigitLimit :=
  ⟨none, nofun⟩

variable (limit : DigitLimit)

/-- Signs are not counted, leading zeros are. -/
def reads (digits : List Char) : Bool :=
  limit.digits.all (digits.length ≤ ·)

def writes (n : Int) : Bool :=
  limit.digits.all (n.natAbs < Nat.pow 10 ·)

@[simp]
theorem reads_free (digits : List Char) : free.reads digits = true := rfl

@[simp]
theorem writes_free (n : Int) : free.writes n = true := rfl

theorem writes_of_lt {n : Int} {k : Nat} (hk : k ≤ 640) (h : n.natAbs < Nat.pow 10 k) : limit.writes n = true := by
  unfold writes
  cases hd : limit.digits with
  | none => rfl
  | some d =>
    have hle : k ≤ d := Nat.le_trans hk (limit.least d hd)
    exact decide_eq_true (Nat.lt_of_lt_of_le h (Nat.pow_le_pow_right (by decide) hle))

end DigitLimit

/-- How a computation stops short: at a number that is too long, or with an error of its own. -/
inductive Halt (ε : Type) where
  | overlong
  | raised (err : ε)
deriving DecidableEq, Repr

namespace Halt

variable {ε δ : Type}

def map (f : ε → δ) : Halt ε → Halt δ
  | overlong => overlong
  | raised err => raised (f err)

def showing (limit : DigitLimit) (numbers : List Int) (err : ε) : Halt ε :=
  if numbers.all limit.writes then raised err else overlong

@[simp]
theorem showing_free (numbers : List Int) (err : ε) : showing .free numbers err = raised err := by
  simp [showing]

theorem showing_eq_raised_iff {limit : DigitLimit} {numbers : List Int} {err other : ε} :
    showing limit numbers err = raised other ↔ (∀ n ∈ numbers, limit.writes n = true) ∧ err = other := by
  rw [showing, ← List.all_eq_true]
  cases numbers.all limit.writes <;> simp

theorem showing_eq_overlong_iff {limit : DigitLimit} {numbers : List Int} {err : ε} :
    showing limit numbers err = overlong ↔ ∃ n ∈ numbers, limit.writes n = false := by
  have hall : numbers.all limit.writes = false ↔ ∃ n ∈ numbers, limit.writes n = false := by
    simp only [List.all_eq_false, Bool.not_eq_true]
  rw [showing, ← hall]
  cases numbers.all limit.writes <;> simp

end Halt

end FlatCircuit
