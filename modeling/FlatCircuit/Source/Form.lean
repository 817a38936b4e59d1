import FlatCircuit.Source.Error

namespace FlatCircuit

inductive Form where
  | atom (e : Expr)
  | operation (left : List Char) (op : Operator) (right : List Char)
  | power (base exponent : List Char)
  | choice (left : List Char) (comparison : Comparison) (right consequent alternative : List Char)

namespace Form

def isIdentifier : List Char → Bool
  | [] => false
  | c :: cs => c.isAlpha && cs.all Char.isAlphanum

def isNumeral (cs : List Char) : Bool :=
  cs ≠ [] && cs.all Char.isDigit

def withoutFinalBreak : List Char → List Char
  | [] => []
  | ['\n'] => []
  | c :: cs => c :: withoutFinalBreak cs

theorem length_withoutFinalBreak_le (cs : List Char) :
    (withoutFinalBreak cs).length ≤ cs.length := by
  fun_induction withoutFinalBreak cs with
  | case1 => simp
  | case2 => simp
  | case3 c cs _ ih => simpa using ih

/-- A line break after an atom belongs to the name of a variable, but not to a number. -/
def atom? (cs : List Char) : Option Expr :=
  if isIdentifier (withoutFinalBreak cs) then some (.var (.ofList cs))
  else if isNumeral (withoutFinalBreak cs) then
    some (.lit (Nat.ofDigitChars 10 (withoutFinalBreak cs) 0))
  else none

def restOfLine? (cs : List Char) : Option (List Char) :=
  let rest := withoutFinalBreak cs
  if rest ≠ [] ∧ '\n' ∉ rest then some rest else none

def operator? : Char → Option Operator
  | '+' => some .add
  | '-' => some .sub
  | '*' => some .mul
  | '/' => some .div
  | _ => none

def comparison? : List Char → Option (Comparison × List Char)
  | '<' :: '=' :: cs => some (.lessEqual, cs)
  | '>' :: '=' :: cs => some (.greaterEqual, cs)
  | '=' :: '=' :: cs => some (.equal, cs)
  | '!' :: '=' :: cs => some (.notEqual, cs)
  | '<' :: cs => some (.less, cs)
  | '>' :: cs => some (.greater, cs)
  | _ => none

def word? (cs : List Char) : Option (List Char × List Char) :=
  match cs.takeWhile Char.isAlphanum with
  | [] => none
  | word => some (word, cs.dropWhile Char.isAlphanum)

def power? (left : List Char) : List Char → Option Form
  | '*' :: '*' :: cs => (restOfLine? cs).map (.power left ·)
  | _ => none

def operation? (left : List Char) : List Char → Option Form
  | [] => none
  | c :: cs => do
    let op ← operator? c
    let right ← restOfLine? cs
    return .operation left op right

def branches? (cs : List Char) : Option (List Char × List Char) :=
  match cs.takeWhile (· ≠ ':'), cs.dropWhile (· ≠ ':') with
  | c :: consequent, _ :: d :: alternative =>
    if ':' ∈ d :: alternative then none else some (c :: consequent, d :: alternative)
  | _, _ => none

def choice? (left cs : List Char) : Option Form := do
  let (comparison, cs) ← comparison? cs
  let (right, cs) ← word? cs
  match cs with
  | '?' :: cs =>
    let (consequent, alternative) ← branches? cs
    return .choice left comparison right consequent alternative
  | _ => none

/-- Two stars are a power whenever something follows them. -/
def of? (cs : List Char) : Option Form :=
  match atom? cs with
  | some e => some (.atom e)
  | none => do
    let (left, rest) ← word? cs
    (power? left rest).or ((operation? left rest).or (choice? left rest))

variable {cs left rest right consequent alternative word : List Char} {op : Operator} {f : Form}

theorem eq_append_of_word? (h : word? cs = some (word, rest)) : cs = word ++ rest ∧ word ≠ [] := by
  simp only [word?] at h
  split at h
  · simp at h
  · next hw =>
    cases h
    exact ⟨List.takeWhile_append_dropWhile.symm, hw⟩

theorem length_lt_of_word? (h : word? cs = some (word, rest)) : rest.length < cs.length := by
  obtain ⟨rfl, hw⟩ := eq_append_of_word? h
  have := List.length_pos_iff.mpr hw
  rw [List.length_append]
  omega

theorem length_le_of_restOfLine? (h : restOfLine? cs = some rest) : rest.length ≤ cs.length := by
  simp only [restOfLine?, Option.ite_none_right_eq_some] at h
  obtain ⟨_, h⟩ := h
  cases h
  exact length_withoutFinalBreak_le cs

def Within (n : Nat) : Form → Prop
  | .operation _ _ right => right.length ≤ n
  | .choice _ _ _ consequent alternative => consequent.length ≤ n ∧ alternative.length ≤ n
  | _ => True

theorem Within.mono {m n : Nat} (hf : f.Within m) (h : m ≤ n) : f.Within n := by
  cases f with
  | atom => trivial
  | operation => exact Nat.le_trans hf h
  | power => trivial
  | choice => exact ⟨Nat.le_trans hf.1 h, Nat.le_trans hf.2 h⟩

theorem within_power? (h : power? left cs = some f) (n : Nat) : f.Within n := by
  unfold power? at h
  split at h
  · obtain ⟨_, _, rfl⟩ := Option.map_eq_some_iff.mp h
    trivial
  · simp at h

theorem within_operation? (h : operation? left cs = some f) : f.Within cs.length := by
  cases cs with
  | nil => simp [operation?] at h
  | cons c cs =>
    simp only [operation?, Option.bind_eq_bind, Option.bind_eq_some_iff] at h
    obtain ⟨op, _, right, hr, h⟩ := h
    cases h
    exact Nat.le_succ_of_le (length_le_of_restOfLine? hr)

theorem length_le_of_branches? (h : branches? cs = some (consequent, alternative)) :
    consequent.length ≤ cs.length ∧ alternative.length ≤ cs.length := by
  have hl := congrArg List.length (List.takeWhile_append_dropWhile (p := (· ≠ ':')) (l := cs))
  unfold branches? at h
  split at h
  · next ht hd =>
    simp only [ht, hd, List.length_append, List.length_cons] at hl
    split at h
    · simp at h
    · cases h
      simp only [List.length_cons]
      omega
  · simp at h

theorem length_le_of_comparison? {comparison : Comparison} (h : comparison? cs = some (comparison, rest)) :
    rest.length ≤ cs.length := by
  unfold comparison? at h
  split at h <;> cases h <;> simp <;> omega

theorem within_choice? (h : choice? left cs = some f) : f.Within cs.length := by
  simp only [choice?, Option.bind_eq_bind, Option.bind_eq_some_iff, Prod.exists] at h
  obtain ⟨comparison, after, hc, right, body, hw, h⟩ := h
  have hc := length_le_of_comparison? hc
  have hw := length_lt_of_word? hw
  split at h
  · simp only [Option.bind_eq_some_iff, Prod.exists] at h
    obtain ⟨consequent, alternative, hb, h⟩ := h
    cases h
    have hb := length_le_of_branches? hb
    simp only [List.length_cons] at hw
    exact ⟨by omega, by omega⟩
  · simp at h

theorem length_pos_of_of? (h : of? cs = some f) : 0 < cs.length := by
  cases cs with
  | nil => simp [of?, atom?, withoutFinalBreak, isIdentifier, isNumeral, word?] at h
  | cons c cs => simp

theorem within_of? (h : of? cs = some f) : f.Within (cs.length - 1) := by
  unfold of? at h
  split at h
  · cases h
    trivial
  · simp only [Option.bind_eq_bind, Option.bind_eq_some_iff, Prod.exists, Option.or_eq_some_iff] at h
    obtain ⟨left, rest, hw, h⟩ := h
    have hl := Nat.le_sub_one_of_lt (length_lt_of_word? hw)
    rcases h with h | ⟨_, h | ⟨_, h⟩⟩
    · exact within_power? h _
    · exact (within_operation? h).mono hl
    · exact (within_choice? h).mono hl

end Form

end FlatCircuit
