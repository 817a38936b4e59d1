import FlatCircuit.Source.Form
import FlatCircuit.Text.Blank

/-! The header of a function: `def`, a name, the parameters between parentheses, and a colon, with blanks
between any two of them. Parameters are distinct words of lower-case letters, and there is at least one. -/

namespace FlatCircuit

structure Header where
  function : String
  parameters : List String
deriving DecidableEq, Repr

namespace Header

open Text

def isWord (cs : List Char) : Bool :=
  cs ≠ [] && cs.all Char.isLower

def repeated? (seen : List String) : List String → Option String
  | [] => none
  | x :: xs => if x ∈ seen then some x else repeated? (x :: seen) xs

theorem repeated?_eq_none_iff {seen xs : List String} :
    repeated? seen xs = none ↔ xs.Nodup ∧ ∀ x ∈ xs, x ∉ seen := by
  induction xs generalizing seen with
  | nil => simp [repeated?]
  | cons x xs ih =>
    simp only [repeated?]
    split
    · next h => simp [h]
    · next h =>
      rw [ih]
      grind

def readParameters (arguments : List Char) : Except SourceCause (List String) :=
  let names := (arguments.splitOn ',').map strip
  if names.all isWord then
    match repeated? [] (names.map .ofList) with
    | none => .ok (names.map .ofList)
    | some x => .error (.duplicateParameter x)
  else .error (.malformedArguments (.ofList arguments))

def isParenthesis (c : Char) : Bool :=
  c = '(' || c = ')'

def afterDef? (cs : List Char) : Option (List Char × List Char) := do
  let c :: _ := cs | none
  guard (isBlank c)
  let (name, cs) ← Form.word? (stripStart cs)
  guard (Form.isIdentifier name)
  let '(' :: cs := stripStart cs | none
  let ')' :: rest := cs.dropWhile (!isParenthesis ·) | none
  let ':' :: rest := stripStart rest | none
  guard (stripStart rest = [])
  return (name, cs.takeWhile (!isParenthesis ·))

def def? : List Char → Option (List Char)
  | 'd' :: 'e' :: 'f' :: cs => some cs
  | _ => none

end Header

end FlatCircuit
