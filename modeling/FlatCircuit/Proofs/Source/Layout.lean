import FlatCircuit.Proofs.Source.Limited

namespace FlatCircuit.Source

open Text

inductive Layout : List (List Char) → List (List Char) → Type
  | nil : Layout [] []
  | insert {lines lines' : List (List Char)} (line : List Char) : isSkipped (strip line) = true →
      Layout lines lines' → Layout lines (line :: lines')
  | keep {lines lines' : List (List Char)} (before line after : List Char) :
      (∀ c ∈ before, isBlank c = true) → (∀ c ∈ after, isBlank c = true) →
      Layout lines lines' → Layout (line :: lines) ((before ++ line ++ after) :: lines')

namespace Layout

/-- The place that the line at a place comes to, both counted from zero. -/
def place {lines lines' : List (List Char)} : Layout lines lines' → Nat → Nat
  | .nil, i => i
  | .insert _ _ l, i => l.place i + 1
  | .keep _ _ _ _ _ _, 0 => 0
  | .keep _ _ _ _ _ l, i + 1 => l.place i + 1

/-- The new number of a line, where lines are counted from one and zero is no line. -/
def number {lines lines' : List (List Char)} (l : Layout lines lines') : Nat → Nat
  | 0 => 0
  | i + 1 => l.place i + 1

end Layout

variable {cs before line after : List Char} {lines lines' : List (List Char)}

end FlatCircuit.Source
