import FlatCircuit.Document

namespace FlatCircuit

namespace Json

mutual

def same : Json → Json → Bool
  | .number m, .number n => decide (m = n)
  | .string s, .string t => decide (s = t)
  | .array items, .array others => sameItems items others
  | .object fields, .object others => decide (fields.length = others.length) && sameFields fields others
  | _, _ => false

def sameItems : List Json → List Json → Bool
  | [], [] => true
  | item :: items, other :: others => item.same other && sameItems items others
  | _, _ => false

def sameFields : List (String × Json) → List (String × Json) → Bool
  | [], _ => true
  | (key, value) :: fields, others => (others.lookup key).any value.same && sameFields fields others

end

variable {m n : Int} {s t kind kind' key : String} {value : Json} {items others : List Json}
  {fields fields' : List (String × Json)}

@[simp]
theorem same_number : (number m).same (number n) = true ↔ m = n := decide_eq_true_iff

@[simp]
theorem same_array : (array items).same (array others) = sameItems items others := rfl

end Json

open Json

end FlatCircuit
