namespace FlatCircuit.Text

abbrev Ranges := List (Nat × Nat)

namespace Ranges

variable (r s : Ranges) (c : Char)

def contains : Bool :=
  r.any fun (first, last) => decide (first ≤ c.toNat) && decide (c.toNat ≤ last)

theorem contains_iff :
    r.contains c = true ↔ ∃ p ∈ r, p.1 ≤ c.toNat ∧ c.toNat ≤ p.2 := by
  simp [contains]

theorem contains_append : contains (r ++ s) c = (r.contains c || s.contains c) :=
  List.any_append

end Ranges

end FlatCircuit.Text
