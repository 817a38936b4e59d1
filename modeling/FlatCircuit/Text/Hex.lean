namespace FlatCircuit.Text

def hex (width n : Nat) : List Char :=
  (Nat.toDigits 16 n).leftpad width '0'

theorem hex_ne_nil (width n : Nat) : hex width n ≠ [] := by
  simp [hex, List.leftpad, Nat.toDigits_ne_nil]

end FlatCircuit.Text
