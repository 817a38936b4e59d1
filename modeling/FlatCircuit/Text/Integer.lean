import FlatCircuit.Text.Digit
import FlatCircuit.Text.Limit

namespace FlatCircuit.Text

def ungroup? : List Char → Option (List Char)
  | [] => none
  | ['_'] => none
  | [c] => some [c]
  | '_' :: _ => none
  | c :: '_' :: cs => (ungroup? cs).map (c :: ·)
  | c :: d :: cs => (ungroup? (d :: cs)).map (c :: ·)

variable (limit : DigitLimit)

def natural? (cs : List Char) : Option Nat := do
  let digits ← ungroup? cs
  if limit.reads digits then decimal? digits else none

def integer? : List Char → Option Int
  | '-' :: cs => (natural? limit cs).map fun n => -(n : Int)
  | '+' :: cs => (natural? limit cs).map Int.ofNat
  | cs => (natural? limit cs).map Int.ofNat

end FlatCircuit.Text
