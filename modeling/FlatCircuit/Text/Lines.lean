import FlatCircuit.Text.Ranges

namespace FlatCircuit.Text

def lineBreaks : Ranges := [
  (0x000a, 0x000d), (0x001c, 0x001e), (0x0085, 0x0085), (0x2028, 0x2029)]

def isLineBreak (c : Char) : Bool :=
  lineBreaks.contains c

def consFirst (c : Char) : List (List Char) → List (List Char)
  | [] => [[c]]
  | line :: rest => (c :: line) :: rest

/-- A carriage return and the line feed after it are one break. -/
def lines : List Char → List (List Char)
  | [] => []
  | '\r' :: '\n' :: cs => [] :: lines cs
  | c :: cs => if isLineBreak c then [] :: lines cs else consFirst c (lines cs)

end FlatCircuit.Text
