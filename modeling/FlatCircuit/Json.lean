import FlatCircuit.Text.Hex
import FlatCircuit.Text.Limit

namespace FlatCircuit

inductive Json where
  | number (n : Int)
  | string (s : String)
  | array (items : List Json)
  | object (fields : List (String × Json))

namespace Json

open Text

def escapedUnit (n : Nat) : List Char :=
  '\\' :: 'u' :: hex 4 n

def escapedUnits (n : Nat) : List Char :=
  if n < 0x10000 then escapedUnit n
  else
    escapedUnit (0xd800 + (n - 0x10000) / 0x400) ++ escapedUnit (0xdc00 + (n - 0x10000) % 0x400)

def escape (c : Char) : List Char :=
  if c = '\x22' ∨ c = '\\' then ['\\', c]
  else if c = '\n' then ['\\', 'n']
  else if c = '\r' then ['\\', 'r']
  else if c = '\t' then ['\\', 't']
  else if c = '\x08' then ['\\', 'b']
  else if c = '\x0c' then ['\\', 'f']
  else if 0x20 ≤ c.toNat ∧ c.toNat < 0x7f then [c]
  else escapedUnits c.toNat

def quoted (s : String) : String :=
  .ofList ('\x22' :: (s.toList.flatMap escape ++ ['\x22']))

def lineBreak (depth : Nat) : String :=
  .ofList ('\n' :: List.replicate (2 * depth) ' ')

def layOut (depth : Nat) (first last : String) : List String → String
  | [] => first ++ last
  | items =>
    first ++ lineBreak (depth + 1) ++ ("," ++ lineBreak (depth + 1)).intercalate items ++
      lineBreak depth ++ last

mutual

def write (depth : Nat) : Json → String
  | .number n => toString n
  | .string s => quoted s
  | .array items => layOut depth "[" "]" (writeItems (depth + 1) items)
  | .object fields => layOut depth "\x7b" "\x7d" (writeFields (depth + 1) fields)

def writeItems (depth : Nat) : List Json → List String
  | [] => []
  | item :: items => item.write depth :: writeItems depth items

def writeFields (depth : Nat) : List (String × Json) → List String
  | [] => []
  | (key, value) :: fields => (quoted key ++ ": " ++ value.write depth) :: writeFields depth fields

end

def text (document : Json) : String :=
  document.write 0

mutual

def numbers : Json → List Int
  | .number n => [n]
  | .string _ => []
  | .array items => numbersOfItems items
  | .object fields => numbersOfFields fields

def numbersOfItems : List Json → List Int
  | [] => []
  | item :: items => item.numbers ++ numbersOfItems items

def numbersOfFields : List (String × Json) → List Int
  | [] => []
  | (_, value) :: fields => value.numbers ++ numbersOfFields fields

end

def textWithin (limit : DigitLimit) (document : Json) : Except (Halt ε) String :=
  if document.numbers.all limit.writes then .ok document.text else .error .overlong

end Json

end FlatCircuit
