import FlatCircuit.Text.Hex
import FlatCircuit.Text.Printable

/-! Quoted text for messages. The mark is the single one, unless the text holds single marks and no
double ones. The mark itself, backslashes and all that has no visible form are escaped. Where room is short,
the quoted text is cut off, be it before the closing mark. -/

namespace FlatCircuit.Text

def quotationMark (cs : List Char) : Char :=
  if '\x27' ∈ cs ∧ '\x22' ∉ cs then '\x22' else '\x27'

def escapeQuoted (mark c : Char) : List Char :=
  if c = mark ∨ c = '\\' then ['\\', c]
  else if c = '\n' then ['\\', 'n']
  else if c = '\r' then ['\\', 'r']
  else if c = '\t' then ['\\', 't']
  else if isPrintable c then [c]
  else if c.toNat < 0x100 then '\\' :: 'x' :: hex 2 c.toNat
  else if c.toNat < 0x10000 then '\\' :: 'u' :: hex 4 c.toNat
  else '\\' :: 'U' :: hex 8 c.toNat

def quote (s : String) : String :=
  let mark := quotationMark s.toList
  .ofList (mark :: (s.toList.flatMap (escapeQuoted mark) ++ [mark]))

def quoteUpTo (limit : Nat) (s : String) : String :=
  .ofList ((quote s).toList.take limit)

theorem quoteUpTo_of_length_le {limit : Nat} {s : String} (h : (quote s).length ≤ limit) :
    quoteUpTo limit s = quote s := by
  rw [quoteUpTo, List.take_of_length_le (String.length_toList ▸ h), String.ofList_toList]

end FlatCircuit.Text
