import FlatCircuit.Source.Program

/-! Reading where the length of numbers is limited. Numbers are converted one by one as they are met, so those
that matter are the ones that stand before whatever ends the reading. -/

namespace FlatCircuit

def DigitLimit.reading (limit : DigitLimit) (numerals : List (List Char)) (x : Except (Halt ε) α) :
    Except (Halt ε) α :=
  if numerals.all limit.reads then x else .error .overlong

namespace Source

def numeral (cs : List Char) : List (List Char) :=
  if Form.isNumeral cs then [cs] else []

def atomNumerals (cs : List Char) : List (List Char) :=
  numeral (Form.withoutFinalBreak cs)

/-- What comes after a part is read only if the part is. -/
def upTo (part : Except ε α) (numerals rest : List (List Char)) : List (List Char) :=
  numerals ++ if part.isOk then rest else []

def conditionNumerals (left : List Char) (comparison : Comparison) (right : List Char) : List (List Char) :=
  match comparison with
  | .less => upTo (readAtom .unreadableCompared left) (atomNumerals left) (atomNumerals right)
  | _ => []

def exprNumerals (text : List Char) : List (List Char) :=
  match _h : Form.of? (withoutSpaces text) with
  | none => []
  | some (.atom _) => atomNumerals (withoutSpaces text)
  | some (.operation left _ right) =>
    upTo (readAtom .unreadableOperand left) (atomNumerals left) (exprNumerals right)
  | some (.power base exponent) =>
    upTo (readAtom .unreadableOperand base) (atomNumerals base) (numeral exponent)
  | some (.choice left comparison right consequent alternative) =>
    upTo (readCondition left comparison right) (conditionNumerals left comparison right)
      (upTo (readExpr consequent) (exprNumerals consequent) (exprNumerals alternative))
termination_by text.length
decreasing_by
  all_goals
    have hw := Form.within_of? ‹_›
    have hp := Form.length_pos_of_of? ‹_›
    have hl := length_withoutSpaces_le text
    simp only [Form.Within] at hw
    omega

def definitionNumerals (cs : List Char) : List (List Char) :=
  match returned? cs with
  | some rest => exprNumerals rest
  | none => (equation? cs).elim [] fun (_, rest) => exprNumerals rest

def bodyNumerals : List (List Char) → List (List Char)
  | [] => []
  | line :: rest =>
    let cs := Text.strip line
    if isSkipped cs then bodyNumerals rest
    else upTo (readDefinition cs) (definitionNumerals cs) (bodyNumerals rest)

/-- Numbers stand in the body only, which is read if the line of the header is. -/
def lineNumerals : List (List Char) → List (List Char)
  | [] => []
  | line :: rest =>
    let cs := Text.strip line
    if (Header.def? cs).isSome then upTo (readHeader 1 [line]) [] (bodyNumerals rest)
    else if isSkipped cs then lineNumerals rest
    else []

def readLinesWithin (limit : DigitLimit) (lines : List (List Char)) : Except (Halt SourceError) Program :=
  limit.reading (lineNumerals lines) ((readLines lines).mapError (·.halt limit))

end Source

def Expr.readWithin (limit : DigitLimit) (s : String) : Except (Halt SourceCause) Expr :=
  limit.reading (Source.exprNumerals s.toList) ((Expr.read s).mapError .raised)

def Program.readWithin (limit : DigitLimit) (s : String) : Except (Halt SourceError) Program :=
  Source.readLinesWithin limit (Text.lines s.toList)

end FlatCircuit
