import FlatCircuit.Text.Blank
import FlatCircuit.Text.Integer

/-! The arguments of the command line, texts of Unicode characters, read from left to right. The first wrong one is
reported, and a request for help counts as soon as it is met. A number that is too long is wrong like any other
text that is no number. -/

namespace FlatCircuit.Command

open Text

inductive Phase where
  | parse
  | flatten
deriving DecidableEq, Repr

structure Options where
  phase : Phase
  json : Bool
  strict : Bool
  check : Bool
  arguments : Option (List Int)
  input : Option String
  output : Option String
deriving DecidableEq, Repr

inductive Request where
  | help
  | compile (o : Options)
deriving DecidableEq, Repr

inductive UsageError where
  | missingValue (flag : String)
  | unknownPhase (value : String)
  | badArguments (value : String)
  | unknownFlag (flag : String)
  | unexpected (argument : String)
deriving DecidableEq, Repr

def UsageError.message : UsageError → String
  | .missingValue flag => flag ++ " requires an argument"
  | .unknownPhase v => "unknown phase '" ++ v ++ "'"
  | .badArguments v => "invalid --run arguments '" ++ v ++ "'"
  | .unknownFlag flag => "unknown flag '" ++ flag ++ "'"
  | .unexpected a => "unexpected argument '" ++ a ++ "'"

def integers? (limit : DigitLimit) (cs : List Char) : Option (List Int) :=
  (((cs.splitOn ',').map strip).filter (· ≠ [])).mapM (integer? limit)

namespace Options

def initial : Options :=
  ⟨.flatten, false, false, false, none, none, none⟩

variable (limit : DigitLimit) (o : Options)

def switched? : String → Option Options
  | "--json" => some { o with json := true }
  | "--strict-pow" => some { o with strict := true }
  | "--check" => some { o with check := true }
  | _ => none

def stopAt : String → Except UsageError Options
  | "parse" => .ok { o with phase := .parse }
  | "flatten" => .ok { o with phase := .flatten }
  | v => .error (.unknownPhase v)

def runOn (v : String) : Except UsageError Options :=
  match integers? limit v.toList with
  | some ns => .ok { o with arguments := some ns }
  | none => .error (.badArguments v)

def valued? : String → Option (String → Except UsageError Options)
  | "--stop-at" => some o.stopAt
  | "--run" => some (o.runOn limit)
  | "-o" | "--output" => some fun path => .ok { o with output := some path }
  | _ => none

def isFlag (a : String) : Bool :=
  a.toList.head? = some '-' && a ≠ "-"

def operand (a : String) : Except UsageError Options :=
  if isFlag a then .error (.unknownFlag a)
  else if o.input.isSome then .error (.unexpected a)
  else if a = "-" then .ok o
  else .ok { o with input := some a }

end Options

def isHelp (a : String) : Bool :=
  a = "--help" || a = "-h"

def readFrom (limit : DigitLimit) (o : Options) : List String → Except UsageError Request
  | [] => .ok (.compile o)
  | a :: rest =>
    if isHelp a then .ok .help
    else
      match o.valued? limit a, rest with
      | some _, [] => .error (.missingValue a)
      | some set, v :: rest =>
        match set v with
        | .ok o => readFrom limit o rest
        | .error e => .error e
      | none, rest =>
        match (o.switched? a).elim (o.operand a) .ok with
        | .ok o => readFrom limit o rest
        | .error e => .error e

def Request.read (limit : DigitLimit) (args : List String) : Except UsageError Request :=
  readFrom limit .initial args

end FlatCircuit.Command
