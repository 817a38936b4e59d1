import FlatCircuit.Command.Compile

/-! One run of the command. All effects go through a host, so that a run can be followed on a workspace
kept in memory as well as carried out on real files. Nothing is written before all else has succeeded. -/

namespace FlatCircuit.Command

structure Host (m : Type → Type) where
  readInput : m ByteArray
  readFile : String → m (Option ByteArray)
  writeFile : String → String → m Bool

structure Outcome where
  exitCode : Nat
  out : String
  err : String
deriving DecidableEq, Repr

def usage : String :=
  String.join (List.map (· ++ "\n") [
    "zkflat [OPTIONS] [INPUT] [-o OUTPUT]",
    "",
    "Options:",
    "  --stop-at PHASE     Stop after phase: parse, flatten (default: flatten)",
    "  --json              Print the program as JSON instead of source text",
    "  --strict-pow        Expand powers of number literals exactly",
    "  --check             Verify the flat-form contract after flattening",
    "  --run ARGS          Evaluate with comma-separated integer arguments",
    "  -o, --output FILE   Write output to FILE instead of stdout",
    "  --help              Show this help message"])

namespace Outcome

def success (out : String) : Outcome :=
  ⟨0, out, ""⟩

def failure (f : Failure) : Outcome :=
  ⟨f.exitCode, "", f.text⟩

end Outcome

/-- A command ends with an outcome, unless a failure escapes that is not caught. -/
inductive Ending where
  | exit (outcome : Outcome)
  | escape (f : Failure)
deriving DecidableEq, Repr

namespace Ending

def success (out : String) : Ending :=
  .exit (.success out)

def failure (f : Failure) : Ending :=
  if f.isHandled then .exit (.failure f) else .escape f

end Ending

variable {m : Type → Type} [Monad m] (host : Host m)

def readBytes : Option String → m (Except Failure ByteArray)
  | none => .ok <$> host.readInput
  | some path => do
    match ← host.readFile path with
    | some bytes => return .ok bytes
    | none => return .error (.cannotOpen path)

def decode (bytes : ByteArray) : Except Failure String :=
  match String.fromUTF8? bytes with
  | some source => .ok source
  | none => .error .badEncoding

def deliver (result : String) : Option String → m Ending
  | none => return .success result
  | some path => do
    if ← host.writeFile path result then return .success ""
    else return .failure (.cannotWrite path)

variable (limit : DigitLimit)

def carryOut (o : Options) : m Ending := do
  let bytes ← readBytes host o.input
  match bytes >>= decode >>= compile limit o with
  | .ok result => deliver host result o.output
  | .error f => return .failure f

def run (args : List String) : m Ending :=
  match Request.read limit args with
  | .ok .help => return .success usage
  | .ok (.compile o) => carryOut host limit o
  | .error e => return .failure (.usage e)

end FlatCircuit.Command
