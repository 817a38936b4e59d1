import FlatCircuit.Command.Options

namespace FlatCircuit.Command

inductive Part where
  | json
  | strict
  | check
  | phase (phase : Phase)
  | arguments (values : List Int)
  | output (path : String)
  | input (path : String)
  | standardInput

namespace Part

def apply (o : Options) : Part → Options
  | json => { o with json := true }
  | strict => { o with strict := true }
  | check => { o with check := true }
  | phase p => { o with phase := p }
  | arguments ns => { o with arguments := some ns }
  | output path => { o with output := some path }
  | input path => { o with input := some path }
  | standardInput => o

def isInput : Part → Bool
  | input _ | standardInput => true
  | _ => false

inductive Written (limit : DigitLimit) : Part → List String → Prop
  | json : Written limit json ["--json"]
  | strict : Written limit strict ["--strict-pow"]
  | check : Written limit check ["--check"]
  | parse : Written limit (phase .parse) ["--stop-at", "parse"]
  | flatten : Written limit (phase .flatten) ["--stop-at", "flatten"]
  | arguments {v : String} {ns : List Int} : integers? limit v.toList = some ns →
      Written limit (arguments ns) ["--run", v]
  | output (path : String) : Written limit (output path) ["-o", path]
  | longOutput (path : String) : Written limit (output path) ["--output", path]
  | input {path : String} : Options.isFlag path = false → path ≠ "-" → Written limit (input path) [path]
  | standardInput : Written limit standardInput ["-"]

/-- No input comes after one that is a path. -/
inductive AllWritten (limit : DigitLimit) : List Part → List String → Prop
  | nil : AllWritten limit [] []
  | cons {p : Part} {ps : List Part} {ws args : List String} : p.Written limit ws →
      (∀ path, p = input path → ∀ q ∈ ps, q.isInput = false) → AllWritten limit ps args →
      AllWritten limit (p :: ps) (ws ++ args)

end Part

def Options.of (ps : List Part) : Options :=
  ps.foldl Part.apply .initial

section Scan

variable {limit : DigitLimit} {o : Options} {p : Part} {ps : List Part} {a : String} {ws args rest : List String} {r : Request}

end Scan

end FlatCircuit.Command
