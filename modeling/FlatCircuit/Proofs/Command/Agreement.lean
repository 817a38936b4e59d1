import FlatCircuit.Library
import FlatCircuit.Proofs.Command.Delivery
import FlatCircuit.Proofs.Command.Messages
import FlatCircuit.Proofs.Command.Numbers

/-! A run on the command line against the calls of the library. The command shows the value that the calls return, and
where they raise something it says so in one line. A number that is too long stops both of them. -/

namespace FlatCircuit

open Text

namespace Library

def Raised.IsExpected : Raised → Prop
  | .source _ | .lowering _ (.unsupported _) => True
  | .lowering _ (.hole ..) => False
  | .fault err => err.IsRuntime

section Calls

variable {α β ε : Type} {limit : DigitLimit} {p q : Program} {strict : Bool}

end Calls

end Library

namespace Command

open Library

def report : Raised → String
  | .fault err => "error: runtime: " ++ err.message ++ "\n"
  | r => "error: " ++ r.message ++ "\n"

def Failure.of : Raised → Failure
  | .source err => .source err
  | .lowering f err => .lowering f err
  | .fault err => .fault err

def shown (limit : DigitLimit) (v : Int) : Except Failure String :=
  if limit.writes v then .ok (toString v ++ "\n") else .error .overlong

section Stages

variable {limit : DigitLimit} {o : Options} {p : Program} {s : String} {xs : List Int}

end Stages

def Ending.of : Except Failure String → Ending
  | .ok result => .success result
  | .error f => .failure f

namespace Workspace

variable {limit : DigitLimit} {w : Workspace} {args : List String} {o : Options} {s t : String} {xs : List Int}
  {dss : List (List Char)}

/-- The command shows the value just when the call returns it, and else reports what the call raises, in one line.
Where a number is too long, for the call or to be shown as its value, it ends without either. Nothing changes. -/
structure Agrees (limit : DigitLimit) (w : Workspace) (args : List String) (call : Except (Halt Raised) Int) :
    Prop where
  shows_value : ∀ v, (∃ outcome, (w.run limit args).1 = .exit outcome ∧ outcome.exitCode = 0 ∧
    outcome.out = toString v ++ "\n") ↔ call = .ok v ∧ limit.writes v = true
  returns : ∀ v, call = .ok v → limit.writes v = true →
    w.run limit args = (.exit ⟨0, toString v ++ "\n", ""⟩, w)
  raises : ∀ r, call = .error (.raised r) →
    w.run limit args = (.exit ⟨1, "", report r⟩, w) ∧ r.IsExpected ∧ OneLine r.message
  overlong : (call = .error .overlong ∨ ∃ v, call = .ok v ∧ limit.writes v = false) →
    w.run limit args = (.escape .overlong, w)

end Workspace

end Command

end FlatCircuit
