import FlatCircuit.Command.Workspace
import FlatCircuit.Proofs.Command.Compiling
import FlatCircuit.Proofs.Command.Scanning

/-! What a run of the command leaves behind. Either the whole result goes to one place, or nothing changes and the
reason is reported, or nothing changes because a number is too long. -/

namespace FlatCircuit.Command

namespace Failure

variable {f : Failure}

end Failure

namespace Workspace

variable {w later : Workspace} {place start other : Place} {bytes : ByteArray} {path text : String}

section Put

end Put

structure Gains (w : Workspace) (path text : String) (later : Workspace) : Prop where
  readFile : later.readFile path = some text.toUTF8
  files : ∀ place, w.place? path ≠ some place → later.files.lookup place = w.files.lookup place
  directories : later.directories = w.directories
  here : later.here = w.here
  input : later.input = w.input

def bytes? (w : Workspace) : Option String → Option ByteArray
  | none => some w.input
  | some path => w.readFile path

def Compiles (limit : DigitLimit) (w : Workspace) (args : List String) (o : Options) (source : String) : Prop :=
  ∃ ps bytes, Part.AllWritten limit ps args ∧ o = .of ps ∧ w.bytes? o.input = some bytes ∧
    String.fromUTF8? bytes = some source

inductive Completes (limit : DigitLimit) (w : Workspace) (args : List String) : String → Workspace → Prop
  | help {ps : List Part} {words more : List String} {flag : String} : Part.AllWritten limit ps words →
      isHelp flag = true → args = words ++ flag :: more → Completes limit w args usage w
  | shown {o : Options} {source result : String} : w.Compiles limit args o source → o.Asks source result →
      o.output = none → Completes limit w args result w
  | stored {o : Options} {source result path : String} {later : Workspace} : w.Compiles limit args o source →
      o.Asks source result → o.output = some path → w.Gains path result later → Completes limit w args "" later

def Exceeds (limit : DigitLimit) (w : Workspace) (args : List String) : Prop :=
  ∃ o source, w.Compiles limit args o source ∧ o.Exceeds limit source

section Run

variable {α β : Type} {limit : DigitLimit} {o : Options} {ps : List Part} {args : List String}
  {source result : String} {exceeds : Prop}

theorem run_bind {x : StateM Workspace α} {f : α → StateM Workspace β} {a : α} (h : x.run w = (a, later)) :
    (x >>= f).run w = (f a).run later := by
  rw [StateT.run_bind, h]
  rfl

theorem Exceeds.digits_ne_none (h : w.Exceeds limit args) : limit.digits ≠ none := by
  obtain ⟨o, source, -, h⟩ := h
  exact h.digits_ne_none

end Run

example : (run ⟨.empty, ["home"], [], [(["home", "in"], "def f(x):\n  return x * 2".toUTF8)]⟩ .free
    ["--run", "3", "/home/in"]).1 = .success "6\n" := by
  decide +kernel

end Workspace

end FlatCircuit.Command
