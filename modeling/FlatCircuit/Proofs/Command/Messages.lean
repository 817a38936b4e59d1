import FlatCircuit.Proofs.Command.Compiling
import FlatCircuit.Proofs.Source.Cancellation
import FlatCircuit.Proofs.Source.Progress

namespace FlatCircuit

namespace Text

def OneLine (s : String) : Prop :=
  ∀ c ∈ s.toList, isLineBreak c = false

variable {s t : String} {c mark : Char}

theorem OneLine.append (hs : OneLine s) (ht : OneLine t) : OneLine (s ++ t) := by
  rw [OneLine, String.toList_append]
  exact List.forall_mem_append.mpr ⟨hs, ht⟩

end Text

open Text

section Faults

variable {p q : Program} {err : Fault}

end Faults

section Lowering

variable {p : Program} {a e : Expr}

end Lowering

section Reading

open Source

variable {cause : SourceCause} {err : SourceError} {ls : List (List Char)} {ds : List Definition} {n : Nat}

end Reading

end FlatCircuit
