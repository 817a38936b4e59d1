import FlatCircuit.Proofs.Command.Compiling
import FlatCircuit.Proofs.Document.Equality
import FlatCircuit.Proofs.Document.Text
import FlatCircuit.Proofs.Document.Traversal

namespace FlatCircuit

namespace Program

variable {p q : Program} {j k : Json}

def IsObtained (limit : DigitLimit) (p : Program) : Prop :=
  ∃ source q, Program.readWithin limit source = .ok q ∧ (p = q ∨ ∃ strict, q.lowerWithin strict limit = .ok p)

section Obtained

variable {limit : DigitLimit}

theorem IsObtained.hole?_eq_none (h : p.IsObtained limit) : p.hole? = none := by
  obtain ⟨source, q, hq, hp⟩ := h
  have hs := isSource_of_read (readWithin_eq_ok_iff.mp hq).1
  rcases hp with rfl | ⟨strict, hp⟩
  · exact hs.hole?_eq_none
  · exact hs.hole?_eq_none_of_lower ((q.lowerWithin_eq_ok_iff strict).mp hp)

theorem IsObtained.writes (h : p.IsObtained limit) : ∀ n ∈ p.literals, limit.writes n = true := by
  obtain ⟨source, q, hq, rfl | ⟨strict, hp⟩⟩ := h
  · exact writes_of_readWithin hq
  · exact writes_of_lower ((q.lowerWithin_eq_ok_iff strict).mp hp) (writes_of_readWithin hq)

end Obtained

end Program

end FlatCircuit
