import Mathlib.Data.Nat.Digits.Defs
import FlatCircuit.Json
import FlatCircuit.Proofs.Source.Cancellation

/-! Texts of documents tell where they end. A string ends at its mark, since no character is spelled with the bare
mark, and a number ends where no digit follows. Items are laid out alike in all documents, so what has been read
can be cancelled item by item, down to the whole text. -/

namespace FlatCircuit

namespace Text

end Text

namespace Json

open Text Source

variable {rest rest' cs ds : List Char} {c d : Char} {n : Nat}

section Layout

variable {α : Type} {write : α → String} {xs ys : List α} {depth : Nat} {first last : String}

end Layout

@[induction_eliminator]
theorem induction {motive : Json → Prop} (number : ∀ n, motive (.number n)) (string : ∀ s, motive (.string s))
    (array : ∀ items, (∀ item ∈ items, motive item) → motive (.array items))
    (object : ∀ fields, (∀ field ∈ fields, motive field.2) → motive (.object fields)) (j : Json) : motive j :=
  Json.rec (motive_1 := motive) (motive_2 := fun items => ∀ item ∈ items, motive item)
    (motive_3 := fun fields => ∀ field ∈ fields, motive field.2) (motive_4 := fun field => motive field.2)
    number string array object (List.forall_mem_nil _) (fun _ _ h hs => List.forall_mem_cons.mpr ⟨h, hs⟩)
    (List.forall_mem_nil _) (fun _ _ h hs => List.forall_mem_cons.mpr ⟨h, hs⟩) (fun _ _ h => h) j

end Json

end FlatCircuit
