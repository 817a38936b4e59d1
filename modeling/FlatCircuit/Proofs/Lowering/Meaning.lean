import FlatCircuit.Proofs.Lowering.Preservation
import FlatCircuit.Proofs.Source.RoundTrip

namespace FlatCircuit

theorem Name.isPlain_of_isAlphanum {x : String} (h : ∀ c ∈ x.toList, c.isAlphanum = true) :
    Name.IsPlain x :=
  fun hm => absurd (h _ hm) (by decide)

theorem Name.isPlain_of_isIdentifier {x : String} (h : Form.isIdentifier x.toList = true) :
    Name.IsPlain x :=
  isPlain_of_isAlphanum (Form.isAlphanum_of_isIdentifier h)

theorem Expr.isPlain_of_isSourceAtom {e : Expr} (h : e.isSourceAtom = true) : e.IsPlain := by
  cases e with
  | lit => exact ⟨rfl, fun _ hx => absurd hx List.not_mem_nil⟩
  | var x => exact ⟨rfl, List.forall_mem_singleton.mpr (Name.isPlain_of_isIdentifier h)⟩
  | bin | pow | ite | hole => cases h

theorem Expr.isPlain_of_isSource {choices : Bool} {e : Expr} (h : e.isSource choices = true) :
    e.IsPlain := by
  induction e generalizing choices with
  | lit | var => exact isPlain_of_isSourceAtom h
  | bin op l r _ ihr =>
    simp only [isSource, Bool.and_eq_true, decide_eq_true_eq] at h
    obtain ⟨⟨hop, hl⟩, hr⟩ := h
    obtain ⟨hkl, hvl⟩ := isPlain_of_isSourceAtom hl
    obtain ⟨hkr, hvr⟩ := ihr hr
    exact ⟨by simp [isKnown, hop, hkl, hkr], List.forall_mem_append.mpr ⟨hvl, hvr⟩⟩
  | pow b n =>
    obtain ⟨hb, m, rfl⟩ := isSource_pow.mp h
    obtain ⟨hkb, hvb⟩ := isPlain_of_isSourceAtom hb
    exact ⟨by simp [isKnown, hkb], List.forall_mem_append.mpr
      ⟨hvb, fun _ hx => absurd hx List.not_mem_nil⟩⟩
  | less l r x y _ _ ihx ihy =>
    simp only [isSource, Bool.and_eq_true] at h
    obtain ⟨⟨⟨⟨_, hl⟩, hr⟩, hx⟩, hy⟩ := h
    obtain ⟨hkl, hvl⟩ := isPlain_of_isSourceAtom hl
    obtain ⟨hkr, hvr⟩ := isPlain_of_isSourceAtom hr
    obtain ⟨hkx, hvx⟩ := ihx hx
    obtain ⟨hky, hvy⟩ := ihy hy
    refine ⟨by simp [isKnown, Condition.isKnown, hkl, hkr, hkx, hky], ?_⟩
    simp only [Expr.variables, Condition.variables, List.forall_mem_append]
    exact ⟨⟨⟨hvl, hvr⟩, hvx⟩, hvy⟩
  | untested | hole => cases h

theorem Program.IsSource.isPlain {p : Program} (h : p.IsSource) : p.IsPlain := by
  refine ⟨fun x hx => ?_, fun d hd => ?_⟩
  · exact Name.isPlain_of_isAlphanum (Header.isAlphanum_of_isWord (h.header.words x hx))
  · have hs := h.isSource d hd
    cases d with
    | assign x e =>
      obtain ⟨hi, _, he⟩ := Definition.isSource_assign.mp hs
      exact ⟨Name.isPlain_of_isIdentifier hi, Expr.isPlain_of_isSource he⟩
    | ret e => exact Expr.isPlain_of_isSource hs
    | hole => cases hs

end FlatCircuit
