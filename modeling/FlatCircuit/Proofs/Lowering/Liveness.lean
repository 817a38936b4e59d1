import FlatCircuit.Proofs.Contract.Lowered

/-! Live temporaries of lowered programs: those that later pieces read before they assign them. None is live
where a definition of the program starts, and none where a group ends, if the program was read from a text.
Such a program compares atoms only, and neither a branch nor a left operand of it has a choice. -/

namespace FlatCircuit

open Lowering

def Idle (ps : List Piece) : Prop :=
  ∀ j : Nat, ¬ ReadLate Piece.reads Piece.names [] ps (Name.temporary j)

def Isolates (ps : List Piece) (ys : List String) : Prop :=
  AtEach (fun _ p after => ∀ x l r, p = .group x l r →
    ∃ xs, (∀ j : Nat, Name.temporary j ∉ xs) ∧ Computes after xs ys) ps

section Idle

variable {ps qs : List Piece} {xs ys : List String} {known : List String} {c : Definition} {y : String}

theorem Isolates.append (h : Isolates ps xs) (hc : Computes qs xs ys) (hq : Isolates qs ys) :
    Isolates (ps ++ qs) ys := by
  refine AtEach.append_iff.mpr ⟨h.mono fun before p after hp x l r he => ?_, hq⟩
  obtain ⟨zs, hz, hafter⟩ := hp x l r he
  exact ⟨zs, hz, hafter.append hc⟩

theorem Isolates.frame_left (h : Isolates ps ys) (hx : ∀ j : Nat, Name.temporary j ∉ xs) :
    Isolates ps (xs ++ ys) := by
  refine AtEach.mono h fun before p after hp x l r he => ?_
  obtain ⟨zs, hz, hafter⟩ := hp x l r he
  exact ⟨xs ++ zs, fun j hj => (List.mem_append.mp hj).elim (hx j) (hz j), hafter.frame_left xs⟩

end Idle

namespace Expr

def isChoiceless : Expr → Bool
  | .bin _ l r => l.isChoiceless && r.isChoiceless
  | .pow b e => b.isChoiceless && e.isChoiceless
  | .ite .. => false
  | _ => true

variable {e : Expr}

theorem isChoiceless_of_isAtom (h : e.isAtom = true) : e.isChoiceless = true := by
  cases e <;> first | rfl | cases h

end Expr

namespace Lowering

variable {strict : Bool} {e f a : Expr} {n m : Nat} {ds : List Definition}

theorem Takes.isFlat (h : Takes f n ds m a) (hf : f.isFlat = true) : ∀ d ∈ ds, d.isFlat = true := by
  cases h with
  | atom _ => exact fun _ hd => absurd hd List.not_mem_nil
  | stored _ => exact List.forall_mem_singleton.mpr hf

theorem Lowers.isFlat_of_isChoiceless (h : Lowers strict e n ds m f) (he : e.isChoiceless = true) :
    ∀ d ∈ ds, d.isFlat = true := by
  induction h with
  | atom _ => exact fun _ hd => absurd hd List.not_mem_nil
  | operation op hl hr ha hb ihl ihr =>
    obtain ⟨hel, her⟩ := Bool.and_eq_true_iff.mp he
    simp only [List.forall_mem_append]
    exact ⟨⟨⟨ihl hel, ihr her⟩, ha.isFlat hl.isFlat⟩, hb.isFlat hr.isFlat⟩
  | literalPower _ _ => exact fun _ hd => absurd hd List.not_mem_nil
  | square _ => exact fun _ hd => absurd hd List.not_mem_nil
  | power _ _ h ih => exact List.forall_mem_append.mpr ⟨ih he, List.forall_mem_singleton.mpr h.isFlat⟩
  | choice _ _ _ _ _ _ => cases he

theorem Lowers.of_isAtom (h : Lowers strict e n ds m f) (he : e.isAtom = true) :
    ds = [] ∧ m = n ∧ f = e := by
  cases h with
  | atom _ => exact ⟨rfl, rfl, rfl⟩
  | operation | literalPower | square | power | choice => cases he

theorem Takes.of_isAtom (h : Takes f n ds m a) (hf : f.isAtom = true) : ds = [] ∧ m = n ∧ a = f := by
  cases h with
  | atom _ => exact ⟨rfl, rfl, rfl⟩
  | stored hn => rw [hf] at hn; cases hn

end Lowering

end FlatCircuit
