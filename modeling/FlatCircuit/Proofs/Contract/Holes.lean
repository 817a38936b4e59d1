import FlatCircuit.Proofs.Contract.Lowered

namespace FlatCircuit

theorem Expr.hole?_eq_none_of_isAtom {e : Expr} (h : e.isAtom = true) : e.hole? = none := by
  cases e with
  | lit | var => rfl
  | bin | pow | ite | hole => cases h

theorem Expr.hole?_eq_none_of_isFlat {e : Expr} (h : e.isFlat = true) : e.hole? = none := by
  cases e with
  | bin op l r =>
    obtain ⟨hl, hr⟩ := Bool.and_eq_true_iff.mp h
    rw [hole?, hole?_eq_none_of_isAtom hl, hole?_eq_none_of_isAtom hr]
    rfl
  | lit | var | pow | ite | hole => exact hole?_eq_none_of_isAtom h

theorem Bits.hole?_weighted (x : String) (i : Nat) : (weighted x i).hole? = none := by
  induction i with
  | zero => rfl
  | succ i ih => exact ih

theorem Piece.hole?_eq_none_of_isFlat {p : Piece} (h : p.isFlat = true) :
    ∀ d ∈ p.definitions, d.hole? = none := by
  cases p with
  | single d =>
    refine List.forall_mem_singleton.mpr ?_
    cases d with
    | assign x e | ret e => exact Expr.hole?_eq_none_of_isFlat h
    | hole => cases h
  | group x l r =>
    have hhead : (Expr.bin .sub l r).hole? = none := Expr.hole?_eq_none_of_isFlat h
    exact forall_mem_group.mpr ⟨hhead, fun _ _ => rfl, Bits.hole?_weighted x _⟩

namespace Program

variable {p q : Program} {strict : Bool}

theorem hole?_eq_none_iff : p.hole? = none ↔ ∀ d ∈ p.definitions, d.hole? = none :=
  List.findSome?_eq_none_iff

theorem IsSource.hole?_eq_none (h : p.IsSource) : p.hole? = none :=
  (Hole.absent_eq_ok_iff.mp h.render_eq).1

theorem IsSource.hole?_eq_none_of_lower (hp : p.IsSource) (h : p.lower strict = .ok q) : q.hole? = none := by
  obtain ⟨ds, m, hl, rfl⟩ := Lowering.lowersAll_of_lower h
  obtain ⟨ps, rfl, hm, _⟩ := hl.mirrors hp.isPlain.definitions
  refine hole?_eq_none_iff.mpr fun d hd => ?_
  obtain ⟨piece, hpiece, hd⟩ := List.mem_flatMap.mp hd
  exact Piece.hole?_eq_none_of_isFlat (hm.flat piece hpiece) d hd

end Program

namespace Checking

def Completes {α : Type} (x : Checking α) : Prop :=
  ∀ r : Report, ∃ a s, x.runFrom r = (.ok a, s)

theorem Completes.bind {α β : Type} {x : Checking α} {f : α → Checking β} (hx : Completes x)
    (hf : ∀ a, Completes (f a)) : Completes (x >>= f) := by
  intro r
  obtain ⟨a, s, hs⟩ := hx r
  rw [runFrom_bind_ok hs]
  exact hf a s

theorem closed_completes : Closed Completes where
  pure := fun a r => ⟨a, r, runFrom_pure r a⟩
  get := fun r => ⟨r, r, runFrom_get r⟩
  report := fun b i r => ⟨(), _, runFrom_report r b i⟩
  define := fun x r => ⟨(), _, runFrom_define r x⟩
  bind := Completes.bind

end Checking

theorem Program.exists_findings {p : Program} (h : p.hole? = none) : ∃ fs, p.check = .ok fs := by
  by_cases hne : p.definitions = []
  · exact ⟨_, check_of_no_definitions hne⟩
  · have hcompletes : Checking.Completes (Checking.checkAll 0 0 p.definitions) := by
      refine Checking.closed_completes.checkAll (fun d hd k hk => ?_) 0 0
      cases (hole?_eq_none_iff.mp h d hd).symm.trans hk
    obtain ⟨⟨⟩, s, hs⟩ := hcompletes ⟨[], (∅ : Std.ExtTreeSet String).insertMany p.parameters⟩
    rw [check, Report.check, runFrom_checkWhole hne, hs]
    exact ⟨_, rfl⟩

end FlatCircuit
