import FlatCircuit.Proofs.Contract.Running

/-! What the check of the contract decides: the definitions split into pieces of the right shape, every name is
known before it is read, and the last piece is a return or a group. The place of a definition is looked at
only outside of groups, so a program without a return is accepted if a group ends it. -/

namespace FlatCircuit

namespace Program

structure FlatForm (p : Program) (ps : List Piece) : Prop where
  definitions : p.definitions = ps.flatMap Piece.definitions
  flat : ∀ q ∈ ps, q.isFlat = true
  separated : Separated ps
  reads : ReadsKnown p.parameters ps

def EndsInReturn (p : Program) : Prop :=
  ∃ ds e, p.definitions = ds ++ [.ret e] ∧ ∀ d ∈ ds, d.isAssignment = true

def EndsInGroup (p : Program) (ps : List Piece) : Prop :=
  (∃ before x l r, ps = before ++ [.group x l r]) ∧ ∀ d ∈ p.definitions, d.isAssignment = true

end Program

section Places

variable {p : Piece} {ps : List Piece} {d : Definition}

theorem Definition.isReturn_eq_false_of_isAssignment (h : d.isAssignment = true) :
    d.isReturn = false := by
  cases d with
  | assign => rfl
  | ret | hole => cases h

theorem Piece.isAssignment_of_isFlat (hf : p.isFlat = true)
    (hp : ∀ d, p = .single d → d.isReturn = false) : ∀ d ∈ p.definitions, d.isAssignment = true := by
  cases p with
  | single d =>
    intro d' hd
    obtain rfl := List.mem_singleton.mp hd
    have hr := hp d' rfl
    cases d' with
    | assign => rfl
    | ret => cases hr
    | hole => cases hf
  | group x l r => exact forall_mem_group.mpr ⟨rfl, fun _ _ => rfl, rfl⟩

theorem placed_append_singleton {last : Piece} : Placed (ps ++ [last]) ↔
    (∀ p ∈ ps, ∀ d, p = .single d → d.isReturn = false) ∧
      ∀ d, last = .single d → d.isReturn = true := by
  rw [Placed, AtEach.append_iff, AtEach.cons_iff]
  constructor
  · rintro ⟨hps, hlast, _⟩
    refine ⟨fun p hp d hd => ?_, hlast⟩
    obtain ⟨before, after, rfl⟩ := List.append_of_mem hp
    rw [hps before p after rfl d hd, List.isEmpty_eq_false_iff]
    simp
  · rintro ⟨hps, hlast⟩
    refine ⟨?_, hlast, AtEach.nil⟩
    rintro before p after rfl d hd
    rw [hps p (by simp) d hd, eq_comm, List.isEmpty_eq_false_iff]
    simp

theorem forall_isAssignment_iff (hf : ∀ q ∈ ps, q.isFlat = true) :
    (∀ d ∈ ps.flatMap Piece.definitions, d.isAssignment = true) ↔
      ∀ q ∈ ps, ∀ d, q = .single d → d.isReturn = false := by
  constructor
  · rintro h q hq d rfl
    apply Definition.isReturn_eq_false_of_isAssignment
    exact h d (List.mem_flatMap.mpr ⟨_, hq, List.mem_singleton.mpr rfl⟩)
  · intro hp d hd
    obtain ⟨q, hq, hdq⟩ := List.mem_flatMap.mp hd
    exact Piece.isAssignment_of_isFlat (hf q hq) (hp q hq) d hdq

theorem endsInReturn_iff {p : Program} {last : Piece}
    (hd : p.definitions = ps.flatMap Piece.definitions ++ last.definitions) :
    p.EndsInReturn ↔ (∀ d ∈ ps.flatMap Piece.definitions, d.isAssignment = true) ∧
      ∃ e, last = .single (.ret e) := by
  constructor
  · rintro ⟨ds, e, hds, hassign⟩
    cases last with
    | single d =>
      obtain ⟨rfl, he⟩ := List.append_inj' (hd.symm.trans hds) rfl
      cases he
      exact ⟨hassign, e, rfl⟩
    | group x l r =>
      rw [Piece.definitions_group, ← List.append_assoc] at hd
      cases (List.append_inj' (hd.symm.trans hds) rfl).2
  · rintro ⟨hassign, e, rfl⟩
    exact ⟨_, e, hd, hassign⟩

theorem endsInGroup_iff {p : Program} {last : Piece}
    (hd : p.definitions = ps.flatMap Piece.definitions ++ last.definitions) (hf : last.isFlat = true) :
    p.EndsInGroup (ps ++ [last]) ↔ (∀ d ∈ ps.flatMap Piece.definitions, d.isAssignment = true) ∧
      ∃ x l r, last = .group x l r := by
  rw [Program.EndsInGroup, hd, List.forall_mem_append]
  constructor
  · rintro ⟨⟨_, x, l, r, he⟩, hassign, _⟩
    exact ⟨hassign, x, l, r, List.head_eq_of_cons_eq (List.append_inj' he rfl).2⟩
  · rintro ⟨hassign, x, l, r, rfl⟩
    have hg := Piece.isAssignment_of_isFlat hf fun d h => by cases h
    exact ⟨⟨ps, x, l, r, rfl⟩, hassign, hg⟩

/-- Pieces are well placed if they end in a return, but also if they end in a group. -/
theorem placed_iff {p : Program} (hd : p.definitions = ps.flatMap Piece.definitions)
    (hf : ∀ q ∈ ps, q.isFlat = true) (hne : ps ≠ []) :
    Placed ps ↔ p.EndsInReturn ∨ p.EndsInGroup ps := by
  rcases List.eq_nil_or_concat ps with rfl | ⟨before, last, rfl⟩
  · exact absurd rfl hne
  rw [List.concat_eq_append] at *
  rw [List.flatMap_append, List.flatMap_singleton] at hd
  obtain ⟨hfb, hfl⟩ := List.forall_mem_append.mp hf
  rw [placed_append_singleton, ← forall_isAssignment_iff hfb, endsInReturn_iff hd,
    endsInGroup_iff hd (hfl last List.mem_cons_self), ← and_or_left]
  refine and_congr_right fun _ => ?_
  cases last with
  | single d =>
    cases d with
    | ret e => simp [Definition.isReturn]
    | assign | hole => simp [Definition.isReturn]
  | group x l r => simp

end Places

namespace Program

variable {p : Program} {ps : List Piece}

theorem knows_parameters (p : Program) : Checking.Knows
    ⟨[], (∅ : Std.ExtTreeSet String).insertMany p.parameters⟩ p.parameters := by
  have h : Checking.Knows .empty [] := fun y => by simp [Report.empty]
  exact h.insertMany p.parameters

theorem runFrom_checkWhole (hne : p.definitions ≠ []) :
    (Checking.checkWhole p).runFrom .empty = (Checking.checkAll 0 0 p.definitions).runFrom
      ⟨[], (∅ : Std.ExtTreeSet String).insertMany p.parameters⟩ := by
  rw [Checking.checkWhole, Checking.runFrom_bind_ok Checking.runFrom_forM_define,
    List.isEmpty_eq_false_iff.mpr hne]
  rfl

theorem check_of_no_definitions (h : p.definitions = []) : p.check = .ok [⟨.noDefinitions, 0⟩] := by
  rw [check, Report.check, Checking.checkWhole,
    Checking.runFrom_bind_ok Checking.runFrom_forM_define, h]
  rfl

theorem check_of_pieces (hd : p.definitions = ps.flatMap Piece.definitions) (hs : Shaped ps)
    (hne : ps ≠ []) : p.check = .ok (lateReads 0 p.parameters ps) := by
  obtain ⟨r, hrun, hfound⟩ := Checking.runFrom_checkAll (i := 0) hs p.knows_parameters
  have hdne : p.definitions ≠ [] := by
    rw [hd]
    exact mt flatMap_definitions_eq_nil_iff.mp hne
  rw [check, Report.check, runFrom_checkWhole hdne, hd, hrun]
  exact congrArg Except.ok hfound

theorem pieces_of_check (h : p.check = .ok []) : ∃ ps, ps ≠ [] ∧
    p.definitions = ps.flatMap Piece.definitions ∧ Shaped ps := by
  by_cases hne : p.definitions = []
  · rw [check_of_no_definitions hne] at h
    cases h
  · rw [check, Report.check, runFrom_checkWhole hne] at h
    rcases hrun : (Checking.checkAll 0 0 p.definitions).runFrom
        ⟨[], (∅ : Std.ExtTreeSet String).insertMany p.parameters⟩ with ⟨e | ⟨⟩, r⟩
    · rw [hrun] at h
      cases h
    · rw [hrun] at h
      obtain ⟨ps, hd, hs⟩ := Checking.pieces_of_checkAll hrun (Except.ok.inj h)
      refine ⟨ps, ?_, hd, hs⟩
      rintro rfl
      exact hne hd

theorem readsKnown_of_check (hd : p.definitions = ps.flatMap Piece.definitions) (hs : Shaped ps) (hne : ps ≠ [])
    (h : p.check = .ok []) : ReadsKnown p.parameters ps := by
  have hl := check_of_pieces hd hs hne
  rw [h, Except.ok.injEq, eq_comm, lateReads_eq_nil_iff] at hl
  exact hl

theorem check_eq_ok_nil_iff (p : Program) :
    p.check = .ok [] ↔ ∃ ps, p.FlatForm ps ∧ (p.EndsInReturn ∨ p.EndsInGroup ps) := by
  constructor
  · intro h
    obtain ⟨ps, hne, hd, hs⟩ := pieces_of_check h
    have hl := check_of_pieces hd hs hne
    rw [h, Except.ok.injEq, eq_comm, lateReads_eq_nil_iff] at hl
    exact ⟨ps, ⟨hd, hs.flat, hs.separated, hl⟩, (placed_iff hd hs.flat hne).mp hs.placed⟩
  · rintro ⟨ps, ⟨hd, hf, hs, hr⟩, hends⟩
    have hne : ps ≠ [] := by
      rintro rfl
      rcases hends with ⟨ds, e, hds, _⟩ | ⟨⟨before, x, l, r, he⟩, _⟩
      · simp [hd] at hds
      · simp at he
    have hp := (placed_iff hd hf hne).mpr hends
    rw [check_of_pieces hd ⟨hf, hs, hp⟩ hne, lateReads_eq_nil_iff.mpr hr]

theorem not_check_iff_endsInReturn :
    ¬ ∀ p : Program, p.check = .ok [] ↔ ∃ ps, p.FlatForm ps ∧ p.EndsInReturn := by
  intro h
  let p : Program := ⟨"f", ["x", "y"], (Piece.group "d" (.var "x") (.var "y")).definitions⟩
  obtain ⟨_, _, ds, e, hds, _⟩ := (h p).mp (by rfl)
  have hlast := congrArg List.getLast? hds
  rw [List.getLast?_append] at hlast
  cases hlast

end Program

end FlatCircuit
