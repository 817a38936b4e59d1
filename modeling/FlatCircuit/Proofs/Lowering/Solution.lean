import FlatCircuit.Proofs.Contract.Equations
import FlatCircuit.Proofs.Contract.Lowered

namespace FlatCircuit

open Lowering Evaluation

section Names

variable {p : Piece} {ps : List Piece} {n m : Nat} {y : String}

theorem Piece.IsMade.filter_assigned (h : p.IsMade) : p.assigned.filter (Name.IsPlain ·) = [] := by
  refine List.filter_eq_nil_iff.mpr fun y hy => ?_
  simpa using h.not_isPlain y (mem_names_iff.mpr hy)

theorem Computes.filter_assigned {xs ys : List String} (h : Computes ps xs ys) :
    (ps.flatMap Piece.assigned).filter (Name.IsPlain ·) = [] := by
  refine List.filter_eq_nil_iff.mpr fun y hy => ?_
  obtain ⟨p, hp, hy⟩ := List.mem_flatMap.mp hy
  exact List.filter_eq_nil_iff.mp (h.made p hp).filter_assigned y hy

theorem Numbered.apart (h : Numbered n ps m)
    (hp : ((ps.flatMap Piece.assigned).filter (Name.IsPlain ·)).Nodup) :
    ps.Pairwise fun p q => ∀ y ∈ p.names, y ∉ q.names := by
  induction h with
  | nil => exact .nil
  | made hmakes hps ih =>
    rw [List.flatMap_cons, List.filter_append, List.nodup_append] at hp
    refine List.pairwise_cons.mpr ⟨fun q hq y hy hm => ?_, ih hp.2.1⟩
    have hmade := hmakes.madeAt (Piece.mem_names_iff.mp hy)
    exact hps.notMem_of_madeBelow hmade.1 (List.mem_flatMap.mpr ⟨q, hq, Piece.mem_names_iff.mp hm⟩)
  | @plain d ps n m hd hps ih =>
    rw [List.flatMap_cons, List.filter_append, List.nodup_append] at hp
    refine List.pairwise_cons.mpr ⟨fun q hq y hy hm => ?_, ih hp.2.1⟩
    rw [Piece.names_single] at hy
    have hplain := hd y hy
    have hfirst : y ∈ (Piece.single d).assigned.filter (Name.IsPlain ·) := by
      simpa [Piece.assigned_single, hplain] using hy
    have hlater : y ∈ (ps.flatMap Piece.assigned).filter (Name.IsPlain ·) := by
      refine List.mem_filter.mpr ⟨List.mem_flatMap.mpr ⟨q, hq, Piece.mem_names_iff.mp hm⟩, ?_⟩
      simpa using hplain
    exact hp.2.2 y hfirst y hlater rfl

end Names

section Lowered

variable {strict : Bool} {xs ds : List Definition} {n m : Nat}

theorem Lowering.LowersAll.filter_assigned (h : LowersAll strict xs n ds m) (hp : ∀ d ∈ xs, d.IsPlain) :
    (ds.flatMap Definition.assigned).filter (Name.IsPlain ·) = xs.flatMap Definition.assigned := by
  refine h.plainInduction (fun _ => rfl) ?_ hp
  intro d c xs es fs n k m hd hds hbecomes _ ih
  obtain ⟨ps, rfl, hc, -⟩ := hbecomes.emits
  have hlast : c.assigned.filter (Name.IsPlain ·) = d.assigned := by
    rw [← hbecomes.alike.assigned_eq, List.filter_eq_self]
    simpa using hbecomes.alike.isPlain_of_assigned hd
  rw [List.flatMap_append, List.flatMap_cons, List.filter_append, List.filter_append,
    flatMap_assigned_definitions, hc.filter_assigned, hlast, ih]
  rfl

theorem Piece.IsLowered.owner_ne_empty {p : Piece} (h : p.IsLowered) {x : String} {l r : Expr}
    (hp : p = .group x l r) : x ≠ "" := by
  subst hp
  cases h with
  | made h =>
    cases h with
    | group n l r => exact Name.temporary_ne_empty n

variable {k : Memory} {ps : List Piece} {known : List String}

theorem ready_of_mirrors (hn : Numbered n ps m) (hm : Mirrors ps xs) (hp : ∀ d ∈ xs, d.IsPlain)
    (hf : (ps.flatMap Piece.assigned).filter (Name.IsPlain ·) = xs.flatMap Definition.assigned)
    (hk : ∀ x ∈ known, Name.IsPlain x) (hb : ∀ x, k.Binds x ↔ x ∈ known) (hw : ∀ x, x ∉ k.witness)
    (hnodup : (xs.flatMap Definition.assigned).Nodup)
    (hnew : ∀ x ∈ xs.flatMap Definition.assigned, x ∉ known) : Ready k ps where
  supports := fun y hy hl => absurd (hm.isPlain_of_readLate hp hl) hy
  new := by
    intro p hmem y hy
    refine ⟨fun hbinds => ?_, hw y⟩
    have hknown := (hb y).mp hbinds
    have hassigned : y ∈ ps.flatMap Piece.assigned :=
      List.mem_flatMap.mpr ⟨p, hmem, Piece.mem_names_iff.mp hy⟩
    refine hnew y (hf ▸ List.mem_filter.mpr ⟨hassigned, ?_⟩) hknown
    simpa using hk y hknown
  apart := hn.apart (hf ▸ hnodup)

end Lowered

theorem exists_return_of_endsInReturn {ps : List Piece} (h : ∃ es e, ps.flatMap Piece.definitions =
    es ++ [Definition.ret e] ∧ ∀ d ∈ es, d.isAssignment = true) :
    ∃ qs f, ps = qs ++ [.single (.ret f)] ∧
      ∀ d ∈ qs.flatMap Piece.definitions, d.isAssignment = true := by
  rcases List.eq_nil_or_concat ps with rfl | ⟨qs, last, rfl⟩
  · obtain ⟨es, e, he, -⟩ := h
    simp at he
  · rw [List.concat_eq_append] at h ⊢
    have hsplit : (qs ++ [last]).flatMap Piece.definitions =
        qs.flatMap Piece.definitions ++ last.definitions := by simp
    obtain ⟨hassign, f, rfl⟩ := (endsInReturn_iff (p := ⟨"", [], _⟩) hsplit).mp h
    exact ⟨qs, f, rfl, hassign⟩

namespace Program

theorem runFrom_evaluation_ok {p : Program} {args : Arguments} {v : Int} {m : Memory}
    (h : (p.evaluation args).runFrom .empty = (.ok v, m)) :
    ∃ k, (p.bindArguments args).runFrom .empty = (.ok (), k) ∧ p.execute.runFrom k = (.ok v, m) := by
  rcases hb : (p.bindArguments args).runFrom .empty with ⟨err | ⟨⟩, k⟩
  · cases (runFrom_bind_error _ hb fun _ => p.execute).symm.trans h
  · exact ⟨k, rfl, (runFrom_bind_ok _ hb fun _ => p.execute).symm.trans h⟩

/-- A run of a lowered program that returns a value ends in a memory that satisfies all definitions before
the return, and the value is that of the returned expression. -/
theorem satisfies_of_run (s : String) (strict : Bool) (p q : Program) (args : Arguments) (v : Int)
    (m : Memory) (hr : Program.read s = .ok p) (hn : (p.definitions.flatMap Definition.assigned).Nodup)
    (hp : ∀ x ∈ p.definitions.flatMap Definition.assigned, x ∉ p.parameters) (h : p.lower strict = .ok q)
    (hrun : (q.evaluation args).runFrom .empty = (.ok v, m)) :
    ∃ ds f, q.definitions = ds ++ [.ret f] ∧ m.Satisfies ds ∧ f.HasValue m v := by
  have hs := isSource_of_read hr
  have hplain := hs.isPlain
  obtain ⟨ds, k, hl, rfl⟩ := lowersAll_of_lower h
  have hfilter := hl.filter_assigned hplain.definitions
  have hends := hl.endsInReturn hs.endsInReturn
  obtain ⟨ps, rfl, hm, hnum⟩ := hl.mirrors hplain.definitions
  rw [flatMap_assigned_definitions] at hfilter
  obtain ⟨qs, f, rfl, hassign⟩ := exists_return_of_endsInReturn hends
  obtain ⟨k₀, hk₀, hexec⟩ := runFrom_evaluation_ok hrun
  obtain ⟨m₀, hm₀, hw, hb⟩ := runFrom_bindArguments (accepts_of_bindArguments hk₀)
  cases hk₀.symm.trans hm₀
  have hready := ready_of_mirrors hnum hm hplain.definitions hfilter hplain.parameters hb hw hn hp
  obtain ⟨hflat, hret⟩ := List.forall_mem_append.mp hm.flat
  have hlowered : ∀ p ∈ qs, p.IsLowered := fun p hp => hm.lowered p (List.mem_append_left _ hp)
  have hdefinitions : (qs ++ [Piece.single (.ret f)]).flatMap Piece.definitions =
      qs.flatMap Piece.definitions ++ [.ret f] := by simp [Piece.definitions]
  have hassigns : ∀ p ∈ qs, ∀ d ∈ p.definitions, d.isAssignment = true :=
    fun p hp d hd => hassign d (List.mem_flatMap.mpr ⟨p, hp, hd⟩)
  have hrun : (Evaluation.execute (qs.flatMap Piece.definitions ++ [.ret f])).runFrom k₀ = (.ok v, m) :=
    hdefinitions ▸ hexec
  obtain ⟨-, hsolves, hvalue⟩ := solves_of_execute hflat (hret _ List.mem_cons_self) hassigns
    (fun p hp _ _ _ he => (hlowered p hp).owner_ne_empty he) hready hrun
  refine ⟨_, f, hdefinitions, Memory.satisfies_of_solves hsolves hflat (separated_of_isLowered hlowered), ?_⟩
  exact Expr.hasValue_of_value? (hret _ List.mem_cons_self) hvalue

theorem satisfies_of_run_clamp :
    let p : Program := ⟨"f", ["x"], [
      .assign "y" (.ite (.less (.var "x") (.lit 3)) (.var "x") (.lit 7)),
      .ret (.pow (.var "y") (.lit 2))]⟩
    Program.read p.text = .ok p ∧ ∃ q m ds f, p.lower false = .ok q ∧
      (q.evaluation (.positional [2])).runFrom .empty = (.ok 4, m) ∧
      q.definitions = ds ++ [.ret f] ∧ m.Satisfies ds ∧ f.HasValue m 4 := by
  intro p
  have hp : p.IsSource := {
    header := ⟨by decide, by decide, by decide, by decide⟩
    definitions := ⟨[.assign "y" (.ite (.less (.var "x") (.lit 3)) (.var "x") (.lit 7))],
      .pow (.var "y") (.lit 2), rfl, by decide, by decide⟩ }
  have hrun : (p.lower false).toOption.map (Program.run · (.positional [2])) = some (.ok 4) := by
    decide +kernel
  cases h : p.lower false with
  | error => simp [h, Except.toOption] at hrun
  | ok q =>
    simp only [h, Except.toOption, Option.map_some, Option.some.injEq, Program.run] at hrun
    rcases hr : (q.evaluation (.positional [2])).runFrom .empty with ⟨r, m⟩
    rw [hr] at hrun
    obtain rfl : r = .ok 4 := hrun
    obtain ⟨ds, f, hds, hm, hf⟩ := satisfies_of_run p.text false p q (.positional [2]) 4 m hp.read_text
      (by decide) (by decide) h hr
    exact ⟨hp.read_text, q, m, ds, f, rfl, hr, hds, hm, hf⟩

end Program

end FlatCircuit
