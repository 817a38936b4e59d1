import Mathlib.Tactic.Tauto
import FlatCircuit.Contract.Checker

namespace FlatCircuit

/-- Each element of a list, in view of those before and those after it. -/
def AtEach {α : Type} (P : List α → α → List α → Prop) (xs : List α) : Prop :=
  ∀ before x after, xs = before ++ x :: after → P before x after

namespace AtEach

variable {α : Type} {P Q : List α → α → List α → Prop} {x : α} {xs ys : List α}

theorem nil : AtEach P [] := by
  intro before x after h
  cases before <;> cases h

theorem cons_iff : AtEach P (x :: xs) ↔ P [] x xs ∧ AtEach (fun before => P (x :: before)) xs := by
  constructor
  · intro h
    refine ⟨h [] x xs rfl, ?_⟩
    rintro before y after rfl
    exact h (x :: before) y after rfl
  · rintro ⟨hx, hxs⟩ before y after h
    cases before with
    | nil =>
      cases h
      exact hx
    | cons z before =>
      cases h
      exact hxs before y after rfl

theorem append_iff : AtEach P (xs ++ ys) ↔
    AtEach (fun before x after => P before x (after ++ ys)) xs ∧
      AtEach (fun before => P (xs ++ before)) ys := by
  induction xs generalizing P with
  | nil => exact ⟨fun h => ⟨nil, h⟩, And.right⟩
  | cons x xs ih =>
    rw [List.cons_append, cons_iff, cons_iff, ih, and_assoc]
    rfl

theorem flatMap {β : Type} {R : List β → β → List β → Prop} {f : α → List β}
    (h : AtEach (fun before x after =>
      AtEach (fun b y a => R (before.flatMap f ++ b) y (a ++ after.flatMap f)) (f x)) xs) :
    AtEach R (xs.flatMap f) := by
  induction xs generalizing R with
  | nil => exact nil
  | cons x xs ih =>
    obtain ⟨hx, hxs⟩ := cons_iff.mp h
    rw [List.flatMap_cons]
    refine append_iff.mpr ⟨hx, ih ?_⟩
    simpa only [List.flatMap_cons, List.append_assoc] using hxs

theorem mono (h : AtEach P xs) (hPQ : ∀ before x after, P before x after → Q before x after) :
    AtEach Q xs :=
  fun before x after he => hPQ before x after (h before x after he)

end AtEach

section Reads

variable {α : Type} (reads names : α → List String) {known known' : List String} {x : α} {xs ys : List α}
  {y : String}

def KnownBefore (known : List String) (xs : List α) : Prop :=
  AtEach (fun before x _ => ∀ y ∈ reads x, y ∈ known ∨ y ∈ before.flatMap names) xs

def ReadLate (known : List String) (xs : List α) (y : String) : Prop :=
  ∃ before x after, xs = before ++ x :: after ∧ y ∈ reads x ∧ y ∉ known ∧ y ∉ before.flatMap names

variable {reads names}

theorem knownBefore_iff : KnownBefore reads names known xs ↔ ∀ y, ¬ ReadLate reads names known xs y := by
  constructor
  · rintro h y ⟨before, x, after, he, hy, hk, hb⟩
    exact (h before x after he y hy).elim hk hb
  · intro h before x after he y hy
    by_cases hk : y ∈ known
    · exact .inl hk
    · refine .inr (Classical.byContradiction fun hb => ?_)
      exact h y ⟨before, x, after, he, hy, hk, hb⟩

theorem KnownBefore.append_iff : KnownBefore reads names known (xs ++ ys) ↔
    KnownBefore reads names known xs ∧ KnownBefore reads names (known ++ xs.flatMap names) ys := by
  rw [KnownBefore, AtEach.append_iff]
  refine and_congr Iff.rfl ?_
  simp only [KnownBefore, List.flatMap_append, List.mem_append, or_assoc]

theorem knownBefore_cons_iff : KnownBefore reads names known (x :: xs) ↔
    (∀ y ∈ reads x, y ∈ known) ∧ KnownBefore reads names (known ++ names x) xs := by
  rw [KnownBefore, AtEach.cons_iff]
  simp only [KnownBefore, List.flatMap_nil, List.not_mem_nil, or_false, List.flatMap_cons,
    List.mem_append, or_assoc]

theorem KnownBefore.mono (h : KnownBefore reads names known xs) (hk : ∀ y ∈ known, y ∈ known') :
    KnownBefore reads names known' xs :=
  AtEach.mono h fun _ _ _ hr y hy => (hr y hy).imp_left (hk y)

theorem not_readLate_nil : ¬ ReadLate reads names known [] y := by
  rintro ⟨before, x, after, he, _⟩
  cases before <;> cases he

theorem readLate_cons_iff : ReadLate reads names known (x :: xs) y ↔
    y ∈ reads x ∧ y ∉ known ∨ ReadLate reads names (known ++ names x) xs y := by
  constructor
  · rintro ⟨before, z, after, he, hy, hk, hb⟩
    cases before with
    | nil =>
      cases he
      exact .inl ⟨hy, hk⟩
    | cons z' before =>
      cases he
      rw [List.flatMap_cons, List.mem_append, not_or] at hb
      exact .inr ⟨before, z, after, rfl, hy, by simp [hk, hb.1], hb.2⟩
  · rintro (⟨hy, hk⟩ | ⟨before, z, after, rfl, hy, hk, hb⟩)
    · exact ⟨[], x, xs, rfl, hy, hk, List.not_mem_nil⟩
    · rw [List.mem_append, not_or] at hk
      exact ⟨x :: before, z, after, rfl, hy, hk.1, by simp [hk.2, hb]⟩

theorem readLate_append_iff : ReadLate reads names known (xs ++ ys) y ↔
    ReadLate reads names known xs y ∨ ReadLate reads names (known ++ xs.flatMap names) ys y := by
  induction xs generalizing known with
  | nil => simp [not_readLate_nil]
  | cons x xs ih =>
    rw [List.cons_append, readLate_cons_iff, readLate_cons_iff, ih, or_assoc, List.flatMap_cons,
      List.append_assoc]

theorem readLate_congr (h : y ∈ known ↔ y ∈ known') :
    ReadLate reads names known xs y ↔ ReadLate reads names known' xs y := by
  simp only [ReadLate, h]

theorem ReadLate.exists_mem (h : ReadLate reads names known xs y) : ∃ x ∈ xs, y ∈ reads x := by
  obtain ⟨before, x, after, rfl, hy, _⟩ := h
  exact ⟨x, by simp, hy⟩

end Reads

namespace Definition

def reads : Definition → List String
  | .assign _ e | .ret e => e.variables
  | .hole => []

def assigned : Definition → List String
  | .assign x _ => [x]
  | _ => []

def isAssignment : Definition → Bool
  | .assign .. => true
  | _ => false

def isFlat : Definition → Bool
  | .assign _ e | .ret e => e.isFlat
  | .hole => false

end Definition

inductive Piece where
  | single (d : Definition)
  | group (x : String) (left right : Expr)

namespace Piece

def definitions : Piece → List Definition
  | single d => [d]
  | group x l r => .assign x (.bin .sub l r) :: Bits.constraints x

def reads : Piece → List String
  | single d => d.reads
  | group _ l r => l.variables ++ r.variables

def bits : Piece → List String
  | single _ => []
  | group x _ _ => Bits.names x

def names (p : Piece) : List String :=
  p.definitions.flatMap Definition.assigned ++ p.bits

def isFlat : Piece → Bool
  | single d => d.isFlat
  | group _ l r => l.isAtom && r.isAtom

variable {x y : String} {l r : Expr} {d : Definition}

theorem forall_mem_group {P : Definition → Prop} : (∀ d ∈ (group x l r).definitions, P d) ↔
    P (.assign x (.bin .sub l r)) ∧ (∀ b ∈ Bits.names x, P (Bits.bitConstraint b)) ∧
      P (.assign x (Bits.weightedSum x)) := by
  rw [definitions, Bits.constraints, List.forall_mem_cons, List.forall_mem_append, List.forall_mem_map,
    List.forall_mem_singleton]

theorem assigned_constraints : (Bits.constraints x).flatMap Definition.assigned = Bits.names x ++ [x] := by
  rw [Bits.constraints, List.flatMap_append, List.flatMap_map]
  have h : (fun b => (Bits.bitConstraint b).assigned) = fun b => [b] := rfl
  rw [h, List.flatMap_singleton']
  rfl

theorem mem_names_group : y ∈ (group x l r).names ↔ y = x ∨ y ∈ Bits.names x := by
  simp only [names, definitions, bits, List.flatMap_cons, Definition.assigned, assigned_constraints,
    List.mem_append, List.mem_singleton]
  tauto

theorem definitions_group : (group x l r).definitions =
    (.assign x (.bin .sub l r) :: (Bits.names x).map Bits.bitConstraint) ++ [.assign x (Bits.weightedSum x)] :=
  rfl

theorem names_single : (single d).names = d.assigned := by
  simp [names, definitions, bits]

theorem definitions_ne_nil (p : Piece) : p.definitions ≠ [] := by
  cases p <;> exact List.cons_ne_nil _ _

end Piece

section Lists

variable {ps : List Piece}

theorem flatMap_definitions_eq_nil_iff : ps.flatMap Piece.definitions = [] ↔ ps = [] := by
  cases ps with
  | nil => simp
  | cons p ps => simp [Piece.definitions_ne_nil p]

def Separated (ps : List Piece) : Prop :=
  AtEach (fun _ p after => ∀ x l r e, p = .single (.assign x (.bin .sub l r)) →
    (after.flatMap Piece.definitions).head? ≠ some (.assign (Name.bit x 0) e)) ps

def Placed (ps : List Piece) : Prop :=
  AtEach (fun _ p after => ∀ d, p = .single d → d.isReturn = after.isEmpty) ps

def ReadsKnown (known : List String) (ps : List Piece) : Prop :=
  KnownBefore Piece.reads Piece.names known ps

structure Piece.Fits (p : Piece) (ds : List Definition) : Prop where
  flat : p.isFlat = true
  separated : ∀ x l r e, p = .single (.assign x (.bin .sub l r)) →
    ds.head? ≠ some (.assign (Name.bit x 0) e)
  placed : ∀ d, p = .single d → d.isReturn = ds.isEmpty

structure Shaped (ps : List Piece) : Prop where
  flat : ∀ p ∈ ps, p.isFlat = true
  separated : Separated ps
  placed : Placed ps

theorem shaped_nil : Shaped [] :=
  ⟨fun _ hp => absurd hp List.not_mem_nil, AtEach.nil, AtEach.nil⟩

theorem shaped_cons_iff {p : Piece} :
    Shaped (p :: ps) ↔ p.Fits (ps.flatMap Piece.definitions) ∧ Shaped ps := by
  have hempty : (ps.flatMap Piece.definitions).isEmpty = ps.isEmpty := by
    rw [Bool.eq_iff_iff, List.isEmpty_iff, List.isEmpty_iff, flatMap_definitions_eq_nil_iff]
  constructor
  · rintro ⟨hf, hs, hp⟩
    obtain ⟨hfp, hfs⟩ := List.forall_mem_cons.mp hf
    obtain ⟨hsp, hss⟩ := AtEach.cons_iff.mp hs
    obtain ⟨hpp, hps⟩ := AtEach.cons_iff.mp hp
    exact ⟨⟨hfp, hsp, hempty ▸ hpp⟩, hfs, hss, hps⟩
  · rintro ⟨⟨hfp, hsp, hpp⟩, hfs, hss, hps⟩
    exact ⟨List.forall_mem_cons.mpr ⟨hfp, hfs⟩, AtEach.cons_iff.mpr ⟨hsp, hss⟩,
      AtEach.cons_iff.mpr ⟨hempty ▸ hpp, hps⟩⟩

end Lists

end FlatCircuit
