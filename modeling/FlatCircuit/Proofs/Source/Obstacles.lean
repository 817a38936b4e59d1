import FlatCircuit.Source.Printer

/-! What stands in the way of a text. A walk over a program meets its holes, and the numbers in it that are too
long, from left to right, and stops at the first of these. Without any of them the walk makes the text. -/

namespace FlatCircuit

section Holes

mutual

def Expr.holes : Expr → List Hole
  | .lit _ | .var _ => []
  | .bin _ l r => l.holes ++ r.holes
  | .pow b e => b.holes ++ e.holes
  | .ite c x y => c.holes ++ (x.holes ++ y.holes)
  | .hole => [.expression]

def Condition.holes : Condition → List Hole
  | .less l r => l.holes ++ r.holes
  | .hole => [.condition]

end

def Definition.holes : Definition → List Hole
  | .assign _ e | .ret e => e.holes
  | .hole => [.definition]

def Program.holes (p : Program) : List Hole :=
  p.definitions.flatMap Definition.holes

theorem Expr.head?_holes (e : Expr) : e.holes.head? = e.hole? := by
  induction e with
  | lit | var | hole => rfl
  | bin op l r ihl ihr => rw [holes, hole?, List.head?_append, ihl, ihr]
  | pow b e ihb ihe => rw [holes, hole?, List.head?_append, ihb, ihe]
  | less l r x y ihl ihr ihx ihy =>
    rw [holes, hole?, Condition.holes, Condition.hole?, List.head?_append, List.head?_append, List.head?_append,
      ihl, ihr, ihx, ihy]
  | untested x y ihx ihy => rfl

theorem Definition.head?_holes (d : Definition) : d.holes.head? = d.hole? := by
  cases d with
  | assign x e | ret e => exact e.head?_holes
  | hole => rfl

theorem Program.head?_holes (p : Program) : p.holes.head? = p.hole? := by
  rw [holes, hole?]
  induction p.definitions with
  | nil => rfl
  | cons d ds ih =>
    rw [List.flatMap_cons, List.head?_append, ih, d.head?_holes, List.findSome?_cons]
    cases d.hole? <;> rfl

end Holes

namespace Hole

variable {ε α β γ : Type} {h k : Option ε} {a : α} {b : β}

theorem absent_bind {f : α → Except ε β} (hf : f a = absent k b) : absent h a >>= f = absent (h.or k) b := by
  cases h with
  | none => exact hf
  | some => rfl

theorem absent_map (f : α → β) : (do return f (← absent h a)) = absent h (f a) := by
  cases h <;> rfl

theorem mapM_absent (ds : List γ) (missing : γ → Option ε) (f : γ → α) :
    ds.mapM (fun d => absent (missing d) (f d)) = absent (ds.findSome? missing) (ds.map f) := by
  induction ds with
  | nil => rfl
  | cons d ds ih =>
    rw [List.mapM_cons, ih, List.findSome?_cons]
    cases missing d with
    | none => exact absent_map (List.cons (f d))
    | some => rfl

end Hole

open Hole

def Halt.raised? {ε : Type} : Halt ε → Option ε
  | .overlong => none
  | .raised err => some err

mutual

def Expr.obstacles (limit : DigitLimit) : Expr → List (Halt Hole)
  | .lit n => if limit.writes n then [] else [.overlong]
  | .var _ => []
  | .bin _ l r => l.obstacles limit ++ r.obstacles limit
  | .pow b e => b.obstacles limit ++ e.obstacles limit
  | .ite c x y => c.obstacles limit ++ (x.obstacles limit ++ y.obstacles limit)
  | .hole => [.raised .expression]

def Condition.obstacles (limit : DigitLimit) : Condition → List (Halt Hole)
  | .less l r => l.obstacles limit ++ r.obstacles limit
  | .hole => [.raised .condition]

end

def Definition.obstacles (limit : DigitLimit) : Definition → List (Halt Hole)
  | .assign _ e | .ret e => e.obstacles limit
  | .hole => [.raised .definition]

def Program.obstacles (limit : DigitLimit) (p : Program) : List (Halt Hole) :=
  p.definitions.flatMap (Definition.obstacles limit)

section Walks

variable {limit : DigitLimit} {l r : Expr}

theorem Condition.renderWithin_less (hl : l.renderWithin limit = absent (l.obstacles limit).head? l.text)
    (hr : r.renderWithin limit = absent (r.obstacles limit).head? r.text) :
    (less l r).renderWithin limit = absent ((less l r).obstacles limit).head? (less l r).text := by
  rw [renderWithin, hl, hr, obstacles, List.head?_append]
  exact absent_bind (absent_map _)

theorem Expr.renderWithin_eq (e : Expr) : e.renderWithin limit = absent (e.obstacles limit).head? e.text := by
  induction e with
  | lit n =>
    rw [renderWithin, obstacles]
    split <;> rfl
  | var | hole => rfl
  | bin op l r ihl ihr =>
    rw [renderWithin, ihl, ihr, obstacles, List.head?_append]
    exact absent_bind (absent_map _)
  | pow b e ihb ihe =>
    rw [renderWithin, ihb, ihe, obstacles, List.head?_append]
    exact absent_bind (absent_map _)
  | less l r x y ihl ihr ihx ihy =>
    rw [renderWithin, Condition.renderWithin_less ihl ihr, ihx, ihy, obstacles, List.head?_append, List.head?_append]
    exact absent_bind (absent_bind (absent_map _))
  | untested x y => rfl

theorem Definition.renderWithin_eq (d : Definition) :
    d.renderWithin limit = absent (d.obstacles limit).head? d.text := by
  cases d with
  | assign x e | ret e =>
    rw [renderWithin, e.renderWithin_eq]
    exact absent_map _
  | hole => rfl

theorem Expr.filterMap_obstacles (e : Expr) : (e.obstacles limit).filterMap Halt.raised? = e.holes := by
  induction e with
  | lit n =>
    rw [obstacles]
    split <;> rfl
  | var | hole => rfl
  | bin op l r ihl ihr => rw [obstacles, holes, List.filterMap_append, ihl, ihr]
  | pow b e ihb ihe => rw [obstacles, holes, List.filterMap_append, ihb, ihe]
  | less l r x y ihl ihr ihx ihy =>
    simp only [obstacles, holes, Condition.obstacles, Condition.holes, List.filterMap_append, ihl, ihr, ihx, ihy]
  | untested x y ihx ihy =>
    simp only [obstacles, holes, Condition.obstacles, Condition.holes, List.filterMap_append, ihx, ihy]
    rfl

theorem Expr.overlong_mem_obstacles_iff (e : Expr) :
    .overlong ∈ e.obstacles limit ↔ ∃ n ∈ e.literals, limit.writes n = false := by
  induction e with
  | lit n => cases h : limit.writes n <;> simp [obstacles, literals, h]
  | var | hole => simp [obstacles, literals]
  | bin op l r ihl ihr =>
    simp only [obstacles, literals, List.mem_append, or_and_right, exists_or, ihl, ihr]
  | pow b e ihb ihe =>
    simp only [obstacles, literals, List.mem_append, or_and_right, exists_or, ihb, ihe]
  | less l r x y ihl ihr ihx ihy =>
    simp only [obstacles, literals, Condition.obstacles, Condition.literals, List.mem_append, or_and_right, exists_or,
      ihl, ihr, ihx, ihy, or_assoc]
  | untested x y ihx ihy =>
    simp [obstacles, literals, Condition.obstacles, Condition.literals, or_and_right, exists_or, ihx, ihy]

theorem Definition.filterMap_obstacles (d : Definition) :
    (d.obstacles limit).filterMap Halt.raised? = d.holes := by
  cases d with
  | assign x e | ret e => exact e.filterMap_obstacles
  | hole => rfl

theorem Definition.overlong_mem_obstacles_iff (d : Definition) :
    .overlong ∈ d.obstacles limit ↔ ∃ n ∈ d.literals, limit.writes n = false := by
  cases d with
  | assign x e | ret e => exact e.overlong_mem_obstacles_iff
  | hole => simp [obstacles, literals]

namespace Program

variable (p : Program)

theorem findSome?_obstacles (ds : List Definition) :
    (ds.findSome? fun d => (d.obstacles limit).head?) = (ds.flatMap (Definition.obstacles limit)).head? := by
  induction ds with
  | nil => rfl
  | cons d ds ih =>
    rw [List.flatMap_cons, List.head?_append, List.findSome?_cons, ih]
    cases (d.obstacles limit).head? <;> rfl

theorem renderWithin_eq : p.renderWithin limit = absent (p.obstacles limit).head? p.text := by
  have hd : Definition.renderWithin limit = fun d => absent (d.obstacles limit).head? d.text :=
    funext Definition.renderWithin_eq
  rw [renderWithin, hd, mapM_absent, findSome?_obstacles, absent_map, text, obstacles, List.map_map]
  rfl

theorem filterMap_obstacles (limit : DigitLimit) : (p.obstacles limit).filterMap Halt.raised? = p.holes := by
  rw [obstacles, holes, List.filterMap_flatMap]
  exact congrArg (p.definitions.flatMap ·) (funext Definition.filterMap_obstacles)

theorem overlong_mem_obstacles_iff :
    .overlong ∈ p.obstacles limit ↔ ∃ n ∈ p.literals, limit.writes n = false := by
  simp only [obstacles, literals, List.mem_flatMap, Definition.overlong_mem_obstacles_iff]
  exact ⟨fun ⟨d, hd, n, hn, hw⟩ => ⟨n, ⟨d, hd, hn⟩, hw⟩, fun ⟨n, ⟨d, hd, hn⟩, hw⟩ => ⟨d, hd, n, hn, hw⟩⟩

theorem obstacles_eq_nil_iff :
    p.obstacles limit = [] ↔ p.hole? = none ∧ ∀ n ∈ p.literals, limit.writes n = true := by
  rw [← head?_holes, List.head?_eq_none_iff, ← p.filterMap_obstacles limit]
  constructor
  · intro h
    refine ⟨by rw [h]; rfl, fun n hn => ?_⟩
    cases hw : limit.writes n with
    | true => rfl
    | false =>
      have hm := p.overlong_mem_obstacles_iff.mpr ⟨n, hn, hw⟩
      rw [h] at hm
      cases hm
  · rintro ⟨hraised, hw⟩
    refine List.eq_nil_iff_forall_not_mem.mpr fun halt hm => ?_
    cases halt with
    | overlong =>
      obtain ⟨n, hn, hn'⟩ := p.overlong_mem_obstacles_iff.mp hm
      cases (hw n hn).symm.trans hn'
    | raised err => cases List.filterMap_eq_nil_iff.mp hraised _ hm

theorem renderWithin_eq_ok_iff {t : String} :
    p.renderWithin limit = .ok t ↔ p.hole? = none ∧ (∀ n ∈ p.literals, limit.writes n = true) ∧ p.text = t := by
  rw [renderWithin_eq, absent_eq_ok_iff, List.head?_eq_none_iff, obstacles_eq_nil_iff, and_assoc]

end Program

end Walks

end FlatCircuit
