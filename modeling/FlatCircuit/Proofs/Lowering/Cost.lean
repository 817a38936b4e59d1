import FlatCircuit.Proofs.Lowering.Recursion

namespace FlatCircuit

def Expr.slot (e : Expr) : Nat :=
  if e.isAtom then 0 else 1

mutual

def Expr.temporaries (strict : Bool) : Expr → Nat
  | .lit _ | .var _ | .hole => 0
  | .bin _ l r => l.temporaries strict + r.temporaries strict + l.slot + r.slot
  | .pow (.var _) (.lit k) => (k - 2).toNat
  | .pow (.lit _) (.lit k) => if strict then (k - 2).toNat else 0
  | .pow _ _ => 0
  | .ite c x y => c.temporaries strict + x.temporaries strict + y.temporaries strict + x.slot + y.slot + 6

def Condition.temporaries (strict : Bool) : Condition → Nat
  | .less l r => l.temporaries strict + r.temporaries strict
  | .hole => 0

end

mutual

def Expr.choices : Expr → Nat
  | .lit _ | .var _ | .hole => 0
  | .bin _ l r => l.choices + r.choices
  | .pow b e => b.choices + e.choices
  | .ite c x y => c.choices + x.choices + y.choices + 1

def Condition.choices : Condition → Nat
  | .less l r => l.choices + r.choices
  | .hole => 0

end

mutual

def Expr.size : Expr → Nat
  | .lit _ | .var _ | .hole => 1
  | .bin _ l r => l.size + r.size + 1
  | .pow b e => b.size + e.size + 1
  | .ite c x y => c.size + x.size + y.size + 1

def Condition.size : Condition → Nat
  | .less l r => l.size + r.size + 1
  | .hole => 1

end

mutual

def Expr.exponents : Expr → Nat
  | .lit _ | .var _ | .hole => 0
  | .bin _ l r => l.exponents + r.exponents
  | .pow b (.lit k) => b.exponents + k.toNat
  | .pow b e => b.exponents + e.exponents
  | .ite c x y => c.exponents + x.exponents + y.exponents

def Condition.exponents : Condition → Nat
  | .less l r => l.exponents + r.exponents
  | .hole => 0

end

section Counts

variable {strict : Bool} {b e f a x y : Expr} {k : Int} {n m : Nat} {ds : List Definition}

theorem Expr.temporaries_select (s : String) (x y : Expr) :
    (Expr.select (.var s) x y).temporaries strict =
      x.temporaries strict + y.temporaries strict + x.slot + y.slot + 3 := by
  simp only [select, temporaries, slot, isAtom]
  simp
  omega

theorem Expr.temporaries_pow_le (strict : Bool) (b : Expr) (k : Int) :
    (Expr.pow b (.lit k)).temporaries strict ≤ k.toNat := by
  cases b with
  | var x =>
    rw [temporaries]
    omega
  | lit a =>
    rw [temporaries]
    split <;> omega
  | bin | pow | ite | hole => exact Nat.zero_le _

theorem Expr.choices_select (s : String) (x y : Expr) :
    (Expr.select (.var s) x y).choices = x.choices + y.choices := by
  simp only [select, choices]
  omega

namespace Lowering

theorem Expands.temporaries_pow (hb : Expands strict b) (k : Int) :
    (Expr.pow b (.lit k)).temporaries strict = (k - 2).toNat := by
  cases b with
  | var x => rfl
  | lit a =>
    obtain rfl : strict = true := hb
    rfl
  | bin | pow | ite | hole => cases hb

theorem Expands.choices_pow (hb : Expands strict b) (k : Int) : (Expr.pow b (.lit k)).choices = 0 := by
  cases b with
  | var | lit => rfl
  | bin | pow | ite | hole => cases hb

theorem Lowers.slot_eq (h : Lowers strict e n ds m f) : f.slot = e.slot := by
  induction h with
  | atom => rfl
  | operation | literalPower | square | power => rfl
  | choice _ _ _ _ _ ih => exact ih

theorem Takes.cost (h : Takes f n ds m a) : m = n + f.slot ∧ ds.length = f.slot := by
  cases h with
  | atom hf => simp [Expr.slot, hf]
  | stored hf => simp [Expr.slot, hf]

theorem length_comparison (l r : Expr) (n : Nat) : (comparison l r n).length = 12 := by
  simp [comparison, Bits.length_constraints, Bits.width]

theorem Lowers.cost (h : Lowers strict e n ds m f) :
    m = n + e.temporaries strict ∧ ds.length = e.temporaries strict + 9 * e.choices := by
  induction h with
  | @atom e n ha => cases e <;> first | exact ⟨rfl, rfl⟩ | cases ha
  | operation op hl hr ha hb ihl ihr =>
    have hal := ha.cost
    have hbr := hb.cost
    rw [hl.slot_eq] at hal
    rw [hr.slot_eq] at hbr
    simp only [Expr.temporaries, Expr.choices, List.length_append]
    omega
  | literalPower hs hk =>
    simp [Expr.temporaries, Expr.choices, hs]
  | square hb =>
    rw [hb.temporaries_pow, hb.choices_pow]
    exact ⟨rfl, rfl⟩
  | power hb hk _ ih =>
    rw [hb.temporaries_pow, hb.choices_pow] at ih ⊢
    rw [List.length_append, List.length_singleton]
    omega
  | @choice l r l' r' x y f n n₁ n₂ m ds₁ ds₂ ds₃ _ _ _ ihl ihr ih =>
    rw [Expr.temporaries_select, Expr.choices_select] at ih
    simp only [Expr.temporaries, Condition.temporaries, Expr.choices, Condition.choices, List.length_append,
      length_comparison]
    omega

end Lowering

/-- A choice takes sixteen definitions besides those for its parts, and no other node takes more than one. -/
theorem Expr.cost_le (strict : Bool) (e : Expr) :
    e.temporaries strict + e.slot + 9 * e.choices ≤ 16 * e.size + e.exponents := by
  have hslot : ∀ e : Expr, e.slot ≤ 1 := by
    intro e
    unfold slot
    split <;> omega
  induction e with
  | lit | var => exact Nat.zero_le _
  | hole => exact Nat.le_trans (hslot .hole) (by decide)
  | bin op l r ihl ihr =>
    have hs := hslot (.bin op l r)
    simp only [temporaries, choices, size, exponents]
    omega
  | pow b e ihb ihe =>
    have hs := hslot (.pow b e)
    cases e with
    | lit k =>
      have ht := temporaries_pow_le strict b k
      simp only [choices, size, exponents]
      omega
    | var | bin | pow | ite | hole =>
      simp only [temporaries, choices, size, exponents] at ihe ⊢
      omega
  | less l r x y ihl ihr ihx ihy =>
    have hs := hslot (.ite (.less l r) x y)
    simp only [temporaries, Condition.temporaries, choices, Condition.choices, size, Condition.size,
      exponents, Condition.exponents]
    omega
  | untested x y ihx ihy =>
    have hs := hslot (.ite .hole x y)
    simp only [temporaries, Condition.temporaries, choices, Condition.choices, size, Condition.size,
      exponents, Condition.exponents]
    omega

/-- The recursion of lowering ends at every expression. Where it succeeds the temporaries and the definitions
are as many as are counted on the expression, so each part is lowered once and the cost is linear. -/
theorem Expr.lower_ends_with_cost (strict : Bool) (e : Expr) :
    (∃ depth, ∀ go, (Lowering.reenter strict)^[depth] go e = e.lower strict) ∧
    ∀ n ds m f, e.lower strict n = ⟨ds, m, .ok f⟩ →
      m = n + e.temporaries strict ∧ ds.length = e.temporaries strict + 9 * e.choices ∧
        ds.length ≤ 16 * e.size + e.exponents := by
  refine ⟨⟨e.weight + 1, Lowering.iterate_reenter (Nat.lt_succ_self _)⟩, fun n ds m f h => ?_⟩
  obtain ⟨hnext, hlength⟩ := (Lowering.lowers_of_lower h).cost
  have hle := e.cost_le strict
  exact ⟨hnext, hlength, by omega⟩

theorem Expr.lower_ends_with_cost_nested :
    let e : Expr := .ite (.less (.bin .add (.var "x") (.pow (.lit 2) (.lit 5))) (.lit 3))
      (.ite (.less (.var "x") (.lit 1)) (.pow (.var "x") (.lit 4)) (.lit 0)) (.var "x")
    ∃ ds f, e.lower true 7 = ⟨ds, 27, .ok f⟩ ∧ ds.length = 38 := by
  intro e
  have hok : (e.lower true 7).value.isOk = true := by decide +kernel
  rcases h : e.lower true 7 with ⟨ds, m, err | f⟩
  · rw [h] at hok
    cases hok
  · obtain ⟨rfl, hlength, _⟩ := (lower_ends_with_cost true e).2 7 ds m f h
    exact ⟨ds, f, rfl, hlength⟩

end Counts

end FlatCircuit
