import FlatCircuit.Proofs.Lowering.Derivation

namespace FlatCircuit

inductive Site where
  | expression (e : Expr)
  | condition (c : Condition)
  | difference (left right : Expr)

mutual

def Expr.sites : Expr → List Site
  | .lit n => [.expression (.lit n)]
  | .var x => [.expression (.var x)]
  | .bin op l r => .expression (.bin op l r) :: (l.sites ++ r.sites)
  | .pow b e => [.expression (.pow b e)]
  | .ite c x y => .expression (.ite c x y) :: (c.sites ++ (x.sites ++ y.sites))
  | .hole => [.expression .hole]

def Condition.sites : Condition → List Site
  | .less l r => .condition (.less l r) :: (l.sites ++ (r.sites ++ [.difference l r]))
  | .hole => [.condition .hole]

end

def Definition.sites : Definition → List Site
  | .assign _ e | .ret e => e.sites
  | .hole => []

def Program.sites (p : Program) : List Site :=
  p.definitions.flatMap Definition.sites

namespace Site

inductive Offends : Site → Unsupported → Prop
  | exponent {b e : Expr} : (∀ k, e = .lit k → k ≤ 1) →
      Offends (.expression (.pow b e)) (.exponent (.pow b e))
  | base {b : Expr} {k : Int} : 1 < k → b.isAtom = false →
      Offends (.expression (.pow b (.lit k))) (.base (.pow b (.lit k)))
  | expression : Offends (.expression .hole) .expression
  | condition : Offends (.condition .hole) .condition
  | range {a b : Int} : (a - b < -128 ∨ 127 < a - b) →
      Offends (.difference (.lit a) (.lit b)) (.range a b)

def offence? : Site → Option Unsupported
  | .expression (.pow b (.lit k)) =>
    if k ≤ 1 then some (.exponent (.pow b (.lit k)))
    else if b.isAtom then none
    else some (.base (.pow b (.lit k)))
  | .expression (.pow b e) => some (.exponent (.pow b e))
  | .expression .hole => some .expression
  | .condition .hole => some .condition
  | .difference (.lit a) (.lit b) => if a - b < -128 ∨ 127 < a - b then some (.range a b) else none
  | _ => none

variable {s : Site} {cause : Unsupported}

theorem Offends.offence?_eq (h : s.Offends cause) : s.offence? = some cause := by
  cases h with
  | @exponent b e he =>
    cases e with
    | lit k => rw [offence?, if_pos (he k rfl)]
    | var | bin | pow | ite | hole => rfl
  | base hk hb => rw [offence?, if_neg (by omega), hb, if_neg (by decide)]
  | expression | condition => rfl
  | range hr => rw [offence?, if_pos hr]

theorem offends_of_offence? (h : s.offence? = some cause) : s.Offends cause := by
  unfold offence? at h
  split at h
  · next b k =>
    split at h
    · next hk =>
      cases h
      exact .exponent fun _ hl => by cases hl; exact hk
    · next hk =>
      split at h
      · cases h
      · next hb =>
        cases h
        exact .base (by omega) (Bool.eq_false_iff.mpr hb)
  · next hl =>
    cases h
    exact .exponent fun k hk => absurd hk (hl k)
  · cases h
    exact .expression
  · cases h
    exact .condition
  · split at h
    · next hr =>
      cases h
      exact .range hr
    · cases h
  · cases h

theorem offends_iff : s.Offends cause ↔ s.offence? = some cause :=
  ⟨Offends.offence?_eq, offends_of_offence?⟩

theorem offends_difference_iff {l r : Expr} :
    (difference l r).Offends cause ↔
      ∃ a b, l = .lit a ∧ r = .lit b ∧ (a - b < -128 ∨ 127 < a - b) ∧ cause = .range a b := by
  refine ⟨fun h => ?_, ?_⟩
  · cases h with
    | range hr => exact ⟨_, _, rfl, rfl, hr, rfl⟩
  · rintro ⟨a, b, rfl, rfl, hr, rfl⟩
    exact .range hr

end Site

def Expr.offence? (e : Expr) : Option Unsupported :=
  e.sites.findSome? Site.offence?

def Condition.offence? (c : Condition) : Option Unsupported :=
  c.sites.findSome? Site.offence?

mutual

/-- No power has a hole among its parts, where it would come in the way of the message about it. -/
def Expr.hasWholePowers : Expr → Bool
  | .lit _ | .var _ | .hole => true
  | .bin _ l r => l.hasWholePowers && r.hasWholePowers
  | .pow b e => (b.hole?.or e.hole?).isNone
  | .ite c x y => c.hasWholePowers && x.hasWholePowers && y.hasWholePowers

def Condition.hasWholePowers : Condition → Bool
  | .less l r => l.hasWholePowers && r.hasWholePowers
  | .hole => true

end

def Definition.hasWholePowers : Definition → Bool
  | .assign _ e | .ret e => e.hasWholePowers
  | .hole => true

def Program.hasWholePowers (p : Program) : Bool :=
  p.definitions.all Definition.hasWholePowers

namespace Lowering

variable {α β : Type} {n m k : Nat} {ds es : List Definition} {strict : Bool}

def Stops (x : Lowering α) : Option Unsupported → Prop
  | none => ∀ n, ∃ ds m a, x n = ⟨ds, m, .ok a⟩
  | some cause => ∀ n, ∃ ds m, x n = ⟨ds, m, .error (.unsupported cause)⟩

theorem stops_pure (a : α) : Stops (Pure.pure a) none :=
  fun n => ⟨[], n, a, rfl⟩

theorem stops_fail (cause : Unsupported) : Stops (fail (.unsupported cause) : Lowering α) (some cause) :=
  fun n => ⟨[], n, rfl⟩

theorem stops_emit (ds : List Definition) : Stops (emit ds) none :=
  fun n => ⟨ds, n, (), rfl⟩

theorem stops_store (e : Expr) : Stops (store e) none :=
  fun n => ⟨_, _, _, store_apply e n⟩

variable {x : Lowering α} {f : α → Lowering β} {o o' : Option Unsupported}

/-- What stops a computation in two parts is the first part's cause, or else that of the second one, which
may depend on the first part's value. -/
theorem Stops.bind (hx : Stops x o) (hf : ∀ n ds m a, x n = ⟨ds, m, .ok a⟩ → Stops (f a) o') :
    Stops (x >>= f) (o.or o') := by
  cases o with
  | some cause =>
    intro n
    obtain ⟨ds, m, h⟩ := hx n
    exact ⟨ds, m, bind_error h f⟩
  | none =>
    rw [Option.none_or]
    cases o' with
    | none =>
      intro n
      obtain ⟨ds, m, a, h⟩ := hx n
      obtain ⟨es, k, b, h'⟩ := hf n ds m a h m
      exact ⟨ds ++ es, k, b, by rw [bind_ok h, h']⟩
    | some cause =>
      intro n
      obtain ⟨ds, m, a, h⟩ := hx n
      obtain ⟨es, k, h'⟩ := hf n ds m a h m
      exact ⟨ds ++ es, k, by rw [bind_ok h, h']⟩

theorem Stops.then (hx : Stops x none) (hf : ∀ a, Stops (f a) o) : Stops (x >>= f) o :=
  hx.bind fun _ _ _ a _ => hf a

theorem stops_operand (e : Expr) : Stops (operand e) none := by
  cases he : e.isAtom with
  | true => exact fun n => ⟨_, _, _, operand_of_isAtom he n⟩
  | false => exact fun n => ⟨_, _, _, operand_of_not_isAtom he n⟩

theorem stops_multiply (b : Expr) (j : Nat) (product : Expr) : Stops (multiply b j product) none := by
  induction j generalizing product with
  | zero => exact stops_pure product
  | succ j ih => exact (stops_store product).then fun _ => ih _

theorem Lowers.lit_iff {e f : Expr} {a : Int} (h : Lowers strict e n ds m f) :
    f = .lit a ↔ e = .lit a := by
  cases h with
  | atom => exact Iff.rfl
  | operation | literalPower | square | power => exact ⟨nofun, nofun⟩
  | choice _ _ hs =>
    cases hs with
    | atom ha => cases ha
    | operation => exact ⟨nofun, nofun⟩

theorem stops_checkRange (l r : Expr) : Stops (checkRange l r) (Site.difference l r).offence? := by
  unfold checkRange
  split
  · next a b =>
    have hb : Bits.least = -128 ∧ Bits.greatest = 127 := by decide
    rw [Site.offence?, hb.1, hb.2]
    split
    · exact stops_fail _
    · exact stops_pure ()
  · next hlit =>
    have ho : (Site.difference l r).offence? = none := by
      unfold Site.offence?
      split <;> simp_all
    rw [ho]
    exact stops_pure ()

theorem stops_compare (l r : Expr) : Stops (compare l r) (Site.difference l r).offence? := by
  have h : Stops (compare l r) ((Site.difference l r).offence?.or none) :=
    (stops_checkRange l r).bind fun _ _ _ _ _ =>
      (stops_store l).then fun _ => (stops_store r).then fun _ => (stops_store _).then fun _ =>
        (stops_emit _).then fun _ => stops_pure _
  rwa [Option.or_none] at h

theorem offence?_difference_of_lowers {l r l' r' : Expr} {i : Nat} (hl : Lowers strict l n ds m l')
    (hr : Lowers strict r k es i r') :
    (Site.difference l' r').offence? = (Site.difference l r).offence? := by
  apply Option.ext
  intro cause
  simp only [← Site.offends_iff, Site.offends_difference_iff, hl.lit_iff, hr.lit_iff]

variable {e : Expr} {l r : Expr}

end Lowering

namespace Program

variable {p : Program}

end Program

end FlatCircuit
