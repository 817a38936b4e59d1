import FlatCircuit.Proofs.Evaluation.Reading
import FlatCircuit.Proofs.Plain

namespace FlatCircuit

def Fault.IsOrdinary : Fault → Prop
  | .constraint _ | .negativeExponent | .otherSpelling _ | .badIndex _ => False
  | .undefined x => Name.IsPlain x
  | _ => True

namespace Fault

variable {limit : DigitLimit} {err : Fault}

def IsOverlong (limit : DigitLimit) (err : Fault) : Prop :=
  ∃ a b, err = .inexactDivision a b ∧ (limit.writes a = false ∨ limit.writes b = false)

theorem halt_of_index? (h : err.index? = none) : err.halt limit = .showing limit err.shown err := by
  rw [halt, h]
  rfl

theorem IsOrdinary.index?_eq_none (h : err.IsOrdinary) : err.index? = none := by
  cases err with
  | undefined x =>
    rw [index?, Name.splitBit?_eq_none_of_isPlain h]
    rfl
  | otherSpelling => cases h
  | _ => rfl

theorem halt_cases (h : err.index? = none) (limit : DigitLimit) :
    err.halt limit = .raised err ∨ err.halt limit = .overlong ∧ ∃ n ∈ err.shown, limit.writes n = false := by
  rw [halt_of_index? h]
  cases hs : Halt.showing limit err.shown err with
  | raised other => exact .inl (congrArg Halt.raised (Halt.showing_eq_raised_iff.mp hs).2.symm)
  | overlong => exact .inr ⟨rfl, Halt.showing_eq_overlong_iff.mp hs⟩

theorem IsOrdinary.halt_cases (h : err.IsOrdinary) (limit : DigitLimit) :
    err.halt limit = .raised err ∨ err.halt limit = .overlong ∧ err.IsOverlong limit := by
  refine (Fault.halt_cases h.index?_eq_none limit).imp_right fun ⟨ho, n, hn, hw⟩ => ⟨ho, ?_⟩
  cases err with
  | inexactDivision a b =>
    refine ⟨a, b, rfl, ?_⟩
    rcases List.mem_cons.mp hn with rfl | hn
    · exact .inl hw
    · exact .inr (List.mem_singleton.mp hn ▸ hw)
  | constraint => cases h
  | _ => cases hn

theorem IsOverlong.halt_eq (h : err.IsOverlong limit) : err.halt limit = .overlong := by
  obtain ⟨a, b, rfl, hw⟩ := h
  rw [halt_of_index? rfl]
  refine Halt.showing_eq_overlong_iff.mpr ?_
  rcases hw with hw | hw
  · exact ⟨a, List.mem_cons_self, hw⟩
  · exact ⟨b, List.mem_cons_of_mem a List.mem_cons_self, hw⟩

theorem IsOrdinary.halt_eq_overlong_iff (h : err.IsOrdinary) : err.halt limit = .overlong ↔ err.IsOverlong limit := by
  refine ⟨fun ho => ?_, IsOverlong.halt_eq⟩
  rcases h.halt_cases limit with hr | ⟨-, hlong⟩
  · cases hr.symm.trans ho
  · exact hlong

end Fault

mutual

def Expr.value? (ρ : Reading) (m : Memory) : Expr → Option Int
  | .lit n => some n
  | .var x => m[x]?
  | .bin op l r => do
    let a ← l.value? ρ m
    let b ← r.value? ρ m
    (op.apply a b).toOption
  | .pow b e =>
    match ρ.square? b with
    | some v => some v
    | none => do
      let a ← b.value? ρ m
      let n ← e.value? ρ m
      (Evaluation.raise a n).toOption
  | .ite c x y => do
    let t ← c.value? ρ m
    let a ← x.value? ρ m
    let b ← y.value? ρ m
    some (t * a + (1 - t) * b)
  | .hole => none

def Condition.value? (ρ : Reading) (m : Memory) : Condition → Option Int
  | .less l r => do
    let a ← l.value? ρ m
    let b ← r.value? ρ m
    some (ρ.less a b)
  | .hole => none

end

namespace Memory

variable {k m : Memory} {x : String}

def Settles (m : Memory) (x : String) : Prop :=
  Name.IsPlain x ∨ ∃ v, m[x]? = some v

structure Extends (k m : Memory) : Prop where
  plain : ∀ x : String, Name.IsPlain x → k[x]? = m[x]?
  bound : ∀ (x : String) (v : Int), m[x]? = some v → k[x]? = some v

theorem Extends.refl (m : Memory) : m.Extends m :=
  ⟨fun _ _ => rfl, fun _ _ h => h⟩

theorem Extends.trans {i : Memory} (h : i.Extends k) (hk : k.Extends m) : i.Extends m :=
  ⟨fun x hx => (h.plain x hx).trans (hk.plain x hx), fun x v hv => h.bound x v (hk.bound x v hv)⟩

theorem Extends.settles (h : k.Extends m) (hx : m.Settles x) : k.Settles x := by
  rcases hx with hx | ⟨v, hv⟩
  · exact .inl hx
  · exact .inr ⟨v, h.bound x v hv⟩

theorem Extends.getElem?_eq (h : k.Extends m) (hx : m.Settles x) : k[x]? = m[x]? := by
  rcases hx with hx | ⟨v, hv⟩
  · exact h.plain x hx
  · rw [h.bound x v hv, hv]

end Memory

open Evaluation

theorem Evaluation.runFrom_lookup {m : Memory} {x : String} {v : Int} (h : m[x]? = some v) :
    (lookup x).runFrom m = (.ok v, m) := by
  simp only [lookup, runFrom_bind, runFrom_get, h, runFrom_pure]

theorem Evaluation.runFrom_lookup_plain {m : Memory} {x : String} (hx : Name.IsPlain x)
    (h : m[x]? = none) : (lookup x).runFrom m = (.error (.undefined x), m) := by
  have ho : m.owner? x = .ok none := by
    rw [Memory.owner?, Name.splitBit?_eq_none_of_isPlain hx]
  simp only [lookup, runFrom_bind, runFrom_get, h, ho, runFrom_lift, runFrom_throw]

def Answers : Except Fault Int → Option Int → Prop
  | .ok a, some b => a = b
  | .error err, none => err.IsOrdinary
  | _, _ => False

def Evaluation.Settled (x : Evaluation Int) (m : Memory) (v : Option Int) : Prop :=
  ∃ r, x.runFrom m = (r, m) ∧ Answers r v

namespace Evaluation

variable {m : Memory} {x : Evaluation Int} {v : Option Int}

theorem Settled.bind {f : Int → Evaluation Int} {g : Int → Option Int} (hx : Settled x m v)
    (hf : ∀ a, Settled (f a) m (g a)) : Settled (x >>= f) m (v >>= g) := by
  obtain ⟨r, hr, ha⟩ := hx
  cases r with
  | ok a =>
    cases v with
    | none => cases ha
    | some b =>
      cases ha
      obtain ⟨s, hs, hb⟩ := hf a
      exact ⟨s, (runFrom_bind_ok m hr f).trans hs, hb⟩
  | error err =>
    cases v with
    | none => exact ⟨.error err, runFrom_bind_error m hr f, ha⟩
    | some b => cases ha

theorem Settled.runFrom_ok {a : Int} (h : Settled x m (some a)) : x.runFrom m = (.ok a, m) := by
  obtain ⟨r, hr, ha⟩ := h
  cases r with
  | ok b => exact hr.trans (by rw [show b = a from ha])
  | error err => cases ha

theorem Settled.runFrom_error (h : Settled x m none) :
    ∃ err, err.IsOrdinary ∧ x.runFrom m = (.error err, m) := by
  obtain ⟨r, hr, ha⟩ := h
  cases r with
  | ok b => cases ha
  | error err => exact ⟨err, ha, hr⟩

theorem settled_pure (a : Int) : Settled (pure a) m (some a) :=
  ⟨.ok a, rfl, rfl⟩

theorem settled_lift {r : Except Fault Int} (h : ∀ err, r = .error err → err.IsOrdinary) :
    Settled (liftM r) m r.toOption := by
  refine ⟨r, runFrom_lift m r, ?_⟩
  cases r with
  | ok a => rfl
  | error err => exact h err rfl

theorem isOrdinary_of_divide {a b : Int} {err : Fault} (h : divide a b = .error err) :
    err.IsOrdinary := by
  unfold divide at h
  split at h
  · cases h
    trivial
  · split at h <;> cases h
    trivial

theorem isOrdinary_of_apply {op : Operator} {a b : Int} {err : Fault}
    (h : op.apply a b = .error err) : err.IsOrdinary := by
  cases op with
  | div => exact isOrdinary_of_divide h
  | blank =>
    cases h
    trivial
  | _ => cases h

theorem settled_lookup {y : String} (h : m.Settles y) : Settled (lookup y) m m[y]? := by
  cases hy : m[y]? with
  | some v => exact ⟨.ok v, runFrom_lookup hy, rfl⟩
  | none =>
    rcases h with h | ⟨v, hv⟩
    · exact ⟨_, runFrom_lookup_plain h hy, h⟩
    · rw [hy] at hv
      cases hv

end Evaluation

section Value

variable {ρ : Reading} {m k : Memory} {e : Expr}

theorem Expr.settled_evalAs (hk : e.isKnown = true) (he : e.hasExponents = true)
    (hv : ∀ x ∈ e.variables, m.Settles x) : (e.evalAs ρ).Settled m (e.value? ρ m) := by
  induction e with
  | lit n => exact settled_pure n
  | var x => exact settled_lookup (hv x List.mem_cons_self)
  | bin op l r ihl ihr =>
    simp only [isKnown, Bool.and_eq_true, decide_eq_true_eq] at hk
    simp only [hasExponents, Bool.and_eq_true] at he
    simp only [Expr.variables, List.forall_mem_append] at hv
    rw [evalAs_bin hk.1.1]
    refine (ihl hk.1.2 he.1 hv.1).bind fun a => (ihr hk.2 he.2 hv.2).bind fun b => ?_
    exact settled_lift fun err => isOrdinary_of_apply
  | pow b e ihb ihe =>
    cases e with
    | lit n =>
      simp only [hasExponents, Bool.and_eq_true, decide_eq_true_eq] at he
      simp only [isKnown, Bool.and_eq_true] at hk
      simp only [evalAs, value?]
      cases ρ.square? b with
      | some v => exact settled_pure v
      | none =>
        refine (ihb hk.1 he.2 fun x hx => hv x (List.mem_append_left _ hx)).bind fun a => ?_
        have hr : raise a n = .ok (a.pow n.toNat) := raise_of_nonneg a (by omega)
        show Settled (liftM (raise a n)) m (raise a n).toOption
        rw [hr]
        exact settled_pure _
    | _ => cases he
  | less l r x y ihl ihr ihx ihy =>
    simp only [isKnown, Condition.isKnown, Bool.and_eq_true] at hk
    simp only [hasExponents, Condition.hasExponents, Bool.and_eq_true] at he
    simp only [Expr.variables, Condition.variables, List.forall_mem_append] at hv
    refine Settled.bind ?_ fun t => ?_
    · refine (ihl hk.1.1.1 he.1.1.1 hv.1.1.1).bind fun a => ?_
      exact (ihr hk.1.1.2 he.1.1.2 hv.1.1.2).bind fun b => settled_pure _
    · refine (ihx hk.1.2 he.1.2 hv.1.2).bind fun a => ?_
      exact (ihy hk.2 he.2 hv.2).bind fun b => settled_pure _
  | untested x y ihx ihy => cases hk
  | hole => cases hk

theorem Expr.value?_congr (h : ∀ x ∈ e.variables, k[x]? = m[x]?) : e.value? ρ k = e.value? ρ m := by
  induction e with
  | lit n => rfl
  | var x => exact h x List.mem_cons_self
  | bin op l r ihl ihr =>
    simp only [Expr.variables, List.forall_mem_append] at h
    simp only [value?, ihl h.1, ihr h.2]
  | pow b e ihb ihe =>
    simp only [Expr.variables, List.forall_mem_append] at h
    simp only [value?, ihb h.1, ihe h.2]
  | less l r x y ihl ihr ihx ihy =>
    simp only [Expr.variables, Condition.variables, List.forall_mem_append] at h
    simp only [value?, Condition.value?, ihl h.1.1.1, ihr h.1.1.2, ihx h.1.2, ihy h.2]
  | untested x y ihx ihy => rfl
  | hole => rfl

theorem Expr.value?_of_extends (h : k.Extends m) (hv : ∀ x ∈ e.variables, m.Settles x) :
    e.value? ρ k = e.value? ρ m :=
  value?_congr fun x hx => h.getElem?_eq (hv x hx)

end Value

end FlatCircuit
