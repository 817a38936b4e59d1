import FlatCircuit.Command.Compile
import FlatCircuit.Proofs.Contract.Holes
import FlatCircuit.Proofs.Evaluation.Faults
import FlatCircuit.Proofs.Document.Traversal
import FlatCircuit.Proofs.Lowering.Literals
import FlatCircuit.Proofs.Source.Limited

namespace FlatCircuit

theorem Expr.hasWholePowers_of_hole? {e : Expr} (h : e.hole? = none) : e.hasWholePowers = true := by
  induction e with
  | lit | var => rfl
  | bin op l r ihl ihr =>
    obtain ⟨hl, hr⟩ := Option.or_eq_none_iff.mp h
    exact Bool.and_eq_true_iff.mpr ⟨ihl hl, ihr hr⟩
  | pow b e _ _ => exact Option.isNone_iff_eq_none.mpr h
  | less l r x y ihl ihr ihx ihy =>
    simp only [hole?, Condition.hole?, Option.or_eq_none_iff] at h
    obtain ⟨⟨hl, hr⟩, hx, hy⟩ := h
    simp only [hasWholePowers, Condition.hasWholePowers, ihl hl, ihr hr, ihx hx, ihy hy, Bool.and_self]
  | untested | hole => cases h

namespace Program

variable {p q : Program} {strict : Bool}

theorem IsSource.hasWholePowers (h : p.IsSource) : p.hasWholePowers = true := by
  refine List.all_eq_true.mpr fun d hd => ?_
  have hd := hole?_eq_none_iff.mp h.hole?_eq_none d hd
  cases d with
  | assign x e | ret e => exact Expr.hasWholePowers_of_hole? hd
  | hole => rfl

end Program

theorem Fault.digits_ne_none_of_halt {limit : DigitLimit} {err : Fault} (h : err.halt limit = .overlong) :
    limit.digits ≠ none := by
  unfold halt at h
  split at h
  · obtain ⟨n, -, hn⟩ := Halt.showing_eq_overlong_iff.mp h
    exact DigitLimit.digits_ne_none_of_writes hn
  · next hi =>
    cases hd : err.index? with
    | none => simp [hd] at hi
    | some digits =>
      rw [hd] at hi
      exact DigitLimit.digits_ne_none_of_reads (Bool.eq_false_iff.mpr hi)

namespace Command

structure Failure.IsForeseen (f : Failure) : Prop where
  isHandled : f.isHandled = true
  messages_ne_nil : f.messages ≠ []

namespace Options

inductive Gives (o : Options) (p : Program) : Program → Prop
  | parsed : o.phase = .parse → Gives o p p
  | flattened {q : Program} : o.phase = .flatten → p.lower o.strict = .ok q →
      (o.check = true → q.check = .ok []) → Gives o p q

inductive Shows (o : Options) (p : Program) : String → Prop
  | value {ns : List Int} {v : Int} : o.arguments = some ns → p.run (.positional ns) = .ok v →
      Shows o p (toString v ++ "\n")
  | document {d : Json} : o.arguments = none → o.json = true → p.toDocument = .ok d →
      Shows o p (d.text ++ "\n")
  | source {text : String} : o.arguments = none → o.json = false → p.render = .ok text → Shows o p text

def Asks (o : Options) (source result : String) : Prop :=
  ∃ p q, Program.read source = .ok p ∧ o.Gives p q ∧ o.Shows q result

inductive Overruns (limit : DigitLimit) (o : Options) (p : Program) : Prop
  | fault {ns : List Int} {err : Fault} : o.arguments = some ns → p.run (.positional ns) = .error err →
      err.halt limit = .overlong → Overruns limit o p
  | value {ns : List Int} {v : Int} : o.arguments = some ns → p.run (.positional ns) = .ok v →
      limit.writes v = false → Overruns limit o p

/-- What is asked for has a number that is too long: a numeral of the source text, or one of the run. -/
inductive Exceeds (limit : DigitLimit) (o : Options) (source : String) : Prop
  | numeral {digits : List Char} : digits ∈ Source.lineNumerals (Text.lines source.toList) →
      limit.reads digits = false → Exceeds limit o source
  | run {p q : Program} : Program.read source = .ok p → o.Gives p q → o.Overruns limit q → Exceeds limit o source

theorem Overruns.digits_ne_none {limit : DigitLimit} {o : Options} {p : Program} (h : o.Overruns limit p) :
    limit.digits ≠ none := by
  cases h with
  | fault _ _ hlong => exact Fault.digits_ne_none_of_halt hlong
  | value _ _ hlong => exact DigitLimit.digits_ne_none_of_writes hlong

theorem Exceeds.digits_ne_none {limit : DigitLimit} {o : Options} {source : String} (h : o.Exceeds limit source) :
    limit.digits ≠ none := by
  cases h with
  | numeral _ hlong => exact DigitLimit.digits_ne_none_of_reads hlong
  | run _ _ hlong => exact hlong.digits_ne_none

end Options

def Yields (r : Except Failure α) (P : α → Prop) (exceeds : Prop) : Prop :=
  match r with
  | .ok a => P a
  | .error f => f.IsForeseen ∨ f = .overlong ∧ exceeds

section Stages

variable {α β ε : Type} {P : α → Prop} {Q : β → Prop} {exceeds : Prop} {limit : DigitLimit} {o : Options}
  {p q : Program}

theorem Yields.bind {r : Except Failure α} {f : α → Except Failure β} (hr : Yields r P exceeds)
    (hf : ∀ a, P a → Yields (f a) Q exceeds) : Yields (r >>= f) Q exceeds := by
  cases r with
  | ok a => exact hf a hr
  | error => exact hr

theorem Yields.imp {R : α → Prop} {exceeds' : Prop} {r : Except Failure α} (hr : Yields r P exceeds)
    (h : ∀ a, P a → R a) (he : exceeds → exceeds') : Yields r R exceeds' := by
  cases r with
  | ok a => exact h a hr
  | error => exact hr.imp_right (And.imp_right he)

namespace Options.Gives

theorem hole?_eq_none (hp : p.IsSource) (h : o.Gives p q) : q.hole? = none := by
  cases h with
  | parsed => exact hp.hole?_eq_none
  | flattened _ hq => exact hp.hole?_eq_none_of_lower hq

theorem writes (hw : ∀ n ∈ p.literals, limit.writes n = true) (h : o.Gives p q) :
    ∀ n ∈ q.literals, limit.writes n = true := by
  cases h with
  | parsed => exact hw
  | flattened _ hq => exact Program.writes_of_lower hq hw

end Options.Gives

end Stages

end Command

end FlatCircuit
