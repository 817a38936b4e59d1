import FlatCircuit.Proofs.Contract.Numbering
import FlatCircuit.Proofs.Evaluation.Arguments
import FlatCircuit.Proofs.Lowering.Stages

/-! Definitions as equations over the memory at the end of a run. If the names of the pieces are all
different and new to the memory, what a piece reads is never bound again, so its equations still hold in the
end. Only the head of a group holds up to the modulus instead, since its weighted sum rebinds it. -/

namespace FlatCircuit

open Evaluation

def Expr.HasValue (m : Memory) (e : Expr) (v : Int) : Prop :=
  e.eval.runFrom m = (.ok v, m)

namespace Definition

/-- A definition read as an equation. A quotient times its divisor has to give the dividend. -/
def Holds (m : Memory) : Definition → Prop
  | .assign x (.bin .div l r) =>
    ∃ v a b, m[x]? = some v ∧ l.HasValue m a ∧ r.HasValue m b ∧ v * b = a ∧ b ≠ 0
  | .assign x e => ∃ v, m[x]? = some v ∧ e.HasValue m v
  | _ => False

def HoldsModulo (m : Memory) : Definition → Prop
  | .assign x (.bin .sub l r) =>
    ∃ a b, m[x]? = some ((a - b) % Bits.modulus) ∧ l.HasValue m a ∧ r.HasValue m b
  | _ => False

def OpensGroup (after : List Definition) : Definition → Prop
  | .assign x (.bin .sub _ _) => Bits.constraints x <+: after
  | _ => False

end Definition

def Memory.Satisfies (m : Memory) (ds : List Definition) : Prop :=
  AtEach (fun _ d after => (d.OpensGroup after → d.HoldsModulo m) ∧ (¬ d.OpensGroup after → d.Holds m)) ds

section Values

variable {k m : Memory} {e : Expr} {v : Int} {x y : String}

def Memory.Keeps (k m : Memory) : Prop :=
  ∀ (x : String) (v : Int), m[x]? = some v → k[x]? = some v

theorem Memory.Keeps.trans {i : Memory} (h : i.Keeps k) (hk : k.Keeps m) : i.Keeps m :=
  fun x v hx => h x v (hk x v hx)

theorem Memory.keeps_of_unbound (hx : ¬ m.Binds x) (h : ∀ y, y ≠ x → k[y]? = m[y]?) : k.Keeps m := by
  intro y w hy
  have hne : y ≠ x := by
    rintro rfl
    exact hx ⟨w, hy⟩
  rw [h y hne, hy]

theorem Expr.binds_of_value? (h : e.value? .plain m = some v) : ∀ x ∈ e.variables, m.Binds x := by
  induction e generalizing v with
  | lit n =>
    intro x hx
    cases hx
  | var y => exact List.forall_mem_singleton.mpr ⟨v, h⟩
  | bin op l r ihl ihr =>
    simp only [value?, Option.bind_eq_bind, Option.bind_eq_some_iff] at h
    obtain ⟨a, ha, b, hb, -⟩ := h
    exact List.forall_mem_append.mpr ⟨ihl ha, ihr hb⟩
  | pow b e ihb ihe =>
    have hs : Reading.plain.square? b = none := Reading.square?_eq_none rfl b
    simp only [value?, hs, Option.bind_eq_bind, Option.bind_eq_some_iff] at h
    obtain ⟨a, ha, n, hn, -⟩ := h
    exact List.forall_mem_append.mpr ⟨ihb ha, ihe hn⟩
  | less l r x y ihl ihr ihx ihy =>
    simp only [value?, Condition.value?, Option.bind_eq_bind, Option.bind_eq_some_iff] at h
    obtain ⟨t, ⟨a, ha, b, hb, -⟩, c, hc, d, hd, -⟩ := h
    simp only [Expr.variables, Condition.variables, List.forall_mem_append]
    exact ⟨⟨⟨ihl ha, ihr hb⟩, ihx hc⟩, ihy hd⟩
  | untested x y ihx ihy => cases h
  | hole => cases h

theorem Expr.value?_of_keeps (h : e.value? .plain m = some v) (hk : k.Keeps m) :
    e.value? .plain k = some v := by
  rw [← h]
  refine value?_congr fun x hx => ?_
  obtain ⟨w, hw⟩ := binds_of_value? h x hx
  rw [hw, hk x w hw]

theorem Expr.settled_of_isFlat (hf : e.isFlat = true) (hv : ∀ x ∈ e.variables, m.Settles x) :
    e.eval.Settled m (e.value? .plain m) := by
  have hknown : e.isKnown = true → e.eval.Settled m (e.value? .plain m) := by
    intro hk
    have hs := settled_evalAs (ρ := .plain) hk (hasExponents_of_isFlat hf) hv
    rwa [evalAs_plain] at hs
  cases e with
  | bin op l r =>
    obtain ⟨hl, hr⟩ := Bool.and_eq_true_iff.mp hf
    -- a blank operation fails before its operands are read, so it need not be excluded
    by_cases hop : op = .blank
    · subst hop
      have hnone : (Expr.bin .blank l r).value? .plain m = none := by
        cases hl : l.value? .plain m <;> cases hr : r.value? .plain m <;>
          simp [value?, hl, hr, Operator.apply, Except.toOption]
      rw [hnone]
      exact ⟨_, rfl, trivial⟩
    · exact hknown (by simp [isKnown, hop, isKnown_of_isAtom hl, isKnown_of_isAtom hr])
  | _ => exact hknown (isKnown_of_isAtom hf)

theorem Expr.hasValue_of_value? (hf : e.isFlat = true) (h : e.value? .plain m = some v) :
    e.HasValue m v := by
  have hs := settled_of_isFlat hf fun x hx => .inr (binds_of_value? h x hx)
  rw [h] at hs
  exact hs.runFrom_ok

end Values

namespace Memory

def Solves (m : Memory) : Piece → Prop
  | .single (.assign x e) => ∃ v, m[x]? = some v ∧ e.value? .plain m = some v
  | .group x l r => ∃ a b, l.value? .plain m = some a ∧ r.value? .plain m = some b ∧
      m[x]? = some ((a - b) % Bits.modulus) ∧
      ∀ i < Bits.width, m[Name.bit x (i : Nat)]? = some (Bits.bitOf (a - b) i)
  | .single _ => False

variable {k m : Memory} {p : Piece} {x y : String} {v : Int}

theorem Solves.of_keeps (h : m.Solves p) (hk : k.Keeps m) : k.Solves p := by
  cases p with
  | single d =>
    cases d with
    | assign x e =>
      obtain ⟨v, hx, he⟩ := h
      exact ⟨v, hk x v hx, Expr.value?_of_keeps he hk⟩
    | ret e => exact h.elim
    | hole => exact h.elim
  | group x l r =>
    obtain ⟨a, b, hl, hr, hx, hbits⟩ := h
    exact ⟨a, b, Expr.value?_of_keeps hl hk, Expr.value?_of_keeps hr hk, hk x _ hx,
      fun i hi => hk _ _ (hbits i hi)⟩

theorem binds_decompose_iff : (m.decompose x v).Binds y ↔ (y = x ∨ y ∈ Bits.names x) ∨ m.Binds y := by
  by_cases hx : x = y
  · subst hx
    exact iff_of_true (binds_assign_iff.mpr (.inl rfl)) (.inl (.inl rfl))
  · by_cases hy : y ∈ Bits.names x
    · obtain ⟨i, hi, rfl⟩ := (Bits.mem_names x).mp hy
      exact iff_of_true ⟨_, getElem?_decompose_bit hi⟩ (.inl (.inr hy))
    · simp only [Binds, getElem?_decompose_of_ne hx hy, Ne.symm hx, hy, or_self, false_or]

end Memory

structure Piece.Grows (p : Piece) (m k : Memory) : Prop where
  keeps : k.Keeps m
  binds : ∀ y, k.Binds y ↔ y ∈ p.names ∨ m.Binds y
  witness : ∀ y ∈ k.witness, y ∈ p.names ∨ y ∈ m.witness

section Pieces

variable {k m : Memory} {p : Piece} {ps : List Piece} {d : Definition} {x : String} {e f l r : Expr} {v : Int}

theorem grows_assign (hx : ¬ m.Binds x) : (Piece.single (.assign x e)).Grows m (m.assign x v) where
  keeps := Memory.keeps_of_unbound hx fun y hy => by rw [Memory.getElem?_assign, if_neg (Ne.symm hy)]
  binds := by
    intro y
    rw [Memory.binds_assign_iff, Piece.names_single, Definition.assigned, List.mem_singleton]
  witness := fun _ hy => .inr hy

theorem grows_decompose (hp : ∀ y ∈ (Piece.group x l r).names, ¬ m.Binds y) :
    (Piece.group x l r).Grows m (m.decompose x v) where
  keeps := by
    intro y w hy
    have hno : ¬ (y = x ∨ y ∈ Bits.names x) := fun h => hp y (Piece.mem_names_group.mpr h) ⟨w, hy⟩
    rw [not_or] at hno
    rw [Memory.getElem?_decompose_of_ne (Ne.symm hno.1) hno.2, hy]
  binds := by
    intro y
    rw [Memory.binds_decompose_iff, Piece.mem_names_group]
  witness := by
    intro y hy
    exact (Memory.mem_witness_decompose.mp hy).imp_left fun h => Piece.mem_names_group.mpr (.inr h)

theorem runs_assign (hf : e.isFlat = true) (he : e.value? .plain m = some v) (hw : x ∉ m.witness) :
    Runs [.assign x e] m (m.assign x v) :=
  runs_of_define (runFrom_define (Expr.hasValue_of_value? hf he) fun h => absurd h hw)

theorem assigns_or_fails (hf : e.isFlat = true) (hread : ∀ y ∈ e.variables, m.Settles y)
    (hw : x ∉ m.witness) :
    (∃ v, e.value? .plain m = some v ∧ Runs [.assign x e] m (m.assign x v)) ∨
      e.value? .plain m = none ∧ ∃ err, err.IsOrdinary ∧ Fails [.assign x e] m err m := by
  have hs := Expr.settled_of_isFlat hf hread
  cases hv : e.value? .plain m with
  | none =>
    rw [hv] at hs
    obtain ⟨err, ho, he⟩ := hs.runFrom_error
    exact .inr ⟨rfl, err, ho, fails_of_define (runFrom_define_error he)⟩
  | some v => exact .inl ⟨v, rfl, runs_assign hf hv hw⟩

theorem solves_assign (he : e.value? .plain m = some v) (hx : ¬ m.Binds x) :
    (m.assign x v).Solves (.single (.assign x e)) := by
  refine ⟨v, ?_, Expr.value?_of_keeps he (grows_assign (e := e) hx).keeps⟩
  rw [Memory.getElem?_assign, if_pos rfl]

theorem solves_decompose (he : (Expr.bin .sub l r).value? .plain m = some v)
    (hp : ∀ y ∈ (Piece.group x l r).names, ¬ m.Binds y) : (m.decompose x v).Solves (.group x l r) := by
  have hkeeps := (grows_decompose hp (v := v)).keeps
  simp only [Expr.value?, Option.bind_eq_bind, Option.bind_eq_some_iff] at he
  obtain ⟨a, ha, b, hb, hv⟩ := he
  obtain rfl : a - b = v := Option.some.inj hv
  refine ⟨a, b, Expr.value?_of_keeps ha hkeeps, Expr.value?_of_keeps hb hkeeps, ?_, fun i hi => ?_⟩
  · rw [Memory.decompose, Memory.getElem?_assign, if_pos rfl]
  · exact Memory.getElem?_decompose_bit hi

theorem runs_or_fails (hf : p.isFlat = true) (ha : ∀ d ∈ p.definitions, d.isAssignment = true)
    (hne : ∀ x l r, p = .group x l r → x ≠ "") (hread : ∀ y ∈ p.reads, m.Settles y)
    (hnew : ∀ y ∈ p.names, ¬ m.Binds y ∧ y ∉ m.witness) :
    (∃ k, Runs p.definitions m k ∧ p.Grows m k ∧ k.Solves p) ∨ ∃ err k, Fails p.definitions m err k := by
  cases p with
  | single d =>
    cases d with
    | assign x e =>
      obtain ⟨hx, hw⟩ := hnew x (by simp [Piece.names_single, Definition.assigned])
      rcases assigns_or_fails hf hread hw with ⟨v, hv, hr⟩ | ⟨-, err, -, hfail⟩
      · exact .inl ⟨_, hr, grows_assign hx, solves_assign hv hx⟩
      · exact .inr ⟨err, m, hfail⟩
    | ret e => cases ha _ List.mem_cons_self
    | hole => cases ha _ List.mem_cons_self
  | group x l r =>
    have hx := hnew x (Piece.mem_names_group.mpr (.inl rfl))
    have hbit := hnew (Name.bit x (0 : Nat))
      (Piece.mem_names_group.mpr (.inr ((Bits.mem_names x).mpr ⟨0, by decide, rfl⟩)))
    have hunbound : ∀ y ∈ (Piece.group x l r).names, ¬ m.Binds y := fun y hy => (hnew y hy).1
    rcases assigns_or_fails (e := .bin .sub l r) hf hread hx.2 with ⟨v, hv, hr⟩ | ⟨-, err, -, hfail⟩
    · have hself : x ≠ Name.bit x (0 : Nat) := fun h =>
        Bits.notMem_names_self x ((Bits.mem_names x).mpr ⟨0, by decide, h.symm⟩)
      have hnone : (m.assign x v)[Name.bit x (0 : Nat)]? = none := by
        rw [Memory.getElem?_assign, if_neg hself, ← Option.not_isSome_iff_eq_none, Option.isSome_iff_exists]
        exact hbit.1
      have hbound : (m.assign x v)[x]? = some v := by rw [Memory.getElem?_assign, if_pos rfl]
      have hbits := runs_constraints (hne x l r rfl) hbound hnone hx.2
      exact .inl ⟨_, hr.append hbits, grows_decompose hunbound, solves_decompose hv hunbound⟩
    · exact .inr ⟨err, m, hfail.append _⟩

def Supported (m : Memory) (ps : List Piece) : Prop :=
  ∀ y, ¬ Name.IsPlain y → ReadLate Piece.reads Piece.names [] ps y → m.Binds y

theorem ReadLate.cons {y : String} (h : ReadLate Piece.reads Piece.names [] ps y) (hy : y ∉ p.names) :
    ReadLate Piece.reads Piece.names [] (p :: ps) y := by
  have hl : ReadLate Piece.reads Piece.names ([] ++ p.names) ps y := (readLate_congr (by simp [hy])).mp h
  exact readLate_cons_iff.mpr (.inr hl)

theorem Supported.settles (h : Supported m (p :: ps)) : ∀ y ∈ p.reads, m.Settles y := by
  intro y hy
  by_cases hp : Name.IsPlain y
  · exact .inl hp
  · exact .inr (h y hp (readLate_cons_iff.mpr (.inl ⟨hy, List.not_mem_nil⟩)))

theorem Supported.next (h : Supported m (p :: ps)) (hk : ∀ y, y ∈ p.names ∨ m.Binds y → k.Binds y) :
    Supported k ps := by
  intro y hn hl
  by_cases hy : y ∈ p.names
  · exact hk y (.inl hy)
  · exact hk y (.inr (h y hn (hl.cons hy)))

structure Ready (m : Memory) (ps : List Piece) : Prop where
  supports : Supported m ps
  new : ∀ p ∈ ps, ∀ y ∈ p.names, ¬ m.Binds y ∧ y ∉ m.witness
  apart : ps.Pairwise fun p q => ∀ y ∈ p.names, y ∉ q.names

theorem Ready.grows (h : Ready m (p :: ps)) (hk : p.Grows m k) : Ready k ps := by
  obtain ⟨hp, hps⟩ := List.pairwise_cons.mp h.apart
  refine ⟨h.supports.next fun y => (hk.binds y).mpr, fun q hq y hy => ?_, hps⟩
  have hother : y ∉ p.names := fun hm => hp q hq y hm hy
  obtain ⟨hb, hw⟩ := h.new q (List.mem_cons_of_mem p hq) y hy
  exact ⟨fun hm => ((hk.binds y).mp hm).elim hother hb, fun hm => (hk.witness y hm).elim hother hw⟩

theorem solves_of_execute (hf : ∀ p ∈ ps, p.isFlat = true) (hret : f.isFlat = true)
    (ha : ∀ p ∈ ps, ∀ d ∈ p.definitions, d.isAssignment = true)
    (hne : ∀ p ∈ ps, ∀ x l r, p = .group x l r → x ≠ "") (hm : Ready m (ps ++ [.single (.ret f)]))
    (h : (execute (ps.flatMap Piece.definitions ++ [.ret f])).runFrom m = (.ok v, k)) :
    k.Keeps m ∧ (∀ p ∈ ps, k.Solves p) ∧ f.value? .plain k = some v := by
  -- the first piece is solved when it has run, and from then on whatever it binds or reads is kept
  induction ps generalizing m with
  | nil =>
    have hs := Expr.settled_of_isFlat hret hm.supports.settles
    have hrun : f.eval.runFrom m = (.ok v, k) := h
    cases hv : f.value? .plain m with
    | none =>
      rw [hv] at hs
      obtain ⟨err, -, he⟩ := hs.runFrom_error
      cases he.symm.trans hrun
    | some w =>
      rw [hv] at hs
      cases hs.runFrom_ok.symm.trans hrun
      exact ⟨fun _ _ hx => hx, fun _ hp => absurd hp List.not_mem_nil, hv⟩
  | cons p ps ih =>
    obtain ⟨hfp, hfs⟩ := List.forall_mem_cons.mp hf
    obtain ⟨hap, has⟩ := List.forall_mem_cons.mp ha
    obtain ⟨hnp, hns⟩ := List.forall_mem_cons.mp hne
    rw [List.flatMap_cons, List.append_assoc] at h
    rcases runs_or_fails hfp hap hnp hm.supports.settles (hm.new p List.mem_cons_self) with
      ⟨i, hi, hg, hsolve⟩ | ⟨err, i, hfail⟩
    · obtain ⟨hk, hps, hv⟩ := ih hfs has hns (hm.grows hg) ((hi _).symm.trans h)
      exact ⟨hk.trans hg.keeps, List.forall_mem_cons.mpr ⟨hsolve.of_keeps hk, hps⟩, hv⟩
    · cases (hfail _).symm.trans h

end Pieces

section Satisfaction

variable {m : Memory} {p : Piece} {ps : List Piece} {d : Definition} {after : List Definition} {x : String}
  {e l r : Expr}

theorem mul_eq_of_divide {a b v : Int} (h : (divide a b).toOption = some v) : v * b = a ∧ b ≠ 0 := by
  unfold divide at h
  split at h
  · cases h
  · next hb =>
    split at h
    · cases h
    · next hmod =>
      obtain rfl : a / b = v := Option.some.inj h
      exact ⟨Int.ediv_mul_cancel_of_emod_eq_zero (not_not.mp hmod), hb⟩

theorem Definition.holds_of_value? {v : Int} (hf : e.isFlat = true) (hx : m[x]? = some v)
    (he : e.value? .plain m = some v) : (Definition.assign x e).Holds m := by
  have hatom : ∀ {a : Expr} {w : Int}, a.isAtom = true → a.value? .plain m = some w → a.HasValue m w :=
    fun ha hw => Expr.hasValue_of_value? (Expr.isFlat_of_isAtom ha) hw
  cases e with
  | bin op l r =>
    cases op with
    | div =>
      obtain ⟨hl, hr⟩ := Bool.and_eq_true_iff.mp hf
      simp only [Expr.value?, Option.bind_eq_bind, Option.bind_eq_some_iff, Operator.apply] at he
      obtain ⟨a, ha, b, hb, hv⟩ := he
      obtain ⟨hmul, hne⟩ := mul_eq_of_divide hv
      exact ⟨v, a, b, hx, hatom hl ha, hatom hr hb, hmul, hne⟩
    | _ => exact ⟨v, hx, Expr.hasValue_of_value? hf he⟩
  | _ => exact ⟨v, hx, Expr.hasValue_of_value? hf he⟩

theorem Definition.not_opensGroup_of_mem_constraints (hd : d ∈ Bits.constraints x) :
    ¬ d.OpensGroup after := by
  rcases List.mem_append.mp hd with hd | hd
  · obtain ⟨b, -, rfl⟩ := List.mem_map.mp hd
    exact id
  · obtain rfl := List.mem_singleton.mp hd
    exact id

theorem Bits.head?_constraints (x : String) :
    (Bits.constraints x).head? = some (Bits.bitConstraint (Name.bit x (0 : Nat))) := rfl

theorem Memory.satisfies_group (h : m.Solves (.group x l r)) (hf : (Piece.group x l r).isFlat = true) :
    AtEach (fun _ d rest => (d.OpensGroup (rest ++ after) → d.HoldsModulo m) ∧
      (¬ d.OpensGroup (rest ++ after) → d.Holds m)) (Piece.group x l r).definitions := by
  obtain ⟨a, b, ha, hb, hx, hbits⟩ := h
  obtain ⟨hl, hr⟩ := Bool.and_eq_true_iff.mp hf
  have hhead : (Definition.assign x (.bin .sub l r)).HoldsModulo m :=
    ⟨a, b, hx, Expr.hasValue_of_value? (Expr.isFlat_of_isAtom hl) ha,
      Expr.hasValue_of_value? (Expr.isFlat_of_isAtom hr) hb⟩
  have hopens : (Definition.assign x (.bin .sub l r)).OpensGroup (Bits.constraints x ++ after) :=
    List.prefix_append _ _
  refine AtEach.cons_iff.mpr ⟨⟨fun _ => hhead, fun hn => absurd hopens hn⟩, fun before d rest he => ?_⟩
  have hd : d ∈ Bits.constraints x := by simp [he]
  refine ⟨fun ho => absurd ho (Definition.not_opensGroup_of_mem_constraints hd), fun _ => ?_⟩
  rcases List.mem_append.mp hd with hd | hd
  · obtain ⟨y, hy, rfl⟩ := List.mem_map.mp hd
    obtain ⟨i, hi, rfl⟩ := (Bits.mem_names x).mp hy
    refine Definition.holds_of_value? (by rfl) (hbits i hi) ?_
    simp [Expr.value?, hbits i hi, Operator.apply, Except.toOption, Bits.bitOf_mul_self]
  · obtain rfl := List.mem_singleton.mp hd
    exact ⟨_, hx, runFrom_weightedSum hbits⟩

theorem Memory.satisfies_of_solves (hm : ∀ p ∈ ps, m.Solves p) (hf : ∀ p ∈ ps, p.isFlat = true)
    (hs : Separated ps) : m.Satisfies (ps.flatMap Piece.definitions) := by
  refine AtEach.flatMap fun before p after he => ?_
  have hp : p ∈ ps := by simp [he]
  cases p with
  | single d =>
    refine AtEach.cons_iff.mpr ⟨?_, AtEach.nil⟩
    cases d with
    | assign x e =>
      obtain ⟨v, hx, hv⟩ := hm _ hp
      refine ⟨fun ho => ?_, fun _ => Definition.holds_of_value? (hf _ hp) hx hv⟩
      cases e with
      | bin op l r =>
        cases op with
        | sub =>
          -- the lowest bit would have to be defined right behind a difference that stands alone
          obtain ⟨rest, hrest⟩ := ho
          have hhead := congrArg List.head? hrest
          rw [List.head?_append, Bits.head?_constraints] at hhead
          exact absurd hhead.symm (hs before _ after he x l r _ rfl)
        | _ => exact ho.elim
      | _ => exact ho.elim
    | ret e => exact (hm _ hp).elim
    | hole => exact (hm _ hp).elim
  | group x l r => exact satisfies_group (hm _ hp) (hf _ hp)

end Satisfaction

end FlatCircuit
