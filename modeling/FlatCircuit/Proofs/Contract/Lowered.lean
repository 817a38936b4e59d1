import FlatCircuit.Proofs.Contract.FlatForm
import FlatCircuit.Proofs.Contract.Numbering
import FlatCircuit.Proofs.Lowering.Meaning

/-! The check of lowered programs. What lowering emits for an expression are pieces for temporaries, and they
read nothing but the variables of the expression and what is emitted before. So a lowered program breaks the
contract only where the program itself reads a name too early. -/

namespace FlatCircuit

open Lowering

namespace Piece

inductive IsMade : Piece → Prop
  | single (n : Nat) (e : Expr) : IsMade (.single (.assign (Name.temporary n) e))
  | group (n : Nat) (l r : Expr) : IsMade (.group (Name.temporary n) l r)

theorem IsMade.not_isPlain {p : Piece} (h : p.IsMade) : ∀ y ∈ p.names, ¬ Name.IsPlain y := by
  intro y hy
  cases h with
  | single n e =>
    rw [names_single, Definition.assigned, List.mem_singleton] at hy
    exact hy ▸ Name.not_isPlain_temporary n
  | group n l r =>
    rcases mem_names_group.mp hy with rfl | hy
    · exact Name.not_isPlain_temporary n
    · obtain ⟨i, _, rfl⟩ := (Bits.mem_names _).mp hy
      exact Name.not_isPlain_bit _ i

end Piece

section Known

variable {ps qs : List Piece} {known known' : List String}

theorem ReadsKnown.append_iff : ReadsKnown known (ps ++ qs) ↔
    ReadsKnown known ps ∧ ReadsKnown (known ++ ps.flatMap Piece.names) qs :=
  KnownBefore.append_iff

theorem ReadsKnown.mono (h : ReadsKnown known ps) (hk : ∀ y ∈ known, y ∈ known') :
    ReadsKnown known' ps :=
  KnownBefore.mono h hk

theorem readsKnown_singleton {p : Piece} : ReadsKnown known [p] ↔ ∀ y ∈ p.reads, y ∈ known := by
  rw [ReadsKnown, knownBefore_cons_iff]
  exact and_iff_left AtEach.nil

end Known

/-- Pieces for temporaries that take the variables `xs` and leave the variables `ys` to be read. -/
structure Computes (ps : List Piece) (xs ys : List String) : Prop where
  flat : ∀ p ∈ ps, p.isFlat = true
  made : ∀ p ∈ ps, p.IsMade
  reads : ReadsKnown xs ps
  known : ∀ y ∈ ys, y ∈ xs ∨ y ∈ ps.flatMap Piece.names
  plain : ∀ y ∈ xs, Name.IsPlain y → y ∈ ps.flatMap Piece.reads ∨ y ∈ ys

namespace Computes

variable {ps qs : List Piece} {xs ys zs : List String}

theorem nil (h : ∀ y, y ∈ xs ↔ y ∈ ys) : Computes [] xs ys where
  flat := fun _ hp => absurd hp List.not_mem_nil
  made := fun _ hp => absurd hp List.not_mem_nil
  reads := AtEach.nil
  known := fun y hy => .inl ((h y).mpr hy)
  plain := fun y hy _ => .inr ((h y).mp hy)

theorem append (hp : Computes ps xs ys) (hq : Computes qs ys zs) : Computes (ps ++ qs) xs zs where
  flat := List.forall_mem_append.mpr ⟨hp.flat, hq.flat⟩
  made := List.forall_mem_append.mpr ⟨hp.made, hq.made⟩
  reads := by
    refine ReadsKnown.append_iff.mpr ⟨hp.reads, hq.reads.mono fun y hy => ?_⟩
    exact List.mem_append.mpr (hp.known y hy)
  known := by
    intro y hy
    rw [List.flatMap_append, List.mem_append]
    rcases hq.known y hy with hy | hy
    · exact (hp.known y hy).imp_right .inl
    · exact .inr (.inr hy)
  plain := by
    intro y hy hn
    rw [List.flatMap_append, List.mem_append]
    rcases hp.plain y hy hn with hy | hy
    · exact .inl (.inl hy)
    · exact (hq.plain y hy hn).imp_left .inr

theorem frame (h : Computes ps xs ys) (us : List String) : Computes ps (xs ++ us) (ys ++ us) where
  flat := h.flat
  made := h.made
  reads := h.reads.mono fun _ hy => List.mem_append_left _ hy
  known := by
    intro y hy
    rcases List.mem_append.mp hy with hy | hy
    · exact (h.known y hy).imp_left (List.mem_append_left _)
    · exact .inl (List.mem_append_right _ hy)
  plain := by
    intro y hy hn
    rcases List.mem_append.mp hy with hy | hy
    · exact (h.plain y hy hn).imp_right (List.mem_append_left _)
    · exact .inr (List.mem_append_right _ hy)

theorem congr {xs' ys' : List String} (h : Computes ps xs ys) (hx : ∀ y, y ∈ xs ↔ y ∈ xs')
    (hy : ∀ y, y ∈ ys ↔ y ∈ ys') : Computes ps xs' ys' := by
  have h₁ : Computes [] xs' xs := nil fun y => (hx y).symm
  have h₂ : Computes [] ys ys' := nil hy
  simpa using (h₁.append h).append h₂

theorem frame_left (h : Computes ps xs ys) (us : List String) : Computes ps (us ++ xs) (us ++ ys) :=
  (h.frame us).congr (fun y => by simp [or_comm]) fun y => by simp [or_comm]

theorem store {f : Expr} (hf : f.isFlat = true) (n : Nat) :
    Computes [.single (.assign (Name.temporary n) f)] f.variables [Name.temporary n] where
  flat := List.forall_mem_singleton.mpr hf
  made := List.forall_mem_singleton.mpr (.single n f)
  reads := readsKnown_singleton.mpr fun _ hy => hy
  known := by
    intro y hy
    exact .inr (by simpa [Piece.names_single, Definition.assigned] using hy)
  plain := fun y hy _ => .inl (by simpa [Piece.reads, Definition.reads] using hy)

theorem group (n : Nat) {l r : Expr} (hl : l.isAtom = true) (hr : r.isAtom = true) :
    Computes [.group (Name.temporary n) l r] (l.variables ++ r.variables)
      [Bits.sign (Name.temporary n)] where
  flat := List.forall_mem_singleton.mpr (Bool.and_eq_true_iff.mpr ⟨hl, hr⟩)
  made := List.forall_mem_singleton.mpr (.group n l r)
  reads := readsKnown_singleton.mpr fun _ hy => hy
  known := by
    intro y hy
    obtain rfl := List.mem_singleton.mp hy
    refine .inr (List.mem_flatMap.mpr ⟨_, List.mem_singleton.mpr rfl, Piece.mem_names_group.mpr ?_⟩)
    exact .inr ((Bits.mem_names _).mpr ⟨Bits.width - 1, by decide, rfl⟩)
  plain := fun y hy _ => .inl (by simpa [Piece.reads] using hy)

theorem isAssignment (h : Computes ps xs ys) :
    ∀ d ∈ ps.flatMap Piece.definitions, d.isAssignment = true := by
  refine (forall_isAssignment_iff h.flat).mpr ?_
  rintro p hp d rfl
  cases h.made _ hp
  rfl

end Computes

namespace Lowering

variable {strict : Bool} {e f a l r : Expr} {n m : Nat} {ds : List Definition}

theorem Takes.le (h : Takes f n ds m a) : n ≤ m := by
  cases h <;> omega

theorem Takes.emits (h : Takes f n ds m a) (hf : f.isFlat = true) :
    ∃ ps, ds = ps.flatMap Piece.definitions ∧ Computes ps f.variables a.variables ∧ Numbered n ps m := by
  cases h with
  | atom _ => exact ⟨[], rfl, .nil fun _ => Iff.rfl, .nil⟩
  | stored _ => exact ⟨_, rfl, .store hf n, .made (.store f) .nil⟩

def comparisonPieces (l r : Expr) (n : Nat) : List Piece :=
  [.single (.assign (Name.temporary n) l), .single (.assign (Name.temporary (n + 1 : Nat)) r),
    .group (Name.temporary (n + 2 : Nat)) (.var (Name.temporary n)) (.var (Name.temporary (n + 1 : Nat)))]

theorem flatMap_comparisonPieces (l r : Expr) (n : Nat) :
    (comparisonPieces l r n).flatMap Piece.definitions = comparison l r n := by
  simp [comparisonPieces, comparison, Piece.definitions]

theorem emits_comparison (hl : l.isFlat = true) (hr : r.isFlat = true) (n : Nat) :
    Computes (comparisonPieces l r n) (l.variables ++ r.variables)
        [Bits.sign (Name.temporary (n + 2 : Nat))] ∧
      Numbered n (comparisonPieces l r n) (n + 3) := by
  have hfirst := (Computes.store hl n).frame r.variables
  have hsecond := (Computes.store hr (n + 1)).frame_left [Name.temporary n]
  have hgroup := Computes.group (n + 2) (l := .var (Name.temporary n))
    (r := .var (Name.temporary (n + 1 : Nat))) rfl rfl
  exact ⟨(hfirst.append hsecond).append hgroup, .made (.store l) (.made (.store r) (.made (.group _ _) .nil))⟩

theorem computes_choice {x y : Expr} {t : String} {ps : List Piece}
    (h : Computes ps (l.variables ++ r.variables) [t]) :
    Computes ps (Expr.ite (.less l r) x y).variables (Expr.select (.var t) x y).variables := by
  refine (h.frame (x.variables ++ y.variables)).congr (fun z => ?_) fun z => ?_
  · simp [Expr.variables, Condition.variables]
  · simp only [Expr.select, Expr.variables, List.mem_append, List.not_mem_nil, false_or]
    tauto

theorem temporary_notMem_select {x y : Expr} {t : String} {j : Nat} (hx : Name.temporary j ∉ x.variables)
    (hy : Name.temporary j ∉ y.variables) :
    Name.temporary j ∉ (Expr.select (.var (Bits.sign t)) x y).variables := by
  have hsign := Name.temporary_ne_bit j t (Bits.width - 1)
  simp only [Expr.select, Expr.variables, List.mem_append, List.mem_singleton, not_or]
  exact ⟨⟨hsign, hx⟩, ⟨List.not_mem_nil, hsign⟩, hy⟩

theorem Lowers.isFlat (h : Lowers strict e n ds m f) : f.isFlat = true := by
  induction h with
  | atom ha => exact Expr.isFlat_of_isAtom ha
  | operation _ _ _ ha hb => exact Bool.and_eq_true_iff.mpr ⟨ha.isAtom, hb.isAtom⟩
  | literalPower _ _ => rfl
  | square hb => exact Bool.and_eq_true_iff.mpr ⟨hb.isAtom, hb.isAtom⟩
  | power hb _ _ => exact hb.isAtom
  | choice _ _ _ _ _ ih => exact ih

theorem Lowers.emits (h : Lowers strict e n ds m f) :
    ∃ ps, ds = ps.flatMap Piece.definitions ∧ Computes ps e.variables f.variables ∧ Numbered n ps m := by
  induction h with
  | atom _ => exact ⟨[], rfl, .nil fun _ => Iff.rfl, .nil⟩
  | operation op hl hr ha hb ihl ihr =>
    obtain ⟨ps₁, rfl, h₁, hn₁⟩ := ihl
    obtain ⟨ps₂, rfl, h₂, hn₂⟩ := ihr
    obtain ⟨ps₃, rfl, h₃, hn₃⟩ := ha.emits hl.isFlat
    obtain ⟨ps₄, rfl, h₄, hn₄⟩ := hb.emits hr.isFlat
    refine ⟨ps₁ ++ ps₂ ++ ps₃ ++ ps₄, by simp, ?_, ((hn₁.append hn₂).append hn₃).append hn₄⟩
    have hlr := (h₁.frame _).append (h₂.frame_left _)
    exact (hlr.append (h₃.frame _)).append (h₄.frame_left _)
  | literalPower _ _ => exact ⟨[], rfl, .nil fun _ => Iff.rfl, .nil⟩
  | square _ => exact ⟨[], rfl, .nil fun y => by simp [Expr.variables], .nil⟩
  | @power b f k n m ds _ _ h ih =>
    obtain ⟨ps, rfl, hp, hn⟩ := ih
    refine ⟨ps ++ [.single (.assign (Name.temporary m) f)], by simp [Piece.definitions], ?_,
      hn.append (.made (.store f) .nil)⟩
    -- the base is read again after the power below
    have hb := (hp.frame b.variables).append ((Computes.store h.isFlat m).frame b.variables)
    exact hb.congr (fun y => by simp [Expr.variables]) fun _ => Iff.rfl
  | @choice l r l' r' x y f n n₁ n₂ m _ _ _ hl hr _ ihl ihr ih =>
    obtain ⟨ps₁, rfl, h₁, hn₁⟩ := ihl
    obtain ⟨ps₂, rfl, h₂, hn₂⟩ := ihr
    obtain ⟨h₃, hn₃⟩ := emits_comparison hl.isFlat hr.isFlat n₂
    obtain ⟨ps₄, rfl, h₄, hn₄⟩ := ih
    refine ⟨ps₁ ++ ps₂ ++ comparisonPieces l' r' n₂ ++ ps₄, by simp [flatMap_comparisonPieces], ?_,
      ((hn₁.append hn₂).append hn₃).append hn₄⟩
    exact (computes_choice (((h₁.frame _).append (h₂.frame_left _)).append h₃)).append h₄

theorem Lowers.le (h : Lowers strict e n ds m f) : n ≤ m := by
  obtain ⟨_, _, _, hn⟩ := h.emits
  exact hn.le

end Lowering

theorem Computes.readLate_iff {ps : List Piece} {xs known : List String} {d : Definition} {y : String}
    (h : Computes ps xs d.reads) (hx : ∀ y ∈ xs, Name.IsPlain y) :
    ReadLate Piece.reads Piece.names known (ps ++ [.single d]) y ↔ y ∈ xs ∧ y ∉ known := by
  have hnames : Name.IsPlain y → ∀ before after, ps = before ++ after →
      y ∉ before.flatMap Piece.names := by
    rintro hy before after rfl hm
    obtain ⟨p, hp, hm⟩ := List.mem_flatMap.mp hm
    exact (h.made p (List.mem_append_left _ hp)).not_isPlain y hm hy
  rw [readLate_append_iff, readLate_cons_iff, or_iff_left not_readLate_nil, List.mem_append, not_or]
  constructor
  · rintro (⟨before, p, after, he, hy, hk, hb⟩ | ⟨hy, hk, hb⟩)
    · exact ⟨(h.reads before p after he y hy).resolve_right hb, hk⟩
    · exact ⟨(h.known y hy).resolve_right hb, hk⟩
  · rintro ⟨hy, hk⟩
    have hn := hx y hy
    rcases h.plain y hy hn with hr | hr
    · obtain ⟨p, hp, hr⟩ := List.mem_flatMap.mp hr
      obtain ⟨before, after, he⟩ := List.append_of_mem hp
      exact .inl ⟨before, p, after, he, hr, hk, hnames hn before _ he⟩
    · exact .inr ⟨hr, hk, hnames hn ps [] (List.append_nil ps).symm⟩

inductive Piece.IsLowered : Piece → Prop
  | made {p : Piece} : p.IsMade → IsLowered p
  | assign {x : String} {e : Expr} : Name.IsPlain x → IsLowered (.single (.assign x e))
  | ret {e : Expr} : IsLowered (.single (.ret e))

theorem Piece.IsLowered.head?_ne {p : Piece} (h : p.IsLowered) (x : String) (e : Expr) :
    p.definitions.head? ≠ some (.assign (Name.bit x (0 : Nat)) e) := by
  intro he
  cases h with
  | made h =>
    cases h with
    | single n _ =>
      exact Name.temporary_ne_bit n x 0 (Definition.assign.inj (Option.some.inj he)).1
    | group n _ _ =>
      exact Name.temporary_ne_bit n x 0 (Definition.assign.inj (Option.some.inj he)).1
  | assign hx =>
    obtain rfl := (Definition.assign.inj (Option.some.inj he)).1
    exact Name.not_isPlain_bit x 0 hx
  | ret => cases he

theorem separated_of_isLowered {ps : List Piece} (h : ∀ p ∈ ps, p.IsLowered) : Separated ps := by
  rintro before p after rfl x l r e - he
  cases after with
  | nil => cases he
  | cons q after =>
    have hq := (h q (by simp)).head?_ne x e
    rw [List.flatMap_cons, List.head?_append_of_ne_nil _ q.definitions_ne_nil] at he
    exact hq he

namespace Definition

inductive Alike : Definition → Definition → Prop
  | assign (x : String) (e f : Expr) : Alike (.assign x e) (.assign x f)
  | ret (e f : Expr) : Alike (.ret e) (.ret f)

namespace Alike

variable {d c : Definition}

theorem assigned_eq (h : d.Alike c) : c.assigned = d.assigned := by
  cases h <;> rfl

theorem isPlain_of_assigned (h : d.Alike c) (hd : d.IsPlain) : ∀ x ∈ c.assigned, Name.IsPlain x := by
  intro x hx
  cases h with
  | assign y e f => exact List.mem_singleton.mp hx ▸ hd.1
  | ret e f => cases hx

theorem isLowered (h : d.Alike c) (hd : d.IsPlain) : (Piece.single c).IsLowered := by
  cases h with
  | assign x e f => exact .assign hd.1
  | ret e f => exact .ret

end Alike

end Definition

section Segments

variable {ps qs : List Piece} {ds : List Definition} {d c : Definition} {known known' : List String}
  {y : String}

theorem Definition.IsPlain.reads (h : d.IsPlain) : ∀ y ∈ d.reads, Name.IsPlain y := by
  cases d with
  | assign x e => exact h.2.2
  | ret e => exact h.2
  | hole => cases h

theorem readLate_plain_congr (hd : ∀ d ∈ ds, d.IsPlain)
    (h : Name.IsPlain y → (y ∈ known ↔ y ∈ known')) :
    ReadLate Definition.reads Definition.assigned known ds y ↔
      ReadLate Definition.reads Definition.assigned known' ds y := by
  by_cases hy : Name.IsPlain y
  · exact readLate_congr (h hy)
  · have hno : ∀ known, ¬ ReadLate Definition.reads Definition.assigned known ds y := by
      intro known hl
      obtain ⟨d, hm, hr⟩ := hl.exists_mem
      exact hy ((hd d hm).reads y hr)
    exact iff_of_false (hno known) (hno known')

structure Mirrors (ps : List Piece) (ds : List Definition) : Prop where
  flat : ∀ p ∈ ps, p.isFlat = true
  lowered : ∀ p ∈ ps, p.IsLowered
  late : ∀ known y, ReadLate Piece.reads Piece.names known ps y ↔
    ReadLate Definition.reads Definition.assigned known ds y

theorem Mirrors.isPlain_of_readLate (h : Mirrors ps ds) (hp : ∀ d ∈ ds, d.IsPlain)
    (hy : ReadLate Piece.reads Piece.names [] ps y) : Name.IsPlain y := by
  obtain ⟨d, hd, hr⟩ := ((h.late [] y).mp hy).exists_mem
  exact (hp d hd).reads y hr

theorem Mirrors.nil : Mirrors [] [] where
  flat := fun _ hp => absurd hp List.not_mem_nil
  lowered := fun _ hp => absurd hp List.not_mem_nil
  late := fun _ _ => iff_of_false not_readLate_nil not_readLate_nil

theorem Mirrors.cons (hc : Computes ps d.reads c.reads) (hf : c.isFlat = true) (ha : d.Alike c)
    (hd : d.IsPlain) (hds : ∀ d ∈ ds, d.IsPlain) (hq : Mirrors qs ds) :
    Mirrors (ps ++ [.single c] ++ qs) (d :: ds) where
  flat := by
    simp only [List.forall_mem_append, List.forall_mem_singleton]
    exact ⟨⟨hc.flat, hf⟩, hq.flat⟩
  lowered := by
    simp only [List.forall_mem_append, List.forall_mem_singleton]
    exact ⟨⟨fun p hp => .made (hc.made p hp), ha.isLowered hd⟩, hq.lowered⟩
  late := by
    intro known y
    rw [readLate_append_iff, hc.readLate_iff hd.reads, hq.late, readLate_cons_iff]
    refine or_congr Iff.rfl (readLate_plain_congr hds fun hy => ?_)
    have hps : y ∉ ps.flatMap Piece.names := by
      intro hm
      obtain ⟨p, hp, hm⟩ := List.mem_flatMap.mp hm
      exact (hc.made p hp).not_isPlain y hm hy
    simp [hps, Piece.names_single, ha.assigned_eq]

end Segments

namespace Lowering

variable {strict : Bool} {xs ds : List Definition} {n m : Nat}

inductive Becomes (strict : Bool) : Definition → Nat → List Definition → Nat → Definition → Prop
  | assign (x : String) {e f : Expr} {n m : Nat} {es : List Definition} :
      Lowers strict e n es m f → Becomes strict (.assign x e) n es m (.assign x f)
  | ret {e f : Expr} {n m : Nat} {es : List Definition} :
      Lowers strict e n es m f → Becomes strict (.ret e) n es m (.ret f)

namespace Becomes

variable {d c : Definition} {es : List Definition}

theorem alike (h : Becomes strict d n es m c) : d.Alike c := by
  cases h with
  | assign x _ => exact .assign x _ _
  | ret _ => exact .ret _ _

theorem isFlat (h : Becomes strict d n es m c) : c.isFlat = true := by
  cases h with
  | assign _ he => exact he.isFlat
  | ret he => exact he.isFlat

theorem emits (h : Becomes strict d n es m c) :
    ∃ ps, es = ps.flatMap Piece.definitions ∧ Computes ps d.reads c.reads ∧ Numbered n ps m := by
  cases h with
  | assign _ he => exact he.emits
  | ret he => exact he.emits

end Becomes

@[elab_as_elim]
theorem LowersAll.plainInduction {motive : List Definition → Nat → List Definition → Nat → Prop}
    (nil : ∀ n, motive [] n [] n)
    (cons : ∀ d c xs es fs n k m, d.IsPlain → (∀ d ∈ xs, d.IsPlain) → Becomes strict d n es k c →
      LowersAll strict xs k fs m → motive xs k fs m → motive (d :: xs) n (es ++ c :: fs) m)
    (h : LowersAll strict xs n ds m) (hp : ∀ d ∈ xs, d.IsPlain) : motive xs n ds m := by
  induction h with
  | nil => exact nil _
  | assign he hrest ih =>
    obtain ⟨hd, hds⟩ := List.forall_mem_cons.mp hp
    exact cons _ _ _ _ _ _ _ _ hd hds (.assign _ he) hrest (ih hds)
  | ret he hrest ih =>
    obtain ⟨hd, hds⟩ := List.forall_mem_cons.mp hp
    exact cons _ _ _ _ _ _ _ _ hd hds (.ret he) hrest (ih hds)
  | hole _ _ => cases (List.forall_mem_cons.mp hp).1

theorem LowersAll.mirrors (h : LowersAll strict xs n ds m) (hp : ∀ d ∈ xs, d.IsPlain) :
    ∃ ps, ds = ps.flatMap Piece.definitions ∧ Mirrors ps xs ∧ Numbered n ps m := by
  refine h.plainInduction (fun n => ⟨[], rfl, .nil, .nil⟩) ?_ hp
  rintro d c xs es fs n k m hd hds hbecomes - ⟨qs, rfl, hq, hnq⟩
  obtain ⟨ps, rfl, hc, hn⟩ := hbecomes.emits
  exact ⟨ps ++ [.single c] ++ qs, by simp [Piece.definitions],
    .cons hc hbecomes.isFlat hbecomes.alike hd hds hq,
    hn.block (hbecomes.alike.isPlain_of_assigned hd) hnq⟩

theorem LowersAll.endsInReturn (h : LowersAll strict xs n ds m)
    (hx : ∃ es e, xs = es ++ [.ret e] ∧ ∀ d ∈ es, d.isAssignment = true) :
    ∃ es e, ds = es ++ [.ret e] ∧ ∀ d ∈ es, d.isAssignment = true := by
  obtain ⟨es, e, hes, ha⟩ := hx
  induction h generalizing es with
  | nil => simp at hes
  | @assign x e' f n k m ds fs gs he _ ih =>
    obtain ⟨ps, rfl, hc, _⟩ := he.emits
    cases es with
    | nil => cases hes
    | cons d es =>
      cases hes
      obtain ⟨hs, g, rfl, hg⟩ := ih es rfl (List.forall_mem_cons.mp ha).2
      refine ⟨ps.flatMap Piece.definitions ++ .assign x f :: hs, g, by simp, ?_⟩
      exact List.forall_mem_append.mpr ⟨hc.isAssignment, List.forall_mem_cons.mpr ⟨rfl, hg⟩⟩
  | @ret e' f n k m ds fs gs he hrest _ =>
    obtain ⟨ps, rfl, hc, _⟩ := he.emits
    cases es with
    | nil =>
      cases hes
      cases hrest
      exact ⟨_, f, rfl, hc.isAssignment⟩
    | cons d es =>
      cases hes
      cases (List.forall_mem_cons.mp ha).1
  | hole =>
    cases es with
    | nil => cases hes
    | cons d es =>
      cases hes
      cases (List.forall_mem_cons.mp ha).1

end Lowering

namespace Program

def DefinesBeforeUse (p : Program) : Prop :=
  KnownBefore Definition.reads Definition.assigned p.parameters p.definitions

variable {strict : Bool} {p q : Program}

theorem IsSource.endsInReturn (h : p.IsSource) : p.EndsInReturn := by
  obtain ⟨_, ds, e, hds, heq, _⟩ := h
  refine ⟨ds, e, hds, fun d hd => ?_⟩
  obtain ⟨x, b, rfl⟩ := Definition.exists_assign_of_isEquation (heq d hd)
  rfl

theorem check_of_lower (hp : p.IsSource) (h : p.lower strict = .ok q) :
    ∃ ps, q.check = .ok (lateReads 0 p.parameters ps) ∧
      ∀ y, ReadLate Piece.reads Piece.names p.parameters ps y ↔
        ReadLate Definition.reads Definition.assigned p.parameters p.definitions y := by
  obtain ⟨ds, m, hl, rfl⟩ := lowersAll_of_lower h
  obtain ⟨ps, rfl, hm, _⟩ := hl.mirrors hp.isPlain.definitions
  have hends := hl.endsInReturn hp.endsInReturn
  have hne : ps ≠ [] := by
    rintro rfl
    obtain ⟨es, e, he, _⟩ := hends
    simp at he
  have hs : Shaped ps := {
    flat := hm.flat
    separated := separated_of_isLowered hm.lowered
    placed := (placed_iff (p := ⟨p.name, p.parameters, _⟩) rfl hm.flat hne).mpr (.inl hends) }
  exact ⟨ps, check_of_pieces rfl hs hne, hm.late p.parameters⟩

/-- The flat form of a program that was read passes the check if and only if the program defines what it
reads, and all that is found otherwise are the names that it reads too early. -/
theorem check_lower_iff_definesBeforeUse (s : String) (strict : Bool) (p q : Program)
    (hr : Program.read s = .ok p) (h : p.lower strict = .ok q) :
    (q.check = .ok [] ↔ p.DefinesBeforeUse) ∧
    ∃ fs, q.check = .ok fs ∧ ∀ f ∈ fs, ∃ y, f.breach = .undefined y ∧
      ReadLate Definition.reads Definition.assigned p.parameters p.definitions y := by
  obtain ⟨ps, hc, hl⟩ := check_of_lower (isSource_of_read hr) h
  constructor
  · rw [hc, Except.ok.injEq, lateReads_eq_nil_iff, ReadsKnown, knownBefore_iff, DefinesBeforeUse,
      knownBefore_iff]
    exact forall_congr' fun y => not_congr (hl y)
  · refine ⟨_, hc, fun f hf => ?_⟩
    obtain ⟨y, hb, hy⟩ := readLate_of_mem_lateReads hf
    exact ⟨y, hb, (hl y).mp hy⟩

theorem check_lower_clamp :
    let p : Program := ⟨"f", ["x"], [
      .assign "y" (.ite (.less (.var "x") (.lit 3)) (.var "x") (.lit 7)),
      .ret (.pow (.var "y") (.lit 2))]⟩
    Program.read p.text = .ok p ∧ ∃ q, p.lower false = .ok q ∧ q.check = .ok [] := by
  intro p
  have hp : p.IsSource := {
    header := ⟨by decide, by decide, by decide, by decide⟩
    definitions := ⟨[.assign "y" (.ite (.less (.var "x") (.lit 3)) (.var "x") (.lit 7))],
      .pow (.var "y") (.lit 2), rfl, by decide, by decide⟩ }
  have hd : p.DefinesBeforeUse := by
    simp [DefinesBeforeUse, KnownBefore, AtEach.cons_iff, AtEach.nil, p, Definition.reads,
      Definition.assigned, Expr.variables, Condition.variables]
  have hok : (p.lower false).isOk = true := by decide +kernel
  cases h : p.lower false with
  | error => simp [h, Except.isOk, Except.toBool] at hok
  | ok q =>
    exact ⟨hp.read_text, q, rfl,
      (check_lower_iff_definesBeforeUse p.text false p q hp.read_text h).1.mpr hd⟩

end Program

end FlatCircuit
