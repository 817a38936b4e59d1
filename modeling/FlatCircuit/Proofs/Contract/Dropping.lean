import FlatCircuit.Proofs.Contract.Holes
import FlatCircuit.Proofs.Contract.Safety
import FlatCircuit.Proofs.Lowering.Blocks
import FlatCircuit.Proofs.Lowering.Cost

/-! Programs that lack one of the definitions that lowering made. A temporary that is stored is still read when
its definition is gone. Of a group there is always a constraint on a bit left, which is accepted inside of the
whole group only. Without its return a lowered program does not end in a group, since lowering puts something
behind every group. So the check finds something wherever a definition is dropped. -/

namespace FlatCircuit

open Lowering

theorem count_flatMap_middle {α : Type} (f : α → List String) (before after : List α) (x : α) (y : String) :
    ((before ++ x :: after).flatMap f).count y = ((before ++ after).flatMap f).count y + (f x).count y := by
  simp only [List.flatMap_append, List.flatMap_cons, List.count_append]
  omega

section Stored

variable {known known' : List String} {before after : List Definition} {d : Definition} {j : Nat}

theorem KnownBefore.temporary_mem_assigned
    (h : KnownBefore Definition.reads Definition.supplied known (before ++ d :: after))
    (hk : Name.temporary j ∉ known) (hd : Name.temporary j ∈ d.reads) :
    Name.temporary j ∈ before.flatMap Definition.assigned := by
  have hs := (h before d after rfl _ hd).resolve_left hk
  obtain ⟨c, hc, hs⟩ := List.mem_flatMap.mp hs
  refine List.mem_flatMap.mpr ⟨c, hc, (List.mem_append.mp hs).resolve_right fun hbits => ?_⟩
  obtain ⟨x, _, hx⟩ := List.mem_flatMap.mp hbits
  exact Bits.temporary_notMem_names x j hx

theorem IsStored.not_knownBefore (hs : IsStored (before ++ d :: after) (Name.temporary j))
    (hd : Name.temporary j ∈ d.assigned)
    (h : KnownBefore Definition.reads Definition.supplied known (before ++ d :: after))
    (hk : Name.temporary j ∉ known) (hk' : Name.temporary j ∉ known') :
    ¬ KnownBefore Definition.reads Definition.supplied known' (before ++ after) := by
  intro hdropped
  have hassigned := hs.assigned
  rw [count_flatMap_middle] at hassigned
  have hgone : Name.temporary j ∉ (before ++ after).flatMap Definition.assigned := by
    have hpos := List.count_pos_iff.mpr hd
    exact List.count_eq_zero.mp (by omega)
  have hown : Name.temporary j ∉ d.reads := by
    intro hr
    have hm := h.temporary_mem_assigned hk hr
    exact hgone (List.flatMap_append ▸ List.mem_append_left _ hm)
  have hread := hs.read
  rw [count_flatMap_middle, List.count_eq_zero.mpr hown, Nat.add_zero] at hread
  -- the one read is left, in a definition with no assignment before it
  obtain ⟨c, hc, hr⟩ := List.mem_flatMap.mp (List.count_pos_iff.mp (hread ▸ Nat.one_pos))
  obtain ⟨bs, as, he⟩ := List.append_of_mem hc
  rw [he] at hdropped hgone
  have hm := hdropped.temporary_mem_assigned hk' hr
  exact hgone (List.flatMap_append ▸ List.mem_append_left _ hm)

end Stored

section Differences

variable {known : List String} {before after : List Definition} {ps : List Piece} {p : Piece}
  {x y b : String} {e l r : Expr}

theorem Bits.exists_mem_names_ne (x y : String) : ∃ b ∈ names x, b ≠ y := by
  have h₀ : Name.bit x (0 : Nat) ∈ names x := (mem_names x).mpr ⟨0, by decide, rfl⟩
  have h₁ : Name.bit x (1 : Nat) ∈ names x := (mem_names x).mpr ⟨1, by decide, rfl⟩
  by_cases hy : Name.bit x (0 : Nat) = y
  · refine ⟨_, h₁, fun h => ?_⟩
    cases (Name.bit_inj.mp (hy.trans h.symm)).2
  · exact ⟨_, h₀, hy⟩

theorem Piece.bitConstraint_mem_group (hb : b ∈ Bits.names x) :
    Bits.bitConstraint b ∈ (group x l r).definitions :=
  List.mem_cons_of_mem _ (List.mem_append_left _ (List.mem_map_of_mem hb))

theorem Piece.mem_names_of_bitConstraint (h : Bits.bitConstraint b ∈ (group x l r).definitions) :
    b ∈ Bits.names x := by
  rcases List.mem_cons.mp h with h | h
  · cases h
  rcases List.mem_append.mp h with h | h
  · obtain ⟨c, hc, he⟩ := List.mem_map.mp h
    cases he
    exact hc
  · cases List.mem_singleton.mp h

theorem Piece.count_assigned_le (hp : p ∈ ps) (y : String) :
    p.assigned.count y ≤ (ps.flatMap Piece.assigned).count y := by
  obtain ⟨before, after, rfl⟩ := List.append_of_mem hp
  rw [count_flatMap_middle]
  exact Nat.le_add_left _ _

/-- A constraint on a bit that is assigned only once stands in the group of the bit. Alone it would read the
bit too early. -/
theorem ReadsKnown.group_mem (h : ReadsKnown known ps) (hb : b ∈ Bits.names x) (hk : b ∉ known)
    (hmem : Bits.bitConstraint b ∈ ps.flatMap Piece.definitions)
    (hcount : (ps.flatMap Piece.assigned).count b ≤ 1) : ∃ l r, .group x l r ∈ ps := by
  obtain ⟨p, hp, hd⟩ := List.mem_flatMap.mp hmem
  cases p with
  | group y l r =>
    obtain rfl := Bits.eq_of_mem_names hb (Piece.mem_names_of_bitConstraint hd)
    exact ⟨l, r, hp⟩
  | single c =>
    obtain rfl := List.mem_singleton.mp hd
    obtain ⟨before, after, rfl⟩ := List.append_of_mem hp
    have hearlier := (h before _ after rfl b List.mem_cons_self).resolve_left hk
    obtain ⟨p, hp, hm⟩ := List.mem_flatMap.mp hearlier
    have hpos := List.count_pos_iff.mpr (List.mem_flatMap.mpr ⟨p, hp, Piece.mem_names_iff.mp hm⟩)
    have hself : (Piece.single (Bits.bitConstraint b)).assigned.count b = 1 := by
      rw [Piece.assigned_single]
      exact List.count_singleton_self
    simp only [List.flatMap_append, List.flatMap_cons, List.count_append] at hcount
    omega

theorem IsDifference.not_readsKnown (hx : IsDifference (before ++ .assign y e :: after) x)
    (hy : y = x ∨ y ∈ Bits.names x) (hk : ∀ b ∈ Bits.names x, b ∉ known)
    (hps : before ++ after = ps.flatMap Piece.definitions) : ¬ ReadsKnown known ps := by
  intro h
  have hcount : ∀ z, ((before ++ .assign y e :: after).flatMap Definition.assigned).count z =
      (ps.flatMap Piece.assigned).count z + [y].count z := by
    intro z
    rw [count_flatMap_middle, hps, flatMap_assigned_definitions]
    rfl
  -- the constraint on a bit other than the dropped name stays, and it brings the whole group with it
  obtain ⟨b, hb, hne⟩ := Bits.exists_mem_names_ne x y
  have hleft : Bits.bitConstraint b ∈ before ++ after := by
    obtain ⟨l, r, hg⟩ := hx.group
    have hm := hg.subset (Piece.bitConstraint_mem_group hb)
    have hself : Bits.bitConstraint b ≠ .assign y e := fun he => hne (Definition.assign.inj he).1
    simpa [hself] using hm
  have hbit := hx.bits b hb
  rw [hcount b] at hbit
  obtain ⟨l, r, hg⟩ := h.group_mem hb (hk b hb) (hps ▸ hleft) (by omega)
  have hle := Piece.count_assigned_le hg y
  rw [Piece.assigned_group] at hle
  have hy' := hcount y
  rw [List.count_singleton_self] at hy'
  rcases hy with rfl | hy
  · rw [hx.assigned] at hy'
    rw [List.count_cons_self, List.count_append, List.count_singleton_self] at hle
    omega
  · rw [hx.bits y hy] at hy'
    have hpos := List.count_pos_iff.mpr (List.mem_cons_of_mem x (List.mem_append_left [x] hy))
    omega

end Differences

section Ends

def EndsFlat (ds : List Definition) : Prop :=
  ∀ d ∈ ds.getLast?, d.isFlat = true

namespace EndsFlat

variable {ds es : List Definition} {d : Definition}

theorem nil : EndsFlat [] :=
  fun _ hd => nomatch hd

theorem singleton (hd : d.isFlat = true) : EndsFlat [d] := by
  intro c hc
  cases hc
  exact hd

theorem append_of_ne_nil (h : EndsFlat es) (hne : es ≠ []) : EndsFlat (ds ++ es) := by
  intro d hd
  rw [List.getLast?_append_of_ne_nil _ hne] at hd
  exact h d hd

theorem append (hd : EndsFlat ds) (he : EndsFlat es) : EndsFlat (ds ++ es) := by
  cases es with
  | nil => exact (List.append_nil ds).symm ▸ hd
  | cons e es => exact he.append_of_ne_nil (List.cons_ne_nil e es)

end EndsFlat

theorem Program.not_endsInGroup {p : Program} {ps : List Piece} (hd : p.definitions = ps.flatMap Piece.definitions)
    (h : EndsFlat p.definitions) : ¬ p.EndsInGroup ps := by
  rintro ⟨⟨before, x, l, r, rfl⟩, _⟩
  have hlast : p.definitions.getLast? = some (.assign x (Bits.weightedSum x)) := by
    rw [hd, List.flatMap_append, List.flatMap_singleton, Piece.definitions_group, ← List.append_assoc,
      List.getLast?_concat]
  cases h _ hlast

namespace Lowering

variable {strict : Bool} {e f a : Expr} {xs ds : List Definition} {d c : Definition} {n m : Nat}

theorem Takes.endsFlat (h : Takes f n ds m a) (hf : f.isFlat = true) : EndsFlat ds := by
  cases h with
  | atom _ => exact .nil
  | stored _ => exact .singleton hf

theorem Lowers.endsFlat (h : Lowers strict e n ds m f) : EndsFlat ds := by
  induction h with
  | atom _ => exact .nil
  | operation op hl hr ha hb ihl ihr =>
    exact ((ihl.append ihr).append (ha.endsFlat hl.isFlat)).append (hb.endsFlat hr.isFlat)
  | literalPower _ _ => exact .nil
  | square _ => exact .nil
  | power _ _ h ih => exact ih.append (.singleton h.isFlat)
  | choice _ _ hs _ _ ih =>
    have hcost := hs.cost.2
    rw [Expr.temporaries_select] at hcost
    refine ih.append_of_ne_nil fun hnil => ?_
    rw [hnil, List.length_nil] at hcost
    omega

theorem Becomes.endsFlat (h : Becomes strict d n ds m c) : EndsFlat ds := by
  cases h with
  | assign x he => exact he.endsFlat
  | ret he => exact he.endsFlat

theorem LowersAll.endsFlat_dropLast (h : LowersAll strict xs n ds m) (hp : ∀ d ∈ xs, d.IsPlain) :
    EndsFlat ds.dropLast := by
  refine h.plainInduction (fun _ => .nil) ?_ hp
  intro d c xs es fs n k m _ _ hbecomes _ ih
  rw [List.dropLast_append_cons]
  cases fs with
  | nil => exact hbecomes.endsFlat.append .nil
  | cons f fs =>
    have hc : EndsFlat [c] := .singleton hbecomes.isFlat
    exact hbecomes.endsFlat.append (hc.append ih)

end Lowering

end Ends

section Made

variable {strict : Bool} {xs ds before after : List Definition} {d : Definition} {ps : List Piece}
  {known : List String} {n m : Nat}

namespace Lowering

theorem LowersAll.knownBefore (h : LowersAll strict xs n ds m) (hp : ∀ d ∈ xs, d.IsPlain) :
    KnownBefore Definition.reads Definition.supplied (xs.flatMap Definition.reads) ds := by
  obtain ⟨ps, rfl, hm, _⟩ := h.mirrors hp
  have hreads : ReadsKnown (xs.flatMap Definition.reads) ps := by
    refine knownBefore_iff.mpr fun y hy => ?_
    obtain ⟨before, d, after, rfl, hr, hk, _⟩ := (hm.late _ y).mp hy
    exact hk (List.mem_flatMap.mpr ⟨d, List.mem_append_right before List.mem_cons_self, hr⟩)
  exact hreads.knownBefore

/-- A made definition belongs to the piece of a temporary, which is stored or a difference. Without it the others
are no pieces that read known names only. -/
theorem LowersAll.not_readsKnown (h : LowersAll strict xs 0 (before ++ d :: after) m)
    (hp : ∀ d ∈ xs, d.IsPlain) (hd : d.isMade = true) (hk : ∀ y ∈ known, Name.IsPlain y)
    (hps : before ++ after = ps.flatMap Piece.definitions) : ¬ ReadsKnown known ps := by
  have hknown := h.knownBefore hp
  have htwice := h.count_temporary hp
  obtain ⟨qs, hqs, _, hn⟩ := h.mirrors hp
  cases d with
  | ret | hole => cases hd
  | assign y e =>
    obtain ⟨q, hq, hmem⟩ := List.mem_flatMap.mp (hqs ▸ List.mem_append_right before List.mem_cons_self)
    have hy : y ∈ q.assigned := List.mem_flatMap.mpr ⟨_, hmem, List.mem_singleton.mpr rfl⟩
    have hplain : ¬ Name.IsPlain y := by simpa [Definition.isMade] using hd
    obtain ⟨j, -, hj, hmakes⟩ := (hn.makes_of_mem hq).resolve_left fun hall => hplain (hall y hy)
    have htwo := (htwice j).trans (if_pos ⟨Nat.zero_le j, hj⟩)
    rw [hqs] at htwo
    cases hmakes with
    | store f =>
      have hstored := hn.isStored htwo hq
      rw [← hqs] at hstored
      rw [Piece.assigned_single] at hy
      obtain rfl := List.mem_singleton.mp hy
      have hvariables : Name.temporary j ∉ xs.flatMap Definition.reads := by
        intro hm
        obtain ⟨c, hc, hm⟩ := List.mem_flatMap.mp hm
        exact hplain ((hp c hc).reads _ hm)
      intro hr
      have hleft := hps ▸ hr.knownBefore
      exact hstored.not_knownBefore List.mem_cons_self hknown hvariables (fun hm => hplain (hk _ hm)) hleft
    | group l r =>
      have hdifference := hn.isDifference htwo hq
      rw [← hqs] at hdifference
      rw [Piece.assigned_group, List.mem_cons, List.mem_append, List.mem_singleton] at hy
      refine hdifference.not_readsKnown (by tauto) (fun b hb hb' => ?_) hps
      obtain ⟨i, _, rfl⟩ := (Bits.mem_names _).mp hb
      exact Name.not_isPlain_bit _ i (hk _ hb')

end Lowering

end Made

namespace Program

variable {strict : Bool} {p q : Program} {ps : List Piece} {before after : List Definition} {d : Definition}

theorem check_ne_of_isMade (hp : p.IsPlain) (h : p.lower strict = .ok q)
    (hd : q.definitions = before ++ d :: after) (hm : d.isMade = true) :
    ({ q with definitions := before ++ after } : Program).check ≠ .ok [] := by
  intro hcheck
  obtain ⟨ps, hne, hps, hs⟩ := pieces_of_check hcheck
  have hreads := readsKnown_of_check hps hs hne hcheck
  obtain ⟨ds, m, hl, rfl⟩ := lowersAll_of_lower h
  obtain rfl : ds = before ++ d :: after := hd
  exact hl.not_readsKnown hp.definitions hm hp.parameters hps hreads

theorem check_ne_of_endsFlat (ha : ∀ d ∈ p.definitions, d.isAssignment = true) (hf : EndsFlat p.definitions) :
    p.check ≠ .ok [] := by
  intro h
  obtain ⟨ps, hne, hps, hs⟩ := pieces_of_check h
  rcases (placed_iff hps hs.flat hne).mp hs.placed with ⟨ds, e, hds, _⟩ | hgroup
  · have hret : Definition.ret e ∈ p.definitions := hds ▸ List.mem_append_right ds List.mem_cons_self
    cases ha _ hret
  · exact not_endsInGroup hps hf hgroup

theorem check_ne_of_isReturn (hp : p.IsSource) (h : p.lower strict = .ok q)
    (hd : q.definitions = before ++ d :: after) (hr : d.isReturn = true) :
    ({ q with definitions := before ++ after } : Program).check ≠ .ok [] := by
  obtain ⟨ds, m, hl, rfl⟩ := lowersAll_of_lower h
  have hflat := hl.endsFlat_dropLast hp.isPlain.definitions
  obtain ⟨es, e, rfl, ha⟩ := hl.endsInReturn hp.endsInReturn
  have hes : before ++ after = es := by
    rcases List.eq_nil_or_concat after with rfl | ⟨cs, c, rfl⟩
    · exact (List.append_nil before).trans (List.append_inj' hd rfl).1.symm
    · -- before the last definition there are only assignments
      rw [List.concat_eq_append, ← List.cons_append, ← List.append_assoc] at hd
      have hes := (List.append_inj' hd rfl).1
      have hd := ha d (hes ▸ List.mem_append_right before List.mem_cons_self)
      cases hr.symm.trans (Definition.isReturn_eq_false_of_isAssignment hd)
  rw [List.dropLast_concat, ← hes] at hflat
  rw [← hes] at ha
  exact check_ne_of_endsFlat ha hflat

/-- Whatever definition is dropped that lowering made up, of a temporary or of one of its bits, and also without
its return, a lowered program is found to break the contract. -/
theorem check_of_dropped (s : String) (strict : Bool) (p q : Program) (before after : List Definition)
    (d : Definition) (hr : Program.read s = .ok p) (h : p.lower strict = .ok q)
    (hd : q.definitions = before ++ d :: after) (hm : d.isMade = true ∨ d.isReturn = true) :
    ∃ f fs, ({ q with definitions := before ++ after } : Program).check = .ok (f :: fs) := by
  have hp := isSource_of_read hr
  have hhole : ({ q with definitions := before ++ after } : Program).hole? = none := by
    refine hole?_eq_none_iff.mpr fun c hc => ?_
    refine hole?_eq_none_iff.mp (hp.hole?_eq_none_of_lower h) c ?_
    rw [hd]
    exact List.mem_append.mpr ((List.mem_append.mp hc).imp_right (List.mem_cons_of_mem d))
  have hne : ({ q with definitions := before ++ after } : Program).check ≠ .ok [] :=
    hm.elim (check_ne_of_isMade hp.isPlain h hd) (check_ne_of_isReturn hp h hd)
  obtain ⟨fs, hfs⟩ := exists_findings hhole
  cases fs with
  | nil => exact absurd hfs hne
  | cons f fs => exact ⟨f, fs, hfs⟩

theorem check_of_dropped_choice :
    let p : Program := ⟨"f", ["x"], [.ret (.ite (.less (.var "x") (.lit 3)) (.var "x") (.lit 7))]⟩
    Program.read p.text = .ok p ∧ ∃ q, p.lower false = .ok q ∧
      q.definitions = q.definitions.take 3 ++ Bits.bitConstraint "sym_2_b0" :: q.definitions.drop 4 ∧
      ∃ f fs, ({ q with definitions := q.definitions.take 3 ++ q.definitions.drop 4 } : Program).check =
        .ok (f :: fs) := by
  intro p
  have hp : p.IsSource := {
    header := ⟨by decide, by decide, by decide, by decide⟩
    definitions := ⟨[], .ite (.less (.var "x") (.lit 3)) (.var "x") (.lit 7), rfl, by decide, by decide⟩ }
  have hbit : (match p.lower false with
      | .ok q => decide (q.definitions =
          q.definitions.take 3 ++ Bits.bitConstraint "sym_2_b0" :: q.definitions.drop 4)
      | .error _ => false) = true := by decide +kernel
  cases h : p.lower false with
  | error => simp [h] at hbit
  | ok q =>
    rw [h] at hbit
    have hd := of_decide_eq_true hbit
    exact ⟨hp.read_text, q, rfl, hd, check_of_dropped p.text false p q _ _ _ hp.read_text h hd (.inl (by decide))⟩

end Program

end FlatCircuit
