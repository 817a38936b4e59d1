import FlatCircuit.Proofs.Contract.Pieces
import FlatCircuit.Proofs.Evaluation.Decomposition

namespace FlatCircuit

theorem Bits.mem_names_of_mem_reads {d : Definition} {x y : String}
    (hd : d ∈ Bits.constraints x) (hy : y ∈ d.reads) :
    y ∈ Bits.names x := by
  rcases List.mem_append.mp hd with hd | hd
  · obtain ⟨b, hb, rfl⟩ := List.mem_map.mp hd
    simp only [Bits.bitConstraint, Definition.reads, Expr.variables, List.singleton_append,
      List.mem_cons, List.not_mem_nil, or_false, or_self] at hy
    exact hy ▸ hb
  · obtain rfl := List.mem_singleton.mp hd
    exact Evaluation.mem_names_of_mem_weighted (by decide) hy

theorem Bits.temporary_notMem_names (x : String) (j : Nat) : Name.temporary j ∉ names x := by
  intro hm
  obtain ⟨i, _, hi⟩ := (mem_names x).mp hm
  exact Name.temporary_ne_bit j x i hi.symm

namespace Name

def number? (x : String) : Option Nat :=
  let n := Nat.ofDigitChars 10 (x.toList.drop 4) 0
  if x = temporary n then some n else none

theorem number?_temporary (n : Nat) : number? (temporary n) = some n := by
  have hd : Nat.ofDigitChars 10 ((temporary n).toList.drop 4) 0 = n := by
    rw [toList_temporary]
    exact Nat.ofDigitChars_ten_toDigits
  rw [number?, hd]
  exact if_pos rfl

theorem number?_eq_some_iff {x : String} {n : Nat} : number? x = some n ↔ x = temporary n := by
  constructor
  · intro h
    simp only [number?, Option.ite_none_right_eq_some, Option.some.injEq] at h
    rw [h.1, h.2]
  · rintro rfl
    exact number?_temporary n

theorem number?_eq_none {x : String} (h : ∀ n : Nat, x ≠ temporary n) : number? x = none := by
  cases hx : number? x with
  | none => rfl
  | some n => exact absurd (number?_eq_some_iff.mp hx) (h n)

def MadeAt (n : Nat) (x : String) : Prop :=
  MadeBelow (n + 1) x ∧ ¬ MadeBelow n x

variable {m n : Nat} {x : String}

theorem madeAt_temporary (n : Nat) : MadeAt n (temporary n) := by
  simp only [MadeAt, MadeBelow.temporary_iff]
  omega

theorem madeAt_bit (n i : Nat) : MadeAt n (bit (temporary n) i) := by
  simp only [MadeAt, MadeBelow.bit_iff]
  omega

theorem MadeAt.unique (hm : MadeAt m x) (hn : MadeAt n x) : m = n := by
  have hle : ¬ m + 1 ≤ n := fun h => hn.2 (hm.1.mono h)
  have hge : ¬ n + 1 ≤ m := fun h => hm.2 (hn.1.mono h)
  omega

end Name

inductive Piece.Makes (n : Nat) : Piece → Prop
  | store (e : Expr) : Makes n (.single (.assign (Name.temporary n) e))
  | group (l r : Expr) : Makes n (.group (Name.temporary n) l r)

inductive Numbered : Nat → List Piece → Nat → Prop
  | nil {n : Nat} : Numbered n [] n
  | made {p : Piece} {ps : List Piece} {n m : Nat} : p.Makes n → Numbered (n + 1) ps m →
      Numbered n (p :: ps) m
  | plain {d : Definition} {ps : List Piece} {n m : Nat} : (∀ x ∈ d.assigned, Name.IsPlain x) →
      Numbered n ps m → Numbered n (.single d :: ps) m

def Piece.assigned (p : Piece) : List String :=
  p.definitions.flatMap Definition.assigned

section Assigned

variable {p : Piece} {ps qs : List Piece} {d : Definition} {n m k j : Nat} {x y : String} {e l r : Expr}

theorem flatMap_assigned_definitions (ps : List Piece) :
    (ps.flatMap Piece.definitions).flatMap Definition.assigned = ps.flatMap Piece.assigned :=
  List.flatMap_assoc

theorem Piece.assigned_single : (single d).assigned = d.assigned :=
  List.flatMap_singleton _ d

theorem Piece.assigned_group : (group x l r).assigned = x :: (Bits.names x ++ [x]) := by
  rw [assigned, definitions, List.flatMap_cons, assigned_constraints]
  rfl

theorem Piece.mem_names_iff : y ∈ p.names ↔ y ∈ p.assigned := by
  cases p with
  | single d => rw [names_single, assigned_single]
  | group x l r =>
    rw [mem_names_group, assigned_group, List.mem_cons, List.mem_append, List.mem_singleton]
    tauto

theorem Piece.Makes.madeAt (h : p.Makes n) (hy : y ∈ p.assigned) : Name.MadeAt n y := by
  cases h with
  | store e =>
    rw [assigned_single] at hy
    exact List.mem_singleton.mp hy ▸ Name.madeAt_temporary n
  | group l r =>
    rw [assigned_group, List.mem_cons, List.mem_append, List.mem_singleton] at hy
    rcases hy with rfl | hy | rfl
    · exact Name.madeAt_temporary n
    · obtain ⟨i, _, rfl⟩ := (Bits.mem_names _).mp hy
      exact Name.madeAt_bit n i
    · exact Name.madeAt_temporary n

theorem Piece.Makes.temporary_mem (h : p.Makes n) : Name.temporary n ∈ p.assigned := by
  cases h with
  | store e => exact List.mem_cons_self
  | group l r => exact List.mem_cons_self

theorem Piece.Makes.unique (hn : p.Makes n) (hm : p.Makes m) : n = m :=
  (hn.madeAt hn.temporary_mem).unique (hm.madeAt hn.temporary_mem)

theorem Piece.Makes.count_eq_zero (h : p.Makes n) (hy : Name.MadeAt j y) (hj : j ≠ n) :
    p.assigned.count y = 0 :=
  List.count_eq_zero.mpr fun hm => hj (hy.unique (h.madeAt hm))

theorem Piece.Makes.exists_not_isPlain (h : p.Makes n) : ∃ y ∈ p.assigned, ¬ Name.IsPlain y :=
  ⟨_, h.temporary_mem, Name.not_isPlain_temporary n⟩

theorem Piece.Makes.filterMap_number? (h : p.Makes n) :
    ∃ k, p.assigned.filterMap Name.number? = List.replicate (k + 1) n := by
  have hn := Name.number?_temporary n
  cases h with
  | store e => exact ⟨0, by simp [assigned_single, Definition.assigned, hn]⟩
  | group l r =>
    have hbits : (Bits.names (Name.temporary n)).filterMap Name.number? = [] := by
      refine List.filterMap_eq_nil_iff.mpr fun y hy => Name.number?_eq_none fun j hj => ?_
      exact Bits.temporary_notMem_names _ j (hj ▸ hy)
    exact ⟨1, by simp [assigned_group, hn, hbits]⟩

theorem eraseDups_replicate_append {ns : List Nat} (h : n ∉ ns) (k : Nat) :
    (List.replicate (k + 1) n ++ ns).eraseDups = n :: ns.eraseDups := by
  have hns : ns.filter (fun i => !i == n) = ns := by
    refine List.filter_eq_self.mpr fun i hi => ?_
    have hne : i ≠ n := fun he => h (he ▸ hi)
    simp [hne]
  rw [List.replicate_succ, List.cons_append, List.eraseDups_cons, List.filter_append, hns]
  simp

namespace Numbered

theorem le (h : Numbered n ps m) : n ≤ m := by
  induction h with
  | nil => exact Nat.le_refl _
  | made _ _ ih => omega
  | plain _ _ ih => exact ih

theorem append (hp : Numbered n ps k) (hq : Numbered k qs m) : Numbered n (ps ++ qs) m := by
  induction hp with
  | nil => exact hq
  | made hp _ ih => exact .made hp (ih hq)
  | plain hd _ ih => exact .plain hd (ih hq)

theorem block (hp : Numbered n ps k) (hd : ∀ x ∈ d.assigned, Name.IsPlain x) (hq : Numbered k qs m) :
    Numbered n (ps ++ [.single d] ++ qs) m := by
  rw [List.append_assoc]
  exact hp.append (.plain hd hq)

theorem isPlain_or_made (h : Numbered n ps m) (hy : y ∈ ps.flatMap Piece.assigned) :
    Name.IsPlain y ∨ Name.MadeBelow m y ∧ ¬ Name.MadeBelow n y := by
  induction h with
  | nil => cases hy
  | made hp hps ih =>
    rw [List.flatMap_cons, List.mem_append] at hy
    rcases hy with hy | hy
    · obtain ⟨hb, hn⟩ := hp.madeAt hy
      exact .inr ⟨hb.mono hps.le, hn⟩
    · exact (ih hy).imp_right fun h => ⟨h.1, fun hb => h.2 (hb.mono (Nat.le_succ _))⟩
  | plain hd _ ih =>
    rw [List.flatMap_cons, List.mem_append, Piece.assigned_single] at hy
    exact hy.elim (fun hy => .inl (hd y hy)) ih

theorem notMem_of_madeBelow (h : Numbered n ps m) (hy : Name.MadeBelow n y) :
    y ∉ ps.flatMap Piece.assigned := by
  intro hm
  exact (h.isPlain_or_made hm).elim hy.not_isPlain fun h => h.2 hy

theorem exists_makes (h : Numbered n ps m) (hn : n ≤ j) (hm : j < m) : ∃ p ∈ ps, p.Makes j := by
  induction h with
  | nil => omega
  | @made p ps n m hp _ ih =>
    rcases Nat.eq_or_lt_of_le hn with rfl | hn
    · exact ⟨p, List.mem_cons_self, hp⟩
    · obtain ⟨q, hq, hmakes⟩ := ih hn hm
      exact ⟨q, List.mem_cons_of_mem _ hq, hmakes⟩
  | plain _ _ ih =>
    obtain ⟨q, hq, hmakes⟩ := ih hn hm
    exact ⟨q, List.mem_cons_of_mem _ hq, hmakes⟩

theorem makes_of_mem (h : Numbered n ps m) (hp : p ∈ ps) :
    (∀ y ∈ p.assigned, Name.IsPlain y) ∨ ∃ j, n ≤ j ∧ j < m ∧ p.Makes j := by
  induction h with
  | nil => cases hp
  | @made q ps n m hq hps ih =>
    rcases List.mem_cons.mp hp with rfl | hp
    · exact .inr ⟨n, Nat.le_refl n, hps.le, hq⟩
    · exact (ih hp).imp_right fun ⟨j, hn, hm, hj⟩ => ⟨j, by omega, hm, hj⟩
  | plain hd _ ih =>
    rcases List.mem_cons.mp hp with rfl | hp
    · exact .inl (Piece.assigned_single ▸ hd)
    · exact ih hp

theorem count_assigned (h : Numbered n ps m) (hp : p ∈ ps) (hj : p.Makes j) (hy : Name.MadeAt j y) :
    (ps.flatMap Piece.assigned).count y = p.assigned.count y := by
  induction h with
  | nil => cases hp
  | @made q ps n m hq hps ih =>
    rw [List.flatMap_cons, List.count_append]
    rcases List.mem_cons.mp hp with rfl | hp
    · obtain rfl := hj.unique hq
      rw [List.count_eq_zero.mpr (hps.notMem_of_madeBelow hy.1), Nat.add_zero]
    · rcases hps.makes_of_mem hp with hplain | ⟨i, hi, _, hmakes⟩
      · obtain ⟨x, hx, hn⟩ := hj.exists_not_isPlain
        exact absurd (hplain x hx) hn
      · obtain rfl := hj.unique hmakes
        rw [hq.count_eq_zero hy (by omega), Nat.zero_add, ih hp]
  | @plain d ps n m hd hps ih =>
    have hnot : y ∉ d.assigned := fun hm => (hy.1.not_isPlain) (hd y hm)
    rw [List.flatMap_cons, List.count_append, Piece.assigned_single, List.count_eq_zero.mpr hnot,
      Nat.zero_add]
    rcases List.mem_cons.mp hp with rfl | hp
    · obtain ⟨x, hx, hn⟩ := hj.exists_not_isPlain
      exact absurd (hd x (Piece.assigned_single ▸ hx)) hn
    · exact ih hp

theorem order (h : Numbered n ps m) :
    ((ps.flatMap Piece.assigned).filterMap Name.number?).eraseDups = List.range' n (m - n) := by
  induction h with
  | nil => simp
  | @made p ps n m hp hps ih =>
    obtain ⟨k, hk⟩ := hp.filterMap_number?
    have hnot : n ∉ (ps.flatMap Piece.assigned).filterMap Name.number? := by
      intro hm
      obtain ⟨x, hx, hn⟩ := List.mem_filterMap.mp hm
      rw [Name.number?_eq_some_iff.mp hn] at hx
      exact hps.notMem_of_madeBelow (Name.madeAt_temporary n).1 hx
    have hlen : m - n = m - (n + 1) + 1 := by
      have hle := hps.le
      omega
    rw [List.flatMap_cons, List.filterMap_append, hk, eraseDups_replicate_append hnot, ih, hlen,
      List.range'_succ]
  | @plain d ps n m hd _ ih =>
    have hnone : d.assigned.filterMap Name.number? = [] := by
      refine List.filterMap_eq_nil_iff.mpr fun x hx => Name.number?_eq_none fun j hj => ?_
      exact Name.not_isPlain_temporary j (hj ▸ hd x hx)
    rw [List.flatMap_cons, List.filterMap_append, Piece.assigned_single, hnone, List.nil_append, ih]

end Numbered

end Assigned

end FlatCircuit
