import Mathlib.Data.List.Flatten
import FlatCircuit.Lowering.Session
import FlatCircuit.Proofs.Contract.Lowered

namespace FlatCircuit

variable {ps qs : List Piece} {p : Piece} {n m k j : Nat} {y : String}

theorem Piece.count_temporary_group (l r : Expr) :
    (Piece.group (Name.temporary j) l r).assigned.count (Name.temporary j) = 2 := by
  rw [assigned_group]
  simp [List.count_eq_zero.mpr (Bits.temporary_notMem_names _ j)]

theorem Piece.count_bit_le (hp : p.Makes j) (i : Nat) :
    p.assigned.count (Name.bit (Name.temporary j) i) ≤ 1 := by
  have hne : (Name.temporary j == Name.bit (Name.temporary j) i) = false := by
    simpa using Name.temporary_ne_bit j _ i
  cases hp with
  | store e => simp [assigned_single, Definition.assigned, List.count_singleton, hne]
  | group l r =>
    rw [assigned_group, List.count_cons, List.count_append, List.count_singleton, hne]
    exact List.nodup_iff_count_le_one.mp (Bits.nodup_names _) _

theorem Piece.Makes.made (h : p.Makes j) : ∀ d ∈ p.definitions,
    ∃ x e, d = .assign x e ∧ (x = Name.temporary j ∨ ∃ i < 8, x = Name.bit (Name.temporary j) (i : Nat)) := by
  cases h with
  | store e => exact List.forall_mem_singleton.mpr ⟨_, e, rfl, .inl rfl⟩
  | group l r =>
    refine forall_mem_group.mpr ⟨⟨_, _, rfl, .inl rfl⟩, fun b hb => ?_, ⟨_, _, rfl, .inl rfl⟩⟩
    obtain ⟨i, hi, rfl⟩ := (Bits.mem_names _).mp hb
    exact ⟨_, _, rfl, .inr ⟨i, hi, rfl⟩⟩

structure Chosen (n : Nat) (ps : List Piece) (m : Nat) : Prop where
  numbered : ∃ qs, Numbered n qs m ∧ ps.Sublist qs
  makes : ∀ p ∈ ps, ∃ j, p.Makes j

namespace Chosen

theorem nil (n : Nat) : Chosen n [] n :=
  ⟨⟨[], .nil, List.Sublist.refl _⟩, fun _ hp => absurd hp List.not_mem_nil⟩

theorem one (hp : p.Makes n) : Chosen n [p] (n + 1) :=
  ⟨⟨[p], .made hp .nil, List.Sublist.refl _⟩, List.forall_mem_singleton.mpr ⟨n, hp⟩⟩

theorem skip (n : Nat) : Chosen n [] (n + 1) :=
  ⟨⟨_, .made (.store .hole) .nil, List.nil_sublist _⟩, fun _ hp => absurd hp List.not_mem_nil⟩

theorem append (hp : Chosen n ps k) (hq : Chosen k qs m) : Chosen n (ps ++ qs) m := by
  obtain ⟨ps', hps, hs⟩ := hp.numbered
  obtain ⟨qs', hqs, ht⟩ := hq.numbered
  exact ⟨⟨ps' ++ qs', hps.append hqs, hs.append ht⟩, List.forall_mem_append.mpr ⟨hp.makes, hq.makes⟩⟩

theorem le (h : Chosen n ps m) : n ≤ m := by
  obtain ⟨_, hqs, _⟩ := h.numbered
  exact hqs.le

variable (h : Chosen n ps m)
include h

theorem makes_lt (hp : p ∈ ps) : ∃ j < m, p.Makes j := by
  obtain ⟨qs, hqs, hs⟩ := h.numbered
  rcases hqs.makes_of_mem (hs.subset hp) with hplain | ⟨j, _, hj, hmakes⟩
  · obtain ⟨i, hi⟩ := h.makes p hp
    obtain ⟨x, hx, hn⟩ := hi.exists_not_isPlain
    exact absurd (hplain x hx) hn
  · exact ⟨j, hj, hmakes⟩

theorem exists_makes (hy : y ∈ ps.flatMap Piece.assigned) (hj : Name.MadeAt j y) :
    ∃ p ∈ ps, p.Makes j ∧ y ∈ p.assigned := by
  obtain ⟨p, hp, hyp⟩ := List.mem_flatMap.mp hy
  obtain ⟨i, hi⟩ := h.makes p hp
  obtain rfl := hj.unique (hi.madeAt hyp)
  exact ⟨p, hp, hi, hyp⟩

theorem count_le (hp : p ∈ ps) (hj : p.Makes j) (hy : Name.MadeAt j y) :
    (ps.flatMap Piece.assigned).count y ≤ p.assigned.count y := by
  obtain ⟨qs, hqs, hs⟩ := h.numbered
  rw [← hqs.count_assigned (hs.subset hp) hj hy]
  exact (hs.flatMap _).count_le y

theorem count_bit_le (j i : Nat) :
    (ps.flatMap Piece.assigned).count (Name.bit (Name.temporary j) i) ≤ 1 := by
  by_cases hy : Name.bit (Name.temporary j) i ∈ ps.flatMap Piece.assigned
  · obtain ⟨p, hp, hj, _⟩ := h.exists_makes hy (Name.madeAt_bit j i)
    exact (h.count_le hp hj (Name.madeAt_bit j i)).trans (Piece.count_bit_le hj i)
  · rw [List.count_eq_zero.mpr hy]
    exact Nat.zero_le 1

theorem temporaries (j : Nat) :
    (ps.flatMap Piece.assigned).count (Name.temporary j) ≤ 1 ∨
      ∃ before l r after, ps = before ++ .group (Name.temporary j) l r :: after ∧
        Name.temporary j ∉ (before ++ after).flatMap Piece.assigned := by
  by_cases hy : Name.temporary j ∈ ps.flatMap Piece.assigned
  · obtain ⟨p, hp, hj, _⟩ := h.exists_makes hy (Name.madeAt_temporary j)
    have hle := h.count_le hp hj (Name.madeAt_temporary j)
    cases hj with
    | store e =>
      rw [Piece.assigned_single] at hle
      exact .inl (hle.trans_eq List.count_singleton_self)
    | group l r =>
      obtain ⟨before, after, rfl⟩ := List.append_of_mem hp
      refine .inr ⟨before, l, r, after, rfl, fun hm => ?_⟩
      have hpos := List.count_pos_iff.mpr hm
      simp only [List.flatMap_append, List.flatMap_cons, List.count_append] at hle hpos
      rw [Piece.count_temporary_group] at hle
      omega
  · exact .inl (by rw [List.count_eq_zero.mpr hy]; exact Nat.zero_le 1)

theorem made {d : Definition} (hd : d ∈ ps.flatMap Piece.definitions) : ∃ x e, d = .assign x e ∧
    ∃ j < m, x = Name.temporary j ∨ ∃ i < 8, x = Name.bit (Name.temporary j) (i : Nat) := by
  obtain ⟨p, hp, hdp⟩ := List.mem_flatMap.mp hd
  obtain ⟨j, hj, hmakes⟩ := h.makes_lt hp
  obtain ⟨x, e, rfl, hx⟩ := hmakes.made _ hdp
  exact ⟨x, e, rfl, j, hj, hx⟩

theorem group_of_bit {i : Nat} (hy : Name.bit (Name.temporary j) i ∈ ps.flatMap Piece.assigned) :
    ∃ l r, .group (Name.temporary j) l r ∈ ps := by
  obtain ⟨p, hp, hj, hyp⟩ := h.exists_makes hy (Name.madeAt_bit j i)
  cases hj with
  | store e =>
    rw [Piece.assigned_single] at hyp
    exact absurd (List.mem_singleton.mp hyp).symm (Name.temporary_ne_bit j _ i)
  | group l r => exact ⟨l, r, hp⟩

theorem next_notMem : Name.temporary m ∉ ps.flatMap Piece.assigned := by
  intro hy
  obtain ⟨p, hp, hm, _⟩ := h.exists_makes hy (Name.madeAt_temporary m)
  obtain ⟨j, hj, hmakes⟩ := h.makes_lt hp
  exact absurd (hmakes.unique hm) hj.ne

end Chosen

namespace Lowering

variable {α β : Type}

/-- What is emitted is made of whole pieces for temporaries that are counted, also before a failure. -/
def Emits (x : Lowering α) : Prop :=
  ∀ n, ∃ ps, (x n).emitted = ps.flatMap Piece.definitions ∧ Chosen n ps (x n).next

theorem emits_pure (a : α) : Emits (Pure.pure a) :=
  fun n => ⟨[], rfl, .nil n⟩

theorem emits_fail (err : LoweringError) : Emits (fail err : Lowering α) :=
  fun n => ⟨[], rfl, .nil n⟩

theorem emits_fresh : Emits fresh :=
  fun n => ⟨[], rfl, .skip n⟩

theorem emits_store (e : Expr) : Emits (store e) :=
  fun n => ⟨[.single (.assign (Name.temporary n) e)], rfl, .one (.store e)⟩

theorem Emits.bind {x : Lowering α} {f : α → Lowering β} (hx : Emits x) (hf : ∀ a, Emits (f a)) :
    Emits (x >>= f) := by
  intro n
  obtain ⟨ps, hps, hn⟩ := hx n
  rcases h : x n with ⟨ds, k, a | err⟩ <;> rw [h] at hps hn
  · rw [bind_error h]
    exact ⟨ps, hps, hn⟩
  · obtain ⟨qs, hqs, hm⟩ := hf err k
    rw [bind_ok h]
    refine ⟨ps ++ qs, ?_, hn.append hm⟩
    rw [List.flatMap_append, ← hps, ← hqs]

theorem Emits.map {x : Lowering α} (hx : Emits x) (f : α → β) : Emits (f <$> x) :=
  hx.bind fun a => emits_pure (f a)

theorem value_map_eq_ok {x : Lowering α} {f : α → β} {b : β} (h : ((f <$> x) n).value = .ok b) :
    ∃ a, f a = b := by
  rcases hr : (f <$> x) n with ⟨ds, m, v⟩
  rw [hr] at h
  obtain rfl : v = .ok b := h
  obtain ⟨_, _, a, _, _, hf, _⟩ := bind_eq_ok hr
  cases hf
  exact ⟨a, rfl⟩

theorem emits_operand (e : Expr) : Emits (operand e) := by
  unfold operand
  split
  · exact emits_pure e
  · exact (emits_store e).bind fun x => emits_pure _

theorem emits_multiply (b : Expr) (k : Nat) (product : Expr) : Emits (multiply b k product) := by
  induction k generalizing product with
  | zero => exact emits_pure product
  | succ k ih => exact (emits_store product).bind fun _ => ih _

theorem emits_power (strict : Bool) (b e : Expr) : Emits (power strict b e) := by
  unfold power
  split
  · split
    · exact emits_fail _
    · split
      · exact emits_multiply _ _ _
      · split
        · exact emits_multiply _ _ _
        · exact emits_pure _
      · exact emits_fail _
  · exact emits_fail _

theorem checkRange_apply (l r : Expr) (n : Nat) : ∃ v, checkRange l r n = ⟨[], n, v⟩ := by
  unfold checkRange
  split
  · split <;> exact ⟨_, rfl⟩
  · exact ⟨_, rfl⟩

/-- The range is checked before anything is stored, so a difference never stays without its bits. -/
theorem emits_compare (l r : Expr) : Emits (compare l r) := by
  intro n
  obtain ⟨v | v, hv⟩ := checkRange_apply l r n
  · rw [compare, bind_error hv]
    exact ⟨[], rfl, .nil n⟩
  · rw [compare, bind_ok hv]
    refine ⟨comparisonPieces l r n, (flatMap_comparisonPieces l r n).symm, ?_⟩
    exact ((Chosen.one (.store l)).append (.one (.store r))).append (.one (.group _ _))

theorem emits_less {strict : Bool} {l r : Expr} (hl : Emits (l.lower strict)) (hr : Emits (r.lower strict)) :
    Emits ((Condition.less l r).lower strict) :=
  hl.bind fun l' => hr.bind fun r' => emits_compare l' r'

theorem emits_lower (strict : Bool) (e : Expr) : Emits (e.lower strict) := by
  induction e with
  | lit a => exact emits_pure _
  | var x => exact emits_pure _
  | bin op l r ihl ihr =>
    exact ihl.bind fun _ => ihr.bind fun _ => (emits_operand _).bind fun _ =>
      (emits_operand _).bind fun _ => emits_pure _
  | pow b e _ _ => exact emits_power strict b e
  | less l r x y ihl ihr ihx ihy =>
    exact (emits_less ihl ihr).bind fun _ => ihx.bind fun _ => (emits_operand _).bind fun _ =>
      ihy.bind fun _ => (emits_operand _).bind fun _ => (emits_operand _).bind fun _ =>
        (emits_operand _).bind fun _ => (emits_operand _).bind fun _ => emits_pure _
  | untested x y _ _ => exact fun n => ⟨[], rfl, .nil n⟩
  | hole => exact emits_fail _

theorem emits_condition (strict : Bool) (c : Condition) : Emits (c.lower strict) := by
  cases c with
  | less l r => exact emits_less (emits_lower strict l) (emits_lower strict r)
  | hole => exact emits_fail _

theorem Request.emits (strict : Bool) (r : Request) : Emits (r.lowering strict) := by
  cases r with
  | expr e => exact (emits_lower strict e).map _
  | condition c => exact (emits_condition strict c).map _
  | store e => exact (emits_store e).bind fun _ => emits_pure _
  | fresh => exact emits_fresh.map _

namespace Session

def assigned (s : Session) : List String :=
  s.definitions.flatMap Definition.assigned

def performAll (s : Session) : List Request → List (Except LoweringError Answer) × Session
  | [] => ([], s)
  | r :: rs =>
    let (a, s) := s.perform r
    let (as, s) := s.performAll rs
    (a :: as, s)

variable {s : Session} {answers : List (Except LoweringError Answer)}

structure Grown (answers : List (Except LoweringError Answer)) (s : Session) : Prop where
  pieces : ∃ ps, s.definitions = ps.flatMap Piece.definitions ∧ Chosen 0 ps s.counter
  answered : ∀ x, .ok (.name x) ∈ answers → ∃ j < s.counter, x = Name.temporary j

theorem grown_start (function : String) (strict : Bool) : (start function strict).Grown [] :=
  ⟨⟨[], rfl, .nil 0⟩, fun _ hx => absurd hx List.not_mem_nil⟩

theorem prefix_perform (s : Session) (r : Request) : s.definitions <+: (s.perform r).2.definitions :=
  ⟨_, rfl⟩

theorem counter_le_perform (s : Session) (r : Request) : s.counter ≤ (s.perform r).2.counter := by
  obtain ⟨_, _, h⟩ := r.emits s.strict s.counter
  exact h.le

theorem perform_eq_name {r : Request} {x : String} (h : (s.perform r).1 = .ok (.name x)) :
    x = Name.temporary s.counter ∧ (s.perform r).2.counter = s.counter + 1 := by
  cases r with
  | fresh =>
    cases h
    exact ⟨rfl, rfl⟩
  | expr e => obtain ⟨_, ⟨⟩⟩ := value_map_eq_ok h
  | condition c => obtain ⟨_, ⟨⟩⟩ := value_map_eq_ok h
  | store e => cases h

theorem Grown.perform (h : s.Grown answers) (r : Request) :
    (s.perform r).2.Grown (answers ++ [(s.perform r).1]) where
  pieces := by
    obtain ⟨ps, hps, hn⟩ := h.pieces
    obtain ⟨qs, hqs, hm⟩ := r.emits s.strict s.counter
    refine ⟨ps ++ qs, ?_, hn.append hm⟩
    rw [List.flatMap_append, ← hps, ← hqs]
    rfl
  answered := by
    intro x hx
    rcases List.mem_append.mp hx with hx | hx
    · obtain ⟨j, hj, rfl⟩ := h.answered x hx
      exact ⟨j, hj.trans_le (s.counter_le_perform r), rfl⟩
    · obtain ⟨rfl, hc⟩ := perform_eq_name (List.mem_singleton.mp hx).symm
      exact ⟨s.counter, by omega, rfl⟩

theorem Grown.performAll (h : s.Grown answers) (rs : List Request) :
    (s.performAll rs).2.Grown (answers ++ (s.performAll rs).1) := by
  induction rs generalizing s answers with
  | nil => rwa [performAll, List.append_nil]
  | cons r rs ih =>
    have hr := ih (h.perform r)
    rwa [List.append_assoc] at hr

structure Sound (answers : List (Except LoweringError Answer)) (s : Session) : Prop where
  made : ∀ d ∈ s.definitions, ∃ x e, d = .assign x e ∧
    ∃ j < s.counter, x = Name.temporary j ∨ ∃ i < 8, x = Name.bit (Name.temporary j) (i : Nat)
  temporaries : ∀ j : Nat, s.assigned.count (Name.temporary j) ≤ 1 ∨
    ∃ before l r after, s.definitions = before ++ (Piece.group (Name.temporary j) l r).definitions ++ after ∧
      Name.temporary j ∉ (before ++ after).flatMap Definition.assigned
  bits : ∀ j i : Nat, s.assigned.count (Name.bit (Name.temporary j) i) ≤ 1
  groups : ∀ j i : Nat, Name.bit (Name.temporary j) i ∈ s.assigned →
    ∃ l r, (Piece.group (Name.temporary j) l r).definitions <:+: s.definitions
  fresh : ∃ x, (s.perform .fresh).1 = .ok (.name x) ∧ x ∉ s.assigned ∧ .ok (.name x) ∉ answers

theorem Grown.assigned_eq {ps : List Piece} (h : s.definitions = ps.flatMap Piece.definitions) :
    s.assigned = ps.flatMap Piece.assigned := by
  rw [assigned, h, flatMap_assigned_definitions]

theorem Grown.sound (h : s.Grown answers) : s.Sound answers := by
  obtain ⟨ps, hps, hc⟩ := h.pieces
  have hassigned := Grown.assigned_eq hps
  refine ⟨fun d hd => hc.made (hps ▸ hd), fun j => ?_, fun j i => ?_, fun j i hy => ?_, ?_⟩
  · rw [hassigned, hps]
    refine (hc.temporaries j).imp_right ?_
    rintro ⟨before, l, r, after, rfl, hnot⟩
    refine ⟨before.flatMap Piece.definitions, l, r, after.flatMap Piece.definitions, by simp, ?_⟩
    rwa [← List.flatMap_append, flatMap_assigned_definitions]
  · rw [hassigned]
    exact hc.count_bit_le j i
  · rw [hassigned] at hy
    obtain ⟨l, r, hp⟩ := hc.group_of_bit hy
    rw [hps, List.flatMap_def]
    exact ⟨l, r, List.infix_of_mem_flatten (List.mem_map_of_mem hp)⟩
  · refine ⟨Name.temporary s.counter, rfl, hassigned ▸ hc.next_notMem, fun hx => ?_⟩
    obtain ⟨j, hj, he⟩ := h.answered _ hx
    exact absurd (Name.temporary_inj.mp he).symm hj.ne

/-- After any requests, failing ones included, another one leaves the definitions as a prefix and the counter
no lower, and before and after it the session is sound. -/
theorem sound_performAll (function : String) (strict : Bool) (rs : List Request) (r : Request) :
    let (answers, s) := (start function strict).performAll rs
    let (a, s') := s.perform r
    s.Sound answers ∧ s'.Sound (answers ++ [a]) ∧ s.definitions <+: s'.definitions ∧
      s.counter ≤ s'.counter := by
  have h := (grown_start function strict).performAll rs
  exact ⟨h.sound, (h.perform r).sound, prefix_perform _ r, counter_le_perform _ r⟩

end Session

end Lowering

end FlatCircuit
