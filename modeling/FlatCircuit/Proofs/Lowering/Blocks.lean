import FlatCircuit.Proofs.Contract.Lowered

/-! The arrangement of lowered programs. Every definition becomes a block, which is the definition with its
lowered value behind definitions for temporaries. A block reads no temporaries but its own, and it reads them
after they were assigned. Over the whole program a temporary is assigned once and read once, or it is a
difference, which is assigned twice and read only through its bits. -/

namespace FlatCircuit

open Lowering

namespace Definition

def isMade : Definition → Bool
  | .assign x _ => !decide (Name.IsPlain x)
  | _ => false

def mentions (d : Definition) : List String :=
  d.assigned ++ d.reads

end Definition

structure Block where
  made : List Definition
  last : Definition

namespace Block

def definitions (b : Block) : List Definition :=
  b.made ++ [b.last]

def temporaries (b : Block) : List String :=
  b.made.flatMap Definition.assigned

def reads (b : Block) : List String :=
  b.definitions.flatMap Definition.reads

/-- A name that may be read after some definitions of a block: a plain one, a temporary that they assign,
or a bit of a difference that they assign at the head of its group. -/
def Knows (b : Block) (before : List Definition) (y : String) : Prop :=
  Name.IsPlain y ∨ (∃ j : Nat, y = Name.temporary j ∧ y ∈ before.flatMap Definition.assigned) ∨
    ∃ x l r, y ∈ Bits.names x ∧ .assign x (.bin .sub l r) ∈ before ∧
      (Piece.group x l r).definitions <:+: b.made

structure IsFor (d : Definition) (b : Block) : Prop where
  made : ∀ c ∈ b.made, c.isMade = true
  last : d.Alike b.last
  reads : AtEach (fun before c _ => ∀ y ∈ c.reads, b.Knows before y) b.definitions

def Apart (a b : Block) : Prop :=
  (∀ y ∈ a.temporaries, y ∉ b.reads) ∧ ∀ y ∈ b.temporaries, y ∉ a.reads

end Block

structure IsStored (ds : List Definition) (t : String) : Prop where
  assigned : (ds.flatMap Definition.assigned).count t = 1
  read : (ds.flatMap Definition.reads).count t = 1

structure IsDifference (ds : List Definition) (t : String) : Prop where
  group : ∃ l r, (Piece.group t l r).definitions <:+: ds
  assigned : (ds.flatMap Definition.assigned).count t = 2
  bits : ∀ y ∈ Bits.names t, (ds.flatMap Definition.assigned).count y = 1
  read : (ds.flatMap Definition.reads).count t = 0

/-- The made names of some definitions: temporaries below `m`, and the bits of those that are differences. -/
structure Temporaries (ds : List Definition) (m : Nat) : Prop where
  order : ((ds.flatMap Definition.assigned).filterMap Name.number?).eraseDups = List.range m
  uses : ∀ j < m, IsStored ds (Name.temporary j) ∨ IsDifference ds (Name.temporary j)
  made : ∀ y ∈ ds.flatMap Definition.assigned, Name.IsPlain y ∨ (∃ j < m, y = Name.temporary j) ∨
    ∃ j < m, IsDifference ds (Name.temporary j) ∧ y ∈ Bits.names (Name.temporary j)

section Counts

variable {strict : Bool} {e f a x y : Expr} {n m k j : Nat} {ds ps : List Definition} {t : String}

def share (n m j : Nat) : Nat :=
  if n ≤ j ∧ j < m then 2 else 0

theorem share_self (n j : Nat) : share n n j = 0 :=
  if_neg (by omega)

theorem share_add (hn : n ≤ k) (hk : k ≤ m) (j : Nat) : share n k j + share k m j = share n m j := by
  grind [share]

theorem count_temporary_singleton (n j : Nat) :
    2 * [Name.temporary n].count (Name.temporary j) = share n (n + 1) j := by
  simp only [List.count_singleton, beq_iff_eq, Name.temporary_inj]
  grind [share]

theorem count_mentions (ds : List Definition) (t : String) :
    (ds.flatMap Definition.mentions).count t =
      (ds.flatMap Definition.assigned).count t + (ds.flatMap Definition.reads).count t := by
  induction ds with
  | nil => rfl
  | cons d ds ih =>
    simp only [List.flatMap_cons, List.count_append, Definition.mentions] at ih ⊢
    omega

theorem count_mentions_constraints {x : String} (ht : t ∉ Bits.names x) :
    ((Bits.constraints x).flatMap Definition.mentions).count t = [x].count t := by
  have hreads : t ∉ (Bits.constraints x).flatMap Definition.reads := by
    intro hm
    obtain ⟨d, hd, hm⟩ := List.mem_flatMap.mp hm
    exact ht (Bits.mem_names_of_mem_reads hd hm)
  rw [count_mentions, Piece.assigned_constraints, List.count_append, List.count_eq_zero.mpr ht,
    List.count_eq_zero.mpr hreads, Nat.zero_add, Nat.add_zero]

namespace Lowering

theorem Takes.count_temporary (h : Takes f n ds m a) (j : Nat) :
    (ds.flatMap Definition.mentions ++ a.variables).count (Name.temporary j) =
      f.variables.count (Name.temporary j) + share n m j := by
  cases h with
  | atom _ => simp [share_self]
  | stored _ =>
    have hone := count_temporary_singleton n j
    simp only [List.flatMap_singleton, Definition.mentions, Definition.assigned, Definition.reads,
      Expr.variables, List.count_append]
    omega

theorem count_temporary_comparison (l r : Expr) (n j : Nat) :
    ((comparison l r n).flatMap Definition.mentions).count (Name.temporary j) =
      (l.variables ++ r.variables).count (Name.temporary j) + share n (n + 3) j := by
  have hgroup := count_mentions_constraints (Bits.temporary_notMem_names (Name.temporary (n + 2 : Nat)) j)
  have h₀ := count_temporary_singleton n j
  have h₁ : 2 * [Name.temporary (n + 1 : Nat)].count (Name.temporary j) = share (n + 1) (n + 2) j :=
    count_temporary_singleton (n + 1) j
  have h₂ : 2 * [Name.temporary (n + 2 : Nat)].count (Name.temporary j) = share (n + 2) (n + 3) j :=
    count_temporary_singleton (n + 2) j
  have hadd : share n (n + 1) j + share (n + 1) (n + 2) j + share (n + 2) (n + 3) j = share n (n + 3) j := by
    rw [share_add (by omega) (by omega), share_add (by omega) (by omega)]
  simp only [comparison, List.flatMap_cons, Definition.mentions, Definition.assigned, Definition.reads,
    Expr.variables, List.count_append, List.append_assoc] at hgroup ⊢
  omega

theorem Lowers.count_temporary (h : Lowers strict e n ds m f)
    (he : ∀ i : Nat, Name.temporary i ∉ e.variables) (j : Nat) :
    (ds.flatMap Definition.mentions ++ f.variables).count (Name.temporary j) = share n m j := by
  induction h with
  | atom _ =>
    rw [share_self]
    exact List.count_eq_zero.mpr (he j)
  | @operation op l r l' r' a b n n₁ n₂ n₃ n₄ _ _ _ _ hl hr ha hb ihl ihr =>
    simp only [Expr.variables, List.mem_append, not_or] at he
    have hl' := ihl fun i => (he i).1
    have hr' := ihr fun i => (he i).2
    have ha' := ha.count_temporary j
    have hb' := hb.count_temporary j
    have h₁ := share_add hl.le hr.le j
    have h₂ := share_add (hl.le.trans hr.le) ha.le j
    have h₃ := share_add ((hl.le.trans hr.le).trans ha.le) hb.le j
    simp only [Expr.variables, List.flatMap_append, List.count_append] at hl' hr' ha' hb' ⊢
    omega
  | literalPower _ _ => simp [Expr.variables, share_self]
  | square _ =>
    simp only [Expr.variables, List.append_nil] at he
    rw [share_self]
    refine List.count_eq_zero.mpr ?_
    simpa [Expr.variables] using he j
  | @power b f k n m ds _ _ h ih =>
    have hp := ih he
    have hb : b.variables.count (Name.temporary j) = 0 := by
      simp only [Expr.variables, List.append_nil] at he
      exact List.count_eq_zero.mpr (he j)
    have hone := count_temporary_singleton m j
    have hadd := share_add h.le (Nat.le_add_right m 1) j
    simp only [Expr.variables, List.flatMap_append, List.flatMap_singleton, Definition.mentions,
      Definition.assigned, Definition.reads, List.count_append] at hp ⊢
    omega
  | @choice l r l' r' x y f n n₁ n₂ m _ _ _ hl hr hs ihl ihr ih =>
    simp only [Expr.variables, Condition.variables, List.mem_append, not_or] at he
    have hl' := ihl fun i => (he i).1.1.1
    have hr' := ihr fun i => (he i).1.1.2
    have hs' := ih fun i => temporary_notMem_select (he i).1.2 (he i).2
    have hc := count_temporary_comparison l' r' n₂ j
    have h₁ := share_add hl.le hr.le j
    have h₂ := share_add (hl.le.trans hr.le) (Nat.le_add_right n₂ 3) j
    have h₃ := share_add ((hl.le.trans hr.le).trans (Nat.le_add_right n₂ 3)) hs.le j
    simp only [List.flatMap_append, List.count_append] at hl' hr' hs' hc ⊢
    omega

theorem Becomes.count_temporary {d c : Definition} (h : Becomes strict d n ds m c) (hd : d.IsPlain)
    (j : Nat) : (ds.flatMap Definition.mentions ++ c.mentions).count (Name.temporary j) = share n m j := by
  have hassigned : c.assigned.count (Name.temporary j) = 0 := by
    refine List.count_eq_zero.mpr fun hm => Name.not_isPlain_temporary j ?_
    exact h.alike.isPlain_of_assigned hd _ hm
  have hfree : ∀ {e : Expr}, e.IsPlain → ∀ i : Nat, Name.temporary i ∉ e.variables :=
    fun he i hm => Name.not_isPlain_temporary i (he.2 _ hm)
  have hreads : (ds.flatMap Definition.mentions ++ c.reads).count (Name.temporary j) = share n m j := by
    cases h with
    | assign _ he => exact he.count_temporary (hfree hd.2) j
    | ret he => exact he.count_temporary (hfree hd) j
  simp only [Definition.mentions, List.count_append] at hreads ⊢
  omega

theorem Becomes.le {d c : Definition} (h : Becomes strict d n ds m c) : n ≤ m := by
  obtain ⟨_, _, _, hn⟩ := h.emits
  exact hn.le

theorem LowersAll.count_temporary {xs : List Definition} (h : LowersAll strict xs n ds m)
    (hp : ∀ d ∈ xs, d.IsPlain) (j : Nat) :
    (ds.flatMap Definition.mentions).count (Name.temporary j) = share n m j := by
  refine h.plainInduction (fun n => (share_self n j).symm) ?_ hp
  intro d c xs es fs n k m hd hds hbecomes hrest hlater
  obtain ⟨_, _, _, hn⟩ := hrest.mirrors hds
  have hblock := hbecomes.count_temporary hd j
  have hadd := share_add hbecomes.le hn.le j
  simp only [List.flatMap_append, List.flatMap_cons, List.count_append] at hblock ⊢
  omega

end Lowering

end Counts

section Uses

variable {ps : List Piece} {p : Piece} {m j : Nat} {y : String} {l r : Expr}

theorem Piece.infix_flatMap (hp : p ∈ ps) : p.definitions <:+: ps.flatMap Piece.definitions := by
  rw [List.flatMap_def]
  exact List.infix_of_mem_flatten (List.mem_map_of_mem hp)

variable (hn : Numbered 0 ps m)
  (htwice : ((ps.flatMap Piece.definitions).flatMap Definition.mentions).count (Name.temporary j) = 2)

include hn htwice

theorem Numbered.isStored {e : Expr} (hp : .single (.assign (Name.temporary j) e) ∈ ps) :
    IsStored (ps.flatMap Piece.definitions) (Name.temporary j) := by
  have hassigned : (ps.flatMap Piece.assigned).count (Name.temporary j) = 1 := by
    rw [hn.count_assigned hp (.store e) (Name.madeAt_temporary j), Piece.assigned_single]
    exact List.count_singleton_self
  rw [count_mentions, flatMap_assigned_definitions, hassigned] at htwice
  exact ⟨flatMap_assigned_definitions ps ▸ hassigned, by omega⟩

theorem Numbered.isDifference (hp : .group (Name.temporary j) l r ∈ ps) :
    IsDifference (ps.flatMap Piece.definitions) (Name.temporary j) := by
  have hassigned : (ps.flatMap Piece.assigned).count (Name.temporary j) = 2 := by
    rw [hn.count_assigned hp (.group l r) (Name.madeAt_temporary j), Piece.assigned_group]
    simp [List.count_eq_zero.mpr (Bits.temporary_notMem_names _ j)]
  rw [count_mentions, flatMap_assigned_definitions, hassigned] at htwice
  refine ⟨⟨l, r, Piece.infix_flatMap hp⟩, flatMap_assigned_definitions ps ▸ hassigned, fun y hy => ?_,
    by omega⟩
  obtain ⟨i, hi, rfl⟩ := (Bits.mem_names _).mp hy
  have hne : (Name.temporary j == Name.bit (Name.temporary j) i) = false := by
    simpa using Name.temporary_ne_bit j _ i
  rw [flatMap_assigned_definitions, hn.count_assigned hp (.group l r) (Name.madeAt_bit j i),
    Piece.assigned_group, List.count_cons, List.count_append, List.count_singleton, hne]
  exact List.count_eq_one_of_mem (Bits.nodup_names _) hy

end Uses

theorem Numbered.temporaries {ps : List Piece} {m : Nat} (hn : Numbered 0 ps m)
    (htwice : ∀ j < m,
      ((ps.flatMap Piece.definitions).flatMap Definition.mentions).count (Name.temporary j) = 2) :
    Temporaries (ps.flatMap Piece.definitions) m where
  order := by
    rw [flatMap_assigned_definitions, hn.order, Nat.sub_zero, List.range_eq_range']
  uses := by
    intro j hj
    obtain ⟨p, hp, hmakes⟩ := hn.exists_makes (Nat.zero_le j) hj
    cases hmakes with
    | store e => exact .inl (hn.isStored (htwice j hj) hp)
    | group l r => exact .inr (hn.isDifference (htwice j hj) hp)
  made := by
    intro y hy
    rw [flatMap_assigned_definitions] at hy
    obtain ⟨p, hp, hy⟩ := List.mem_flatMap.mp hy
    rcases hn.makes_of_mem hp with hplain | ⟨j, -, hj, hmakes⟩
    · exact .inl (hplain y hy)
    · cases hmakes with
      | store e =>
        rw [Piece.assigned_single] at hy
        exact .inr (.inl ⟨j, hj, List.mem_singleton.mp hy⟩)
      | group l r =>
        rw [Piece.assigned_group, List.mem_cons, List.mem_append, List.mem_singleton] at hy
        rcases hy with hy | hy | hy
        · exact .inr (.inl ⟨j, hj, hy⟩)
        · exact .inr (.inr ⟨j, hj, hn.isDifference (htwice j hj) hp, hy⟩)
        · exact .inr (.inl ⟨j, hj, hy⟩)

section Knowing

variable {b c : Block} {d : Definition} {before before' : List Definition} {ps qs : List Piece} {p : Piece}
  {xs : List String} {n m k n' m' : Nat} {y : String}

theorem Computes.isMade {ys : List String} {c : Definition} (h : Computes ps xs ys)
    (hc : c ∈ ps.flatMap Piece.definitions) : c.isMade = true := by
  have hassigns := h.isAssignment c hc
  obtain ⟨p, hp, hc⟩ := List.mem_flatMap.mp hc
  cases c with
  | assign x e =>
    have hx : x ∈ p.names := by
      refine List.mem_append_left _ (List.mem_flatMap.mpr ⟨_, hc, List.mem_singleton.mpr rfl⟩)
    simpa [Definition.isMade] using (h.made p hp).not_isPlain x hx
  | ret e => cases hassigns
  | hole => cases hassigns

namespace Block

theorem Knows.mono (h : b.Knows before y) (hsub : ∀ d ∈ before, d ∈ before') : b.Knows before' y := by
  rcases h with h | ⟨j, hj, hm⟩ | ⟨x, l, r, hy, hm, hg⟩
  · exact .inl h
  · obtain ⟨d, hd, hm⟩ := List.mem_flatMap.mp hm
    exact .inr (.inl ⟨j, hj, List.mem_flatMap.mpr ⟨d, hsub d hd, hm⟩⟩)
  · exact .inr (.inr ⟨x, l, r, hy, hsub _ hm, hg⟩)

theorem knows_of_mem_names (hmade : p.IsMade) (hp : p ∈ ps) (hb : b.made = ps.flatMap Piece.definitions)
    (hy : y ∈ p.names) : b.Knows p.definitions y := by
  cases hmade with
  | single n e =>
    rw [Piece.names_single] at hy
    exact .inr (.inl ⟨n, List.mem_singleton.mp hy, by simpa [Piece.definitions] using hy⟩)
  | group n l r =>
    rcases Piece.mem_names_group.mp hy with rfl | hy
    · exact .inr (.inl ⟨n, rfl, by simp [Piece.definitions, Definition.assigned]⟩)
    · exact .inr (.inr ⟨_, l, r, hy, List.mem_cons_self, hb ▸ Piece.infix_flatMap hp⟩)

theorem knows_of_known (hc : ∀ p ∈ ps, p.IsMade) (hx : ∀ y ∈ xs, Name.IsPlain y)
    (hb : b.made = ps.flatMap Piece.definitions) (hqs : ∀ q ∈ qs, q ∈ ps)
    (hy : y ∈ xs ∨ y ∈ qs.flatMap Piece.names) : b.Knows (qs.flatMap Piece.definitions) y := by
  rcases hy with hy | hy
  · exact .inl (hx y hy)
  · obtain ⟨q, hq, hy⟩ := List.mem_flatMap.mp hy
    have hk := knows_of_mem_names (hc q (hqs q hq)) (hqs q hq) hb hy
    exact hk.mono fun d hd => List.mem_flatMap.mpr ⟨q, hq, hd⟩

theorem knows_piece (hmade : p.IsMade) (hp : p ∈ ps) (hb : b.made = ps.flatMap Piece.definitions)
    (h : ∀ y ∈ p.reads, b.Knows before y) :
    AtEach (fun inner c _ => ∀ y ∈ c.reads, b.Knows (before ++ inner) y) p.definitions := by
  cases hmade with
  | single n e =>
    refine AtEach.cons_iff.mpr ⟨fun y hy => ?_, AtEach.nil⟩
    exact (List.append_nil before).symm ▸ h y hy
  | group n l r =>
    refine AtEach.cons_iff.mpr ⟨fun y hy => ?_, fun inner c after he y hy => ?_⟩
    · exact (List.append_nil before).symm ▸ h y hy
    · -- behind its head a group reads nothing but its own bits
      have hmem : c ∈ Bits.constraints (Name.temporary n) := by simp [he]
      exact .inr (.inr ⟨_, l, r, Bits.mem_names_of_mem_reads hmem hy, by simp, hb ▸ Piece.infix_flatMap hp⟩)

theorem isFor_of_computes (hc : Computes ps d.reads b.last.reads) (hd : d.IsPlain)
    (hb : b.made = ps.flatMap Piece.definitions) (hl : d.Alike b.last) : b.IsFor d where
  made := fun c hm => hc.isMade (hb ▸ hm)
  last := hl
  reads := by
    refine AtEach.append_iff.mpr ⟨?_, AtEach.cons_iff.mpr ⟨fun y hy => ?_, AtEach.nil⟩⟩
    · rw [hb]
      refine AtEach.flatMap fun before p after he => ?_
      have hp : p ∈ ps := by simp [he]
      have hqs : ∀ q ∈ before, q ∈ ps := fun q hq => by simp [he, hq]
      exact knows_piece (hc.made p hp) hp hb fun y hy =>
        knows_of_known hc.made hd.reads hb hqs (hc.reads before p after he y hy)
    · rw [List.append_nil, hb]
      exact knows_of_known hc.made hd.reads hb (fun _ hq => hq) (hc.known y hy)

structure Within (n m : Nat) (b : Block) : Prop where
  made : ∀ y ∈ b.temporaries, Name.MadeBelow m y ∧ ¬ Name.MadeBelow n y
  read : ∀ y ∈ b.reads, Name.IsPlain y ∨ Name.MadeBelow m y ∧ ¬ Name.MadeBelow n y

theorem Within.mono (h : b.Within n m) (hn : n' ≤ n) (hm : m ≤ m') : b.Within n' m' where
  made := fun y hy => ⟨(h.made y hy).1.mono hm, fun hb => (h.made y hy).2 (hb.mono hn)⟩
  read := fun y hy => (h.read y hy).imp_right fun h => ⟨h.1.mono hm, fun hb => h.2 (hb.mono hn)⟩

theorem Within.apart (hb : b.Within n k) (hc : c.Within k m) : b.Apart c := by
  constructor
  · intro y hy hr
    have hbelow := (hb.made y hy).1
    exact (hc.read y hr).elim hbelow.not_isPlain fun h => h.2 hbelow
  · intro y hy hr
    obtain ⟨hbelow, hnot⟩ := hc.made y hy
    exact (hb.read y hr).elim hbelow.not_isPlain fun h => hnot h.1

theorem IsFor.isPlain_or_assigned (h : b.IsFor d) (hy : y ∈ b.reads) :
    Name.IsPlain y ∨ y ∈ b.definitions.flatMap Definition.assigned := by
  obtain ⟨c, hc, hy⟩ := List.mem_flatMap.mp hy
  obtain ⟨before, after, he⟩ := List.append_of_mem hc
  rcases h.reads before c after he y hy with hp | ⟨j, -, hm⟩ | ⟨x, l, r, hm, -, hg⟩
  · exact .inl hp
  · rw [he, List.flatMap_append]
    exact .inr (List.mem_append_left _ hm)
  · have hgroup : y ∈ (Piece.group x l r).assigned := by
      rw [Piece.assigned_group]
      exact List.mem_cons_of_mem _ (List.mem_append_left _ hm)
    obtain ⟨c, hc, hm⟩ := List.mem_flatMap.mp hgroup
    exact .inr (List.mem_flatMap.mpr ⟨c, List.mem_append_left _ (hg.subset hc), hm⟩)

theorem IsFor.within (h : b.IsFor d) (hn : Numbered n ps m) (hb : b.made = ps.flatMap Piece.definitions)
    (hl : ∀ x ∈ b.last.assigned, Name.IsPlain x) : b.Within n m := by
  have hmade : ∀ y ∈ b.temporaries, Name.IsPlain y ∨ Name.MadeBelow m y ∧ ¬ Name.MadeBelow n y := by
    intro y hy
    rw [temporaries, hb, flatMap_assigned_definitions] at hy
    exact hn.isPlain_or_made hy
  constructor
  · intro y hy
    refine (hmade y hy).resolve_left fun hp => ?_
    obtain ⟨c, hc, hy⟩ := List.mem_flatMap.mp hy
    have hnot := h.made c hc
    cases c with
    | assign x e =>
      obtain rfl := List.mem_singleton.mp hy
      simp [Definition.isMade, hp] at hnot
    | ret e => cases hnot
    | hole => cases hnot
  · intro y hy
    rcases h.isPlain_or_assigned hy with hp | hm
    · exact .inl hp
    · rw [definitions, List.flatMap_append, List.mem_append, List.flatMap_singleton] at hm
      exact hm.elim (hmade y) fun hm => .inl (hl y hm)

end Block

end Knowing

section Arrangement

variable {strict : Bool} {xs ds : List Definition} {bs : List Block} {d c : Definition} {b : Block}
  {n m : Nat}

theorem Definition.Alike.isMade_eq_false (h : d.Alike c) (hd : d.IsPlain) : c.isMade = false := by
  cases h with
  | assign x e f => simp [isMade, hd.1]
  | ret e f => rfl

theorem Block.IsFor.filter (h : b.IsFor d) (hd : d.IsPlain) :
    b.definitions.filter (!·.isMade) = [b.last] := by
  have hmade : b.made.filter (!·.isMade) = [] := by
    refine List.filter_eq_nil_iff.mpr fun c hc => ?_
    simp [h.made c hc]
  have hlast : [b.last].filter (!·.isMade) = [b.last] := by
    simp [h.last.isMade_eq_false hd]
  rw [definitions, List.filter_append, hmade, hlast, List.nil_append]

theorem alike_filter_of_isFor (h : List.Forall₂ Block.IsFor xs bs) (hp : ∀ d ∈ xs, d.IsPlain) :
    List.Forall₂ Definition.Alike xs ((bs.flatMap Block.definitions).filter (!·.isMade)) := by
  induction h with
  | nil => exact .nil
  | cons hb _ ih =>
    obtain ⟨hd, hds⟩ := List.forall_mem_cons.mp hp
    rw [List.flatMap_cons, List.filter_append, hb.filter hd]
    exact .cons hb.last (ih hds)

structure Arranged (xs : List Definition) (n : Nat) (bs : List Block) (m : Nat) : Prop where
  isFor : List.Forall₂ Block.IsFor xs bs
  apart : bs.Pairwise Block.Apart
  within : ∀ b ∈ bs, b.Within n m

theorem Arranged.cons {k : Nat} {ps : List Piece} (hc : Computes ps d.reads c.reads)
    (hn : Numbered n ps k) (hd : d.IsPlain) (hl : d.Alike c) (hbs : Arranged xs k bs m) (hm : k ≤ m) :
    Arranged (d :: xs) n (⟨ps.flatMap Piece.definitions, c⟩ :: bs) m := by
  have hfor := Block.isFor_of_computes (b := ⟨ps.flatMap Piece.definitions, c⟩) hc hd rfl hl
  have hwithin := hfor.within hn rfl (hl.isPlain_of_assigned hd)
  refine ⟨.cons hfor hbs.isFor, List.pairwise_cons.mpr ⟨fun b hb => ?_, hbs.apart⟩, ?_⟩
  · exact hwithin.apart (hbs.within b hb)
  · refine List.forall_mem_cons.mpr ⟨hwithin.mono (Nat.le_refl n) hm, fun b hb => ?_⟩
    exact (hbs.within b hb).mono hn.le (Nat.le_refl m)

theorem Lowering.LowersAll.arranged (h : LowersAll strict xs n ds m) (hp : ∀ d ∈ xs, d.IsPlain) :
    ∃ bs, ds = bs.flatMap Block.definitions ∧ Arranged xs n bs m := by
  refine h.plainInduction (fun n => ⟨[], rfl, .nil, .nil, fun _ hb => absurd hb List.not_mem_nil⟩) ?_ hp
  rintro d c xs es fs n k m hd hds hbecomes hrest ⟨bs, rfl, hbs⟩
  obtain ⟨ps, rfl, hc, hn⟩ := hbecomes.emits
  obtain ⟨_, _, _, hle⟩ := hrest.mirrors hds
  refine ⟨⟨ps.flatMap Piece.definitions, c⟩ :: bs, by simp [Block.definitions], ?_⟩
  exact .cons hc hn hd hbecomes.alike hbs hle.le

end Arrangement

namespace Program

/-- The flat form of a plain program consists of one block for each definition, and its temporaries are
numbered through the blocks. -/
theorem blocks_of_lower (strict : Bool) (p q : Program) (hp : p.IsPlain) (h : p.lower strict = .ok q) :
    q.name = p.name ∧ q.parameters = p.parameters ∧
    List.Forall₂ Definition.Alike p.definitions (q.definitions.filter (!·.isMade)) ∧
    (∃ bs, q.definitions = bs.flatMap Block.definitions ∧ List.Forall₂ Block.IsFor p.definitions bs ∧
      bs.Pairwise Block.Apart) ∧
    ∃ m, Temporaries q.definitions m := by
  obtain ⟨ds, m, hl, rfl⟩ := lowersAll_of_lower h
  obtain ⟨bs, hbs, ha⟩ := hl.arranged hp.definitions
  obtain ⟨ps, hps, -, hn⟩ := hl.mirrors hp.definitions
  refine ⟨rfl, rfl, hbs ▸ alike_filter_of_isFor ha.isFor hp.definitions, ⟨bs, hbs, ha.isFor, ha.apart⟩, m, ?_⟩
  have htwice := hl.count_temporary hp.definitions
  rw [hps] at htwice ⊢
  refine hn.temporaries fun j hj => ?_
  rw [htwice j]
  exact if_pos ⟨Nat.zero_le j, hj⟩

theorem blocks_of_lower_clamp :
    let p : Program := ⟨"f", ["x"], [
      .assign "y" (.ite (.less (.var "x") (.lit 3)) (.var "x") (.lit 7)),
      .ret (.pow (.var "y") (.lit 3))]⟩
    p.IsPlain ∧ ∃ q, p.lower false = .ok q ∧ (∃ bs, q.definitions = bs.flatMap Block.definitions ∧
      List.Forall₂ Block.IsFor p.definitions bs ∧ bs.Pairwise Block.Apart) ∧
      ∃ m, Temporaries q.definitions m := by
  intro p
  have hp : p.IsPlain := ⟨by decide, by decide⟩
  have hok : (p.lower false).isOk = true := by decide +kernel
  cases h : p.lower false with
  | error => simp [h, Except.isOk, Except.toBool] at hok
  | ok q =>
    obtain ⟨-, -, -, hblocks, htemporaries⟩ := blocks_of_lower false p q hp h
    exact ⟨hp, q, rfl, hblocks, htemporaries⟩

end Program

end FlatCircuit
