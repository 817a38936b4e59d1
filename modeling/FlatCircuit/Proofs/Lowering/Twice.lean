import FlatCircuit.Proofs.Contract.Equations
import FlatCircuit.Proofs.Lowering.Liveness

/-! Lowering a lowered program once more. Flat definitions stay as they are, and each weighted sum is taken
apart into temporaries that are numbered from zero again. They overwrite temporaries of the first lowering,
but only where none of them is live, so both programs have the same outcomes. -/

namespace FlatCircuit

open Lowering Evaluation

namespace Lowering

variable {strict : Bool} {e f : Expr} {x : String} {n m k : Nat} {ds es ds' es' : List Definition}

def LowersTo (strict : Bool) (ds : List Definition) (n : Nat) (es : List Definition) (m : Nat) : Prop :=
  ds.forM (Definition.lower strict) n = ⟨es, m, .ok ()⟩

theorem LowersTo.nil (n : Nat) : LowersTo strict [] n [] n := rfl

theorem LowersTo.append (h : LowersTo strict ds n es k) (h' : LowersTo strict ds' k es' m) :
    LowersTo strict (ds ++ ds') n (es ++ es') m := by
  induction ds generalizing n es with
  | nil =>
    cases h
    exact h'
  | cons d ds ih =>
    obtain ⟨fs, i, ⟨⟩, gs, hd, hds, rfl⟩ := bind_eq_ok h
    have hrest := ih hds
    have hb := bind_ok hd fun _ => (ds ++ ds').forM (Definition.lower strict)
    rw [hrest, ← List.append_assoc] at hb
    exact hb

theorem lowersTo_singleton {d : Definition} (h : d.lower strict n = ⟨es, m, .ok ()⟩) :
    LowersTo strict [d] n es m := by
  have hb : LowersTo strict [d] n (es ++ []) m := bind_ok h fun _ => List.forM [] (Definition.lower strict)
  rwa [List.append_nil] at hb

theorem lowersTo_assign (h : e.lower strict n = ⟨es, m, .ok f⟩) :
    LowersTo strict [.assign x e] n (es ++ [.assign x f]) m :=
  lowersTo_singleton (bind_ok h fun f => emit [.assign x f])

theorem lowersTo_ret (h : e.lower strict n = ⟨es, m, .ok f⟩) :
    LowersTo strict [.ret e] n (es ++ [.ret f]) m :=
  lowersTo_singleton (bind_ok h fun f => emit [.ret f])

theorem lowersTo_of_isFlat (hf : ∀ d ∈ ds, d.isFlat = true) (n : Nat) : LowersTo strict ds n ds n := by
  induction ds with
  | nil => exact .nil n
  | cons d ds ih =>
    obtain ⟨hd, hds⟩ := List.forall_mem_cons.mp hf
    have hone : LowersTo strict [d] n [d] n := by
      cases d with
      | assign x e => exact lowersTo_assign (lower_of_isFlat hd n)
      | ret e => exact lowersTo_ret (lower_of_isFlat hd n)
      | hole => cases hd
    exact hone.append (ih hds)

end Lowering

namespace Memory

structure Resembles (k m : Memory) : Prop where
  value : ∀ y : String, (∀ j : Nat, y ≠ Name.temporary j) → k[y]? = m[y]?
  witness : ∀ y : String, y ∈ k.witness ↔ y ∈ m.witness

variable {i k m : Memory} {x : String} {v : Int}

theorem Resembles.refl (m : Memory) : m.Resembles m :=
  ⟨fun _ _ => rfl, fun _ => Iff.rfl⟩

theorem Resembles.symm (h : k.Resembles m) : m.Resembles k :=
  ⟨fun y hy => (h.value y hy).symm, fun y => (h.witness y).symm⟩

theorem Resembles.trans (h : i.Resembles k) (hk : k.Resembles m) : i.Resembles m :=
  ⟨fun y hy => (h.value y hy).trans (hk.value y hy), fun y => (h.witness y).trans (hk.witness y)⟩

theorem resembles_assign (m : Memory) (j : Nat) (v : Int) :
    (m.assign (Name.temporary j) v).Resembles m := by
  refine ⟨fun y hy => ?_, fun _ => Iff.rfl⟩
  rw [getElem?_assign, if_neg (hy j).symm]

theorem Resembles.assign (h : k.Resembles m) (x : String) (v : Int) :
    (k.assign x v).Resembles (m.assign x v) := by
  refine ⟨fun y hy => ?_, h.witness⟩
  rw [getElem?_assign, getElem?_assign, h.value y hy]

theorem Resembles.supply (h : k.Resembles m) (x : String) (v : Int) :
    (k.supply x v).Resembles (m.supply x v) := by
  refine ⟨fun y hy => ?_, fun y => ?_⟩
  · by_cases hn : y ∈ Bits.names x
    · obtain ⟨i, hi, rfl⟩ := (Bits.mem_names x).mp hn
      rw [getElem?_supply_bit hi, getElem?_supply_bit hi]
    · rw [getElem?_supply_of_notMem hn, getElem?_supply_of_notMem hn, h.value y hy]
  · rw [mem_witness_supply, mem_witness_supply, h.witness]

end Memory

def Bits.summand (x : String) (i : Nat) : Expr :=
  .bin .mul (.var (Name.bit x i)) (.lit (weight i))

section Sums

variable {strict : Bool} {x : String} {i n m j : Nat} {ds es : List Definition} {e f a : Expr} {k : Memory}
  {v w : Int}

theorem value?_assign_temporary (hv : f.value? .plain k = some v) (hn : Name.temporary n ∉ f.variables) :
    f.value? .plain (k.assign (Name.temporary n) w) = some v := by
  rw [← hv]
  refine Expr.value?_congr fun y hy => ?_
  have hne : Name.temporary n ≠ y := fun h => hn (h ▸ hy)
  rw [Memory.getElem?_assign, if_neg hne]

theorem runs_summand (he : e.isFlat = true) (hev : e.value? .plain k = some w) (hf : f.isFlat = true)
    (hfv : f.value? .plain k = some v) (hn : Name.temporary n ∉ f.variables)
    (hw : ∀ j : Nat, Name.temporary j ∉ k.witness) (ht : Takes f (n + 1) es m a) :
    ∃ k', Runs (.assign (Name.temporary n) e :: es) k k' ∧ k'.Resembles k ∧
      (Expr.bin .add (.var (Name.temporary n)) a).value? .plain k' = some (w + v) := by
  have hproduct : Runs [.assign (Name.temporary n) e] k (k.assign (Name.temporary n) w) :=
    runs_assign he hev (hw n)
  have hfv' := value?_assign_temporary (w := w) hfv hn
  have hbound : (k.assign (Name.temporary n) w)[Name.temporary n]? = some w := by
    rw [Memory.getElem?_assign, if_pos rfl]
  cases ht with
  | atom _ =>
    refine ⟨_, hproduct, Memory.resembles_assign k n w, ?_⟩
    simp only [Expr.value?, hbound, hfv', Option.bind_eq_bind, Option.bind_some]
    rfl
  | stored _ =>
    have hsum := runs_assign hf hfv' (hw (n + 1))
    have hne : Name.temporary (n + 1 : Nat) ≠ Name.temporary n := by
      rw [Ne, Name.temporary_inj]
      omega
    have hres := (Memory.resembles_assign _ (n + 1) v).trans (Memory.resembles_assign k n w)
    refine ⟨_, hproduct.append hsum, hres, ?_⟩
    simp only [Expr.value?, Memory.getElem?_assign, if_neg hne, if_pos, Option.bind_eq_bind, Option.bind_some]
    rfl

structure Sums (x : String) (i : Nat) (ds : List Definition) (n : Nat) (f : Expr) : Prop where
  isFlat : f.isFlat = true
  below : ∀ j : Nat, Name.temporary j ∈ f.variables → j < n
  runs : ∀ (k : Memory) (v : Int), (∀ i < Bits.width, k[Name.bit x (i : Nat)]? = some (Bits.bitOf v i)) →
    (∀ j : Nat, Name.temporary j ∉ k.witness) → ∃ k', Runs ds k k' ∧ k'.Resembles k ∧
      f.value? .plain k' = some (v % Bits.modulus % Bits.weight (i + 1))

theorem Sums.succ (h : Sums x i ds n f) (hi : i + 1 < Bits.width) (ht : Takes f (n + 1) es m a) :
    Sums x (i + 1) (ds ++ .assign (Name.temporary n) (Bits.summand x (i + 1)) :: es) m
      (.bin .add (.var (Name.temporary n)) a) where
  isFlat := ht.isAtom
  below := by
    intro j hj
    simp only [Expr.variables, List.singleton_append, List.mem_cons, Name.temporary_inj] at hj
    have hle := ht.le
    rcases hj with rfl | hj
    · omega
    · cases ht with
      | atom _ =>
        have := h.below j hj
        omega
      | stored _ =>
        have := Name.temporary_inj.mp (List.mem_singleton.mp hj)
        omega
  runs := by
    intro k v hbits hw
    obtain ⟨k₁, hk₁, hres, hf⟩ := h.runs k v hbits hw
    have hbit : k₁[Name.bit x (i + 1 : Nat)]? = some (Bits.bitOf v (i + 1)) := by
      rw [hres.value _ fun j => (Name.temporary_ne_bit j x _).symm, hbits _ hi]
    have hproduct : (Bits.summand x (i + 1)).value? .plain k₁ =
        some (Bits.bitOf v (i + 1) * Bits.weight (i + 1)) := by
      simp only [Bits.summand, Expr.value?, hbit, Option.bind_eq_bind, Option.bind_some]
      rfl
    have hn : Name.temporary n ∉ f.variables := fun hm => Nat.lt_irrefl n (h.below n hm)
    obtain ⟨k₂, hk₂, hres₂, hsum⟩ := runs_summand (by rfl) hproduct h.isFlat hf hn
      (fun j hj => hw j ((hres.witness _).mp hj)) ht
    refine ⟨k₂, hk₁.append hk₂, hres₂.trans hres, ?_⟩
    rw [hsum, Bits.bitOf, Bits.emod_weight_succ]

end Sums

/-- Memories before some pieces, which differ in temporaries that are not live there. -/
structure Tracks (ps : List Piece) (m k : Memory) : Prop where
  resembles : k.Resembles m
  live : ∀ j : Nat, ReadLate Piece.reads Piece.names [] ps (Name.temporary j) →
    k[Name.temporary j]? = m[Name.temporary j]?

section Tracks

variable {p : Piece} {ps : List Piece} {m k : Memory} {x y : String} {e f : Expr} {n : Nat} {v : Int}
  {ds es : List Definition}

theorem Tracks.reads (h : Tracks (p :: ps) m k) : ∀ y ∈ p.reads, k[y]? = m[y]? := by
  intro y hy
  by_cases hj : ∃ j : Nat, y = Name.temporary j
  · obtain ⟨j, rfl⟩ := hj
    exact h.live j (readLate_cons_iff.mpr (.inl ⟨hy, List.not_mem_nil⟩))
  · exact h.resembles.value y (not_exists.mp hj)

theorem Tracks.assign (h : Tracks (.single (.assign x e) :: ps) m k) (v : Int) :
    Tracks ps (m.assign x v) (k.assign x v) where
  resembles := h.resembles.assign x v
  live := by
    intro j hj
    rw [Memory.getElem?_assign, Memory.getElem?_assign]
    split
    · rfl
    · next hne =>
      have hnew : Name.temporary j ∉ (Piece.single (.assign x e)).names := by
        rw [Piece.names_single, Definition.assigned, List.mem_singleton]
        exact Ne.symm hne
      exact h.live j (hj.cons hnew)

theorem Supported.assign (h : Supported m (.single (.assign x e) :: ps)) (v : Int) :
    Supported (m.assign x v) ps := by
  refine h.next fun y hy => Memory.binds_assign_iff.mpr ?_
  rwa [Piece.names_single, Definition.assigned, List.mem_singleton] at hy

theorem Tracks.settles (h : Tracks (p :: ps) m k) (hm : Supported m (p :: ps)) :
    ∀ y ∈ p.reads, k.Settles y := by
  intro y hy
  exact (hm.settles y hy).imp_right fun ⟨v, hv⟩ => ⟨v, (h.reads y hy).trans hv⟩

theorem Tracks.value?_eq (h : Tracks (p :: ps) m k) (hr : p.reads = e.variables) :
    e.value? .plain k = e.value? .plain m :=
  Expr.value?_congr fun y hy => h.reads y (hr ▸ hy)

theorem Memory.Resembles.plain (h : k.Resembles m) (hy : Name.IsPlain y) : k[y]? = m[y]? :=
  h.value y fun j hj => Name.not_isPlain_temporary j (hj ▸ hy)

theorem Supported.decompose {l r : Expr} (h : Supported m (.group x l r :: ps)) (v : Int) :
    Supported (m.decompose x v) ps := by
  refine h.next fun y hy => Memory.binds_decompose_iff.mpr ?_
  rwa [Piece.mem_names_group] at hy

theorem Tracks.decompose {l r : Expr} {i : Memory} (h : Tracks (.group (Name.temporary n) l r :: ps) m k)
    (hi : i.Resembles ((k.assign (Name.temporary n) v).supply (Name.temporary n) v)) (hps : Idle ps) :
    Tracks ps (m.decompose (Name.temporary n) v) i where
  resembles := by
    have hsupply := (h.resembles.assign (Name.temporary n) v).supply (Name.temporary n) v
    exact (hi.trans hsupply).trans (Memory.resembles_assign _ n _).symm
  live := fun j hj => absurd hj (hps j)

end Tracks

section Runs

variable {strict : Bool} {ps : List Piece} {n n' : Nat}

end Runs

namespace Program

end Program

end FlatCircuit
