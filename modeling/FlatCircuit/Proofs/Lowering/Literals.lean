import FlatCircuit.Proofs.Limit
import FlatCircuit.Proofs.Lowering.Offences

namespace FlatCircuit

namespace Lowering

variable {limit : DigitLimit} {strict : Bool} {e f a : Expr} {n m : Nat} {ds xs : List Definition}

theorem literals_constraints (x : String) :
    (Bits.constraints x).flatMap Definition.literals = [128, 64, 32, 16, 8, 4, 2] :=
  rfl

theorem writes_constraints (x : String) :
    ∀ v ∈ (Bits.constraints x).flatMap Definition.literals, limit.writes v = true := by
  rw [literals_constraints]
  have hlt : ∀ v ∈ ([128, 64, 32, 16, 8, 4, 2] : List Int), v.natAbs < Nat.pow 10 3 := by decide
  exact fun v hv => limit.writes_of_lt (by decide) (hlt v hv)

theorem Takes.literals (h : Takes e n ds m a) : ds.flatMap Definition.literals ++ a.literals = e.literals := by
  cases h with
  | atom _ => rfl
  | stored _ =>
    rw [List.flatMap_singleton, Definition.literals]
    exact List.append_nil _

theorem Takes.writes (h : Takes e n ds m a) (he : ∀ v ∈ e.literals, limit.writes v = true) :
    (∀ v ∈ ds.flatMap Definition.literals, limit.writes v = true) ∧ ∀ v ∈ a.literals, limit.writes v = true := by
  rw [← h.literals] at he
  exact List.forall_mem_append.mp he

theorem writes_select {t : String} {x y : Expr} (hx : ∀ v ∈ x.literals, limit.writes v = true)
    (hy : ∀ v ∈ y.literals, limit.writes v = true) :
    ∀ v ∈ (Expr.select (.var t) x y).literals, limit.writes v = true := by
  have hone : limit.writes 1 = true := limit.writes_of_lt (k := 1) (by decide) (by decide)
  simp only [Expr.select, Expr.literals, List.forall_mem_append, List.forall_mem_cons]
  exact ⟨⟨List.forall_mem_nil _, hx⟩, ⟨⟨hone, List.forall_mem_nil _⟩, List.forall_mem_nil _⟩, hy⟩

theorem Lowers.writes (h : Lowers strict e n ds m f) (he : ∀ v ∈ e.literals, limit.writes v = true) :
    (∀ v ∈ ds.flatMap Definition.literals, limit.writes v = true) ∧ ∀ v ∈ f.literals, limit.writes v = true := by
  induction h with
  | atom _ => exact ⟨List.forall_mem_nil _, he⟩
  | operation op _ _ ha hb ihl ihr =>
    obtain ⟨hel, her⟩ := List.forall_mem_append.mp he
    obtain ⟨hds₁, hl'⟩ := ihl hel
    obtain ⟨hds₂, hr'⟩ := ihr her
    obtain ⟨hds₃, ha⟩ := ha.writes hl'
    obtain ⟨hds₄, hb⟩ := hb.writes hr'
    simp only [List.flatMap_append, List.forall_mem_append, Expr.literals]
    exact ⟨⟨⟨⟨hds₁, hds₂⟩, hds₃⟩, hds₄⟩, ha, hb⟩
  | literalPower _ _ =>
    obtain ⟨ha, -⟩ := List.forall_mem_append.mp he
    exact ⟨List.forall_mem_nil _, List.forall_mem_append.mpr ⟨ha, ha⟩⟩
  | square _ =>
    obtain ⟨hb, -⟩ := List.forall_mem_append.mp he
    exact ⟨List.forall_mem_nil _, List.forall_mem_append.mpr ⟨hb, hb⟩⟩
  | @power b _ k _ _ _ _ hk _ ih =>
    obtain ⟨hb, hk₁⟩ := List.forall_mem_append.mp he
    have hle : k.natAbs ≤ (k + 1).natAbs := by omega
    have hw : limit.writes k = true := DigitLimit.writes_of_natAbs_le hle (hk₁ _ List.mem_cons_self)
    obtain ⟨hds, hf⟩ := ih (List.forall_mem_append.mpr ⟨hb, List.forall_mem_singleton.mpr hw⟩)
    simp only [List.flatMap_append, List.flatMap_singleton, List.forall_mem_append, Definition.literals, Expr.literals]
    exact ⟨⟨hds, hf⟩, List.forall_mem_nil _, hb⟩
  | choice _ _ _ ihl ihr ihs =>
    simp only [Expr.literals, Condition.literals, List.forall_mem_append] at he
    obtain ⟨⟨⟨hel, her⟩, hx⟩, hy⟩ := he
    obtain ⟨hds₁, hl'⟩ := ihl hel
    obtain ⟨hds₂, hr'⟩ := ihr her
    obtain ⟨hds₃, hf⟩ := ihs (writes_select hx hy)
    simp only [comparison, List.flatMap_append, List.flatMap_cons, List.forall_mem_append, Definition.literals,
      Expr.literals]
    exact ⟨⟨⟨⟨hds₁, hds₂⟩, hl', hr', ⟨List.forall_mem_nil _, List.forall_mem_nil _⟩, writes_constraints _⟩, hds₃⟩, hf⟩

theorem LowersAll.writes (h : LowersAll strict xs n ds m)
    (hx : ∀ v ∈ xs.flatMap Definition.literals, limit.writes v = true) :
    ∀ v ∈ ds.flatMap Definition.literals, limit.writes v = true := by
  induction h with
  | nil => exact hx
  | assign he _ ih | ret he _ ih =>
    rw [List.flatMap_cons, List.forall_mem_append] at hx
    obtain ⟨hes, hf⟩ := he.writes hx.1
    rw [List.flatMap_append, List.flatMap_cons, List.forall_mem_append, List.forall_mem_append]
    exact ⟨hes, hf, ih hx.2⟩
  | hole _ ih => exact ih hx

end Lowering

def Site.literals : Site → List Int
  | .expression e => e.literals
  | .condition c => c.literals
  | .difference l r => l.literals ++ r.literals

namespace Program

variable {limit : DigitLimit} {strict : Bool} {p q : Program}

theorem writes_of_lower (h : p.lower strict = .ok q) (hp : ∀ v ∈ p.literals, limit.writes v = true) :
    ∀ v ∈ q.literals, limit.writes v = true :=
  (Lowering.lowersAll_emission h).1.writes hp

end Program

end FlatCircuit
