import FlatCircuit.Evaluation.Program

namespace FlatCircuit

open Evaluation

namespace Memory

theorem getElem?_empty (x : String) : (empty : Memory)[x]? = none := by
  rw [getElem?_def, empty, Std.ExtTreeMap.getElem?_empty]

def Binds (m : Memory) (x : String) : Prop :=
  ∃ v, m[x]? = some v

variable {m : Memory} {x y : String} {v : Int}

theorem not_binds_empty : ¬ (empty : Memory).Binds x := by
  rintro ⟨v, hv⟩
  rw [getElem?_empty] at hv
  cases hv

theorem binds_assign_iff : (m.assign x v).Binds y ↔ y = x ∨ m.Binds y := by
  unfold Binds
  rw [getElem?_assign]
  split
  · next h => simp [h]
  · next h => simp [Ne.symm h]

end Memory

def Program.Accepts (p : Program) : Arguments → Prop
  | .positional vs => vs.length = p.parameters.length
  | .named vs => ∀ x ∈ p.parameters, ∃ v, vs.lookup x = some v

section Assignments

variable {α : Type} {xs : List α} {f : α → Evaluation Unit} {name : α → String} {m : Memory}

theorem runFrom_assign (x : String) (v : Int) :
    (Evaluation.assign x v).runFrom m = (.ok (), m.assign x v) := rfl

theorem runFrom_forM_assign (m : Memory) (h : ∀ a ∈ xs, ∃ v, f a = Evaluation.assign (name a) v) :
    ∃ k, (xs.forM f).runFrom m = (.ok (), k) ∧ k.witness = m.witness ∧
      ∀ y, k.Binds y ↔ y ∈ xs.map name ∨ m.Binds y := by
  induction xs generalizing m with
  | nil => exact ⟨m, rfl, rfl, by simp⟩
  | cons a xs ih =>
    obtain ⟨⟨v, ha⟩, hxs⟩ := List.forall_mem_cons.mp h
    obtain ⟨k, hk, hw, hb⟩ := ih (m.assign (name a) v) hxs
    refine ⟨k, ?_, hw, fun y => ?_⟩
    · have hfirst := runFrom_assign (m := m) (name a) v
      rw [← ha] at hfirst
      exact (runFrom_bind_ok m hfirst _).trans hk
    · rw [hb, Memory.binds_assign_iff, List.map_cons, List.mem_cons, or_left_comm, or_assoc]

theorem not_throws_of_forM_ok {k : Memory} (h : (xs.forM f).runFrom m = (.ok (), k)) {a : α}
    (ha : a ∈ xs) (err : Fault) : f a ≠ throw err := by
  induction xs generalizing m with
  | nil => cases ha
  | cons b xs ih =>
    rcases hb : (f b).runFrom m with ⟨e | ⟨⟩, i⟩
    · have := (runFrom_bind_error m hb fun _ => xs.forM f).symm.trans h
      cases this
    · rcases List.mem_cons.mp ha with rfl | ha
      · intro he
        rw [he, runFrom_throw] at hb
        cases hb
      · exact ih ((runFrom_bind_ok m hb fun _ => xs.forM f).symm.trans h) ha

end Assignments

namespace Program

variable {p : Program} {args : Arguments} {m : Memory}

theorem runFrom_bindArguments (h : p.Accepts args) :
    ∃ m, (p.bindArguments args).runFrom .empty = (.ok (), m) ∧ (∀ x, x ∉ m.witness) ∧
      ∀ x, m.Binds x ↔ x ∈ p.parameters := by
  have hassign : ∃ m, (p.bindArguments args).runFrom .empty = (.ok (), m) ∧
      m.witness = Memory.empty.witness ∧
      ∀ x, m.Binds x ↔ x ∈ p.parameters ∨ Memory.empty.Binds x := by
    cases args with
    | positional vs =>
      have hlen : vs.length = p.parameters.length := h
      have hmap := List.map_fst_zip (Nat.le_of_eq hlen.symm)
      rw [← hmap, bindArguments, if_pos hlen]
      exact runFrom_forM_assign .empty fun b _ => ⟨b.2, rfl⟩
    | named vs =>
      rw [← List.map_id p.parameters]
      refine runFrom_forM_assign .empty fun x hx => ?_
      obtain ⟨v, hv⟩ := h x hx
      exact ⟨v, by simp only [hv, id_eq]⟩
  obtain ⟨m, hm, hw, hb⟩ := hassign
  refine ⟨m, hm, fun x => hw ▸ Std.ExtTreeSet.not_mem_empty, fun x => ?_⟩
  rw [hb, or_iff_left Memory.not_binds_empty]

theorem accepts_of_bindArguments (h : (p.bindArguments args).runFrom .empty = (.ok (), m)) :
    p.Accepts args := by
  cases args with
  | positional vs =>
    by_cases hlen : vs.length = p.parameters.length
    · exact hlen
    · rw [bindArguments, if_neg hlen] at h
      cases h
  | named vs =>
    intro x hx
    have hthrow := not_throws_of_forM_ok h hx (.missingArgument x)
    cases hv : vs.lookup x with
    | some v => exact ⟨v, rfl⟩
    | none => exact absurd (by simp only [hv]) hthrow

end Program

end FlatCircuit
