import FlatCircuit.Proofs.Evaluation.Witness

namespace FlatCircuit

open Evaluation

namespace Memory

/-- Made from the empty memory by lookups, failing ones included, and by assignments to any names. -/
inductive Reached : Memory → Prop
  | empty : Reached .empty
  | assign {m : Memory} (x : String) (v : Int) : Reached m → Reached (m.assign x v)
  | lookup {m : Memory} (x : String) : Reached m → Reached ((Evaluation.lookup x).runFrom m).2

variable {k m : Memory} {x y : String}

theorem Reached.binds_of_mem_witness (h : m.Reached) (hy : y ∈ m.witness) : m.Binds y := by
  induction h with
  | empty => exact absurd hy Std.ExtTreeSet.not_mem_empty
  | assign x v _ ih => exact covers_assign x v y (ih hy)
  | @lookup m x _ ih =>
    rcases runFrom_lookup_cases m x with ⟨v, _, he⟩ | ⟨err, _, he⟩ | ⟨owner, v, r, _, _, he, _⟩ <;>
      rw [he] at hy ⊢
    · exact ih hy
    · exact ih hy
    · rcases mem_witness_supply.mp hy with hy | hy
      · exact binds_supply_of_mem hy
      · exact covers_supply owner v y (ih hy)

end Memory

namespace Evaluation

theorem keeps_reached_lookup (x : String) :
    Keeps (fun _ => True) (fun _ m => m.Reached) (lookup x) fun m => [⟨m, x⟩] :=
  fun _ _ hm _ => hm.lookup x

theorem keeps_reached_assign (x : String) (v : Int) :
    Keeps (fun _ => True) (fun _ m => m.Reached) (assign x v) fun _ => [] :=
  fun _ _ hm _ => hm.assign x v

theorem keeps_reached_define (x : String) (e : Expr) :
    Keeps (fun _ => True) (fun _ m => m.Reached) (define x e) e.lookups :=
  keeps_define_of_assign keeps_reached_lookup (keeps_reached_assign x) e

theorem Session.reached_performAll (p : Program) (rs : List Request) :
    ((start p).performAll rs).memory.Reached := by
  have hr : ∀ r : Request, Keeps (fun _ => True) (fun _ m => m.Reached) (r.evaluation p) (r.lookups p) := by
    intro r
    apply keeps_request keeps_reached_lookup
    · exact fun x _ => keeps_reached_assign x
    · exact fun x e _ => keeps_reached_define x e
  exact @keeps_performAll (fun _ => True) (fun _ m => m.Reached) (start p) [] rs hr .empty fun _ _ => trivial

theorem Runs.reached {ds : List Definition} {k m : Memory} (h : Runs ds m k) (hm : m.Reached) : k.Reached := by
  have hds : Keeps (fun _ => True) (fun _ m => m.Reached) (execute (ds ++ [.ret (.lit 0)])) _ :=
    keeps_execute keeps_reached_lookup fun x e _ => keeps_reached_define x e
  have hrun := hds [] m hm fun _ _ => trivial
  rwa [h.runFrom_return 0] at hrun

end Evaluation

end FlatCircuit
