import FlatCircuit.Evaluation.Session
import FlatCircuit.Proofs.Evaluation.Reading

namespace FlatCircuit

namespace Evaluation

structure Lookup where
  memory : Memory
  name : String

end Evaluation

open Evaluation

mutual

def Expr.lookups : Expr → Memory → List Lookup
  | .lit _, _ | .hole, _ | .bin .blank _ _, _ => []
  | .var x, m => [⟨m, x⟩]
  | .bin _ l r, m => l.lookups m ++ listAfter l.eval m fun _ k => r.lookups k
  | .pow b e, m => b.lookups m ++ listAfter b.eval m fun _ k => e.lookups k
  | .ite c x y, m =>
    c.lookups m ++ listAfter c.eval m fun _ k =>
      x.lookups k ++ listAfter x.eval k fun _ i => y.lookups i

def Condition.lookups : Condition → Memory → List Lookup
  | .less l r, m => l.lookups m ++ listAfter l.eval m fun _ k => r.lookups k
  | .hole, _ => []

end

theorem Expr.lookups_bin {op : Operator} (hop : op ≠ .blank) (l r : Expr) (m : Memory) :
    (bin op l r).lookups m = l.lookups m ++ listAfter l.eval m fun _ k => r.lookups k := by
  cases op <;> first | rfl | contradiction

namespace Evaluation

def lookups : List Definition → Memory → List Lookup
  | [], _ => []
  | .ret e :: _, m => e.lookups m
  | .assign x e :: ds, m => e.lookups m ++ listAfter (define x e) m fun _ k => lookups ds k
  | .hole :: ds, m => lookups ds m

def Request.lookups (p : Program) : Request → Memory → List Lookup
  | .bind _, _ => []
  | .execute, m => Evaluation.lookups p.definitions m
  | .expr e, m => e.lookups m
  | .condition c, m => c.lookups m
  | .lookup x, m => [⟨m, x⟩]

namespace Session

def performAll (s : Session) (rs : List Request) : Session :=
  rs.foldl (fun s r => (s.perform r).2) s

def lookups (s : Session) : List Request → List Lookup
  | [] => []
  | r :: rs => r.lookups s.program s.memory ++ (s.perform r).2.lookups rs

end Session

variable {α β : Type} {x : Evaluation α} {f : α → Evaluation β} {tr : Memory → List Lookup}
  {tr' : α → Memory → List Lookup} {good : Lookup → Prop} {I : List Lookup → Memory → Prop}

def Keeps (good : Lookup → Prop) (I : List Lookup → Memory → Prop) (x : Evaluation α)
    (tr : Memory → List Lookup) : Prop :=
  ∀ ls m, I ls m → (∀ l ∈ tr m, good l) → I (ls ++ tr m) (x.runFrom m).2

theorem listAfter_nil (x : Evaluation α) (m : Memory) : listAfter x m (fun _ _ => ([] : List β)) = [] := by
  unfold listAfter
  split <;> rfl

theorem keeps_of_still (h : ∀ m, (x.runFrom m).2 = m) : Keeps good I x fun _ => [] := by
  intro ls m hm _
  rwa [List.append_nil, h]

theorem Keeps.bind (hx : Keeps good I x tr) (hf : ∀ a, Keeps good I (f a) (tr' a)) :
    Keeps good I (x >>= f) fun m => tr m ++ listAfter x m tr' := by
  intro ls m hm hg
  obtain ⟨hgx, hgf⟩ := List.forall_mem_append.mp hg
  have hk := hx ls m hm hgx
  rw [← List.append_assoc]
  rcases h : x.runFrom m with ⟨err | a, k⟩ <;> rw [h] at hk
  · rw [runFrom_bind_error m h, listAfter, h, List.append_nil]
    exact hk
  · rw [listAfter_of_ok h] at hgf
    rw [runFrom_bind_ok m h, listAfter_of_ok h]
    exact hf a _ k hk hgf

theorem Keeps.then_still (hx : Keeps good I x tr) (hf : ∀ a m, ((f a).runFrom m).2 = m) :
    Keeps good I (x >>= f) tr := by
  intro ls m hm hg
  have hk := hx ls m hm hg
  rcases h : x.runFrom m with ⟨err | a, k⟩ <;> rw [h] at hk
  · rw [runFrom_bind_error m h]
    exact hk
  · rw [runFrom_bind_ok m h, hf]
    exact hk

theorem Keeps.map (hx : Keeps good I x tr) (f : α → β) : Keeps good I (f <$> x) tr := by
  rw [map_eq_pure_bind]
  exact hx.then_still fun _ _ => rfl

theorem still_liftM (v : Except Fault α) (m : Memory) : ((liftM v : Evaluation α).runFrom m).2 = m := by
  rw [runFrom_lift]

theorem keeps_less {l r : Expr} (hl : Keeps good I l.eval l.lookups) (hr : Keeps good I r.eval r.lookups) :
    Keeps good I (Condition.less l r).eval (Condition.less l r).lookups :=
  hl.bind fun _ => hr.then_still fun _ _ => rfl

section Steps

variable (hlookup : ∀ x, Keeps good I (lookup x) fun m => [⟨m, x⟩])
include hlookup

theorem keeps_eval (e : Expr) : Keeps good I e.eval e.lookups := by
  induction e with
  | lit n => exact keeps_of_still fun _ => rfl
  | var x => exact hlookup x
  | bin op l r ihl ihr =>
    by_cases hop : op = .blank
    · subst hop
      exact keeps_of_still fun _ => rfl
    · rw [Expr.eval_bin hop, funext (Expr.lookups_bin hop l r)]
      exact ihl.bind fun _ => ihr.then_still fun _ m => still_liftM _ m
  | pow b e ihb ihe => exact ihb.bind fun _ => ihe.then_still fun _ m => still_liftM _ m
  | less l r x y ihl ihr ihx ihy =>
    exact (keeps_less ihl ihr).bind fun _ => ihx.bind fun _ => ihy.then_still fun _ _ => rfl
  | untested x y _ _ => exact keeps_of_still fun _ => rfl
  | hole => exact keeps_of_still fun _ => rfl

theorem keeps_define_of_assign {x : String} (hassign : ∀ v, Keeps good I (assign x v) fun _ => []) (e : Expr) :
    Keeps good I (define x e) e.lookups := by
  have hchecked : ∀ v, Keeps good I (do
      let m ← get
      if x ∈ m.witness ∧ m[x]? ≠ some v then throw (.constraint (.assign x e))
      assign x v) fun _ => [] := by
    intro v ls m hm hg
    by_cases hw : x ∈ m.witness ∧ m[x]? ≠ some v
    · simp only [runFrom_bind, runFrom_get, if_pos hw, runFrom_throw, List.append_nil]
      exact hm
    · simp only [runFrom_bind, runFrom_get, if_neg hw]
      exact hassign v ls m hm hg
  have hdefine := (keeps_eval hlookup e).bind hchecked
  simp only [listAfter_nil, List.append_nil] at hdefine
  exact hdefine

theorem keeps_condition (c : Condition) : Keeps good I c.eval c.lookups := by
  cases c with
  | less l r => exact keeps_less (keeps_eval hlookup l) (keeps_eval hlookup r)
  | hole => exact keeps_of_still fun _ => rfl

theorem keeps_execute {ds : List Definition}
    (hdefine : ∀ x e, .assign x e ∈ ds → Keeps good I (define x e) e.lookups) :
    Keeps good I (execute ds) (lookups ds) := by
  induction ds with
  | nil => exact keeps_of_still fun _ => rfl
  | cons d ds ih =>
    have hds := ih fun x e h => hdefine x e (List.mem_cons_of_mem _ h)
    cases d with
    | assign x e => exact (hdefine x e List.mem_cons_self).bind fun _ => hds
    | ret e => exact keeps_eval hlookup e
    | hole => exact hds

end Steps

def replay (m : Memory) (ls : List Lookup) : Memory :=
  ls.foldl (fun k l => ((lookup l.name).runFrom k).2) m

/-- An evaluation changes the memory by its lookups only, and each of these finds what those before it left. -/
theorem lookups_eval (e : Expr) (m : Memory) : (e.eval.runFrom m).2 = replay m (e.lookups m) ∧
    ∀ before l after, e.lookups m = before ++ l :: after → l.memory = replay m before := by
  let I : List Lookup → Memory → Prop := fun ls k => k = replay m ls ∧
    ∀ before l after, ls = before ++ l :: after → l.memory = replay m before
  have hlookup : ∀ x, Keeps (fun _ => True) I (lookup x) fun k => [⟨k, x⟩] := by
    rintro x ls k ⟨rfl, hls⟩ -
    refine ⟨by simp [replay], fun before l after h => ?_⟩
    rcases List.eq_nil_or_concat after with rfl | ⟨after, last, rfl⟩
    · obtain ⟨rfl, hl⟩ := List.append_inj' h rfl
      cases hl
      rfl
    · rw [List.concat_eq_append, ← List.cons_append, ← List.append_assoc] at h
      exact hls before l after (List.append_inj' h rfl).1
  refine keeps_eval hlookup e [] m ⟨rfl, fun before l after h => ?_⟩ fun _ _ => trivial
  cases before <;> cases h

theorem keeps_forM {xs : List α} {f : α → Evaluation Unit} (h : ∀ a ∈ xs, Keeps good I (f a) fun _ => []) :
    Keeps good I (xs.forM f) fun _ => [] := by
  induction xs with
  | nil => exact keeps_of_still fun _ => rfl
  | cons a xs ih =>
    obtain ⟨ha, hxs⟩ := List.forall_mem_cons.mp h
    have hk := ha.bind fun _ => ih hxs
    simp only [listAfter_nil, List.append_nil] at hk
    exact hk

theorem keeps_bindArguments {p : Program} (h : ∀ x ∈ p.parameters, ∀ v, Keeps good I (assign x v) fun _ => [])
    (args : Arguments) : Keeps good I (p.bindArguments args) fun _ => [] := by
  cases args with
  | positional vs =>
    rw [Program.bindArguments]
    split
    · exact keeps_forM fun b hb => h b.1 (List.of_mem_zip hb).1 b.2
    · exact keeps_of_still fun _ => rfl
  | named vs =>
    refine keeps_forM fun x hx => ?_
    cases vs.lookup x with
    | some v => exact h x hx v
    | none => exact keeps_of_still fun _ => rfl

theorem keeps_request {p : Program} (hlookup : ∀ x, Keeps good I (lookup x) fun m => [⟨m, x⟩])
    (hassign : ∀ x ∈ p.parameters, ∀ v, Keeps good I (assign x v) fun _ => [])
    (hdefine : ∀ x e, .assign x e ∈ p.definitions → Keeps good I (define x e) e.lookups) (r : Request) :
    Keeps good I (r.evaluation p) (r.lookups p) := by
  cases r with
  | bind args => exact (keeps_bindArguments hassign args).then_still fun _ _ => rfl
  | execute => exact (keeps_execute hlookup hdefine).map _
  | expr e => exact (keeps_eval hlookup e).map _
  | condition c => exact (keeps_condition hlookup c).map _
  | lookup x => exact (hlookup x).map _

theorem Session.keeps_performAll {s : Session} {ls : List Lookup} {rs : List Request}
    (h : ∀ r : Request, Keeps good I (r.evaluation s.program) (r.lookups s.program)) (hs : I ls s.memory)
    (hg : ∀ l ∈ s.lookups rs, good l) : I (ls ++ s.lookups rs) (s.performAll rs).memory := by
  induction rs generalizing s ls with
  | nil => rwa [lookups, List.append_nil]
  | cons r rs ih =>
    obtain ⟨hgr, hgs⟩ := List.forall_mem_append.mp hg
    have hr := h r ls s.memory hs hgr
    rw [lookups, ← List.append_assoc]
    exact ih h hr hgs

end Evaluation

end FlatCircuit
