import FlatCircuit.Evaluation.Program

namespace FlatCircuit.Evaluation

structure Session where
  program : Program
  memory : Memory

inductive Request where
  | bind (args : Arguments)
  | execute
  | expr (e : Expr)
  | condition (c : Condition)
  | lookup (name : String)

def Request.evaluation (p : Program) : Request → Evaluation (Option Int)
  | .bind args => do
    p.bindArguments args
    return none
  | .execute => some <$> p.execute
  | .expr e => some <$> e.eval
  | .condition c => some <$> c.eval
  | .lookup x => some <$> Evaluation.lookup x

namespace Session

def start (p : Program) : Session :=
  ⟨p, .empty⟩

def perform (s : Session) (r : Request) : Except Fault (Option Int) × Session :=
  let (answer, m) := (r.evaluation s.program).runFrom s.memory
  (answer, { s with memory := m })

end Session

end FlatCircuit.Evaluation
