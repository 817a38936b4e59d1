import Std.Data.ExtTreeSet
import FlatCircuit.Contract.Finding

namespace FlatCircuit

structure Report where
  findings : List Finding
  defined : Std.ExtTreeSet String

def Report.empty : Report :=
  ⟨[], ∅⟩

abbrev Checking := ExceptT Hole (StateM Report)

namespace Checking

variable {α β : Type}

def runFrom (r : Report) (x : Checking α) : Except Hole α × Report :=
  x.run.run r

def report (breach : Breach) (index : Nat) : Checking Unit :=
  modify fun r => { r with findings := r.findings ++ [⟨breach, index⟩] }

def define (x : String) : Checking Unit :=
  modify fun r => { r with defined := r.defined.insert x }

variable (r : Report)

@[simp]
theorem runFrom_pure (a : α) : (pure a : Checking α).runFrom r = (.ok a, r) := rfl

theorem runFrom_bind (x : Checking α) (f : α → Checking β) :
    (x >>= f).runFrom r =
      match x.runFrom r with
      | (.ok a, s) => (f a).runFrom s
      | (.error h, s) => (.error h, s) := by
  simp only [runFrom, ExceptT.run_bind, StateT.run_bind]
  rcases x.run.run r with ⟨_ | _, s⟩ <;> rfl

@[simp]
theorem runFrom_throw (h : Hole) : (throw h : Checking α).runFrom r = (.error h, r) := rfl

@[simp]
theorem runFrom_get : (get : Checking Report).runFrom r = (.ok r, r) := rfl

@[simp]
theorem runFrom_report (breach : Breach) (index : Nat) :
    (report breach index).runFrom r = (.ok (), ⟨r.findings ++ [⟨breach, index⟩], r.defined⟩) := rfl

@[simp]
theorem runFrom_define (x : String) :
    (define x).runFrom r = (.ok (), ⟨r.findings, r.defined.insert x⟩) := rfl

end Checking

end FlatCircuit
