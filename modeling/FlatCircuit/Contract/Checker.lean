import FlatCircuit.Contract.Checking

/-! The contract of flat programs: every value is flat, every name is defined before it is read, the one
return comes last, and the bits of a difference are constrained by a complete group. A group opens where a
difference is followed by a definition of its lowest bit. It defines its bits at once, and its members are
compared with the expected constraints instead of being checked one by one. -/

namespace FlatCircuit

namespace Checking

def checkRead (index : Nat) (x : String) : Checking Unit := do
  if x ∉ (← get).defined then report (.undefined x) index

/-- A message quotes a definition that is not flat, so a hole in it ends the check. -/
def checkValue (index : Nat) (d : Definition) (e : Expr) : Checking Unit := do
  if !e.isFlat then
    match d.hole? with
    | some h => throw h
    | none => report (.notFlat d) index
  e.variables.forM (checkRead index)

def checkSingle (index : Nat) : Definition → Checking Unit
  | .assign x e => do
    checkValue index (.assign x e) e
    define x
  | .ret e => checkValue index (.ret e) e
  | .hole => report .unknownDefinition index

def checkPlace (index : Nat) (isLast : Bool) (d : Definition) : Checking Unit := do
  if d.isReturn && !isLast then report .earlyReturn index
  if isLast && !d.isReturn then report .lastNotReturn index

def opened? : Definition → List Definition → Option String
  | .assign x (.bin .sub _ _), .assign b _ :: _ => if b = Name.bit x 0 then some x else none
  | _, _ => none

def agreement : List Definition → List Definition → Nat
  | d :: expected, e :: ds => if d = e then agreement expected ds + 1 else 0
  | _, _ => 0

theorem agreement_le_left (expected ds : List Definition) :
    agreement expected ds ≤ expected.length := by
  induction expected generalizing ds with
  | nil => simp [agreement]
  | cons d expected ih =>
    cases ds with
    | nil => simp [agreement]
    | cons e ds =>
      simp only [agreement, List.length_cons]
      split
      · exact Nat.succ_le_succ (ih ds)
      · exact Nat.zero_le _

theorem take_agreement (expected ds : List Definition) :
    ds.take (agreement expected ds) = expected.take (agreement expected ds) := by
  induction expected generalizing ds with
  | nil => simp [agreement]
  | cons d expected ih =>
    cases ds with
    | nil => simp [agreement]
    | cons e ds =>
      simp only [agreement]
      split
      · next h => rw [h, List.take_succ_cons, List.take_succ_cons, ih ds]
      · rfl

def missing (x : String) (k : Nat) : Breach :=
  if k < Bits.width then .booleanness (Name.bit x k) else .weightedSum x

/-- Checks all definitions but those that a group has already taken. -/
def checkAll (index taken : Nat) : List Definition → Checking Unit
  | [] => return
  | d :: ds =>
    match taken with
    | k + 1 => checkAll (index + 1) k ds
    | 0 => do
      checkPlace index ds.isEmpty d
      checkSingle index d
      match opened? d ds with
      | none => checkAll (index + 1) 0 ds
      | some x => do
        (Bits.names x).forM define
        let k := agreement (Bits.constraints x) ds
        if k ≤ Bits.width then report (missing x k) (index + 1 + k)
        checkAll (index + 1) k ds

def checkWhole (p : Program) : Checking Unit := do
  p.parameters.forM define
  if p.definitions.isEmpty then report .noDefinitions 0
  checkAll 0 0 p.definitions

end Checking

def Report.check (r : Report) (p : Program) : Except Hole Unit × Report :=
  (Checking.checkWhole p).runFrom r

def Program.check (p : Program) : Except Hole (List Finding) :=
  let (outcome, report) := Report.empty.check p
  outcome.map fun _ => report.findings

end FlatCircuit
