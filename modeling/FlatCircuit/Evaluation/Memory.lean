import Std.Data.ExtTreeMap
import Std.Data.ExtTreeSet
import FlatCircuit.Bits
import FlatCircuit.Evaluation.Fault
import FlatCircuit.Text.Digit

/-! The memory of a run: the values of names, and which of the names are witness bits. A bit of a bound
value that was never bound itself is supplied when it is first read, together with its seven companions. -/

namespace FlatCircuit

structure Memory where
  values : Std.ExtTreeMap String Int
  witness : Std.ExtTreeSet String

namespace Memory

variable (m : Memory)

def empty : Memory :=
  ⟨∅, ∅⟩

instance : GetElem? Memory String Int (fun m x => x ∈ m.values) where
  getElem m x h := m.values[x]
  getElem? m x := m.values[x]?

theorem getElem?_def (x : String) : m[x]? = m.values[x]? := rfl

def assign (x : String) (v : Int) : Memory :=
  { m with values := m.values.insert x v }

def addBit (b : String × Int) : Memory :=
  ⟨m.values.insert b.1 b.2, m.witness.insert b.1⟩

def supply (owner : String) (v : Int) : Memory :=
  (Bits.values owner v).foldl addBit m

@[simp]
theorem getElem?_assign (x y : String) (v : Int) :
    (m.assign x v)[y]? = if x = y then some v else m[y]? := by
  simp only [getElem?_def, assign, Std.ExtTreeMap.getElem?_insert, Std.compare_eq_iff_eq]

@[simp]
theorem witness_assign (x : String) (v : Int) : (m.assign x v).witness = m.witness := rfl

@[simp]
theorem getElem?_addBit (b : String × Int) (y : String) :
    (m.addBit b)[y]? = if b.1 = y then some b.2 else m[y]? := by
  simp only [getElem?_def, addBit, Std.ExtTreeMap.getElem?_insert, Std.compare_eq_iff_eq]

/-- The index that the digits after the last mark write, if it is the index of a bit. Whatever stands
there instead of digits makes the name a plain one. -/
def bitIndex? (index : List Char) : Except Fault (Option Nat) :=
  if index ≠ [] ∧ index.all Text.isDigit then
    match Text.decimal? index with
    | some i => .ok (if i < Bits.width then some i else none)
    | none => .error (.badIndex (.ofList index))
  else .ok none

def owner? (x : String) : Except Fault (Option (String × Int)) :=
  match Name.splitBit? x with
  | none => .ok none
  | some (owner, index) =>
    (bitIndex? index).map fun i => i.bind fun _ => m[owner]?.map (owner, ·)

end Memory

end FlatCircuit
