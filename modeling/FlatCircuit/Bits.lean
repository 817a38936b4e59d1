import FlatCircuit.Name
import FlatCircuit.Program

namespace FlatCircuit.Bits

def width : Nat := 8

def weight : Nat → Int
  | 0 => 1
  | i + 1 => 2 * weight i

def modulus : Int := weight width

def least : Int := -weight (width - 1)

def greatest : Int := weight (width - 1) - 1

variable (x : String)

def names : List String :=
  (List.range width).map fun (i : Nat) => Name.bit x i

def sign : String :=
  Name.bit x (width - 1 : Nat)

def weighted : Nat → Expr
  | 0 => .var (Name.bit x 0)
  | i + 1 => .bin .add (.bin .mul (.var (Name.bit x (i + 1 : Nat))) (.lit (weight (i + 1)))) (weighted i)

def weightedSum : Expr :=
  weighted x (width - 1)

def bitConstraint (b : String) : Definition :=
  .assign b (.bin .mul (.var b) (.var b))

def constraints : List Definition :=
  (names x).map bitConstraint ++ [.assign x (weightedSum x)]

theorem length_constraints : (constraints x).length = width + 1 := by
  simp [constraints, names]

def values (v : Int) : List (String × Int) :=
  (List.range width).map fun (i : Nat) => (Name.bit x i, v % modulus / weight i % 2)

theorem map_fst_values (v : Int) : (values x v).map Prod.fst = names x := by
  simp [values, names]

end FlatCircuit.Bits
