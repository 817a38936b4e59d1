/-! Names that lowering makes up. A temporary is `sym_` and a number; a bit of a value is the name of its
owner, the mark `_b` and a number. The owner is found again by cutting at the last mark. -/

namespace FlatCircuit.Name

def temporary (n : Int) : String :=
  "sym_" ++ toString n

def bit (owner : String) (i : Int) : String :=
  owner ++ "_b" ++ toString i

def splitAtLastMark : List Char → Option (List Char × List Char)
  | [] => none
  | c :: cs =>
    match splitAtLastMark cs with
    | some (owner, index) => some (c :: owner, index)
    | none =>
      match c, cs with
      | '_', 'b' :: index => some ([], index)
      | _, _ => none

theorem splitAtLastMark_eq {cs owner index : List Char}
    (h : splitAtLastMark cs = some (owner, index)) : cs = owner ++ '_' :: 'b' :: index := by
  induction cs generalizing owner with
  | nil => simp [splitAtLastMark] at h
  | cons c cs ih =>
    simp only [splitAtLastMark] at h
    split at h
    · next hs => cases h; simp [ih hs]
    · split at h
      · cases h; rfl
      · simp at h

/-- An owner has a name, so a mark at the very start makes no bit. -/
def splitBit? (x : String) : Option (String × List Char) :=
  match splitAtLastMark x.toList with
  | some (c :: owner, index) => some (.ofList (c :: owner), index)
  | _ => none

end FlatCircuit.Name
