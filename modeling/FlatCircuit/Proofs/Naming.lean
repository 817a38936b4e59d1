import FlatCircuit.Bits

namespace FlatCircuit.Name

def IsPlain (x : String) : Prop :=
  '_' ∉ x.toList

instance (x : String) : Decidable (IsPlain x) :=
  inferInstanceAs (Decidable ('_' ∉ x.toList))

inductive MadeBelow (n : Nat) : String → Prop
  | temporary {j : Nat} : j < n → MadeBelow n (temporary j)
  | bit {j : Nat} (i : Nat) : j < n → MadeBelow n (bit (temporary j) i)

theorem toList_temporary (n : Nat) :
    (temporary n).toList = ['s', 'y', 'm', '_'] ++ Nat.toDigits 10 n := by
  have h : toString (n : Int) = n.repr := rfl
  rw [temporary, h, String.toList_append, Nat.toList_repr]
  rfl

theorem toList_bit (x : String) (i : Nat) :
    (bit x i).toList = x.toList ++ '_' :: 'b' :: Nat.toDigits 10 i := by
  have h : toString (i : Int) = i.repr := rfl
  rw [bit, h, String.toList_append, String.toList_append, Nat.toList_repr, List.append_assoc]
  rfl

theorem toDigits_injective {m n : Nat} (h : Nat.toDigits 10 m = Nat.toDigits 10 n) : m = n := by
  rw [← Nat.ofDigitChars_ten_toDigits (n := m), h, Nat.ofDigitChars_ten_toDigits]

theorem splitAtLastMark_cons_of_some {c : Char} {cs owner index : List Char}
    (h : splitAtLastMark cs = some (owner, index)) :
    splitAtLastMark (c :: cs) = some (c :: owner, index) := by
  simp only [splitAtLastMark, h]

theorem splitAtLastMark_cons_of_none {c : Char} {cs : List Char} (h : splitAtLastMark cs = none)
    (hc : c = '_' → ∀ index, cs ≠ 'b' :: index) : splitAtLastMark (c :: cs) = none := by
  simp only [splitAtLastMark, h]
  split
  · exact absurd rfl (hc rfl _)
  · rfl

theorem splitAtLastMark_mark {index : List Char} (h : splitAtLastMark ('b' :: index) = none) :
    splitAtLastMark ('_' :: 'b' :: index) = some ([], index) := by
  rw [splitAtLastMark, h]

theorem splitAtLastMark_eq_none_iff {cs : List Char} : splitAtLastMark cs = none ↔ ¬ ['_', 'b'] <:+: cs := by
  induction cs with
  | nil => simp [splitAtLastMark]
  | cons c cs ih =>
    rw [List.infix_cons_iff, not_or, ← ih]
    constructor
    · intro h
      have hcs : splitAtLastMark cs = none := by
        cases hs : splitAtLastMark cs with
        | none => rfl
        | some r => cases (splitAtLastMark_cons_of_some hs).symm.trans h
      refine ⟨?_, hcs⟩
      rintro ⟨rest, hr⟩
      obtain ⟨rfl, rfl⟩ := List.cons.inj hr
      cases (splitAtLastMark_mark hcs).symm.trans h
    · rintro ⟨hp, hcs⟩
      apply splitAtLastMark_cons_of_none hcs
      rintro rfl rest rfl
      exact hp ⟨rest, rfl⟩

theorem not_infix_of_notMem {cs : List Char} (h : '_' ∉ cs) : ¬ ['_', 'b'] <:+: cs :=
  fun hi => h (hi.subset List.mem_cons_self)

theorem splitAtLastMark_eq_none {cs : List Char} (h : '_' ∉ cs) : splitAtLastMark cs = none :=
  splitAtLastMark_eq_none_iff.mpr (not_infix_of_notMem h)

theorem splitAtLastMark_eq_some_iff {cs owner index : List Char} :
    splitAtLastMark cs = some (owner, index) ↔
      cs = owner ++ '_' :: 'b' :: index ∧ ¬ ['_', 'b'] <:+: index := by
  constructor
  · intro h
    refine ⟨splitAtLastMark_eq h, ?_⟩
    induction cs generalizing owner with
    | nil => cases h
    | cons c cs ih =>
      cases hs : splitAtLastMark cs with
      | some r =>
        cases (splitAtLastMark_cons_of_some hs).symm.trans h
        exact ih hs
      | none =>
        have hsuffix : index <:+ cs := by
          have he := splitAtLastMark_eq h
          cases owner with
          | nil =>
            cases he
            exact List.suffix_cons 'b' index
          | cons d owner =>
            obtain ⟨_, rfl⟩ := List.cons.inj he
            exact ⟨owner ++ ['_', 'b'], by simp⟩
        intro hi
        exact splitAtLastMark_eq_none_iff.mp hs (hi.trans hsuffix.isInfix)
  · rintro ⟨rfl, hi⟩
    induction owner with
    | nil =>
      apply splitAtLastMark_mark
      apply splitAtLastMark_eq_none_iff.mpr
      rw [List.infix_cons_iff, not_or]
      exact ⟨by simp, hi⟩
    | cons c owner ih => exact splitAtLastMark_cons_of_some ih

theorem splitAtLastMark_bit (x : String) (i : Nat) :
    splitAtLastMark (bit x i).toList = some (x.toList, Nat.toDigits 10 i) := by
  rw [toList_bit, splitAtLastMark_eq_some_iff]
  exact ⟨rfl, not_infix_of_notMem Nat.underscore_not_in_toDigits⟩

theorem splitAtLastMark_temporary (n : Nat) : splitAtLastMark (temporary n).toList = none := by
  have hd : ∀ index, Nat.toDigits 10 n ≠ 'b' :: index := by
    intro index h
    have hb : 'b' ∈ Nat.toDigits 10 n := by rw [h]; exact List.mem_cons_self
    have hdigit := Nat.isDigit_of_mem_toDigits (by decide) (by decide) hb
    exact absurd hdigit (by decide)
  rw [toList_temporary]
  apply splitAtLastMark_cons_of_none _ (by simp)
  apply splitAtLastMark_cons_of_none _ (by simp)
  apply splitAtLastMark_cons_of_none _ (by simp)
  exact splitAtLastMark_cons_of_none (splitAtLastMark_eq_none Nat.underscore_not_in_toDigits)
    fun _ => hd

theorem temporary_inj {m n : Nat} : temporary m = temporary n ↔ m = n := by
  refine ⟨fun h => ?_, fun h => h ▸ rfl⟩
  have hl := congrArg String.toList h
  rw [toList_temporary, toList_temporary] at hl
  exact toDigits_injective (List.append_cancel_left hl)

theorem bit_inj {x y : String} {i j : Nat} : bit x i = bit y j ↔ x = y ∧ i = j := by
  refine ⟨fun h => ?_, fun h => by rw [h.1, h.2]⟩
  have hs := congrArg (fun z : String => splitAtLastMark z.toList) h
  simp only [splitAtLastMark_bit, Option.some.injEq, Prod.mk.injEq] at hs
  exact ⟨String.toList_inj.mp hs.1, toDigits_injective hs.2⟩

theorem temporary_ne_bit (n : Nat) (x : String) (i : Nat) : temporary n ≠ bit x i := by
  intro h
  have hs := splitAtLastMark_bit x i
  rw [← h, splitAtLastMark_temporary] at hs
  cases hs

theorem not_isPlain_temporary (n : Nat) : ¬ IsPlain (temporary n) := by
  simp [IsPlain, toList_temporary]

theorem not_isPlain_bit (x : String) (i : Nat) : ¬ IsPlain (bit x i) := by
  simp [IsPlain, toList_bit]

theorem splitBit?_eq_none_of_isPlain {x : String} (h : IsPlain x) : splitBit? x = none := by
  rw [splitBit?, splitAtLastMark_eq_none h]

theorem splitBit?_bit {x : String} (h : x ≠ "") (i : Nat) :
    splitBit? (bit x i) = some (x, Nat.toDigits 10 i) := by
  have hx : x.toList ≠ [] := fun hl => h (String.toList_inj.mp hl)
  obtain ⟨c, cs, hc⟩ := List.exists_cons_of_ne_nil hx
  rw [splitBit?, splitAtLastMark_bit, hc]
  simp only
  rw [← hc, String.ofList_toList]

theorem temporary_ne_empty (n : Nat) : temporary n ≠ "" := by
  intro h
  have hl := congrArg String.toList h
  rw [toList_temporary] at hl
  cases hl

namespace MadeBelow

variable {m n : Nat} {x : String}

theorem mono (h : MadeBelow m x) (hm : m ≤ n) : MadeBelow n x := by
  cases h with
  | temporary hj => exact .temporary (Nat.lt_of_lt_of_le hj hm)
  | bit i hj => exact .bit i (Nat.lt_of_lt_of_le hj hm)

theorem not_isPlain (h : MadeBelow n x) : ¬ IsPlain x := by
  cases h with
  | temporary _ => exact not_isPlain_temporary _
  | bit i _ => exact not_isPlain_bit _ i

theorem temporary_iff : MadeBelow n (Name.temporary m) ↔ m < n := by
  refine ⟨fun h => ?_, .temporary⟩
  generalize hx : Name.temporary m = x at h
  cases h with
  | temporary hj => exact temporary_inj.mp hx ▸ hj
  | bit i _ => exact absurd hx (temporary_ne_bit _ _ i)

theorem bit_iff {i : Nat} : MadeBelow n (Name.bit (Name.temporary m) i) ↔ m < n := by
  refine ⟨fun h => ?_, .bit i⟩
  generalize hx : Name.bit (Name.temporary m) i = x at h
  cases h with
  | temporary _ => exact absurd hx.symm (temporary_ne_bit _ _ i)
  | bit k hj => exact temporary_inj.mp (bit_inj.mp hx).1 ▸ hj

end MadeBelow

end FlatCircuit.Name
