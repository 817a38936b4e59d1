import FlatCircuit.Proofs.Limit
import FlatCircuit.Proofs.Source.Lines
import FlatCircuit.Source.Limited

namespace FlatCircuit

namespace DigitLimit

variable {ε α : Type} {limit : DigitLimit} {numerals : List (List Char)} {x : Except ε α}

theorem reading_eq_ok_iff {a : α} :
    limit.reading numerals (x.mapError .raised) = .ok a ↔
      x = .ok a ∧ ∀ ds ∈ numerals, limit.reads ds = true := by
  rw [← List.all_eq_true, reading]
  cases x <;> cases numerals.all limit.reads <;> simp [Except.mapError]

end DigitLimit

namespace Source

def number (digits : List Char) : Int :=
  (Nat.ofDigitChars 10 digits 0 : Nat)

section Steps

variable {ε α : Type} {part : Except ε α} {numerals rest : List (List Char)} {cs left right : List Char} {e : Expr}
  {cause : String → SourceCause}

@[simp]
theorem upTo_ok (a : α) : upTo (.ok a : Except ε α) numerals rest = numerals ++ rest := rfl

theorem mem_or_mem_of_mem_upTo {ds : List Char} (h : ds ∈ upTo part numerals rest) : ds ∈ numerals ∨ ds ∈ rest := by
  refine (List.mem_append.mp h).imp_right fun h => ?_
  cases hp : part.isOk with
  | true => rwa [hp] at h
  | false =>
    rw [hp] at h
    cases h

theorem isNumeral_of_mem_numeral {ds : List Char} (h : ds ∈ numeral cs) : Form.isNumeral ds = true := by
  unfold numeral at h
  split at h
  · next hn => exact List.mem_singleton.mp h ▸ hn
  · cases h

theorem literals_of_atom? (h : Form.atom? cs = some e) : e.literals = (atomNumerals cs).map number := by
  unfold Form.atom? at h
  unfold atomNumerals numeral
  split at h
  · next hi =>
    cases h
    have hn : Form.isNumeral (Form.withoutFinalBreak cs) = false := by
      rw [Bool.eq_false_iff]
      intro hn
      cases hi.symm.trans (Form.isIdentifier_eq_false_of_isNumeral hn)
    rw [hn]
    rfl
  · split at h
    · next hn =>
      cases h
      rw [if_pos hn]
      rfl
    · cases h

theorem literals_of_readAtom (h : readAtom cause cs = .ok e) : e.literals = (atomNumerals cs).map number := by
  unfold readAtom at h
  split at h
  · next ha =>
    cases h
    exact literals_of_atom? ha
  · cases h

theorem literals_of_readExponent {text : List Char} (h : readExponent text cs = .ok e) :
    e.literals = (numeral cs).map number := by
  unfold readExponent at h
  split at h
  · next hn =>
    cases h
    rw [numeral, if_pos hn]
    rfl
  · cases h

theorem literals_of_readCondition {comparison : Comparison} {t : Condition}
    (h : readCondition left comparison right = .ok t) :
    t.literals = (conditionNumerals left comparison right).map number := by
  obtain ⟨rfl, l, r, hl, hr, rfl⟩ := readCondition_eq_ok h
  rw [conditionNumerals, hl, upTo_ok, List.map_append, ← literals_of_readAtom hl, ← literals_of_readAtom hr]
  rfl

theorem isNumeral_of_mem_conditionNumerals {comparison : Comparison} {ds : List Char}
    (h : ds ∈ conditionNumerals left comparison right) : Form.isNumeral ds = true := by
  unfold conditionNumerals at h
  split at h
  · exact (mem_or_mem_of_mem_upTo h).elim isNumeral_of_mem_numeral isNumeral_of_mem_numeral
  · cases h

end Steps

section Expressions

variable {text cs ds left right base exponent consequent alternative : List Char} {c : Char} {op : Operator}
  {e b l r x y : Expr} {choices : Bool}

theorem exprNumerals_eq (text : List Char) :
    exprNumerals text =
      match Form.of? (withoutSpaces text) with
      | none => []
      | some (.atom _) => atomNumerals (withoutSpaces text)
      | some (.operation left _ right) =>
        upTo (readAtom .unreadableOperand left) (atomNumerals left) (exprNumerals right)
      | some (.power base exponent) =>
        upTo (readAtom .unreadableOperand base) (atomNumerals base) (numeral exponent)
      | some (.choice left comparison right consequent alternative) =>
        upTo (readCondition left comparison right) (conditionNumerals left comparison right)
          (upTo (readExpr consequent) (exprNumerals consequent) (exprNumerals alternative)) := by
  rw [exprNumerals]
  split <;> simp_all

theorem isNumeral_of_mem_exprNumerals (h : ds ∈ exprNumerals text) : Form.isNumeral ds = true := by
  fun_induction exprNumerals text with
  | case1 => cases h
  | case2 => exact isNumeral_of_mem_numeral h
  | case3 text left op right _ ih => exact (mem_or_mem_of_mem_upTo h).elim isNumeral_of_mem_numeral ih
  | case4 => exact (mem_or_mem_of_mem_upTo h).elim isNumeral_of_mem_numeral isNumeral_of_mem_numeral
  | case5 text left comparison right consequent alternative _ ihx ihy =>
    refine (mem_or_mem_of_mem_upTo h).elim isNumeral_of_mem_conditionNumerals fun h => ?_
    exact (mem_or_mem_of_mem_upTo h).elim ihx ihy

theorem atom?_of_of? (h : Form.of? cs = some (.atom e)) : Form.atom? cs = some e := by
  rcases Form.of?_eq_some h with ⟨a, ha, hf⟩ | ⟨left, rest, _, hp | ho | hc⟩
  · cases hf
    exact ha
  · obtain ⟨_, _, _, _, hf⟩ := Form.power?_eq_some hp
    cases hf
  · obtain ⟨_, _, _, _, _, _, _, hf⟩ := Form.operation?_eq_some ho
    cases hf
  · obtain ⟨_, _, _, _, _, _, _, _, hf⟩ := Form.choice?_eq_some hc
    cases hf

theorem literals_of_readExpr (h : readExpr text = .ok e) : e.literals = (exprNumerals text).map number := by
  fun_induction readExpr text generalizing e with
  | case1 => cases h
  | case2 text a hf =>
    cases h
    rw [exprNumerals_eq, hf]
    exact literals_of_atom? (atom?_of_of? hf)
  | case3 text left op right hf ih =>
    obtain ⟨l, hl, h⟩ := bind_eq_ok h
    obtain ⟨r, hr, h⟩ := bind_eq_ok h
    cases h
    rw [exprNumerals_eq, hf]
    simp only [hl, upTo_ok, List.map_append, ← literals_of_readAtom hl, ← ih hr]
    rfl
  | case4 text base exponent hf =>
    obtain ⟨b, hb, h⟩ := bind_eq_ok h
    obtain ⟨n, hn, h⟩ := bind_eq_ok h
    cases h
    rw [exprNumerals_eq, hf]
    simp only [hb, upTo_ok, List.map_append, ← literals_of_readAtom hb, ← literals_of_readExponent hn]
    rfl
  | case5 text left comparison right consequent alternative hf ihx ihy =>
    obtain ⟨t, ht, h⟩ := bind_eq_ok h
    obtain ⟨x, hx, h⟩ := bind_eq_ok h
    obtain ⟨y, hy, h⟩ := bind_eq_ok h
    cases h
    rw [exprNumerals_eq, hf]
    simp only [ht, hx, upTo_ok, List.map_append, ← literals_of_readCondition ht, ← ihx hx, ← ihy hy]
    exact List.append_assoc _ _ _

theorem exprNumerals_atom (h : DerivesAtom cs e) (ht : withoutSpaces text = cs) :
    exprNumerals text = atomNumerals cs := by
  rw [exprNumerals_eq, ht, Form.of?, (atom?_eq_some_iff (Derives.atom h).solid.breakless).mpr h]

theorem exprNumerals_operation (hl : DerivesAtom left l) (hop : Form.operator? c = some op) (hr : Derives right r)
    (ht : withoutSpaces text = left ++ c :: right) :
    exprNumerals text = atomNumerals left ++ exprNumerals right := by
  rw [exprNumerals_eq, ht, of?_operation hl hop hr]
  simp only [readAtom_of_derivesAtom hl, upTo_ok]

theorem exprNumerals_power (hb : DerivesAtom base b) (he : Form.isNumeral exponent = true)
    (ht : withoutSpaces text = base ++ '*' :: '*' :: exponent) :
    exprNumerals text = atomNumerals base ++ [exponent] := by
  rw [exprNumerals_eq, ht, of?_power hb he]
  simp only [readAtom_of_derivesAtom hb, upTo_ok, numeral, he, if_true]

theorem exprNumerals_choice (hl : DerivesAtom left l) (hr : DerivesAtom right r) (hx : Derives consequent x)
    (hy : Derives alternative y) (hcx : ':' ∉ consequent) (hcy : ':' ∉ alternative)
    (ht : withoutSpaces text = left ++ '<' :: (right ++ '?' :: (consequent ++ ':' :: alternative))) :
    exprNumerals text =
      atomNumerals left ++ atomNumerals right ++ (exprNumerals consequent ++ exprNumerals alternative) := by
  rw [exprNumerals_eq, ht, of?_choice hl hr hx.ne_nil hy.ne_nil hcx hcy]
  have hc : readCondition left .less right = .ok (.less l r) := by
    rw [readCondition, readAtom_of_derivesAtom hl, readAtom_of_derivesAtom hr]
    rfl
  simp only [hc, conditionNumerals, readAtom_of_derivesAtom hl, readExpr_of_derives hx hx.solid.withoutSpaces_eq,
    upTo_ok]

end Expressions

section Texts

variable {e : Expr} {choices : Bool}

end Texts

section Place

variable {text cs ds left right : List Char} {comparison : Comparison} {rest : List (List Char)}

end Place

end Source

end FlatCircuit
