import FlatCircuit.Proofs.Source.Numerals

namespace FlatCircuit

namespace Source

inductive Leaf : List Char → Expr → Type
  | name {cs : List Char} : Form.isIdentifier cs = true → Leaf cs (.var (.ofList cs))
  | number {cs : List Char} : Form.isNumeral cs = true → Leaf cs (.lit (Nat.ofDigitChars 10 cs 0))

inductive Tree : List Char → Expr → Type
  | atom {cs : List Char} {e : Expr} : Leaf cs e → Tree cs e
  | operation {left right : List Char} {c : Char} {op : Operator} {l r : Expr} :
      Leaf left l → Form.operator? c = some op → Tree right r →
      Tree (left ++ c :: right) (.bin op l r)
  | power {base exponent : List Char} {b : Expr} : Leaf base b → Form.isNumeral exponent = true →
      Tree (base ++ '*' :: '*' :: exponent) (.pow b (.lit (Nat.ofDigitChars 10 exponent 0)))
  | choice {left right consequent alternative : List Char} {l r x y : Expr} :
      Leaf left l → Leaf right r → Tree consequent x → Tree alternative y →
      ':' ∉ consequent → ':' ∉ alternative →
      Tree (left ++ '<' :: (right ++ '?' :: (consequent ++ ':' :: alternative)))
        (.ite (.less l r) x y)

variable {u u' text : List Char} {e e' : Expr} {cause : SourceCause}

theorem Leaf.derivesAtom (a : Leaf u e) : DerivesAtom u e := by
  cases a with
  | name h => exact .name h
  | number h => exact .number h

theorem Tree.derives (t : Tree u e) : Derives u e := by
  induction t with
  | atom a => exact .atom a.derivesAtom
  | operation l hop _ ih => exact .operation l.derivesAtom hop ih
  | power b he => exact .power b.derivesAtom he
  | choice l r _ _ hx hy ihx ihy => exact .choice l.derivesAtom r.derivesAtom ihx ihy hx hy

def Tree.form : Tree u e → Form
  | @atom _ e _ => .atom e
  | @operation left right _ op _ _ _ _ _ => .operation left op right
  | @power base exponent _ _ _ => .power base exponent
  | @choice left right consequent alternative _ _ _ _ _ _ _ _ _ _ =>
    .choice left .less right consequent alternative

theorem Tree.of?_eq (t : Tree u e) : Form.of? u = some t.form := by
  cases t with
  | atom a =>
    have hd := Derives.atom a.derivesAtom
    rw [Form.of?, (atom?_eq_some_iff hd.solid.breakless).mpr a.derivesAtom]
    rfl
  | operation l hop r => exact of?_operation l.derivesAtom hop r.derives
  | power b he => exact of?_power b.derivesAtom he
  | choice l r x y hx hy =>
    exact of?_choice l.derivesAtom r.derivesAtom x.derives.ne_nil y.derives.ne_nil hx hy

theorem Leaf.unique (a : Leaf u e) (a' : Leaf u e') :
    (⟨e, a⟩ : (e : Expr) × Leaf u e) = ⟨e', a'⟩ := by
  cases a with
  | name h =>
    cases a' with
    | name => rfl
    | number h' => cases h.symm.trans (Form.isIdentifier_eq_false_of_isNumeral h')
  | number h =>
    cases a' with
    | name h' => cases h'.symm.trans (Form.isIdentifier_eq_false_of_isNumeral h)
    | number => rfl

theorem Tree.form_eq (t : Tree u e) (t' : Tree u' e') (h : u = u') : t.form = t'.form :=
  Option.some.inj (t.of?_eq.symm.trans ((congrArg Form.of? h).trans t'.of?_eq))

theorem Tree.unique (t : Tree u e) (t' : Tree u' e') (h : u = u') :
    (⟨u, e, t⟩ : (u : List Char) × (e : Expr) × Tree u e) = ⟨u', e', t'⟩ := by
  have hform := t.form_eq t' h
  induction t generalizing u' e' with
  | atom a =>
    cases t' with
    | atom a' =>
      subst h
      cases a.unique a'
      rfl
    | operation | power | choice => cases hform
  | operation l hop r ih =>
    cases t' with
    | operation l' hop' r' =>
      cases hform
      cases List.append_cancel_left h
      cases l.unique l'
      cases ih r' rfl (r.form_eq r' rfl)
      rfl
    | atom | power | choice => cases hform
  | power b he =>
    cases t' with
    | power b' he' =>
      cases hform
      cases b.unique b'
      rfl
    | atom | operation | choice => cases hform
  | choice l r x y hx hy ihx ihy =>
    cases t' with
    | choice l' r' x' y' hx' hy' =>
      cases hform
      cases l.unique l'
      cases r.unique r'
      cases ihx x' rfl (x.form_eq x' rfl)
      cases ihy y' rfl (y.form_eq y' rfl)
      rfl
    | atom | operation | power => cases hform

def Leaf.numerals : Leaf u e → List (List Char)
  | .name _ => []
  | .number _ => [u]

def Tree.numerals : {u : List Char} → {e : Expr} → Tree u e → List (List Char)
  | _, _, .atom a => a.numerals
  | _, _, .operation l _ r => l.numerals ++ r.numerals
  | _, _, @power _ exponent _ b _ => b.numerals ++ [exponent]
  | _, _, .choice l r x y _ _ => l.numerals ++ r.numerals ++ (x.numerals ++ y.numerals)

theorem Leaf.atomNumerals_eq (a : Leaf u e) : atomNumerals u = a.numerals := by
  rw [atomNumerals, Form.withoutFinalBreak_eq (Derives.atom a.derivesAtom).solid.breakless]
  cases a with
  | name h =>
    have hn : Form.isNumeral u = false := by
      rw [Bool.eq_false_iff]
      intro hn
      cases h.symm.trans (Form.isIdentifier_eq_false_of_isNumeral hn)
    rw [numeral, hn]
    rfl
  | number h =>
    rw [numeral, if_pos h]
    rfl

theorem Tree.exprNumerals_eq (t : Tree u e) (ht : withoutSpaces text = u) : exprNumerals text = t.numerals := by
  induction t generalizing text with
  | atom a => rw [exprNumerals_atom a.derivesAtom ht, a.atomNumerals_eq, numerals]
  | operation l hop r ih =>
    rw [exprNumerals_operation l.derivesAtom hop r.derives ht, l.atomNumerals_eq,
      ih r.derives.solid.withoutSpaces_eq, numerals]
  | power b he => rw [exprNumerals_power b.derivesAtom he ht, b.atomNumerals_eq, numerals]
  | choice l r x y hx hy ihx ihy =>
    rw [exprNumerals_choice l.derivesAtom r.derivesAtom x.derives y.derives hx hy ht, l.atomNumerals_eq,
      r.atomNumerals_eq, ihx x.derives.solid.withoutSpaces_eq, ihy y.derives.solid.withoutSpaces_eq, numerals]

def IsExpressionCause (cause : SourceCause) : Prop :=
  cause.kind = "UnparsableExpression" ∨ cause.kind = "UnsupportedConditionOperator"

theorem bind_eq_error {ε α β : Type} {x : Except ε α} {f : α → Except ε β} {err : ε}
    (h : x >>= f = .error err) : x = .error err ∨ ∃ a, x = .ok a ∧ f a = .error err := by
  cases x with
  | error =>
    cases h
    exact .inl rfl
  | ok a => exact .inr ⟨a, rfl, h⟩

theorem cause_of_readAtom {make : String → SourceCause} (hm : ∀ s, IsExpressionCause (make s))
    (h : readAtom make text = .error cause) : IsExpressionCause cause := by
  unfold readAtom at h
  split at h <;> cases h
  exact hm _

theorem cause_of_readExponent {digits : List Char} (h : readExponent text digits = .error cause) :
    IsExpressionCause cause := by
  unfold readExponent at h
  split at h <;> cases h
  exact .inl rfl

theorem cause_of_readCondition {left right : List Char} {comparison : Comparison}
    (h : readCondition left comparison right = .error cause) : IsExpressionCause cause := by
  unfold readCondition at h
  split at h
  · rcases bind_eq_error h with hl | ⟨l, _, h⟩
    · exact cause_of_readAtom (fun _ => .inl rfl) hl
    · rcases bind_eq_error h with hr | ⟨r, _, h⟩
      · exact cause_of_readAtom (fun _ => .inl rfl) hr
      · cases h
  · cases h
    exact .inr rfl

theorem cause_of_readExpr (h : readExpr text = .error cause) : IsExpressionCause cause := by
  fun_induction readExpr text generalizing cause with
  | case1 text _ =>
    cases h
    exact .inl rfl
  | case2 => cases h
  | case3 text left op right _ ih =>
    rcases bind_eq_error h with hl | ⟨l, _, h⟩
    · exact cause_of_readAtom (fun _ => .inl rfl) hl
    · rcases bind_eq_error h with hr | ⟨r, _, h⟩
      · exact ih hr
      · cases h
  | case4 text base exponent _ =>
    rcases bind_eq_error h with hb | ⟨b, _, h⟩
    · exact cause_of_readAtom (fun _ => .inl rfl) hb
    · rcases bind_eq_error h with hn | ⟨n, _, h⟩
      · exact cause_of_readExponent hn
      · cases h
  | case5 text left comparison right consequent alternative _ ihx ihy =>
    rcases bind_eq_error h with hc | ⟨c, _, h⟩
    · exact cause_of_readCondition hc
    · rcases bind_eq_error h with hx | ⟨x, _, h⟩
      · exact ihx hx
      · rcases bind_eq_error h with hy | ⟨y, _, h⟩
        · exact ihy hy
        · cases h

end Source

namespace Expr

open Source

variable {limit : DigitLimit} {s : String}

theorem readWithin_eq_ok_iff {e : Expr} : readWithin limit s = .ok e ↔
    Expr.read s = .ok e ∧ ∀ ds ∈ exprNumerals s.toList, limit.reads ds = true :=
  DigitLimit.reading_eq_ok_iff

end Expr

end FlatCircuit
