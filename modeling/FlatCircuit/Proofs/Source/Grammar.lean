import Mathlib.Tactic.Tauto
import FlatCircuit.Proofs.Text
import FlatCircuit.Source.Expr

namespace FlatCircuit

namespace Source

inductive DerivesAtom : List Char → Expr → Prop
  | name {cs : List Char} : Form.isIdentifier cs = true → DerivesAtom cs (.var (.ofList cs))
  | number {cs : List Char} : Form.isNumeral cs = true →
      DerivesAtom cs (.lit (Nat.ofDigitChars 10 cs 0))

inductive Derives : List Char → Expr → Prop
  | atom {cs : List Char} {e : Expr} : DerivesAtom cs e → Derives cs e
  | operation {left right : List Char} {c : Char} {op : Operator} {l r : Expr} :
      DerivesAtom left l → Form.operator? c = some op → Derives right r →
      Derives (left ++ c :: right) (.bin op l r)
  | power {base exponent : List Char} {b : Expr} : DerivesAtom base b →
      Form.isNumeral exponent = true →
      Derives (base ++ '*' :: '*' :: exponent) (.pow b (.lit (Nat.ofDigitChars 10 exponent 0)))
  | choice {left right consequent alternative : List Char} {l r x y : Expr} :
      DerivesAtom left l → DerivesAtom right r → Derives consequent x → Derives alternative y →
      ':' ∉ consequent → ':' ∉ alternative →
      Derives (left ++ '<' :: (right ++ '?' :: (consequent ++ ':' :: alternative)))
        (.ite (.less l r) x y)

end Source

namespace Form

variable {cs rest word : List Char} {c : Char} {e : Expr} {f : Form}

theorem withoutFinalBreak_eq (h : '\n' ∉ cs) : withoutFinalBreak cs = cs := by
  fun_induction withoutFinalBreak cs with
  | case1 => rfl
  | case2 => simp at h
  | case3 c cs _ ih => rw [ih fun hn => h (List.mem_cons_of_mem _ hn)]

theorem mem_withoutFinalBreak (h : c ∈ cs) (hb : c ≠ '\n') : c ∈ withoutFinalBreak cs := by
  fun_induction withoutFinalBreak cs with
  | case1 => exact h
  | case2 => exact absurd (List.mem_singleton.mp h) hb
  | case3 d cs _ ih =>
    rcases List.mem_cons.mp h with rfl | h
    · exact List.mem_cons_self
    · exact List.mem_cons_of_mem _ (ih h)

theorem isAlphanum_of_isIdentifier (h : isIdentifier cs = true) : ∀ c ∈ cs, c.isAlphanum = true := by
  cases cs with
  | nil => cases h
  | cons d cs =>
    obtain ⟨hd, hcs⟩ := Bool.and_eq_true_iff.mp h
    apply List.forall_mem_cons.mpr ⟨_, List.all_eq_true.mp hcs⟩
    exact Text.isAlphanum_iff.mpr (.inl hd)

theorem isAlphanum_of_isNumeral (h : isNumeral cs = true) : ∀ c ∈ cs, c.isAlphanum = true := by
  intro c hc
  have hd := List.all_eq_true.mp (Bool.and_eq_true_iff.mp h).2 c hc
  exact Text.isAlphanum_iff.mpr (.inr hd)

theorem isIdentifier_eq_false_of_isNumeral (h : isNumeral cs = true) : isIdentifier cs = false := by
  cases cs with
  | nil => rfl
  | cons d cs =>
    have hd := List.all_eq_true.mp (Bool.and_eq_true_iff.mp h).2 d List.mem_cons_self
    rw [isIdentifier, Text.isAlpha_eq_false_of_isDigit hd]
    rfl

end Form

namespace Source

variable {cs left right : List Char} {e : Expr}

theorem DerivesAtom.isAlphanum (h : DerivesAtom cs e) : ∀ c ∈ cs, c.isAlphanum = true := by
  cases h with
  | name h => exact Form.isAlphanum_of_isIdentifier h
  | number h => exact Form.isAlphanum_of_isNumeral h

theorem DerivesAtom.ne_nil (h : DerivesAtom cs e) : cs ≠ [] := by
  rintro rfl
  cases h with
  | name h => cases h
  | number h => cases h

theorem atom?_eq_some_iff (h : '\n' ∉ cs) : Form.atom? cs = some e ↔ DerivesAtom cs e := by
  rw [Form.atom?, Form.withoutFinalBreak_eq h]
  constructor
  · intro ha
    split at ha
    · next hi =>
      cases ha
      exact .name hi
    · split at ha
      · next hn =>
        cases ha
        exact .number hn
      · cases ha
  · intro hd
    cases hd with
    | name hi => rw [if_pos hi]
    | number hn =>
      have hi : ¬ Form.isIdentifier cs = true := by
        rw [Form.isIdentifier_eq_false_of_isNumeral hn]
        exact Bool.false_ne_true
      rw [if_neg hi, if_pos hn]

end Source

namespace Form

variable {cs left right rest word consequent alternative : List Char} {c : Char} {op : Operator} {f : Form}

inductive Splits : Form → List Char → Prop
  | atom {cs : List Char} {e : Expr} : Source.DerivesAtom cs e → Splits (.atom e) cs
  | operation {left right : List Char} {c : Char} {op : Operator} : operator? c = some op →
      Splits (.operation left op right) (left ++ c :: right)
  | power {base exponent : List Char} :
      Splits (.power base exponent) (base ++ '*' :: '*' :: exponent)
  | choice {left right consequent alternative cs : List Char} {comparison : Comparison} :
      comparison? cs = some (comparison, right ++ '?' :: (consequent ++ ':' :: alternative)) →
      ':' ∉ consequent → ':' ∉ alternative →
      Splits (.choice left comparison right consequent alternative) (left ++ cs)

theorem eq_of_restOfLine? (h : '\n' ∉ cs) (hr : restOfLine? cs = some rest) : rest = cs := by
  rw [restOfLine?, withoutFinalBreak_eq h] at hr
  split at hr
  · cases hr
    rfl
  · cases hr

theorem restOfLine?_eq_some (h : '\n' ∉ cs) (hne : cs ≠ []) : restOfLine? cs = some cs := by
  rw [restOfLine?, withoutFinalBreak_eq h]
  exact if_pos ⟨hne, h⟩

theorem isAlphanum_of_word? (h : word? cs = some (word, rest)) : ∀ c ∈ word, c.isAlphanum = true := by
  unfold word? at h
  split at h
  · cases h
  · next ht =>
    cases h
    exact List.all_eq_true.mp List.all_takeWhile

theorem eq_of_branches? (h : branches? cs = some (consequent, alternative)) :
    cs = consequent ++ ':' :: alternative ∧ ':' ∉ consequent ∧ ':' ∉ alternative := by
  have happ := List.takeWhile_append_dropWhile (p := (· ≠ ':')) (l := cs)
  have hall := List.all_takeWhile (p := (· ≠ ':')) (l := cs)
  have hhead := List.head?_dropWhile_not (fun c => decide (c ≠ ':')) cs
  unfold branches? at h
  split at h
  · next ht hd =>
    rw [ht] at happ hall
    rw [hd] at happ hhead
    split at h
    · cases h
    · next hn =>
      cases h
      simp only [List.head?_cons, ne_eq, decide_not, Bool.not_eq_eq_eq_not, Bool.not_false,
        decide_eq_true_eq] at hhead
      subst hhead
      refine ⟨happ.symm, fun hm => ?_, hn⟩
      simpa using List.all_eq_true.mp hall _ hm
  · cases h

theorem power?_eq_some (h : power? left cs = some f) :
    ∃ after exponent, cs = '*' :: '*' :: after ∧ restOfLine? after = some exponent ∧ f = .power left exponent := by
  unfold power? at h
  split at h
  · next after =>
    obtain ⟨exponent, he, rfl⟩ := Option.map_eq_some_iff.mp h
    exact ⟨after, exponent, rfl, he, rfl⟩
  · cases h

theorem operation?_eq_some (h : operation? left cs = some f) :
    ∃ c op after right, cs = c :: after ∧ operator? c = some op ∧ restOfLine? after = some right ∧
      f = .operation left op right := by
  cases cs with
  | nil => cases h
  | cons c after =>
    simp only [operation?, Option.bind_eq_bind, Option.bind_eq_some_iff] at h
    obtain ⟨op, hop, right, hr, h⟩ := h
    cases h
    exact ⟨c, op, after, right, rfl, hop, hr, rfl⟩

theorem choice?_eq_some (h : choice? left cs = some f) :
    ∃ comparison right consequent alternative,
      comparison? cs = some (comparison, right ++ '?' :: (consequent ++ ':' :: alternative)) ∧
      (∀ c ∈ right, c.isAlphanum = true) ∧ ':' ∉ consequent ∧ ':' ∉ alternative ∧
      f = .choice left comparison right consequent alternative := by
  simp only [choice?, Option.bind_eq_bind, Option.bind_eq_some_iff, Prod.exists] at h
  obtain ⟨comparison, after, hcmp, right, body, hw, h⟩ := h
  obtain ⟨rfl, -⟩ := eq_append_of_word? hw
  split at h
  · simp only [Option.bind_eq_some_iff, Prod.exists] at h
    obtain ⟨consequent, alternative, hb, h⟩ := h
    cases h
    obtain ⟨rfl, hx, hy⟩ := eq_of_branches? hb
    exact ⟨comparison, right, consequent, alternative, hcmp, isAlphanum_of_word? hw, hx, hy, rfl⟩
  · cases h

theorem of?_eq_some (h : of? cs = some f) :
    (∃ e, atom? cs = some e ∧ f = .atom e) ∨ ∃ left rest, word? cs = some (left, rest) ∧
      (power? left rest = some f ∨ operation? left rest = some f ∨ choice? left rest = some f) := by
  unfold of? at h
  split at h
  · next e ha =>
    cases h
    exact .inl ⟨e, ha, rfl⟩
  · simp only [Option.bind_eq_bind, Option.bind_eq_some_iff, Prod.exists, Option.or_eq_some_iff] at h
    obtain ⟨left, rest, hw, hp | ⟨-, ho | ⟨-, hc⟩⟩⟩ := h
    · exact .inr ⟨left, rest, hw, .inl hp⟩
    · exact .inr ⟨left, rest, hw, .inr (.inl ho)⟩
    · exact .inr ⟨left, rest, hw, .inr (.inr hc)⟩

theorem splits_of_of? (h : '\n' ∉ cs) (hf : of? cs = some f) : f.Splits cs := by
  rcases of?_eq_some hf with ⟨e, ha, rfl⟩ | ⟨left, rest, hw, hparts⟩
  · exact .atom ((Source.atom?_eq_some_iff h).mp ha)
  · obtain ⟨rfl, -⟩ := eq_append_of_word? hw
    have hrest : '\n' ∉ rest := fun hn => h (List.mem_append_right _ hn)
    rcases hparts with hp | ho | hc
    · obtain ⟨after, exponent, rfl, hr, rfl⟩ := power?_eq_some hp
      rw [eq_of_restOfLine? (fun hn => hrest (by simp [hn])) hr]
      exact .power
    · obtain ⟨c, op, after, right, rfl, hop, hr, rfl⟩ := operation?_eq_some ho
      rw [eq_of_restOfLine? (fun hn => hrest (List.mem_cons_of_mem _ hn)) hr]
      exact .operation hop
    · obtain ⟨comparison, right, consequent, alternative, hcmp, -, hx, hy, rfl⟩ := choice?_eq_some hc
      exact .choice hcmp hx hy

/-! A word and the first character after it decide which form a text has. -/

theorem word?_append (hl : ∀ d ∈ left, d.isAlphanum = true) (hne : left ≠ [])
    (hc : c.isAlphanum = false) : word? (left ++ c :: rest) = some (left, c :: rest) := by
  have ht : (left ++ c :: rest).takeWhile Char.isAlphanum = left := by
    rw [List.takeWhile_append_of_pos hl, List.takeWhile_cons, hc]
    exact List.append_nil left
  have hd : (left ++ c :: rest).dropWhile Char.isAlphanum = c :: rest := by
    rw [List.dropWhile_append_of_pos hl, List.dropWhile_cons, hc]
    rfl
  cases left with
  | nil => exact absurd rfl hne
  | cons d left =>
    unfold word?
    rw [ht, hd]

theorem atom?_append_eq_none (hb : c ≠ '\n') (hc : c.isAlphanum = false) : atom? (left ++ c :: rest) = none := by
  have hm : c ∈ withoutFinalBreak (left ++ c :: rest) := mem_withoutFinalBreak (by simp) hb
  have hne : c.isAlphanum ≠ true := Bool.eq_false_iff.mp hc
  rw [atom?, if_neg fun h => hne (isAlphanum_of_isIdentifier h c hm),
    if_neg fun h => hne (isAlphanum_of_isNumeral h c hm)]

theorem of?_append (hb : c ≠ '\n') (hl : ∀ d ∈ left, d.isAlphanum = true) (hne : left ≠ [])
    (hc : c.isAlphanum = false) :
    of? (left ++ c :: rest) =
      (power? left (c :: rest)).or ((operation? left (c :: rest)).or (choice? left (c :: rest))) := by
  unfold of?
  rw [atom?_append_eq_none hb hc, word?_append hl hne hc]
  rfl

theorem branches?_append (hx : ':' ∉ consequent) (hy : ':' ∉ alternative) (hxe : consequent ≠ [])
    (hye : alternative ≠ []) :
    branches? (consequent ++ ':' :: alternative) = some (consequent, alternative) := by
  have hall : ∀ d ∈ consequent, decide (d ≠ ':') = true := by
    intro d hd
    exact decide_eq_true fun hn => hx (hn ▸ hd)
  cases consequent with
  | nil => exact absurd rfl hxe
  | cons d consequent =>
    cases alternative with
    | nil => exact absurd rfl hye
    | cons d' alternative =>
      unfold branches?
      rw [List.takeWhile_append_of_pos hall, List.dropWhile_append_of_pos hall]
      simpa using hy

theorem operator?_cases (h : operator? c = some op) :
    c = '+' ∧ op = .add ∨ c = '-' ∧ op = .sub ∨ c = '*' ∧ op = .mul ∨ c = '/' ∧ op = .div := by
  unfold operator? at h
  split at h <;> cases h <;> simp

theorem isAlphanum_eq_false_of_operator? (h : operator? c = some op) : c.isAlphanum = false := by
  rcases operator?_cases h with ⟨rfl, -⟩ | ⟨rfl, -⟩ | ⟨rfl, -⟩ | ⟨rfl, -⟩ <;> rfl

end Form

namespace Source

variable {cs rest text : List Char} {c : Char} {e : Expr} {n : Expr}

def isExprChar (c : Char) : Bool :=
  c.isAlphanum || c ∈ ['+', '-', '*', '/', '<', '?', ':']

theorem isExprChar_of_isAlphanum (h : c.isAlphanum = true) : isExprChar c = true := by
  rw [isExprChar, h, Bool.true_or]

theorem isExprChar_of_operator? {op : Operator} (h : Form.operator? c = some op) :
    isExprChar c = true := by
  rcases Form.operator?_cases h with ⟨rfl, -⟩ | ⟨rfl, -⟩ | ⟨rfl, -⟩ | ⟨rfl, -⟩ <;> rfl

theorem DerivesAtom.chars (h : DerivesAtom cs e) : ∀ c ∈ cs, isExprChar c = true :=
  fun c hc => isExprChar_of_isAlphanum (h.isAlphanum c hc)

theorem Derives.chars (h : Derives cs e) : ∀ c ∈ cs, isExprChar c = true := by
  induction h with
  | atom h => exact h.chars
  | operation hl hop _ ih =>
    apply List.forall_mem_append.mpr ⟨hl.chars, _⟩
    exact List.forall_mem_cons.mpr ⟨isExprChar_of_operator? hop, ih⟩
  | power hb he =>
    apply List.forall_mem_append.mpr ⟨hb.chars, _⟩
    refine List.forall_mem_cons.mpr ⟨rfl, List.forall_mem_cons.mpr ⟨rfl, ?_⟩⟩
    exact (DerivesAtom.number he).chars
  | choice hl hr _ _ _ _ ihx ihy =>
    apply List.forall_mem_append.mpr ⟨hl.chars, List.forall_mem_cons.mpr ⟨rfl, _⟩⟩
    apply List.forall_mem_append.mpr ⟨hr.chars, List.forall_mem_cons.mpr ⟨rfl, _⟩⟩
    exact List.forall_mem_append.mpr ⟨ihx, List.forall_mem_cons.mpr ⟨rfl, ihy⟩⟩

theorem DerivesAtom.exists_cons (h : DerivesAtom cs e) :
    ∃ c rest, cs = c :: rest ∧ c.isAlphanum = true := by
  cases cs with
  | nil => exact absurd rfl h.ne_nil
  | cons c rest => exact ⟨c, rest, rfl, h.isAlphanum c List.mem_cons_self⟩

theorem Derives.exists_cons (h : Derives cs e) : ∃ c rest, cs = c :: rest ∧ c.isAlphanum = true := by
  have hcons : ∀ {left after : List Char} {l : Expr}, DerivesAtom left l →
      ∃ c rest, left ++ after = c :: rest ∧ c.isAlphanum = true := by
    intro left after l hl
    obtain ⟨c, rest, rfl, hc⟩ := hl.exists_cons
    exact ⟨c, rest ++ after, rfl, hc⟩
  cases h with
  | atom h => exact h.exists_cons
  | operation hl _ _ => exact hcons hl
  | power hb _ => exact hcons hb
  | choice hl _ _ _ _ _ => exact hcons hl

theorem Derives.ne_nil (h : Derives cs e) : cs ≠ [] := by
  obtain ⟨c, rest, rfl, _⟩ := h.exists_cons
  exact List.cons_ne_nil c rest

def Solid (cs : List Char) : Prop :=
  ∀ c ∈ cs, c ∉ ['\n', ' ', '\t']

theorem Solid.breakless (h : Solid cs) : '\n' ∉ cs :=
  fun hm => h _ hm (by decide)

theorem Solid.append_right {left : List Char} (h : Solid (left ++ cs)) : Solid cs :=
  (List.forall_mem_append.mp h).2

theorem Solid.append_left {right : List Char} (h : Solid (cs ++ right)) : Solid cs :=
  (List.forall_mem_append.mp h).1

theorem Solid.tail (h : Solid (c :: cs)) : Solid cs :=
  (List.forall_mem_cons.mp h).2

theorem Solid.withoutSpaces_eq (h : Solid cs) : withoutSpaces cs = cs := by
  apply List.filter_eq_self.mpr
  intro c hc
  have hn := h c hc
  simp only [List.mem_cons, not_or] at hn
  simp [hn.2.1, hn.2.2.1]

theorem solid_withoutSpaces (h : '\n' ∉ text) : Solid (withoutSpaces text) := by
  intro c hc
  obtain ⟨hm, hk⟩ := List.mem_filter.mp hc
  have hb : c ≠ '\n' := fun he => h (he ▸ hm)
  simpa [hb] using hk

theorem Derives.solid (h : Derives cs e) : Solid cs := by
  intro c hc hs
  have hx := h.chars c hc
  simp only [List.mem_cons, List.not_mem_nil, or_false] at hs
  rcases hs with rfl | rfl | rfl <;> exact absurd hx (by decide)

theorem readAtom_eq_ok_iff {cause : String → SourceCause} (h : '\n' ∉ cs) :
    readAtom cause cs = .ok e ↔ DerivesAtom cs e := by
  rw [← atom?_eq_some_iff h, readAtom]
  cases Form.atom? cs <;> simp

theorem readExponent_eq_ok_iff :
    readExponent text cs = .ok n ↔
      Form.isNumeral cs = true ∧ n = .lit (Nat.ofDigitChars 10 cs 0) := by
  unfold readExponent
  split
  · next h => simp [h, eq_comm]
  · next h => simp [h]

theorem bind_eq_ok {ε α β : Type} {x : Except ε α} {f : α → Except ε β} {b : β}
    (h : x >>= f = .ok b) : ∃ a, x = .ok a ∧ f a = .ok b := by
  cases x with
  | error => cases h
  | ok a => exact ⟨a, rfl, h⟩

theorem readCondition_eq_ok {left right : List Char} {comparison : Comparison} {t : Condition}
    (h : readCondition left comparison right = .ok t) :
    comparison = .less ∧ ∃ l r, readAtom .unreadableCompared left = .ok l ∧
      readAtom .unreadableCompared right = .ok r ∧ t = .less l r := by
  unfold readCondition at h
  split at h
  · obtain ⟨l, hl, h₁⟩ := bind_eq_ok h
    obtain ⟨r, hr, h₂⟩ := bind_eq_ok h₁
    cases h₂
    exact ⟨rfl, l, r, hl, hr, rfl⟩
  · cases h

theorem eq_cons_of_comparison? (h : Form.comparison? cs = some (.less, rest)) : cs = '<' :: rest := by
  unfold Form.comparison? at h
  split at h <;> cases h
  rfl

theorem derives_of_readExpr (ht : '\n' ∉ text) (h : readExpr text = .ok e) :
    Derives (withoutSpaces text) e := by
  have hs := solid_withoutSpaces ht
  fun_induction readExpr text generalizing e with
  | case1 text _ => cases h
  | case2 text e' hf =>
    cases h
    cases Form.splits_of_of? hs.breakless hf with
    | atom ha => exact .atom ha
  | case3 text left op right hf ih =>
    obtain ⟨l, hl, h₁⟩ := bind_eq_ok h
    obtain ⟨r, hr, h₂⟩ := bind_eq_ok h₁
    cases h₂
    generalize withoutSpaces text = cs at hs hf
    cases Form.splits_of_of? hs.breakless hf with
    | operation hop =>
      have hsr := hs.append_right.tail
      have hdr := ih hsr.breakless hr (solid_withoutSpaces hsr.breakless)
      rw [hsr.withoutSpaces_eq] at hdr
      exact .operation ((readAtom_eq_ok_iff hs.append_left.breakless).mp hl) hop hdr
  | case4 text base exponent hf =>
    obtain ⟨b, hb, h₁⟩ := bind_eq_ok h
    obtain ⟨n, hn, h₂⟩ := bind_eq_ok h₁
    cases h₂
    generalize withoutSpaces text = cs at hs hf
    cases Form.splits_of_of? hs.breakless hf with
    | power =>
      obtain ⟨hnum, rfl⟩ := readExponent_eq_ok_iff.mp hn
      exact .power ((readAtom_eq_ok_iff hs.append_left.breakless).mp hb) hnum
  | case5 text left comparison right consequent alternative hf ihx ihy =>
    obtain ⟨t, ht, h₁⟩ := bind_eq_ok h
    obtain ⟨x, hx, h₂⟩ := bind_eq_ok h₁
    obtain ⟨y, hy, h₃⟩ := bind_eq_ok h₂
    cases h₃
    generalize withoutSpaces text = cs at hs hf
    cases Form.splits_of_of? hs.breakless hf with
    | choice hcmp hcx hcy =>
      obtain ⟨rfl, l, r, hl, hr, rfl⟩ := readCondition_eq_ok ht
      rw [eq_cons_of_comparison? hcmp] at hs ⊢
      have hsr := hs.append_right.tail
      have hsx := hsr.append_right.tail.append_left
      have hsy := hsr.append_right.tail.append_right.tail
      have hdx := ihx hsx.breakless hx (solid_withoutSpaces hsx.breakless)
      have hdy := ihy hsy.breakless hy (solid_withoutSpaces hsy.breakless)
      rw [hsx.withoutSpaces_eq] at hdx
      rw [hsy.withoutSpaces_eq] at hdy
      exact .choice ((readAtom_eq_ok_iff hs.append_left.breakless).mp hl)
        ((readAtom_eq_ok_iff hsr.append_left.breakless).mp hr) hdx hdy hcx hcy

theorem power?_eq_none {left right : List Char} (hd : Derives right e) :
    Form.power? left (c :: right) = none := by
  obtain ⟨d, rest, rfl, ha⟩ := hd.exists_cons
  unfold Form.power?
  split
  · next h =>
    simp only [List.cons.injEq] at h
    rw [h.2.1] at ha
    exact absurd ha (by decide)
  · rfl

theorem of?_operation {left right : List Char} {op : Operator} {l r : Expr}
    (hl : DerivesAtom left l) (hop : Form.operator? c = some op) (hr : Derives right r) :
    Form.of? (left ++ c :: right) = some (.operation left op right) := by
  have hb : c ≠ '\n' := by
    rintro rfl
    cases hop
  rw [Form.of?_append hb hl.isAlphanum hl.ne_nil (Form.isAlphanum_eq_false_of_operator? hop),
    power?_eq_none hr]
  simp [Form.operation?, hop, Form.restOfLine?_eq_some hr.solid.breakless hr.ne_nil]

theorem of?_power {base exponent : List Char} {b : Expr} (hb : DerivesAtom base b)
    (he : Form.isNumeral exponent = true) :
    Form.of? (base ++ '*' :: '*' :: exponent) = some (.power base exponent) := by
  have hn := Derives.atom (DerivesAtom.number he)
  rw [Form.of?_append (by decide) hb.isAlphanum hb.ne_nil rfl]
  simp [Form.power?, Form.restOfLine?_eq_some hn.solid.breakless hn.ne_nil]

theorem of?_choice {left right consequent alternative : List Char} {l r : Expr}
    (hl : DerivesAtom left l) (hr : DerivesAtom right r) (hx : consequent ≠ []) (hy : alternative ≠ [])
    (hcx : ':' ∉ consequent) (hcy : ':' ∉ alternative) :
    Form.of? (left ++ '<' :: (right ++ '?' :: (consequent ++ ':' :: alternative))) =
      some (.choice left .less right consequent alternative) := by
  obtain ⟨d, rest, rfl, hd⟩ := hr.exists_cons
  have hcmp : Form.comparison? ('<' :: (d :: rest ++ '?' :: (consequent ++ ':' :: alternative))) =
      some (.less, d :: rest ++ '?' :: (consequent ++ ':' :: alternative)) := by
    have hne : d ≠ '=' := by
      rintro rfl
      exact absurd hd (by decide)
    unfold Form.comparison?
    split <;> simp_all
  have hw : Form.word? (d :: rest ++ '?' :: (consequent ++ ':' :: alternative)) =
      some (d :: rest, '?' :: (consequent ++ ':' :: alternative)) :=
    Form.word?_append hr.isAlphanum hr.ne_nil rfl
  have hc : Form.choice? left ('<' :: (d :: rest ++ '?' :: (consequent ++ ':' :: alternative))) =
      some (.choice left .less (d :: rest) consequent alternative) := by
    simp only [Form.choice?, hcmp, hw, Form.branches?_append hcx hcy hx hy,
      Option.bind_eq_bind, Option.bind_some, Option.pure_def]
  rw [Form.of?_append (by decide) hl.isAlphanum hl.ne_nil rfl, hc]
  rfl

theorem readAtom_of_derivesAtom {cause : String → SourceCause} (h : DerivesAtom cs e) :
    readAtom cause cs = .ok e :=
  (readAtom_eq_ok_iff (Derives.atom h).solid.breakless).mpr h

theorem readExpr_eq (text : List Char) :
    readExpr text =
      match Form.of? (withoutSpaces text) with
      | none => .error (.unparsable (.ofList text))
      | some (.atom e) => .ok e
      | some (.operation left op right) => do
        let l ← readAtom .unreadableOperand left
        let r ← readExpr right
        return .bin op l r
      | some (.power base exponent) => do
        let b ← readAtom .unreadableOperand base
        let n ← readExponent text exponent
        return .pow b n
      | some (.choice left comparison right consequent alternative) => do
        let c ← readCondition left comparison right
        let x ← readExpr consequent
        let y ← readExpr alternative
        return .ite c x y := by
  rw [readExpr]
  split <;> simp_all

theorem readExpr_of_derives (h : Derives cs e) (ht : withoutSpaces text = cs) :
    readExpr text = .ok e := by
  induction h generalizing text with
  | atom h =>
    rw [readExpr_eq, ht, Form.of?, (atom?_eq_some_iff (Derives.atom h).solid.breakless).mpr h]
  | operation hl hop hr ih =>
    rw [readExpr_eq, ht, of?_operation hl hop hr]
    simp only [readAtom_of_derivesAtom hl, ih hr.solid.withoutSpaces_eq]
    rfl
  | power hb he =>
    rw [readExpr_eq, ht, of?_power hb he]
    simp only [readAtom_of_derivesAtom hb, readExponent, he]
    rfl
  | choice hl hr hx hy hcx hcy ihx ihy =>
    rw [readExpr_eq, ht, of?_choice hl hr hx.ne_nil hy.ne_nil hcx hcy]
    simp only [readCondition, readAtom_of_derivesAtom hl, readAtom_of_derivesAtom hr,
      ihx hx.solid.withoutSpaces_eq, ihy hy.solid.withoutSpaces_eq]
    rfl

end Source

end FlatCircuit
