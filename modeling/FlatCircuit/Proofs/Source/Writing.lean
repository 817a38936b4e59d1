import FlatCircuit.Proofs.Source.Grammar

namespace FlatCircuit

namespace Expr

def isSourceAtom : Expr → Bool
  | .lit n => decide (0 ≤ n)
  | .var x => Form.isIdentifier x.toList
  | _ => false

def isSource (choices : Bool) : Expr → Bool
  | .bin op l r => decide (op ≠ .blank) && l.isSourceAtom && r.isSource choices
  | .pow b (.lit n) => b.isSourceAtom && decide (0 ≤ n)
  | .ite (.less l r) x y =>
    choices && l.isSourceAtom && r.isSourceAtom && x.isSource false && y.isSource false
  | e => e.isSourceAtom

variable {e : Expr}

theorem isAtom_of_isSourceAtom (h : e.isSourceAtom = true) : e.isAtom = true := by
  cases e <;> first | rfl | cases h

theorem isSource_of_isSourceAtom (h : e.isSourceAtom = true) (choices : Bool) : e.isSource choices = true := by
  cases e with
  | lit | var => exact h
  | bin | pow | ite | hole => cases h

theorem isChoice_eq_false_of_isSource (h : e.isSource false = true) : e.isChoice = false := by
  cases e with
  | ite c x y => cases c <;> cases h
  | lit | var | bin | pow | hole => rfl

theorem isSource_pow {choices : Bool} {b n : Expr} :
    (pow b n).isSource choices = true ↔ b.isSourceAtom = true ∧ ∃ m : Nat, n = .lit m := by
  cases n with
  | lit n =>
    simp only [isSource, Bool.and_eq_true, decide_eq_true_eq, lit.injEq]
    exact and_congr_right fun _ => ⟨Int.eq_ofNat_of_zero_le, fun ⟨m, hm⟩ => hm ▸ Int.natCast_nonneg m⟩
  | var | bin | pow | ite | hole => simp [isSource, isSourceAtom]

end Expr

namespace Source

variable {cs : List Char} {e : Expr} {choices : Bool}

theorem DerivesAtom.isSourceAtom (h : DerivesAtom cs e) : e.isSourceAtom = true := by
  cases h with
  | name h =>
    rw [Expr.isSourceAtom, String.toList_ofList]
    exact h
  | number h =>
    rw [Expr.isSourceAtom]
    exact decide_eq_true (Int.natCast_nonneg _)

theorem ne_blank_of_operator? {c : Char} {op : Operator} (h : Form.operator? c = some op) :
    op ≠ .blank := by
  rcases Form.operator?_cases h with ⟨-, rfl⟩ | ⟨-, rfl⟩ | ⟨-, rfl⟩ | ⟨-, rfl⟩ <;> decide

theorem Derives.isSource (h : Derives cs e) (hc : choices = true ∨ ':' ∉ cs) :
    e.isSource choices = true := by
  induction h generalizing choices with
  | atom h => exact Expr.isSource_of_isSourceAtom h.isSourceAtom choices
  | operation hl hop _ ih =>
    have hr := ih (hc.imp_right fun hn hm => hn (by simp [hm]))
    simp [Expr.isSource, ne_blank_of_operator? hop, hl.isSourceAtom, hr]
  | power hb _ => simp [Expr.isSource, hb.isSourceAtom]
  | choice hl hr _ _ hcx hcy ihx ihy =>
    have ht : choices = true := hc.resolve_right fun hn => hn (by simp)
    simp [Expr.isSource, ht, hl.isSourceAtom, hr.isSourceAtom, ihx (.inr hcx), ihy (.inr hcy)]

theorem isDigit_toDigits (n : Nat) : ∀ c ∈ Nat.toDigits 10 n, c.isDigit = true :=
  fun _ hc => Nat.isDigit_of_mem_toDigits (by decide) (Nat.le_refl 10) hc

theorem isNumeral_toDigits (n : Nat) : Form.isNumeral (Nat.toDigits 10 n) = true := by
  rw [Form.isNumeral, Bool.and_eq_true_iff, List.all_eq_true]
  exact ⟨decide_eq_true Nat.toDigits_ne_nil, isDigit_toDigits n⟩

theorem toList_text_lit (n : Nat) : (Expr.lit (n : Int)).text.toList = Nat.toDigits 10 n := by
  rw [Expr.text]
  exact Nat.toList_repr

theorem derivesAtom_text (h : e.isSourceAtom = true) : DerivesAtom e.text.toList e := by
  cases e with
  | lit n =>
    obtain ⟨m, rfl⟩ := Int.eq_ofNat_of_zero_le (of_decide_eq_true h)
    have hd := DerivesAtom.number (isNumeral_toDigits m)
    rw [Nat.ofDigitChars_ten_toDigits] at hd
    rw [toList_text_lit]
    exact hd
  | var x =>
    have hd := DerivesAtom.name h
    rw [String.ofList_toList] at hd
    exact hd
  | bin | pow | ite | hole => cases h

theorem isBlank_eq_false_of_isExprChar {c : Char} (h : isExprChar c = true) :
    Text.isBlank c = false := by
  rcases Bool.or_eq_true_iff.mp h with h | h
  · exact Text.isBlank_eq_false_of_isAlphanum h
  · simp only [List.mem_cons, List.not_mem_nil, or_false, decide_eq_true_eq] at h
    rcases h with rfl | rfl | rfl | rfl | rfl | rfl | rfl <;> decide

theorem withoutSpaces_append (left right : List Char) :
    withoutSpaces (left ++ right) = withoutSpaces left ++ withoutSpaces right :=
  List.filter_append left right

theorem notMem_withoutSpaces {c : Char} (h : c ∉ cs) : c ∉ withoutSpaces cs :=
  fun hm => h (List.mem_filter.mp hm).1

theorem DerivesAtom.tight (h : DerivesAtom cs e) : Text.Tight cs :=
  Text.tight_of_isAlphanum h.isAlphanum h.ne_nil

theorem DerivesAtom.withoutSpaces_eq (h : DerivesAtom cs e) : withoutSpaces cs = cs :=
  (Derives.atom h).solid.withoutSpaces_eq

theorem DerivesAtom.notMem_colon (h : DerivesAtom cs e) : ':' ∉ cs :=
  fun hm => absurd (h.isAlphanum _ hm) (by decide)

structure Spells (cs : List Char) (e : Expr) : Prop where
  derives : Derives (withoutSpaces cs) e
  tight : Text.Tight cs
  chars : ∀ c ∈ cs, c = ' ' ∨ isExprChar c = true

theorem DerivesAtom.spells (h : DerivesAtom cs e) : Spells cs e where
  derives := h.withoutSpaces_eq.symm ▸ .atom h
  tight := h.tight
  chars := fun c hc => .inr (h.chars c hc)

theorem toList_symbol {op : Operator} (h : op ≠ .blank) :
    ∃ c, op.symbol.toList = [c] ∧ Form.operator? c = some op := by
  cases op with
  | add => exact ⟨'+', rfl, rfl⟩
  | sub => exact ⟨'-', rfl, rfl⟩
  | mul => exact ⟨'*', rfl, rfl⟩
  | div => exact ⟨'/', rfl, rfl⟩
  | blank => exact absurd rfl h

theorem Spells.operation {left right : List Char} {c : Char} {op : Operator} {l r : Expr}
    (hl : DerivesAtom left l) (hop : Form.operator? c = some op) (hr : Spells right r) :
    Spells (left ++ [' ', c, ' '] ++ right) (.bin op l r) where
  derives := by
    have hc : withoutSpaces [' ', c, ' '] = [c] := by
      rcases Form.operator?_cases hop with ⟨rfl, -⟩ | ⟨rfl, -⟩ | ⟨rfl, -⟩ | ⟨rfl, -⟩ <;> rfl
    rw [withoutSpaces_append, withoutSpaces_append, hl.withoutSpaces_eq, hc, List.append_assoc]
    exact .operation hl hop hr.derives
  tight := hl.tight.append _ hr.tight
  chars := by
    intro d hd
    simp only [List.mem_append, List.mem_cons, List.not_mem_nil, or_false] at hd
    rcases hd with (hd | rfl | rfl | rfl) | hd
    · exact .inr (hl.chars d hd)
    · exact .inl rfl
    · exact .inr (isExprChar_of_operator? hop)
    · exact .inl rfl
    · exact hr.chars d hd

theorem Spells.power {base exponent : List Char} {b : Expr} (hb : DerivesAtom base b)
    (he : Form.isNumeral exponent = true) :
    Spells (base ++ [' ', '*', '*', ' '] ++ exponent)
      (.pow b (.lit (Nat.ofDigitChars 10 exponent 0))) where
  derives := by
    rw [withoutSpaces_append, withoutSpaces_append, hb.withoutSpaces_eq,
      (DerivesAtom.number he).withoutSpaces_eq, List.append_assoc]
    exact .power hb he
  tight := hb.tight.append _ (DerivesAtom.number he).tight
  chars := by
    intro d hd
    simp only [List.mem_append, List.mem_cons, List.not_mem_nil, or_false] at hd
    rcases hd with (hd | rfl | rfl | rfl | rfl) | hd
    · exact .inr (hb.chars d hd)
    · exact .inl rfl
    · exact .inr rfl
    · exact .inr rfl
    · exact .inl rfl
    · exact .inr ((DerivesAtom.number he).chars d hd)

theorem Spells.choice {left right consequent alternative : List Char} {l r x y : Expr}
    (hl : DerivesAtom left l) (hr : DerivesAtom right r) (hx : Spells consequent x)
    (hy : Spells alternative y) (hcx : ':' ∉ consequent) (hcy : ':' ∉ alternative) :
    Spells (left ++ ([' ', '<', ' '] ++ right ++ [' ', '?', ' '] ++ consequent ++ [' ', ':', ' ']) ++
      alternative) (.ite (.less l r) x y) where
  derives := by
    simp only [withoutSpaces_append, hl.withoutSpaces_eq, hr.withoutSpaces_eq]
    have hd := Derives.choice hl hr hx.derives hy.derives (notMem_withoutSpaces hcx)
      (notMem_withoutSpaces hcy)
    simpa [withoutSpaces] using hd
  tight := hl.tight.append _ hy.tight
  chars := by
    intro d hd
    simp only [List.mem_append, List.mem_cons, List.not_mem_nil, or_false] at hd
    rcases hd with (hd | (((((rfl | rfl | rfl) | hd) | rfl | rfl | rfl) | hd) | rfl | rfl | rfl)) | hd
    all_goals first
      | exact .inl rfl
      | exact .inr rfl
      | exact .inr (hl.chars d hd)
      | exact .inr (hr.chars d hd)
      | exact hx.chars d hd
      | exact hy.chars d hd

theorem toList_text_operation {op : Operator} {c : Char} {l r : Expr} (hl : l.isAtom = true)
    (hop : op.symbol.toList = [c]) :
    (Expr.bin op l r).text.toList = l.text.toList ++ [' ', c, ' '] ++ r.text.toList := by
  simp [Expr.text, enclose, hl, hop]

theorem toList_text_power {b : Expr} (hb : b.isAtom = true) (n : Nat) :
    (Expr.pow b (.lit n)).text.toList = b.text.toList ++ [' ', '*', '*', ' '] ++ Nat.toDigits 10 n := by
  have ha : (Expr.lit (n : Int)).isAtom = true := rfl
  rw [← toList_text_lit]
  generalize Expr.lit (n : Int) = e at ha
  simp [Expr.text, enclose, hb, ha]

theorem toList_text_choice {l r x y : Expr} (hl : l.isAtom = true) (hr : r.isAtom = true)
    (hx : x.isChoice = false) (hy : y.isChoice = false) :
    (Expr.ite (.less l r) x y).text.toList =
      l.text.toList ++ ([' ', '<', ' '] ++ r.text.toList ++ [' ', '?', ' '] ++ x.text.toList ++
        [' ', ':', ' ']) ++ y.text.toList := by
  simp [Expr.text, Condition.text, enclose, hl, hr, hx, hy]

theorem spells_text (h : e.isSource choices = true) :
    Spells e.text.toList e ∧ (choices = true ∨ ':' ∉ e.text.toList) := by
  induction e generalizing choices with
  | lit n =>
    have hd := derivesAtom_text (e := .lit n) h
    exact ⟨hd.spells, .inr hd.notMem_colon⟩
  | var x =>
    have hd := derivesAtom_text (e := .var x) h
    exact ⟨hd.spells, .inr hd.notMem_colon⟩
  | bin op l r _ ihr =>
    simp only [Expr.isSource, Bool.and_eq_true, decide_eq_true_eq] at h
    obtain ⟨⟨hop, hl⟩, hr⟩ := h
    obtain ⟨c, hsym, hop⟩ := toList_symbol hop
    have hdl := derivesAtom_text hl
    obtain ⟨hsr, hcr⟩ := ihr hr
    rw [toList_text_operation (Expr.isAtom_of_isSourceAtom hl) hsym]
    refine ⟨.operation hdl hop hsr, hcr.imp_right fun hn hm => ?_⟩
    simp only [List.mem_append, List.mem_cons, List.not_mem_nil, or_false] at hm
    rcases hm with (hm | hm | rfl | hm) | hm
    · exact hdl.notMem_colon hm
    · exact absurd hm (by decide)
    · cases hop
    · exact absurd hm (by decide)
    · exact hn hm
  | pow b n =>
    obtain ⟨hb, m, rfl⟩ := Expr.isSource_pow.mp h
    have hdb := derivesAtom_text hb
    have hs := Spells.power hdb (isNumeral_toDigits m)
    rw [Nat.ofDigitChars_ten_toDigits] at hs
    rw [toList_text_power (Expr.isAtom_of_isSourceAtom hb)]
    refine ⟨hs, .inr fun hc => ?_⟩
    simp only [List.mem_append, List.mem_cons, List.not_mem_nil, or_false] at hc
    rcases hc with (hc | hc) | hc
    · exact hdb.notMem_colon hc
    · exact absurd hc (by decide)
    · exact (DerivesAtom.number (isNumeral_toDigits m)).notMem_colon hc
  | less l r x y _ _ ihx ihy =>
    simp only [Expr.isSource, Bool.and_eq_true] at h
    obtain ⟨⟨⟨⟨hc, hl⟩, hr⟩, hx⟩, hy⟩ := h
    obtain ⟨hsx, hcx⟩ := ihx hx
    obtain ⟨hsy, hcy⟩ := ihy hy
    rw [toList_text_choice (Expr.isAtom_of_isSourceAtom hl) (Expr.isAtom_of_isSourceAtom hr)
      (Expr.isChoice_eq_false_of_isSource hx) (Expr.isChoice_eq_false_of_isSource hy)]
    exact ⟨.choice (derivesAtom_text hl) (derivesAtom_text hr) hsx hsy
      (hcx.resolve_left Bool.false_ne_true) (hcy.resolve_left Bool.false_ne_true), .inl hc⟩
  | untested | hole => cases h

theorem isSource_of_readExpr {text : List Char} (ht : '\n' ∉ text) (h : readExpr text = .ok e) :
    e.isSource true = true :=
  (derives_of_readExpr ht h).isSource (.inl rfl)

theorem readExpr_text (h : e.isSource true = true) : readExpr e.text.toList = .ok e :=
  readExpr_of_derives (spells_text h).1.derives rfl

theorem Spells.isLineBreak (h : Spells cs e) : ∀ c ∈ cs, Text.isLineBreak c = false := by
  intro c hc
  rcases h.chars c hc with rfl | hx
  · decide
  · exact Text.isLineBreak_eq_false_of_isBlank (isBlank_eq_false_of_isExprChar hx)

end Source

end FlatCircuit
