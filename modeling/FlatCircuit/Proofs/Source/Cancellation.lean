import FlatCircuit.Proofs.Plain
import FlatCircuit.Proofs.Source.Writing

/-! Texts of expressions tell where they end. A text is that of the leftmost operand, which stands bare or is
enclosed, and a rest that begins by saying how the expression goes on. So the text can be cancelled wherever it
is followed by something that no expression goes on with. -/

namespace FlatCircuit

namespace Name

def isNameChar (c : Char) : Bool :=
  c.isAlphanum || c = '_'

def isProper (x : String) : Bool :=
  match x.toList with
  | [] => false
  | c :: cs => (c.isAlpha || c = '_') && cs.all isNameChar

end Name

def Expr.IsProper (e : Expr) : Prop :=
  e.isKnown = true ∧ ∀ x ∈ e.variables, Name.isProper x = true

instance (e : Expr) : Decidable e.IsProper :=
  inferInstanceAs (Decidable (_ ∧ _))

namespace Expr

variable {op : Operator} {b e l r x y : Expr}

theorem isProper_bin (h : (bin op l r).IsProper) : op ≠ .blank ∧ l.IsProper ∧ r.IsProper := by
  obtain ⟨hk, hv⟩ := h
  simp only [isKnown, Bool.and_eq_true, decide_eq_true_eq] at hk
  simp only [Expr.variables, List.forall_mem_append] at hv
  exact ⟨hk.1.1, ⟨hk.1.2, hv.1⟩, hk.2, hv.2⟩

theorem isProper_pow (h : (pow b e).IsProper) : b.IsProper ∧ e.IsProper := by
  obtain ⟨hk, hv⟩ := h
  simp only [isKnown, Bool.and_eq_true] at hk
  simp only [Expr.variables, List.forall_mem_append] at hv
  exact ⟨⟨hk.1, hv.1⟩, hk.2, hv.2⟩

theorem isProper_less (h : (ite (.less l r) x y).IsProper) :
    l.IsProper ∧ r.IsProper ∧ x.IsProper ∧ y.IsProper := by
  obtain ⟨hk, hv⟩ := h
  simp only [isKnown, Condition.isKnown, Bool.and_eq_true] at hk
  simp only [Expr.variables, Condition.variables, List.forall_mem_append] at hv
  exact ⟨⟨hk.1.1.1, hv.1.1.1⟩, ⟨hk.1.1.2, hv.1.1.2⟩, ⟨hk.1.2, hv.1.2⟩, hk.2, hv.2⟩

theorem not_isProper_untested : ¬ (ite .hole x y).IsProper := by
  rintro ⟨hk, _⟩
  cases hk

theorem not_isProper_hole : ¬ hole.IsProper := by
  rintro ⟨hk, _⟩
  cases hk

def operandText (e : Expr) : List Char :=
  (enclose (!e.isAtom) e.text).toList

def branchText (e : Expr) : List Char :=
  (enclose e.isChoice e.text).toList

theorem operandText_of_isAtom (h : e.isAtom = true) : e.operandText = e.text.toList := by
  rw [operandText, h]
  rfl

theorem operandText_of_not_isAtom (h : e.isAtom = false) :
    e.operandText = '(' :: (e.text.toList ++ [')']) := by
  rw [operandText, h]
  simp [enclose]

theorem branchText_of_isChoice (h : e.isChoice = true) :
    e.branchText = '(' :: (e.text.toList ++ [')']) := by
  rw [branchText, h]
  simp [enclose]

theorem branchText_of_not_isChoice (h : e.isChoice = false) : e.branchText = e.text.toList := by
  rw [branchText, h]
  rfl

def head : Expr → Expr
  | .bin _ l _ | .pow l _ | .ite (.less l _) _ _ => l
  | e => e

def tail : Expr → List Char
  | .bin op _ r => ' ' :: (op.symbol.toList ++ ' ' :: r.text.toList)
  | .pow _ e => ' ' :: '*' :: '*' :: ' ' :: e.operandText
  | .ite (.less _ r) x y =>
    ' ' :: '<' :: ' ' :: (r.operandText ++ ' ' :: '?' :: ' ' :: (x.branchText ++
      ' ' :: ':' :: ' ' :: y.branchText))
  | _ => []

theorem head_of_isAtom (h : e.isAtom = true) : e.head = e := by
  cases e <;> first | rfl | cases h

theorem tail_of_isAtom (h : e.isAtom = true) : e.tail = [] := by
  cases e <;> first | rfl | cases h

theorem IsProper.head (h : e.IsProper) : e.head.IsProper := by
  cases e with
  | lit | var | hole => exact h
  | bin op l r => exact (isProper_bin h).2.1
  | pow b e => exact (isProper_pow h).1
  | ite c x y =>
    cases c with
    | less l r => exact (isProper_less h).1
    | hole => exact absurd h not_isProper_untested

theorem toList_text (h : e.IsProper) : e.text.toList = e.head.operandText ++ e.tail := by
  cases e with
  | lit | var => exact (List.append_nil _).symm
  | bin op l r => simp [text, Expr.head, tail, operandText]
  | pow b e => simp [text, Expr.head, tail, operandText]
  | ite c x y =>
    cases c with
    | less l r => simp [text, Condition.text, Expr.head, tail, operandText, branchText]
    | hole => exact absurd h not_isProper_untested
  | hole => exact absurd h not_isProper_hole

inductive Joint where
  | none
  | operation (op : Operator)
  | power
  | choice
deriving DecidableEq

def joint : Expr → Joint
  | .bin op _ _ => .operation op
  | .pow _ _ => .power
  | .ite _ _ _ => .choice
  | _ => .none

theorem joint_eq_none_iff (h : e.IsProper) : e.joint = .none ↔ e.isAtom = true := by
  cases e with
  | hole => exact absurd h not_isProper_hole
  | _ => simp [joint, isAtom]

end Expr

namespace Source

def joint : List Char → Expr.Joint
  | ' ' :: '*' :: '*' :: _ => .power
  | ' ' :: '<' :: _ => .choice
  | ' ' :: c :: _ => ((Form.operator? c).map .operation).getD .none
  | _ => .none

inductive Closes : List Char → Prop
  | nil : Closes []
  | parenthesis (cs : List Char) : Closes (')' :: cs)
  | line (cs : List Char) : Closes ('\n' :: cs)
  | branch (cs : List Char) : Closes (' ' :: ':' :: cs)

variable {e f : Expr} {rest rest' : List Char}

theorem joint_of_closes (h : Closes rest) : joint rest = .none := by
  cases h <;> rfl

theorem joint_tail (he : e.IsProper) (h : Closes rest) : joint (e.tail ++ rest) = e.joint := by
  cases e with
  | lit | var => exact joint_of_closes h
  | bin op l r =>
    have hop := (Expr.isProper_bin he).1
    cases op with
    | add | sub | mul | div => rfl
    | blank => exact absurd rfl hop
  | pow b e => rfl
  | ite c x y =>
    cases c with
    | less l r => rfl
    | hole => exact absurd he Expr.not_isProper_untested
  | hole => exact absurd he Expr.not_isProper_hole

/-! Atoms: an atom ends where a character stands that no name and no literal has. -/

def isTokenChar (c : Char) : Bool :=
  Name.isNameChar c || c = '-'

def Stops (rest : List Char) : Prop :=
  rest.head?.any isTokenChar = false

theorem Closes.stops (h : Closes rest) : Stops rest := by
  cases h <;> rfl

theorem stops_space (cs : List Char) : Stops (' ' :: cs) := rfl

theorem stops_tail (he : e.IsProper) (h : Closes rest) : Stops (e.tail ++ rest) := by
  cases e with
  | lit | var => exact h.stops
  | bin | pow => rfl
  | ite c x y =>
    cases c with
    | less l r => rfl
    | hole => exact absurd he Expr.not_isProper_untested
  | hole => exact absurd he Expr.not_isProper_hole

theorem takeWhile_of_stops {cs : List Char} (hcs : ∀ c ∈ cs, isTokenChar c = true) (h : Stops rest) :
    (cs ++ rest).takeWhile isTokenChar = cs := by
  have hrest : rest.takeWhile isTokenChar = [] := by
    cases rest with
    | nil => rfl
    | cons c rest =>
      have hc : isTokenChar c = false := h
      rw [List.takeWhile_cons, hc]
      rfl
  rw [List.takeWhile_append_of_pos hcs, hrest, List.append_nil]

theorem token_append_inj {cs ds : List Char} (hcs : ∀ c ∈ cs, isTokenChar c = true)
    (hds : ∀ c ∈ ds, isTokenChar c = true) (h : Stops rest) (h' : Stops rest')
    (heq : cs ++ rest = ds ++ rest') : cs = ds ∧ rest = rest' := by
  have htake := congrArg (List.takeWhile isTokenChar) heq
  rw [takeWhile_of_stops hcs h, takeWhile_of_stops hds h'] at htake
  subst htake
  exact ⟨rfl, List.append_cancel_left heq⟩

/-! Items behind commas: each of them ends where the next comma or the closing character stands. -/

section Items

variable {α : Type} {P : α → Prop} {write : α → List Char} {gap : List Char} {xs ys : List α} {close : Char}

def Detaches (P : α → Prop) (write : α → List Char) (x : α) : Prop :=
  ∀ ⦃y rest rest'⦄, P y → Stops rest → Stops rest' → write x ++ rest = write y ++ rest' → x = y ∧ rest = rest'

def further (gap : List Char) (write : α → List Char) (xs : List α) : List Char :=
  xs.flatMap fun x => ',' :: (gap ++ write x)

theorem further_cons (x : α) (xs : List α) :
    further gap write (x :: xs) = ',' :: (gap ++ (write x ++ further gap write xs)) := by
  simp [further]

theorem stops_further (hc : isTokenChar close = false) (xs : List α) (cs : List Char) :
    Stops (further gap write xs ++ close :: cs) := by
  cases xs with
  | nil => exact hc
  | cons x xs => rfl

theorem further_append_inj (hc : isTokenChar close = false) (hne : close ≠ ',')
    (hx : ∀ x ∈ xs, Detaches P write x) (hy : ∀ y ∈ ys, P y)
    (h : further gap write xs ++ close :: rest = further gap write ys ++ close :: rest') :
    xs = ys ∧ rest = rest' := by
  induction xs generalizing ys with
  | nil =>
    cases ys with
    | nil => exact ⟨rfl, (List.cons.inj h).2⟩
    | cons y ys => exact absurd (List.cons.inj h).1 hne
  | cons x xs ih =>
    cases ys with
    | nil => exact absurd (List.cons.inj h).1.symm hne
    | cons y ys =>
      obtain ⟨hx, hxs⟩ := List.forall_mem_cons.mp hx
      obtain ⟨hy, hys⟩ := List.forall_mem_cons.mp hy
      simp only [further_cons, List.cons_append, List.append_assoc, List.cons.injEq, true_and,
        List.append_cancel_left_eq] at h
      obtain ⟨rfl, hnext⟩ := hx hy (stops_further hc _ _) (stops_further hc _ _) h
      obtain ⟨rfl, hrest⟩ := ih hxs hys hnext
      exact ⟨rfl, hrest⟩

theorem toList_intercalate_cons {separator : String} (hs : separator.toList = ',' :: gap) (x : String)
    (xs : List String) : (separator.intercalate (x :: xs)).toList = x.toList ++ further gap String.toList xs := by
  induction xs generalizing x with
  | nil => simp [further]
  | cons y ys ih =>
    rw [String.intercalate_cons_cons, String.toList_append, String.toList_append, ih, hs, further_cons]
    simp

end Items

theorem exists_cons_of_isProper {x : String} (h : Name.isProper x = true) :
    ∃ c cs, x.toList = c :: cs ∧ (c.isAlpha = true ∨ c = '_') ∧ ∀ d ∈ cs, Name.isNameChar d = true := by
  unfold Name.isProper at h
  split at h
  · cases h
  · next c cs hx =>
    simp only [Bool.and_eq_true, Bool.or_eq_true, decide_eq_true_eq, List.all_eq_true] at h
    exact ⟨c, cs, hx, h.1, h.2⟩

theorem ne_nil_of_isProper {x : String} (h : Name.isProper x = true) : x.toList ≠ [] := by
  obtain ⟨c, cs, hx, _⟩ := exists_cons_of_isProper h
  exact fun hn => List.cons_ne_nil c cs (hx.symm.trans hn)

theorem isTokenChar_of_isProper {x : String} (h : Name.isProper x = true) :
    ∀ c ∈ x.toList, isTokenChar c = true := by
  obtain ⟨c, cs, hx, hc, hcs⟩ := exists_cons_of_isProper h
  have hn : Name.isNameChar c = true := by
    rcases hc with hc | rfl
    · simp [Name.isNameChar, Char.isAlphanum, hc]
    · rfl
  rw [hx]
  refine List.forall_mem_cons.mpr ⟨?_, fun d hd => ?_⟩
  · simp [isTokenChar, hn]
  · simp [isTokenChar, hcs d hd]

theorem toList_text_negSucc (n : Nat) :
    (Expr.lit (.negSucc n)).text.toList = '-' :: Nat.toDigits 10 (n + 1) := by
  have h : (Expr.lit (.negSucc n)).text = "-" ++ (n + 1).repr := rfl
  rw [h, String.toList_append, Nat.toList_repr]
  rfl

theorem text_lit_chars (k : Int) :
    ∀ c ∈ (Expr.lit k).text.toList, c.isDigit = true ∨ c = '-' := by
  intro c hc
  cases k with
  | ofNat n =>
    rw [Int.ofNat_eq_natCast, toList_text_lit] at hc
    exact .inl (isDigit_toDigits n c hc)
  | negSucc n =>
    rw [toList_text_negSucc] at hc
    rcases List.mem_cons.mp hc with rfl | hc
    · exact .inr rfl
    · exact .inl (isDigit_toDigits _ c hc)

theorem text_lit_inj {j k : Int} (h : (Expr.lit j).text.toList = (Expr.lit k).text.toList) : j = k := by
  have hsign : ∀ m n : Nat, Nat.toDigits 10 m ≠ '-' :: Nat.toDigits 10 (n + 1) := by
    intro m n h
    have hd := isDigit_toDigits m '-' (h ▸ List.mem_cons_self)
    cases hd
  cases j with
  | ofNat m =>
    cases k with
    | ofNat n =>
      rw [Int.ofNat_eq_natCast, Int.ofNat_eq_natCast, toList_text_lit, toList_text_lit] at h
      rw [Name.toDigits_injective h]
    | negSucc n =>
      rw [Int.ofNat_eq_natCast, toList_text_lit, toList_text_negSucc] at h
      exact absurd h (hsign m n)
  | negSucc m =>
    cases k with
    | ofNat n =>
      rw [Int.ofNat_eq_natCast, toList_text_lit, toList_text_negSucc] at h
      exact absurd h.symm (hsign n m)
    | negSucc n =>
      rw [toList_text_negSucc, toList_text_negSucc] at h
      have hmn := Name.toDigits_injective (List.cons.inj h).2
      rw [Nat.succ.inj hmn]

theorem text_lit_ne_name {k : Int} {x : String} (hx : Name.isProper x = true) :
    (Expr.lit k).text.toList ≠ x.toList := by
  intro h
  obtain ⟨c, cs, hc, hfirst, _⟩ := exists_cons_of_isProper hx
  have hmem : c ∈ (Expr.lit k).text.toList := by
    rw [h, hc]
    exact List.mem_cons_self
  rcases text_lit_chars k c hmem with hd | rfl
  · rcases hfirst with ha | rfl
    · exact absurd ha (by rw [Text.isAlpha_eq_false_of_isDigit hd]; decide)
    · cases hd
  · rcases hfirst with ha | h
    · cases ha
    · cases h

theorem isTokenChar_text (he : e.IsProper) (ha : e.isAtom = true) :
    ∀ c ∈ e.text.toList, isTokenChar c = true := by
  cases e with
  | lit k =>
    intro c hc
    rcases text_lit_chars k c hc with h | rfl
    · simp [isTokenChar, Name.isNameChar, Char.isAlphanum, h]
    · rfl
  | var x => exact isTokenChar_of_isProper (he.2 x List.mem_cons_self)
  | bin | pow | ite | hole => cases ha

theorem eq_of_text_eq_of_isAtom (he : e.IsProper) (hf : f.IsProper) (ha : e.isAtom = true)
    (hb : f.isAtom = true) (h : e.text.toList = f.text.toList) : e = f := by
  cases e with
  | lit j =>
    cases f with
    | lit k => rw [text_lit_inj h]
    | var y => exact absurd h (text_lit_ne_name (hf.2 y List.mem_cons_self))
    | bin | pow | ite | hole => cases hb
  | var x =>
    cases f with
    | lit k => exact absurd h.symm (text_lit_ne_name (he.2 x List.mem_cons_self))
    | var y => exact congrArg Expr.var (String.toList_inj.mp h)
    | bin | pow | ite | hole => cases hb
  | bin | pow | ite | hole => cases ha

theorem exists_cons_of_isAtom (he : e.IsProper) (ha : e.isAtom = true) :
    ∃ c cs, e.text.toList = c :: cs ∧ isTokenChar c = true := by
  have hne : e.text.toList ≠ [] := by
    cases e with
    | lit k =>
      cases k with
      | ofNat n =>
        rw [Int.ofNat_eq_natCast, toList_text_lit]
        exact Nat.toDigits_ne_nil
      | negSucc n =>
        rw [toList_text_negSucc]
        exact List.cons_ne_nil _ _
    | var x => exact ne_nil_of_isProper (he.2 x List.mem_cons_self)
    | bin | pow | ite | hole => cases ha
  obtain ⟨c, cs, hc⟩ := List.exists_cons_of_ne_nil hne
  exact ⟨c, cs, hc, isTokenChar_text he ha c (hc ▸ List.mem_cons_self)⟩

theorem text_append_ne_parenthesis (he : e.IsProper) (ha : e.isAtom = true) (rest cs : List Char) :
    e.text.toList ++ rest ≠ '(' :: cs := by
  intro h
  obtain ⟨c, ds, hc, ht⟩ := exists_cons_of_isAtom he ha
  rw [hc] at h
  cases h
  cases ht

def Cancels (e : Expr) : Prop :=
  ∀ ⦃f rest rest'⦄, f.IsProper → Closes rest → Closes rest' →
    e.text.toList ++ rest = f.text.toList ++ rest' → e = f ∧ rest = rest'

theorem Cancels.enclosed (hc : Cancels e) (hf : f.IsProper)
    (h : '(' :: (e.text.toList ++ [')']) ++ rest = '(' :: (f.text.toList ++ [')']) ++ rest') :
    e = f ∧ rest = rest' := by
  simp only [List.cons_append, List.append_assoc, List.nil_append, List.cons.injEq, true_and] at h
  obtain ⟨rfl, hrest⟩ := hc hf (.parenthesis rest) (.parenthesis rest') h
  exact ⟨rfl, (List.cons.inj hrest).2⟩

theorem operand_append_inj (he : e.IsProper) (hf : f.IsProper) (hc : e.isAtom = false → Cancels e)
    (hr : Stops rest) (hr' : Stops rest') (h : e.operandText ++ rest = f.operandText ++ rest') :
    e = f ∧ rest = rest' := by
  cases ha : e.isAtom with
  | true =>
    rw [Expr.operandText_of_isAtom ha] at h
    cases hb : f.isAtom with
    | true =>
      rw [Expr.operandText_of_isAtom hb] at h
      obtain ⟨htext, hrest⟩ := token_append_inj (isTokenChar_text he ha) (isTokenChar_text hf hb) hr hr' h
      exact ⟨eq_of_text_eq_of_isAtom he hf ha hb htext, hrest⟩
    | false =>
      rw [Expr.operandText_of_not_isAtom hb] at h
      exact absurd h (text_append_ne_parenthesis he ha _ _)
  | false =>
    rw [Expr.operandText_of_not_isAtom ha] at h
    cases hb : f.isAtom with
    | true =>
      rw [Expr.operandText_of_isAtom hb] at h
      exact absurd h.symm (text_append_ne_parenthesis hf hb _ _)
    | false =>
      rw [Expr.operandText_of_not_isAtom hb] at h
      exact (hc ha).enclosed hf h

theorem cancel_head (he : e.IsProper) (hf : f.IsProper) (hc : e.head.isAtom = false → Cancels e.head)
    (hr : Closes rest) (hr' : Closes rest') (h : e.text.toList ++ rest = f.text.toList ++ rest') :
    e.head = f.head ∧ e.tail ++ rest = f.tail ++ rest' ∧ e.joint = f.joint := by
  rw [Expr.toList_text he, Expr.toList_text hf, List.append_assoc, List.append_assoc] at h
  obtain ⟨hhead, htail⟩ := operand_append_inj he.head hf.head hc (stops_tail he hr) (stops_tail hf hr') h
  have hjoint := congrArg joint htail
  rw [joint_tail he hr, joint_tail hf hr'] at hjoint
  exact ⟨hhead, htail, hjoint⟩

theorem cancels_of_isAtom (he : e.IsProper) (ha : e.isAtom = true) : Cancels e := by
  intro f rest rest' hf hr hr' h
  have hhead : e.head.isAtom = true := by rwa [Expr.head_of_isAtom ha]
  obtain ⟨heq, htail, hjoint⟩ := cancel_head he hf (fun h => absurd (h.symm.trans hhead) nofun) hr hr' h
  have hb : f.isAtom = true := by
    rw [← Expr.joint_eq_none_iff hf, ← hjoint, Expr.joint_eq_none_iff he]
    exact ha
  rw [Expr.head_of_isAtom ha, Expr.head_of_isAtom hb] at heq
  rw [Expr.tail_of_isAtom ha, Expr.tail_of_isAtom hb] at htail
  exact ⟨heq, htail⟩

/-- What is enclosed and not gone on with is no expression: there, an operator would follow. -/
theorem enclosed_ne_text (he : e.IsProper) (hf : f.IsProper) (hc : Cancels e ∨ Cancels f.head)
    (hr : Closes rest) (hr' : Closes rest') :
    '(' :: (e.text.toList ++ [')']) ++ rest ≠ f.text.toList ++ rest' := by
  intro h
  rw [Expr.toList_text hf, List.append_assoc] at h
  cases hb : f.head.isAtom with
  | true =>
    rw [Expr.operandText_of_isAtom hb] at h
    exact text_append_ne_parenthesis hf.head hb _ _ h.symm
  | false =>
    rw [Expr.operandText_of_not_isAtom hb] at h
    -- either one shows that what is enclosed is the same, so the rest begins as `f` goes on
    have hrest : rest = f.tail ++ rest' := by
      rcases hc with hc | hc
      · exact (hc.enclosed hf.head h).2
      · exact (hc.enclosed he h.symm).2.symm
    have hjoint := congrArg joint hrest
    rw [joint_of_closes hr, joint_tail hf hr'] at hjoint
    have ha := (Expr.joint_eq_none_iff hf).mp hjoint.symm
    rw [Expr.head_of_isAtom ha] at hb
    cases ha.symm.trans hb

theorem branch_append_inj (he : e.IsProper) (hf : f.IsProper) (hc : Cancels e ∧ Cancels e.head)
    (hr : Closes rest) (hr' : Closes rest') (h : e.branchText ++ rest = f.branchText ++ rest') :
    e = f ∧ rest = rest' := by
  cases ha : e.isChoice with
  | true =>
    rw [Expr.branchText_of_isChoice ha] at h
    cases hb : f.isChoice with
    | true =>
      rw [Expr.branchText_of_isChoice hb] at h
      exact hc.1.enclosed hf h
    | false =>
      rw [Expr.branchText_of_not_isChoice hb] at h
      exact absurd h (enclosed_ne_text he hf (.inl hc.1) hr hr')
  | false =>
    rw [Expr.branchText_of_not_isChoice ha] at h
    cases hb : f.isChoice with
    | true =>
      rw [Expr.branchText_of_isChoice hb] at h
      exact absurd h.symm (enclosed_ne_text hf he (.inr hc.2) hr' hr)
    | false =>
      rw [Expr.branchText_of_not_isChoice hb] at h
      exact hc.1 hf hr hr' h

theorem cancels_of_isProper (he : e.IsProper) : Cancels e ∧ Cancels e.head := by
  -- a branch may be compared with an enclosed one, and then it is the leftmost operand that is cancelled
  induction e with
  | lit k => exact ⟨cancels_of_isAtom he rfl, cancels_of_isAtom he rfl⟩
  | var x => exact ⟨cancels_of_isAtom he rfl, cancels_of_isAtom he rfl⟩
  | bin op l r ihl ihr =>
    obtain ⟨_, hl, hr⟩ := Expr.isProper_bin he
    refine ⟨fun f rest rest' hf hc hc' h => ?_, (ihl hl).1⟩
    obtain ⟨hhead, htail, hjoint⟩ := cancel_head he hf (fun _ => (ihl hl).1) hc hc' h
    cases f with
    | bin op' l' r' =>
      cases hjoint
      obtain rfl : l = l' := hhead
      have htext : r.text.toList ++ rest = r'.text.toList ++ rest' := by simpa [Expr.tail] using htail
      obtain ⟨rfl, rfl⟩ := (ihr hr).1 (Expr.isProper_bin hf).2.2 hc hc' htext
      exact ⟨rfl, rfl⟩
    | lit | var | pow | ite | hole => cases hjoint
  | pow b n ihb ihn =>
    obtain ⟨hb, hn⟩ := Expr.isProper_pow he
    refine ⟨fun f rest rest' hf hc hc' h => ?_, (ihb hb).1⟩
    obtain ⟨hhead, htail, hjoint⟩ := cancel_head he hf (fun _ => (ihb hb).1) hc hc' h
    cases f with
    | pow b' n' =>
      obtain rfl : b = b' := hhead
      have htext : n.operandText ++ rest = n'.operandText ++ rest' := by simpa [Expr.tail] using htail
      obtain ⟨rfl, rfl⟩ := operand_append_inj hn (Expr.isProper_pow hf).2 (fun _ => (ihn hn).1) hc.stops
        hc'.stops htext
      exact ⟨rfl, rfl⟩
    | lit | var | bin | ite | hole => cases hjoint
  | less l r x y ihl ihr ihx ihy =>
    obtain ⟨hl, hr, hx, hy⟩ := Expr.isProper_less he
    refine ⟨fun f rest rest' hf hc hc' h => ?_, (ihl hl).1⟩
    obtain ⟨hhead, htail, hjoint⟩ := cancel_head he hf (fun _ => (ihl hl).1) hc hc' h
    cases f with
    | ite c x' y' =>
      cases c with
      | less l' r' =>
        obtain ⟨_, hr', hx', hy'⟩ := Expr.isProper_less hf
        obtain rfl : l = l' := hhead
        simp only [Expr.tail, List.cons_append, List.append_assoc, List.cons.injEq, true_and] at htail
        obtain ⟨rfl, hthen⟩ := operand_append_inj hr hr' (fun _ => (ihr hr).1) (stops_space _)
          (stops_space _) htail
        simp only [List.cons.injEq, true_and] at hthen
        obtain ⟨rfl, helse⟩ := branch_append_inj hx hx' (ihx hx) (.branch _) (.branch _) hthen
        simp only [List.cons.injEq, true_and] at helse
        obtain ⟨rfl, rfl⟩ := branch_append_inj hy hy' (ihy hy) hc hc' helse
        exact ⟨rfl, rfl⟩
      | hole => exact absurd hf Expr.not_isProper_untested
    | lit | var | bin | pow | hole => cases hjoint
  | untested => exact absurd he Expr.not_isProper_untested
  | hole => exact absurd he Expr.not_isProper_hole

end Source

end FlatCircuit
