import FlatCircuit.Proofs.Source.RoundTrip

/-! Texts of more than one line. A break at the end of a variable that is a whole text or a whole branch belongs
to its name, a break at any other end is dropped, and elsewhere there can be none. What such a text is read as
can be written, and it is read back from what is written. -/

namespace FlatCircuit

namespace Expr

def isLoose : Expr → Bool
  | .var x => Form.isIdentifier (Form.withoutFinalBreak x.toList)
  | _ => false

def isBranch (e : Expr) : Bool :=
  e.isLoose || e.isSource false

def isReadable : Expr → Bool
  | .ite (.less l r) x y => l.isSourceAtom && r.isSourceAtom && x.isBranch && y.isBranch
  | e => e.isLoose || e.isSource true

variable {e : Expr}

theorem exists_var_of_isLoose (h : e.isLoose = true) :
    ∃ x, e = .var x ∧ Form.isIdentifier (Form.withoutFinalBreak x.toList) = true := by
  cases e with
  | var x => exact ⟨x, rfl, h⟩
  | lit | bin | pow | ite | hole => cases h

theorem isBranch_iff : e.isBranch = true ↔ e.isLoose = true ∨ e.isSource false = true :=
  Bool.or_eq_true_iff

theorem isChoice_eq_false_of_isBranch (h : e.isBranch = true) : e.isChoice = false := by
  rcases isBranch_iff.mp h with h | h
  · obtain ⟨x, rfl, -⟩ := exists_var_of_isLoose h
    rfl
  · exact isChoice_eq_false_of_isSource h

theorem hole?_eq_none_of_isBranch (h : e.isBranch = true) : e.hole? = none := by
  rcases isBranch_iff.mp h with h | h
  · obtain ⟨x, rfl, -⟩ := exists_var_of_isLoose h
    rfl
  · exact hole?_eq_none_of_isSource h

theorem isReadable_iff : e.isReadable = true ↔ e.isLoose = true ∨ e.isSource true = true ∨
    ∃ l r x y, e = .ite (.less l r) x y ∧ l.isSourceAtom = true ∧ r.isSourceAtom = true ∧
      x.isBranch = true ∧ y.isBranch = true := by
  cases e with
  | ite c x y =>
    cases c with
    | less l r =>
      have hs : (ite (.less l r) x y).isSource true = true → (ite (.less l r) x y).isReadable = true := by
        intro h
        simp only [isSource, Bool.and_eq_true] at h
        obtain ⟨⟨⟨⟨-, hl⟩, hr⟩, hx⟩, hy⟩ := h
        simp [isReadable, isBranch, hl, hr, hx, hy]
      constructor
      · intro h
        simp only [isReadable, Bool.and_eq_true] at h
        obtain ⟨⟨⟨hl, hr⟩, hx⟩, hy⟩ := h
        exact .inr (.inr ⟨l, r, x, y, rfl, hl, hr, hx, hy⟩)
      · rintro (h | h | ⟨_, _, _, _, he, hl, hr, hx, hy⟩)
        · cases h
        · exact hs h
        · cases he
          simp [isReadable, hl, hr, hx, hy]
    | hole => simp [isReadable, isLoose, isSource, isSourceAtom]
  | lit | var | bin | pow | hole => simp [isReadable]

theorem hole?_eq_none_of_isReadable (h : e.isReadable = true) : e.hole? = none := by
  rcases isReadable_iff.mp h with h | h | ⟨l, r, x, y, rfl, hl, hr, hx, hy⟩
  · exact hole?_eq_none_of_isBranch (isBranch_iff.mpr (.inl h))
  · exact hole?_eq_none_of_isSource h
  · simp [hole?, Condition.hole?, hole?_eq_none_of_isSourceAtom hl, hole?_eq_none_of_isSourceAtom hr,
      hole?_eq_none_of_isBranch hx, hole?_eq_none_of_isBranch hy]

end Expr

namespace Source

variable {cs rest right text left : List Char} {e l x y : Expr}

theorem derivesAtom_of_readAtom {cause : String → SourceCause} (hw : ∀ c ∈ left, c.isAlphanum = true)
    (h : readAtom cause left = .ok l) : DerivesAtom left l :=
  (readAtom_eq_ok_iff fun hn => absurd (hw _ hn) (by decide)).mp h

theorem mem_of_mem_withoutFinalBreak {c : Char} (h : c ∈ Form.withoutFinalBreak cs) : c ∈ cs := by
  fun_induction Form.withoutFinalBreak cs with
  | case1 => exact h
  | case2 => cases h
  | case3 d cs _ ih => exact List.mem_cons.mpr ((List.mem_cons.mp h).imp_right ih)

theorem of_restOfLine? (h : Form.restOfLine? cs = some rest) : '\n' ∉ rest ∧ ∀ c ∈ rest, c ∈ cs := by
  rw [Form.restOfLine?, Option.ite_none_right_eq_some, Option.some.injEq] at h
  obtain ⟨⟨-, hb⟩, rfl⟩ := h
  exact ⟨hb, fun _ => mem_of_mem_withoutFinalBreak⟩

theorem of_atom? (h : Form.atom? cs = some e) : e.isLoose = true ∨ e.isSourceAtom = true := by
  unfold Form.atom? at h
  split at h
  · next hi =>
    cases h
    left
    rw [Expr.isLoose, String.toList_ofList]
    exact hi
  · split at h
    · cases h
      right
      rw [Expr.isSourceAtom]
      exact decide_eq_true (Int.natCast_nonneg _)
    · cases h

theorem readExpr_cases (h : readExpr text = .ok e) :
    e.isLoose = true ∨ (∀ choices, (choices = true ∨ ':' ∉ text) → e.isSource choices = true) ∨
      ':' ∈ text ∧ ∃ l r x y consequent alternative, e = .ite (.less l r) x y ∧
        l.isSourceAtom = true ∧ r.isSourceAtom = true ∧ ':' ∉ consequent ∧ readExpr consequent = .ok x ∧
        ':' ∉ alternative ∧ readExpr alternative = .ok y := by
  have hin : ∀ {c}, c ∈ withoutSpaces text → c ∈ text := fun hc => (List.mem_filter.mp hc).1
  rw [readExpr_eq] at h
  cases hf : Form.of? (withoutSpaces text) with
  | none =>
    rw [hf] at h
    cases h
  | some f =>
    rw [hf] at h
    rcases Form.of?_eq_some hf with ⟨_, ha, rfl⟩ | ⟨left, after, hw, hparts⟩
    · cases h
      exact (of_atom? ha).imp_right fun hs => .inl fun choices _ => Expr.isSource_of_isSourceAtom hs choices
    · right
      obtain ⟨happ, -⟩ := Form.eq_append_of_word? hw
      have hleft := Form.isAlphanum_of_word? hw
      rcases hparts with hp | ho | hc
      · obtain ⟨_, exponent, -, -, rfl⟩ := Form.power?_eq_some hp
        obtain ⟨b, hb, h₁⟩ := bind_eq_ok h
        obtain ⟨n, hn, h₂⟩ := bind_eq_ok h₁
        cases h₂
        obtain ⟨-, rfl⟩ := readExponent_eq_ok_iff.mp hn
        have hbase := (derivesAtom_of_readAtom hleft hb).isSourceAtom
        exact .inl fun choices _ => Expr.isSource_pow.mpr ⟨hbase, _, rfl⟩
      · obtain ⟨c, op, tail, right, rfl, hop, hrest, rfl⟩ := Form.operation?_eq_some ho
        obtain ⟨l, hl, h₁⟩ := bind_eq_ok h
        obtain ⟨r, hr, h₂⟩ := bind_eq_ok h₁
        cases h₂
        obtain ⟨hbreak, hsub⟩ := of_restOfLine? hrest
        have hright : ∀ d ∈ withoutSpaces right, d ∈ text := by
          intro d hd
          have hd := hsub d (List.mem_filter.mp hd).1
          exact hin (by simp [happ, hd])
        refine .inl fun choices hc => ?_
        have hr := (derives_of_readExpr hbreak hr).isSource (hc.imp_right fun hn hm => hn (hright _ hm))
        simp [Expr.isSource, ne_blank_of_operator? hop, (derivesAtom_of_readAtom hleft hl).isSourceAtom, hr]
      · obtain ⟨comparison, right, consequent, alternative, hcmp, hright, hcx, hcy, rfl⟩ :=
          Form.choice?_eq_some hc
        obtain ⟨t, ht, h₁⟩ := bind_eq_ok h
        obtain ⟨x, hx, h₂⟩ := bind_eq_ok h₁
        obtain ⟨y, hy, h₃⟩ := bind_eq_ok h₂
        cases h₃
        obtain ⟨rfl, l, r, hl, hr, rfl⟩ := readCondition_eq_ok ht
        have hcolon : ':' ∈ text := hin (by simp [happ, eq_cons_of_comparison? hcmp])
        exact .inr ⟨hcolon, l, r, x, y, consequent, alternative, rfl,
          (derivesAtom_of_readAtom hleft hl).isSourceAtom, (derivesAtom_of_readAtom hright hr).isSourceAtom,
          hcx, hx, hcy, hy⟩

theorem isBranch_of_readExpr (h : readExpr text = .ok e) (hc : ':' ∉ text) : e.isBranch = true := by
  rw [Expr.isBranch_iff]
  rcases readExpr_cases h with hl | hs | ⟨hm, -⟩
  · exact .inl hl
  · exact .inr (hs false (.inr hc))
  · exact absurd hm hc

theorem isReadable_of_readExpr (h : readExpr text = .ok e) : e.isReadable = true := by
  rw [Expr.isReadable_iff]
  rcases readExpr_cases h with hl | hs | ⟨-, l, r, x, y, _, _, rfl, hl, hr, hcx, hx, hcy, hy⟩
  · exact .inl hl
  · exact .inr (.inl (hs true (.inl rfl)))
  · exact .inr (.inr ⟨l, r, x, y, rfl, hl, hr, isBranch_of_readExpr hx hcx, isBranch_of_readExpr hy hcy⟩)

theorem chars_of_isLoose {x : String} (h : (Expr.var x).isLoose = true) :
    ∀ c ∈ x.toList, c.isAlphanum = true ∨ c = '\n' := by
  intro c hc
  by_cases hb : c = '\n'
  · exact .inr hb
  · exact .inl (Form.isAlphanum_of_isIdentifier h c (Form.mem_withoutFinalBreak hc hb))

theorem readExpr_of_isLoose {x : String} (h : (Expr.var x).isLoose = true) :
    withoutSpaces x.toList = x.toList ∧ readExpr x.toList = .ok (.var x) := by
  have hs : withoutSpaces x.toList = x.toList := by
    refine List.filter_eq_self.mpr fun c hc => ?_
    rcases chars_of_isLoose h c hc with ha | rfl
    · have hc : c ≠ ' ' ∧ c ≠ '\t' := by
        constructor <;> rintro rfl <;> cases ha
      simpa using hc
    · rfl
  have hi : Form.isIdentifier (Form.withoutFinalBreak x.toList) = true := h
  have hf : Form.of? x.toList = some (.atom (.var x)) := by
    rw [Form.of?, Form.atom?, if_pos hi, String.ofList_toList]
  refine ⟨hs, ?_⟩
  rw [readExpr_eq, hs, hf]

theorem readExpr_branch (h : e.isBranch = true) :
    readExpr (withoutSpaces e.text.toList) = .ok e ∧ ':' ∉ withoutSpaces e.text.toList := by
  rcases Expr.isBranch_iff.mp h with h | h
  · obtain ⟨x, rfl, -⟩ := Expr.exists_var_of_isLoose h
    obtain ⟨hs, hr⟩ := readExpr_of_isLoose h
    rw [Expr.text, hs]
    refine ⟨hr, fun hc => ?_⟩
    rcases chars_of_isLoose h _ hc with ha | hb
    · cases ha
    · cases hb
  · obtain ⟨hs, hc⟩ := spells_text h
    exact ⟨readExpr_of_derives hs.derives hs.derives.solid.withoutSpaces_eq,
      notMem_withoutSpaces (hc.resolve_left Bool.false_ne_true)⟩

theorem ne_nil_of_readExpr (h : readExpr cs = .ok e) : cs ≠ [] := by
  rintro rfl
  rw [readExpr_eq] at h
  cases h

theorem readExpr_text_choice {l r x y : Expr} (hl : l.isSourceAtom = true) (hr : r.isSourceAtom = true)
    (hx : x.isBranch = true) (hy : y.isBranch = true) :
    readExpr (Expr.ite (.less l r) x y).text.toList = .ok (.ite (.less l r) x y) := by
  have hdl := derivesAtom_text hl
  have hdr := derivesAtom_text hr
  obtain ⟨hrx, hcx⟩ := readExpr_branch hx
  obtain ⟨hry, hcy⟩ := readExpr_branch hy
  have ht : withoutSpaces (Expr.ite (.less l r) x y).text.toList =
      l.text.toList ++ '<' :: (r.text.toList ++ '?' ::
        (withoutSpaces x.text.toList ++ ':' :: withoutSpaces y.text.toList)) := by
    rw [toList_text_choice (Expr.isAtom_of_isSourceAtom hl) (Expr.isAtom_of_isSourceAtom hr)
      (Expr.isChoice_eq_false_of_isBranch hx) (Expr.isChoice_eq_false_of_isBranch hy)]
    simp only [withoutSpaces_append, hdl.withoutSpaces_eq, hdr.withoutSpaces_eq]
    simp [withoutSpaces]
  rw [readExpr_eq, ht, of?_choice hdl hdr (ne_nil_of_readExpr hrx) (ne_nil_of_readExpr hry) hcx hcy]
  simp only [readCondition, readAtom_of_derivesAtom hdl, readAtom_of_derivesAtom hdr, hrx, hry]
  rfl

theorem readExpr_text_of_isReadable (h : e.isReadable = true) : readExpr e.text.toList = .ok e := by
  rcases Expr.isReadable_iff.mp h with h | h | ⟨l, r, x, y, rfl, hl, hr, hx, hy⟩
  · obtain ⟨x, rfl, -⟩ := Expr.exists_var_of_isLoose h
    exact (readExpr_of_isLoose h).2
  · exact readExpr_text h
  · exact readExpr_text_choice hl hr hx hy

end Source

namespace Expr

/-- Whatever a text of any number of lines is read as, it is read back from its own text. The expressions that
are read back are those of the source with breaks behind the name of a variable that is the whole or a branch. -/
theorem read_render_iff_isReadable :
    (∀ s e, Expr.read s = .ok e → ∃ t, e.render = .ok t ∧ Expr.read t = .ok e) ∧
    ∀ e : Expr, (∃ t, e.render = .ok t ∧ Expr.read t = .ok e) ↔ e.isReadable = true := by
  have hback : ∀ e : Expr, e.isReadable = true → ∃ t, e.render = .ok t ∧ Expr.read t = .ok e := by
    intro e h
    refine ⟨e.text, ?_, Source.readExpr_text_of_isReadable h⟩
    rw [render, hole?_eq_none_of_isReadable h]
    rfl
  refine ⟨fun s e h => hback e (Source.isReadable_of_readExpr h), fun e => ⟨?_, hback e⟩⟩
  rintro ⟨t, _, ht⟩
  exact Source.isReadable_of_readExpr ht

theorem read_render_breaks :
    let e : Expr := .ite (.less (.var "a") (.lit 2)) (.var "c\n") (.var "d\n")
    Expr.read "a < 2 ? c\n : d\n" = .ok e ∧ ∃ t, e.render = .ok t ∧ Expr.read t = .ok e := by
  intro e
  have h : Expr.read "a < 2 ? c\n : d\n" = .ok e := Source.readExpr_text_of_isReadable (e := e) (by decide)
  exact ⟨h, read_render_iff_isReadable.1 _ e h⟩

end Expr

end FlatCircuit
