import FlatCircuit.Proofs.Source.Cancellation

namespace FlatCircuit

def Definition.IsProper : Definition → Prop
  | .assign x e => Name.isProper x = true ∧ e.IsProper
  | .ret e => e.IsProper
  | .hole => False

instance (d : Definition) : Decidable d.IsProper :=
  match d with
  | .assign x e => inferInstanceAs (Decidable (Name.isProper x = true ∧ e.IsProper))
  | .ret e => inferInstanceAs (Decidable e.IsProper)
  | .hole => inferInstanceAs (Decidable False)

structure Program.IsProper (p : Program) : Prop where
  name : Name.isProper p.name = true
  parameters : ∀ x ∈ p.parameters, Name.isProper x = true
  definitions : ∀ d ∈ p.definitions, d.IsProper

namespace Source

variable {e f : Expr} {rest rest' : List Char}

theorem text_append_ne_equals (he : e.IsProper) (cs : List Char) : e.text.toList ++ rest ≠ '=' :: cs := by
  intro h
  rw [Expr.toList_text he, List.append_assoc] at h
  cases ha : e.head.isAtom with
  | true =>
    obtain ⟨c, ds, hc, ht⟩ := exists_cons_of_isAtom he.head ha
    rw [Expr.operandText_of_isAtom ha, hc] at h
    cases h
    cases ht
  | false =>
    rw [Expr.operandText_of_not_isAtom ha] at h
    cases h

theorem toList_text_assign (x : String) (e : Expr) :
    (Definition.assign x e).text.toList = x.toList ++ ' ' :: '=' :: ' ' :: e.text.toList := by
  simp [Definition.text]

theorem toList_text_ret (e : Expr) :
    (Definition.ret e).text.toList = "return".toList ++ ' ' :: e.text.toList := by
  simp [Definition.text]

theorem isTokenChar_return : ∀ c ∈ "return".toList, isTokenChar c = true :=
  isTokenChar_of_isProper rfl

theorem assign_append_ne_ret {x : String} (hx : Name.isProper x = true) (hf : f.IsProper) :
    (Definition.assign x e).text.toList ++ rest ≠ (Definition.ret f).text.toList ++ rest' := by
  intro h
  simp only [toList_text_assign, toList_text_ret, List.append_assoc, List.cons_append] at h
  obtain ⟨_, h⟩ := token_append_inj (isTokenChar_of_isProper hx) isTokenChar_return (stops_space _)
    (stops_space _) h
  exact text_append_ne_equals hf _ (List.cons.inj h).2.symm

theorem definition_append_inj {d d' : Definition} (hd : d.IsProper) (hd' : d'.IsProper)
    (h : d.text.toList ++ '\n' :: rest = d'.text.toList ++ '\n' :: rest') : d = d' ∧ rest = rest' := by
  cases d with
  | assign x e =>
    cases d' with
    | assign y f =>
      simp only [toList_text_assign, List.append_assoc, List.cons_append] at h
      obtain ⟨hxy, h⟩ := token_append_inj (isTokenChar_of_isProper hd.1) (isTokenChar_of_isProper hd'.1)
        (stops_space _) (stops_space _) h
      simp only [List.cons.injEq, true_and] at h
      obtain ⟨rfl, hrest⟩ := (cancels_of_isProper hd.2).1 hd'.2 (.line rest) (.line rest') h
      exact ⟨by rw [String.toList_inj.mp hxy], (List.cons.inj hrest).2⟩
    | ret f => exact absurd h (assign_append_ne_ret hd.1 hd')
    | hole => cases hd'
  | ret e =>
    cases d' with
    | assign y f => exact absurd h.symm (assign_append_ne_ret hd'.1 hd)
    | ret f =>
      simp only [toList_text_ret, List.append_assoc, List.append_cancel_left_eq, List.cons_append,
        List.cons.injEq, true_and] at h
      obtain ⟨rfl, hrest⟩ := (cancels_of_isProper (e := e) hd).1 hd' (.line rest) (.line rest') h
      exact ⟨rfl, (List.cons.inj hrest).2⟩
    | hole => cases hd'
  | hole => cases hd

def bodyText (ds : List Definition) : List Char :=
  (String.join (ds.map fun d => "    " ++ d.text ++ "\n")).toList

theorem bodyText_cons (d : Definition) (ds : List Definition) :
    bodyText (d :: ds) = ' ' :: ' ' :: ' ' :: ' ' :: (d.text.toList ++ '\n' :: bodyText ds) := by
  simp [bodyText, String.join_cons]

theorem bodyText_inj {ds es : List Definition} (hd : ∀ d ∈ ds, d.IsProper) (he : ∀ d ∈ es, d.IsProper)
    (h : bodyText ds = bodyText es) : ds = es := by
  induction ds generalizing es with
  | nil =>
    cases es with
    | nil => rfl
    | cons e es =>
      rw [bodyText_cons] at h
      cases h
  | cons d ds ih =>
    cases es with
    | nil =>
      rw [bodyText_cons] at h
      cases h
    | cons e es =>
      obtain ⟨hd, hds⟩ := List.forall_mem_cons.mp hd
      obtain ⟨he, hes⟩ := List.forall_mem_cons.mp he
      simp only [bodyText_cons, List.cons.injEq, true_and] at h
      obtain ⟨rfl, hrest⟩ := definition_append_inj hd he h
      rw [ih hds hes hrest]

def furtherText (ps : List String) : List Char :=
  ps.flatMap fun x => ',' :: ' ' :: x.toList

theorem furtherText_eq (ps : List String) : furtherText ps = further [' '] String.toList ps := rfl

theorem toList_parameters_cons (x : String) (ps : List String) :
    (", ".intercalate (x :: ps)).toList = x.toList ++ furtherText ps := by
  rw [furtherText_eq]
  exact toList_intercalate_cons rfl x ps

theorem stops_furtherText (ps : List String) (cs : List Char) : Stops (furtherText ps ++ ')' :: cs) := by
  rw [furtherText_eq]
  exact stops_further rfl ps cs

theorem detaches_of_isProper {x : String} (hx : Name.isProper x = true) :
    Detaches (fun y : String => Name.isProper y = true) String.toList x := by
  intro y rest rest' hy hr hr' h
  obtain ⟨hxy, hrest⟩ := token_append_inj (isTokenChar_of_isProper hx) (isTokenChar_of_isProper hy) hr hr' h
  exact ⟨String.toList_inj.mp hxy, hrest⟩

theorem furtherText_append_inj {ps qs : List String} (hp : ∀ x ∈ ps, Name.isProper x = true)
    (hq : ∀ x ∈ qs, Name.isProper x = true)
    (h : furtherText ps ++ ')' :: rest = furtherText qs ++ ')' :: rest') : ps = qs ∧ rest = rest' := by
  rw [furtherText_eq, furtherText_eq] at h
  exact further_append_inj rfl (by decide) (fun x hx => detaches_of_isProper (hp x hx)) hq h

theorem parenthesis_ne_parameters {x : String} {ps : List String} (hx : Name.isProper x = true) :
    ')' :: rest ≠ (", ".intercalate (x :: ps)).toList ++ ')' :: rest' := by
  intro h
  rw [toList_parameters_cons, List.append_assoc] at h
  have hnil : ∀ c ∈ [], isTokenChar c = true := nofun
  obtain ⟨hx', _⟩ := token_append_inj hnil (isTokenChar_of_isProper hx) (Closes.parenthesis rest).stops
    (stops_furtherText ps rest') h
  exact ne_nil_of_isProper hx hx'.symm

theorem parameters_append_inj {ps qs : List String} (hp : ∀ x ∈ ps, Name.isProper x = true)
    (hq : ∀ x ∈ qs, Name.isProper x = true)
    (h : (", ".intercalate ps).toList ++ ')' :: rest = (", ".intercalate qs).toList ++ ')' :: rest') :
    ps = qs ∧ rest = rest' := by
  cases ps with
  | nil =>
    cases qs with
    | nil => exact ⟨rfl, (List.cons.inj h).2⟩
    | cons y qs => exact absurd h (parenthesis_ne_parameters (hq y List.mem_cons_self))
  | cons x ps =>
    cases qs with
    | nil => exact absurd h.symm (parenthesis_ne_parameters (hp x List.mem_cons_self))
    | cons y qs =>
      obtain ⟨hx, hps⟩ := List.forall_mem_cons.mp hp
      obtain ⟨hy, hqs⟩ := List.forall_mem_cons.mp hq
      simp only [toList_parameters_cons, List.append_assoc] at h
      obtain ⟨rfl, hnext⟩ := detaches_of_isProper hx hy (stops_furtherText ps rest) (stops_furtherText qs rest') h
      obtain ⟨rfl, hrest⟩ := furtherText_append_inj hps hqs hnext
      exact ⟨rfl, hrest⟩

end Source

theorem Definition.IsProper.hole?_eq_none {d : Definition} (h : d.IsProper) : d.hole? = none := by
  cases d with
  | assign x e => exact Expr.hole?_eq_none_of_isKnown h.2.1
  | ret e => exact Expr.hole?_eq_none_of_isKnown h.1
  | hole => cases h

theorem Expr.IsProper.render_eq {e : Expr} (h : e.IsProper) : e.render = .ok e.text := by
  rw [render, hole?_eq_none_of_isKnown h.1]
  rfl

namespace Program

variable {p q : Program}

theorem IsProper.render_eq (h : p.IsProper) : p.render = .ok p.text := by
  have hh : p.hole? = none := List.findSome?_eq_none_iff.mpr fun d hd => (h.definitions d hd).hole?_eq_none
  rw [render, hh]
  rfl

theorem toList_text (p : Program) : p.text.toList = "def ".toList ++ (p.name.toList ++
    '(' :: ((", ".intercalate p.parameters).toList ++
      ')' :: ':' :: '\n' :: Source.bodyText p.definitions)) := by
  simp [text, header, Source.bodyText]

theorem IsProper.eq_of_text_eq (hp : p.IsProper) (hq : q.IsProper) (h : p.text = q.text) : p = q := by
  have hl := congrArg String.toList h
  rw [toList_text, toList_text, List.append_cancel_left_eq] at hl
  have hstops : ∀ cs, Source.Stops ('(' :: cs) := fun _ => rfl
  obtain ⟨hname, hl⟩ := Source.token_append_inj (Source.isTokenChar_of_isProper hp.name)
    (Source.isTokenChar_of_isProper hq.name) (hstops _) (hstops _) hl
  obtain ⟨hparameters, hl⟩ :=
    Source.parameters_append_inj hp.parameters hq.parameters (List.cons.inj hl).2
  simp only [List.cons.injEq, true_and] at hl
  have hdefinitions := Source.bodyText_inj hp.definitions hq.definitions hl
  cases p
  cases q
  simp only [Program.mk.injEq]
  exact ⟨String.toList_inj.mp hname, hparameters, hdefinitions⟩

/-- Programs with proper names and no unknown parts are rendered, and no two of them as the same text. The same
holds of expressions. -/
theorem eq_of_render_eq :
    (∀ p q : Program, p.IsProper → q.IsProper → p.render = q.render → p = q) ∧
    (∀ e f : Expr, e.IsProper → f.IsProper → e.render = f.render → e = f) ∧
    (∀ p : Program, p.IsProper → ∃ t, p.render = .ok t) ∧ ∀ e : Expr, e.IsProper → ∃ t, e.render = .ok t := by
  refine ⟨fun p q hp hq h => ?_, fun e f he hf h => ?_, fun p hp => ⟨_, hp.render_eq⟩,
    fun e he => ⟨_, he.render_eq⟩⟩
  · rw [hp.render_eq, hq.render_eq] at h
    exact hp.eq_of_text_eq hq (Except.ok.inj h)
  · rw [he.render_eq, hf.render_eq] at h
    have ht := congrArg (fun t : String => t.toList ++ []) (Except.ok.inj h)
    exact ((Source.cancels_of_isProper he).1 hf .nil .nil ht).1

theorem eq_of_render_eq_nested :
    let p : Program := ⟨"clamp", ["x", "_y"], [
      .assign "x_1" (.bin .sub (.bin .add (.var "x") (.lit (-3))) (.bin .add (.lit 2) (.var "_y"))),
      .ret (.ite (.less (.pow (.var "x_1") (.lit 2)) (.var "x"))
        (.bin .mul (.var "x") (.ite (.less (.lit 0) (.var "_y")) (.lit 1) (.lit (-1)))) (.var "_y"))]⟩
    p.IsProper ∧ ∀ q : Program, q.IsProper → q.render = p.render → q = p := by
  intro p
  have hp : p.IsProper := ⟨by decide, by decide, by decide⟩
  exact ⟨hp, fun q hq h => eq_of_render_eq.1 q p hq hp h⟩

end Program

end FlatCircuit
