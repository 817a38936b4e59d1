import FlatCircuit.Proofs.Contract.Holes
import FlatCircuit.Proofs.Lowering.Blocks
import FlatCircuit.Proofs.Lowering.Liveness

namespace FlatCircuit

namespace Source

open Text

variable {g : Expr} {n k : Nat} {function : String}

theorem toList_text_temporary (n : Nat) (g : Expr) :
    (Definition.assign (Name.temporary n) g).text.toList =
      's' :: 'y' :: 'm' :: '_' :: (Nat.toDigits 10 n ++ " = ".toList ++ g.text.toList) := by
  simp [Definition.text, Name.toList_temporary]

/-- The word of such a line ends before the underscore, where no equation goes on. -/
theorem readDefinition_temporary (n : Nat) (g : Expr) :
    readDefinition (Definition.assign (Name.temporary n) g).text.toList =
      .error (.malformedLine (Definition.assign (Name.temporary n) g).text) := by
  have he : ∀ cs, equation? ('s' :: 'y' :: 'm' :: '_' :: cs) = none := fun cs => rfl
  have hr : ∀ cs, returned? ('s' :: 'y' :: 'm' :: '_' :: cs) = none := fun cs => rfl
  rw [readDefinition, toList_text_temporary, hr, he, ← toList_text_temporary, String.ofList_toList]

theorem tight_text_temporary (hg : g.isSource true = true) :
    Tight (Definition.assign (Name.temporary n) g).text.toList := by
  have hs : Tight ['s'] := tight_of_isAlphanum (List.all_eq_true.mp rfl) (List.cons_ne_nil _ _)
  rw [toList_text_temporary]
  exact hs.append ('y' :: 'm' :: '_' :: (Nat.toDigits 10 n ++ " = ".toList)) (spells_text hg).1.tight

theorem isLineBreak_text_temporary (hg : g.isSource true = true) :
    ∀ c ∈ (Definition.assign (Name.temporary n) g).text.toList, isLineBreak c = false := by
  have hdigit : ∀ c ∈ Nat.toDigits 10 n, isLineBreak c = false := fun c hc =>
    isLineBreak_eq_false_of_isBlank
      (isBlank_eq_false_of_isAlphanum (Form.isAlphanum_of_isNumeral (isNumeral_toDigits n) c hc))
  have hname : ∀ c ∈ ['s', 'y', 'm', '_'], isLineBreak c = false := isLineBreak_eq_false_of_all rfl
  have hequals : ∀ c ∈ " = ".toList, isLineBreak c = false := isLineBreak_eq_false_of_all rfl
  rw [Definition.text, String.toList_append, String.toList_append, Name.toList_temporary]
  simp only [List.forall_mem_append]
  exact ⟨⟨⟨hname, hdigit⟩, hequals⟩, (spells_text hg).1.isLineBreak⟩

theorem readBody_temporary (hg : g.isSource true = true) (rest : List (List Char)) :
    readBody function k (("    ".toList ++ (Definition.assign (Name.temporary n) g).text.toList) :: rest) =
      .error ⟨.malformedLine (Definition.assign (Name.temporary n) g).text, function, k⟩ := by
  have hs : isSkipped (Definition.assign (Name.temporary n) g).text.toList = false := by
    rw [toList_text_temporary]
    rfl
  rw [readBody, (tight_text_temporary hg).strip_append (List.all_eq_true.mp rfl), hs,
    readDefinition_temporary]
  rfl

variable {q : Program} {ds before after : List Definition}

theorem read_text_of_made (hq : Header.IsSource ⟨q.name, q.parameters⟩)
    (hds : q.definitions = before ++ .assign (Name.temporary n) g :: after)
    (hb : ∀ d ∈ before, d.isSource = true) (hg : g.isSource true = true) :
    Program.read q.text = .error ⟨.malformedLine (Definition.assign (Name.temporary n) g).text, q.name,
      before.length + 2⟩ := by
  let made := Definition.assign (Name.temporary n) g
  have hbody : (String.join (q.definitions.map fun d => "    " ++ d.text ++ "\n")).toList =
      (String.join (before.map fun d => "    " ++ d.text ++ "\n")).toList ++
        (("    ".toList ++ made.text.toList) ++
          '\n' :: (String.join (after.map fun d => "    " ++ d.text ++ "\n")).toList) := by
    simp [hds, made, String.join_append, String.join_cons]
  have hbreak : ∀ c ∈ "    ".toList ++ made.text.toList, isLineBreak c = false :=
    List.forall_mem_append.mpr ⟨isLineBreak_eq_false_of_all rfl, isLineBreak_text_temporary hg⟩
  have hread := readBody_texts_append q.name 2 hb
    (("    ".toList ++ made.text.toList) ::
      lines (String.join (after.map fun d => "    " ++ d.text ++ "\n")).toList)
  rw [readBody_temporary hg] at hread
  rw [Program.read, lines_text hq, hbody, lines_texts_append hb, lines_append_break hbreak, readLines,
    readHeader_text hq, Nat.add_comm before.length 2]
  simp only [bind, Except.bind, hread]
  rfl

end Source

namespace Lowering

variable {strict : Bool} {e f a : Expr} {n m k : Nat} {ds es xs : List Definition}

theorem Lowers.opens (h : Lowers strict e n ds m f) (he : e.isSource true = true) :
    (ds = [] ∧ m = n ∧ f.isSource true = true) ∨
      n < m ∧ ∃ g rest, ds = .assign (Name.temporary n) g :: rest ∧ g.isSource true = true := by
  induction h with
  | atom _ => exact .inl ⟨rfl, rfl, he⟩
  | operation op hl hr ha hb ihl ihr =>
    simp only [Expr.isSource, Bool.and_eq_true, decide_eq_true_eq] at he
    obtain ⟨⟨hop, hel⟩, her⟩ := he
    obtain ⟨rfl, rfl, rfl⟩ := hl.of_isAtom (Expr.isAtom_of_isSourceAtom hel)
    obtain ⟨rfl, rfl, rfl⟩ := ha.of_isAtom (Expr.isAtom_of_isSourceAtom hel)
    rcases ihr her with ⟨rfl, rfl, hr'⟩ | ⟨hlt, g, rest, rfl, hg⟩
    · cases hb with
      | atom _ => exact .inl ⟨rfl, rfl, by simp [Expr.isSource, hop, hel, hr']⟩
      | stored _ => exact .inr ⟨Nat.lt_succ_self _, _, [], rfl, hr'⟩
    · exact .inr ⟨Nat.lt_of_lt_of_le hlt hb.le, g, _, rfl, hg⟩
  | literalPower _ _ =>
    obtain ⟨hb, -⟩ := Expr.isSource_pow.mp he
    exact .inl ⟨rfl, rfl, by simp [Expr.isSource, hb]⟩
  | square _ =>
    obtain ⟨hb, -⟩ := Expr.isSource_pow.mp he
    exact .inl ⟨rfl, rfl, by simp [Expr.isSource, hb, Expr.isSource_of_isSourceAtom hb]⟩
  | @power b _ k _ _ _ _ hk h ih =>
    obtain ⟨hb, -⟩ := Expr.isSource_pow.mp he
    have hbelow : (Expr.pow b (.lit k)).isSource true = true :=
      Expr.isSource_pow.mpr ⟨hb, k.toNat, congrArg Expr.lit (Int.toNat_of_nonneg (by omega)).symm⟩
    have hlt := Nat.lt_succ_of_le h.le
    rcases ih hbelow with ⟨rfl, rfl, hf⟩ | ⟨-, g, rest, rfl, hg⟩
    · exact .inr ⟨hlt, _, [], rfl, hf⟩
    · exact .inr ⟨hlt, g, _, rfl, hg⟩
  | choice hl hr hs _ _ _ =>
    simp only [Expr.isSource, Bool.and_eq_true, true_and] at he
    obtain ⟨⟨⟨hel, her⟩, -⟩, -⟩ := he
    obtain ⟨rfl, rfl, rfl⟩ := hl.of_isAtom (Expr.isAtom_of_isSourceAtom hel)
    obtain ⟨rfl, rfl, rfl⟩ := hr.of_isAtom (Expr.isAtom_of_isSourceAtom her)
    have hle := hs.le
    exact .inr ⟨by omega, _, _, rfl, Expr.isSource_of_isSourceAtom hel true⟩

inductive Opens (n : Nat) : List Definition → Nat → Prop
  | unmade {ds : List Definition} : (∀ d ∈ ds, d.isSource = true) → Opens n ds n
  | made {before after : List Definition} {g : Expr} {m : Nat} : n < m → (∀ d ∈ before, d.isSource = true) →
      g.isSource true = true → Opens n (before ++ .assign (Name.temporary n) g :: after) m

theorem opens_of_cons {g : Expr} (hlt : n < m) (hg : g.isSource true = true) :
    Opens n (.assign (Name.temporary n) g :: ds) m := by
  have hopens : Opens n ([] ++ .assign (Name.temporary n) g :: ds) m := .made hlt (List.forall_mem_nil _) hg
  exact hopens

theorem Opens.append (h : Opens n ds k) (h' : Opens k es m) (hle : k ≤ m) : Opens n (ds ++ es) m := by
  cases h with
  | unmade hds =>
    cases h' with
    | unmade hes => exact .unmade (List.forall_mem_append.mpr ⟨hds, hes⟩)
    | made hlt hb hg =>
      rw [← List.append_assoc]
      exact .made hlt (List.forall_mem_append.mpr ⟨hds, hb⟩) hg
  | made hlt hb hg =>
    rw [List.append_assoc]
    exact .made (Nat.lt_of_lt_of_le hlt hle) hb hg

theorem Becomes.opens {d c : Definition} (h : Becomes strict d n ds m c) (hd : d.isSource = true) :
    Opens n (ds ++ [c]) m := by
  cases h with
  | assign _ he =>
    obtain ⟨hi, hn, hs⟩ := Definition.isSource_assign.mp hd
    rcases he.opens hs with ⟨rfl, rfl, hf⟩ | ⟨hlt, g, rest, rfl, hg⟩
    · exact .unmade (List.forall_mem_singleton.mpr (Definition.isSource_assign.mpr ⟨hi, hn, hf⟩))
    · exact opens_of_cons hlt hg
  | ret he =>
    rcases he.opens hd with ⟨rfl, rfl, hf⟩ | ⟨hlt, g, rest, rfl, hg⟩
    · exact .unmade (List.forall_mem_singleton.mpr hf)
    · exact opens_of_cons hlt hg

theorem LowersAll.opens (h : LowersAll strict xs n ds m) (hp : ∀ d ∈ xs, d.IsPlain)
    (hs : ∀ d ∈ xs, d.isSource = true) : Opens n ds m := by
  revert hs
  refine h.plainInduction (fun n _ => .unmade (List.forall_mem_nil _)) ?_ hp
  intro d c xs es fs n k m hd hds hbecomes hrest ih hs
  obtain ⟨hsd, hss⟩ := List.forall_mem_cons.mp hs
  obtain ⟨_, _, _, hn⟩ := hrest.mirrors hds
  have happend := (hbecomes.opens hsd).append (ih hss) hn.le
  simpa using happend

end Lowering

theorem Definition.isMade_eq_false_of_isSource {d : Definition} (h : d.isSource = true) : d.isMade = false := by
  cases d with
  | assign x e =>
    have hx := Name.isPlain_of_isIdentifier (Definition.isSource_assign.mp h).1
    simp [isMade, hx]
  | ret | hole => rfl

theorem Definition.isMade_temporary (n : Nat) (g : Expr) : (assign (Name.temporary n) g).isMade = true := by
  simp [isMade, Name.not_isPlain_temporary]

namespace Program

variable {strict : Bool} {p q : Program}

theorem isSource_of_lower (hp : p.IsSource) (h : p.lower strict = .ok q)
    (hs : ∀ d ∈ q.definitions, d.isSource = true) : q.IsSource := by
  obtain ⟨hl, hq⟩ := Lowering.lowersAll_emission h
  obtain ⟨es, e, hes, ha⟩ := hl.endsInReturn hp.endsInReturn
  rw [hes] at hs
  obtain ⟨hinit, hret⟩ := List.forall_mem_append.mp hs
  have hheader : Header.IsSource ⟨q.name, q.parameters⟩ := by
    rw [hq]
    exact hp.header
  refine ⟨hheader, es, e, hes, fun d hd => ?_, hret _ List.mem_cons_self⟩
  refine Source.isEquation_of_isSource (hinit d hd) ?_
  cases d with
  | ret => cases ha _ hd
  | assign | hole => rfl

/-- The text of the flat form of a program that was read is read back if no temporary was made, and otherwise
it is refused at the first definition that was made, for the temporary that it assigns. -/
theorem read_text_of_lower (hp : Program.read s = .ok p) (hq : p.lower strict = .ok q) :
    q.render = .ok q.text ∧
    ((p.emission strict).next = 0 →
      q.definitions.findIdx? Definition.isMade = none ∧ Program.read q.text = .ok q) ∧
    (0 < (p.emission strict).next → ∃ i g err,
      q.definitions.findIdx? Definition.isMade = some i ∧
      q.definitions[i]? = some (.assign (Name.temporary 0) g) ∧ Program.read q.text = .error err ∧
      err.cause = .malformedLine (Definition.assign (Name.temporary 0) g).text ∧
      err.cause.kind = "MalformedDefinitionLine" ∧ err.function = p.name ∧ err.line = i + 2) := by
  have hs := isSource_of_read hp
  obtain ⟨hl, hname⟩ := Lowering.lowersAll_emission hq
  have hopens := hl.opens hs.isPlain.definitions hs.isSource
  have hrender : q.render = .ok q.text := by
    rw [render, hs.hole?_eq_none_of_lower hq]
    rfl
  refine ⟨hrender, ?_⟩
  generalize hds : q.definitions = ds at hopens
  generalize (p.emission strict).next = m at hopens ⊢
  cases hopens with
  | unmade hd =>
    refine ⟨fun _ => ⟨?_, (isSource_of_lower hs hq (hds ▸ hd)).read_text⟩, fun hn => absurd hn (Nat.lt_irrefl 0)⟩
    exact List.findIdx?_eq_none_iff.mpr fun d hd' => Definition.isMade_eq_false_of_isSource (hd d hd')
  | @made before after g m hlt hb hg =>
    refine ⟨fun hn => absurd hn (Nat.ne_of_gt hlt), fun _ => ?_⟩
    have hheader : Header.IsSource ⟨q.name, q.parameters⟩ := by
      rw [hname]
      exact hs.header
    have hfunction : q.name = p.name := by rw [hname]
    have hread := Source.read_text_of_made hheader hds hb hg
    have hbefore : before.findIdx? Definition.isMade = none :=
      List.findIdx?_eq_none_iff.mpr fun d hd => Definition.isMade_eq_false_of_isSource (hb d hd)
    refine ⟨before.length, g, _, ?_, ?_, hread, rfl, rfl, hfunction, rfl⟩
    · have hfirst : (Definition.assign (Name.temporary 0) g).isMade = true := Definition.isMade_temporary 0 g
      simp [List.findIdx?_append, hbefore, List.findIdx?_cons, hfirst]
    · simp

theorem read_text_of_lower_cube :
    let p : Program := ⟨"f", ["x"], [
      .assign "y" (.bin .add (.var "x") (.lit 1)), .ret (.bin .sub (.var "x") (.pow (.var "y") (.lit 3)))]⟩
    let made : Definition := .assign "sym_0" (.bin .mul (.var "y") (.var "y"))
    let q : Program := ⟨"f", ["x"], [.assign "y" (.bin .add (.var "x") (.lit 1)), made,
      .assign "sym_1" (.bin .mul (.var "sym_0") (.var "y")), .ret (.bin .sub (.var "x") (.var "sym_1"))]⟩
    Program.read p.text = .ok p ∧ p.lower true = .ok q ∧
      Program.read q.text = .error ⟨.malformedLine made.text, "f", 3⟩ := by
  intro p made q
  have hp : Program.read p.text = .ok p := by decide +kernel
  have hq : p.lower true = .ok q := by decide +kernel
  obtain ⟨i, g, ⟨cause, function, line⟩, hi, hg, hread, rfl, -, rfl, rfl⟩ :=
    (read_text_of_lower hp hq).2.2 (by decide +kernel)
  cases hi
  obtain rfl := (Definition.assign.inj (Option.some.inj hg)).2
  have hname : Name.temporary 0 = "sym_0" := by decide
  rw [hname] at hread
  exact ⟨hp, hq, hread⟩

end Program

end FlatCircuit
