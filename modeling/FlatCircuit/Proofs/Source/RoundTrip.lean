import FlatCircuit.Proofs.Source.Lines

namespace FlatCircuit

structure Header.IsSource (h : Header) : Prop where
  function : Form.isIdentifier h.function.toList = true
  nonempty : h.parameters ≠ []
  words : ∀ x ∈ h.parameters, isWord x.toList = true
  distinct : h.parameters.Nodup

structure Program.IsSource (p : Program) : Prop where
  header : Header.IsSource ⟨p.name, p.parameters⟩
  definitions : ∃ ds e, p.definitions = ds ++ [.ret e] ∧
    (∀ d ∈ ds, d.isEquation = true) ∧ e.isSource true = true

namespace Header

open Text

variable {cs rest name arguments : List Char} {ps : List String}

theorem isAlphanum_of_isWord (h : isWord cs = true) : ∀ c ∈ cs, c.isAlphanum = true := by
  intro c hc
  have hl := List.all_eq_true.mp (Bool.and_eq_true_iff.mp h).2 c hc
  exact isAlphanum_iff.mpr (.inl (isAlpha_iff.mpr (.inr hl)))

theorem ne_nil_of_isWord (h : isWord cs = true) : cs ≠ [] := by
  rintro rfl
  cases h

theorem isIdentifier_of_afterDef? (h : afterDef? cs = some (name, arguments)) :
    Form.isIdentifier name = true := by
  cases cs with
  | nil => cases h
  | cons c cs =>
    simp only [afterDef?, Option.bind_eq_bind, Option.bind_eq_some_iff, Prod.exists] at h
    obtain ⟨_, _, word, after, _, _, hg, h⟩ := h
    have hi := (Option.guard_eq_some' _).mp hg
    -- the name is the word that the guard has checked
    split at h
    · split at h
      · split at h
        · simp only [Option.bind_eq_some_iff] at h
          obtain ⟨_, _, h⟩ := h
          cases h
          exact hi
        · cases h
      · cases h
    · cases h

theorem readParameters_eq_ok (h : readParameters arguments = .ok ps) :
    ps ≠ [] ∧ (∀ x ∈ ps, isWord x.toList = true) ∧ ps.Nodup := by
  unfold readParameters at h
  simp only at h
  split at h
  · next hw =>
    split at h
    · next hr =>
      cases h
      refine ⟨?_, fun x hx => ?_, (repeated?_eq_none_iff.mp hr).1⟩
      · simp
      · obtain ⟨cs, hcs, rfl⟩ := List.mem_map.mp hx
        rw [String.toList_ofList]
        exact List.all_eq_true.mp hw cs hcs
    · cases h
  · cases h

theorem map_strip_splitOn {pre : List Char} (hb : ∀ c ∈ pre, isBlank c = true) (hne : ps ≠ [])
    (hw : ∀ x ∈ ps, isWord x.toList = true) :
    ((pre ++ (", ".intercalate ps).toList).splitOn ',').map strip = ps.map String.toList := by
  have hcomma : ∀ {x : String} {pre : List Char}, (∀ c ∈ pre, isBlank c = true) →
      isWord x.toList = true → ',' ∉ pre ++ x.toList := by
    intro x pre hb hx hm
    rcases List.mem_append.mp hm with hm | hm
    · exact absurd (hb _ hm) (by decide)
    · exact absurd (isAlphanum_of_isWord hx _ hm) (by decide)
  have hstrip : ∀ {x : String} {pre : List Char}, (∀ c ∈ pre, isBlank c = true) →
      isWord x.toList = true → strip (pre ++ x.toList) = x.toList := by
    intro x pre hb hx
    exact (tight_of_isAlphanum (isAlphanum_of_isWord hx) (ne_nil_of_isWord hx)).strip_append hb
  induction ps generalizing pre with
  | nil => exact absurd rfl hne
  | cons x ps ih =>
    obtain ⟨hx, hps⟩ := List.forall_mem_cons.mp hw
    cases ps with
    | nil =>
      rw [String.intercalate_singleton, List.splitOn_eq_singleton (hcomma hb hx)]
      simp [hstrip hb hx]
    | cons y ps =>
      have hi : (", ".intercalate (x :: y :: ps)).toList =
          x.toList ++ ',' :: ([' '] ++ (", ".intercalate (y :: ps)).toList) := by
        rw [String.intercalate_cons_cons]
        simp
      rw [hi, ← List.append_assoc, List.splitOn_append_cons_self_of_not_mem (hcomma hb hx),
        List.map_cons, hstrip hb hx, ih (List.all_eq_true.mp rfl) (List.cons_ne_nil y ps) hps]
      rfl

theorem readParameters_intercalate (hne : ps ≠ []) (hw : ∀ x ∈ ps, isWord x.toList = true)
    (hd : ps.Nodup) : readParameters (", ".intercalate ps).toList = .ok ps := by
  have hs : ((", ".intercalate ps).toList.splitOn ',').map strip = ps.map String.toList :=
    map_strip_splitOn (fun _ hc => absurd hc List.not_mem_nil) hne hw
  have hmap : (ps.map String.toList).map String.ofList = ps := by simp
  have hall : (ps.map String.toList).all isWord = true := by
    simpa [List.all_eq_true] using hw
  have hr : repeated? [] ps = none :=
    repeated?_eq_none_iff.mpr ⟨hd, fun _ _ => List.not_mem_nil⟩
  simp only [readParameters, hs, hmap, hall, hr]
  rfl

theorem mem_intercalate {c : Char} (hw : ∀ x ∈ ps, isWord x.toList = true)
    (hc : c ∈ (", ".intercalate ps).toList) : c.isAlphanum = true ∨ c = ',' ∨ c = ' ' := by
  rw [String.toList_intercalate] at hc
  induction ps with
  | nil => cases hc
  | cons x ps ih =>
    obtain ⟨hx, hps⟩ := List.forall_mem_cons.mp hw
    cases ps with
    | nil =>
      rw [List.map_cons, List.map_nil, List.intercalate_singleton] at hc
      exact .inl (isAlphanum_of_isWord hx c hc)
    | cons y ps =>
      rw [List.map_cons, List.map_cons, List.intercalate_cons_cons] at hc
      rcases List.mem_append.mp hc with hc | hc
      · rcases List.mem_append.mp hc with hc | hc
        · exact .inl (isAlphanum_of_isWord hx c hc)
        · exact .inr (by simpa using hc)
      · exact ih hps hc

theorem afterDef?_append (hi : Form.isIdentifier name = true)
    (ha : ∀ c ∈ arguments, isParenthesis c = false) :
    afterDef? (' ' :: (name ++ '(' :: (arguments ++ [')', ':']))) = some (name, arguments) := by
  have hn := Form.isAlphanum_of_isIdentifier hi
  have hne : name ≠ [] := by
    rintro rfl
    cases hi
  have hs : stripStart (' ' :: (name ++ '(' :: (arguments ++ [')', ':']))) =
      name ++ '(' :: (arguments ++ [')', ':']) := by
    rw [Source.stripStart_cons_of_isBlank rfl]
    obtain ⟨c, tail, rfl⟩ := List.exists_cons_of_ne_nil hne
    rw [stripStart, List.cons_append, List.dropWhile_cons,
      isBlank_eq_false_of_isAlphanum (hn c List.mem_cons_self)]
    rfl
  have hp : stripStart ('(' :: (arguments ++ [')', ':'])) = '(' :: (arguments ++ [')', ':']) := rfl
  have hall : ∀ c ∈ arguments, (!isParenthesis c) = true := fun c hc => by rw [ha c hc]; rfl
  have hd : (arguments ++ [')', ':']).dropWhile (!isParenthesis ·) = [')', ':'] := by
    rw [List.dropWhile_append_of_pos hall]
    rfl
  have ht : (arguments ++ [')', ':']).takeWhile (!isParenthesis ·) = arguments := by
    rw [List.takeWhile_append_of_pos hall]
    exact List.append_nil arguments
  have hb : (guard (isBlank ' ' = true) : Option Unit) = some () := if_pos rfl
  have hw : Form.word? (name ++ '(' :: (arguments ++ [')', ':'])) =
      some (name, '(' :: (arguments ++ [')', ':'])) := Form.word?_append hn hne rfl
  have hg : (guard (Form.isIdentifier name = true) : Option Unit) = some () := if_pos hi
  have hc : stripStart [':'] = [':'] := rfl
  have he : (guard (stripStart [] = []) : Option Unit) = some () := if_pos rfl
  simp [afterDef?, ↓hb, hs, hw, ↓hg, hp, hd, ht, hc, ↓he]

end Header

namespace Source

open Text

variable {ls : List (List Char)} {ds : List Definition} {function : String} {n m : Nat} {h : Header}
  {rest : List (List Char)}

theorem notMem_of_mem_lines {cs line : List Char} (hl : line ∈ lines cs) : '\n' ∉ strip line := by
  intro hm
  have hb := isLineBreak_eq_false_of_mem_lines hl _ (mem_of_mem_strip hm)
  cases hb

theorem isSource_of_readHeader (hr : readHeader n ls = .ok (h, m, rest)) :
    h.IsSource ∧ ∀ line ∈ rest, line ∈ ls := by
  fun_induction readHeader n ls with
  | case1 => cases hr
  | case2 => cases hr
  | case3 n line ls cs after hdef name arguments ha ps hps =>
    cases hr
    obtain ⟨hne, hw, hd⟩ := Header.readParameters_eq_ok hps
    refine ⟨⟨?_, hne, hw, hd⟩, fun _ => List.mem_cons_of_mem _⟩
    rw [String.toList_ofList]
    exact Header.isIdentifier_of_afterDef? ha
  | case4 => cases hr
  | case5 n line ls cs hdef hs ih =>
    obtain ⟨hh, hsub⟩ := ih hr
    exact ⟨hh, fun line hl => List.mem_cons_of_mem _ (hsub line hl)⟩
  | case6 => cases hr

theorem isSource_of_readBody (hb : ∀ line ∈ ls, '\n' ∉ strip line)
    (hr : readBody function n ls = .ok ds) : ∀ d ∈ ds, d.isSource = true := by
  induction ls generalizing n ds with
  | nil =>
    cases hr
    exact fun _ hd => absurd hd List.not_mem_nil
  | cons line ls ih =>
    obtain ⟨hline, hls⟩ := List.forall_mem_cons.mp hb
    rw [readBody] at hr
    split at hr
    · exact ih hls hr
    · split at hr
      · next d hd =>
        obtain ⟨ds', hds, rfl⟩ := map_eq_ok hr
        exact List.forall_mem_cons.mpr ⟨isSource_of_readDefinition hline hd, ih hls hds⟩
      · cases hr

theorem misplaced?_eq_none_iff :
    misplaced? ds = none ↔ ∃ init e, ds = init ++ [.ret e] ∧ ∀ d ∈ init, d.isReturn = false := by
  constructor
  · intro hm
    unfold misplaced? at hm
    split at hm
    · cases hm
    · next last hlast =>
      obtain ⟨init, rfl⟩ := List.getLast?_eq_some_iff.mp hlast
      rw [List.dropLast_concat] at hm
      split at hm
      · cases hm
      · next hl =>
        cases last with
        | ret e => exact ⟨init, e, rfl, by simpa using hm⟩
        | assign | hole => exact absurd rfl hl
  · rintro ⟨init, e, rfl, hinit⟩
    have hany : init.any Definition.isReturn = false := by simpa using hinit
    simp [misplaced?, Definition.isReturn, hany]

theorem isEquation_of_isSource {d : Definition} (h : d.isSource = true) (hr : d.isReturn = false) :
    d.isEquation = true := by
  cases d with
  | ret => cases hr
  | assign | hole => exact h

theorem exists_cons_of_isSource {d : Definition} (h : d.isSource = true) :
    ∃ c cs, d.text.toList = c :: cs ∧ c.isAlphanum = true := by
  cases d with
  | assign x e =>
    obtain ⟨c, cs, hx, hc⟩ := (DerivesAtom.name (Definition.isSource_assign.mp h).1).exists_cons
    exact ⟨c, cs ++ " = ".toList ++ e.text.toList, by simp [Definition.text, hx], hc⟩
  | ret e => exact ⟨'r', "eturn ".toList ++ e.text.toList, by simp [Definition.text], rfl⟩
  | hole => cases h

theorem tight_text {d : Definition} (h : d.isSource = true) : Tight d.text.toList := by
  cases d with
  | assign x e =>
    obtain ⟨hi, _, he⟩ := Definition.isSource_assign.mp h
    have ht := (DerivesAtom.name hi).tight.append " = ".toList (spells_text he).1.tight
    simpa [Definition.text] using ht
  | ret e =>
    have hr : Tight "return".toList := tight_of_isAlphanum (List.all_eq_true.mp rfl) (by decide)
    have ht := hr.append [' '] (spells_text (e := e) h).1.tight
    simpa [Definition.text] using ht
  | hole => cases h

theorem isLineBreak_text {d : Definition} (h : d.isSource = true) :
    ∀ c ∈ d.text.toList, isLineBreak c = false := by
  cases d with
  | assign x e =>
    obtain ⟨hi, _, he⟩ := Definition.isSource_assign.mp h
    have hx := (DerivesAtom.name hi).spells.isLineBreak
    have he := (spells_text he).1.isLineBreak
    have heq : ∀ c ∈ " = ".toList, isLineBreak c = false := isLineBreak_eq_false_of_all rfl
    simp only [Definition.text, String.toList_append, List.forall_mem_append]
    exact ⟨⟨hx, heq⟩, he⟩
  | ret e =>
    have he := (spells_text (e := e) h).1.isLineBreak
    have hret : ∀ c ∈ "return ".toList, isLineBreak c = false := isLineBreak_eq_false_of_all rfl
    simp only [Definition.text, String.toList_append, List.forall_mem_append]
    exact ⟨hret, he⟩
  | hole => cases h

theorem readBody_texts_append (function : String) (n : Nat) (h : ∀ d ∈ ds, d.isSource = true)
    (rest : List (List Char)) :
    readBody function n ((ds.map fun d => "    ".toList ++ d.text.toList) ++ rest) =
      (ds ++ ·) <$> readBody function (n + ds.length) rest := by
  induction ds generalizing n with
  | nil => exact (id_map (readBody function n rest)).symm
  | cons d ds ih =>
    obtain ⟨hd, hds⟩ := List.forall_mem_cons.mp h
    obtain ⟨c, cs, hc, ha⟩ := exists_cons_of_isSource hd
    have hs : isSkipped d.text.toList = false := by
      rw [hc]
      exact isSkipped_append ha
    have hn : n + 1 + ds.length = n + (d :: ds).length := by simp only [List.length_cons]; omega
    rw [List.map_cons, List.cons_append, readBody, (tight_text hd).strip_append (List.all_eq_true.mp rfl), hs,
      readDefinition_text hd, ih (n + 1) hds, hn]
    cases readBody function (n + (d :: ds).length) rest <;> rfl

theorem readBody_texts (h : ∀ d ∈ ds, d.isSource = true) :
    readBody function n (ds.map fun d => "    ".toList ++ d.text.toList) = .ok ds := by
  have hr := readBody_texts_append function n h []
  rw [List.append_nil] at hr
  rw [hr, readBody]
  exact congrArg Except.ok (List.append_nil ds)

theorem toList_header (p : Program) :
    p.header.toList = "def".toList ++ ' ' :: (p.name.toList ++
      '(' :: ((", ".intercalate p.parameters).toList ++ [')', ':'])) := by
  simp [Program.header]

theorem tight_header (p : Program) : Tight p.header.toList := by
  refine ⟨'d', ':', ?_, ?_, by decide, by decide⟩
  · simp [toList_header]
  · rw [Program.header, String.toList_append, List.getLast?_append]
    rfl

theorem isLineBreak_header {p : Program} (hp : Header.IsSource ⟨p.name, p.parameters⟩) :
    ∀ c ∈ p.header.toList, isLineBreak c = false := by
  intro c hc
  have hd : ∀ {c : Char}, c.isAlphanum = true → isLineBreak c = false :=
    fun h => isLineBreak_eq_false_of_isBlank (isBlank_eq_false_of_isAlphanum h)
  simp only [toList_header, List.mem_append, List.mem_cons, List.not_mem_nil, or_false] at hc
  rcases hc with hc | rfl | hc | rfl | hc | rfl | rfl
  · exact isLineBreak_eq_false_of_all rfl c hc
  · decide
  · exact hd (Form.isAlphanum_of_isIdentifier hp.function c hc)
  · decide
  · rcases Header.mem_intercalate hp.words hc with hc | rfl | rfl
    · exact hd hc
    · decide
    · decide
  · decide
  · decide

theorem readHeader_text {p : Program} (hp : Header.IsSource ⟨p.name, p.parameters⟩) :
    readHeader 1 (p.header.toList :: ls) = .ok (⟨p.name, p.parameters⟩, 2, ls) := by
  have hs := (tight_header p).strip_eq
  have ha : ∀ c ∈ (", ".intercalate p.parameters).toList, Header.isParenthesis c = false := by
    intro c hc
    rw [Bool.eq_false_iff]
    intro hp'
    have hpar : c = '(' ∨ c = ')' := by simpa [Header.isParenthesis] using hp'
    rcases hpar with rfl | rfl <;> rcases Header.mem_intercalate hp.words hc with h | h | h <;> cases h
  have hdef : Header.def? p.header.toList = some (' ' :: (p.name.toList ++
      '(' :: ((", ".intercalate p.parameters).toList ++ [')', ':']))) := by
    rw [toList_header]
    rfl
  rw [readHeader]
  simp only [hs, hdef, Header.afterDef?_append hp.function ha,
    Header.readParameters_intercalate hp.nonempty hp.words hp.distinct, String.ofList_toList]

theorem lines_texts_append (h : ∀ d ∈ ds, d.isSource = true) (cs : List Char) :
    lines ((String.join (ds.map fun d => "    " ++ d.text ++ "\n")).toList ++ cs) =
      (ds.map fun d => "    ".toList ++ d.text.toList) ++ lines cs := by
  induction ds with
  | nil => rfl
  | cons d ds ih =>
    obtain ⟨hd, hds⟩ := List.forall_mem_cons.mp h
    have ht : (String.join ((d :: ds).map fun d => "    " ++ d.text ++ "\n")).toList ++ cs =
        ("    ".toList ++ d.text.toList) ++
          '\n' :: ((String.join (ds.map fun d => "    " ++ d.text ++ "\n")).toList ++ cs) := by
      simp [String.join_cons]
    have hb : ∀ c ∈ "    ".toList ++ d.text.toList, isLineBreak c = false :=
      List.forall_mem_append.mpr ⟨isLineBreak_eq_false_of_all rfl, isLineBreak_text hd⟩
    rw [ht, lines_append_break hb, ih hds]
    rfl

theorem lines_text {p : Program} (hp : Header.IsSource ⟨p.name, p.parameters⟩) :
    lines p.text.toList = p.header.toList ::
      lines (String.join (p.definitions.map fun d => "    " ++ d.text ++ "\n")).toList := by
  have ht : p.text.toList = p.header.toList ++
      '\n' :: (String.join (p.definitions.map fun d => "    " ++ d.text ++ "\n")).toList := by
    simp [Program.text]
  rw [ht, lines_append_break (isLineBreak_header hp)]

end Source

theorem Program.isSource_of_read {s : String} {p : Program} (h : Program.read s = .ok p) :
    p.IsSource := by
  obtain ⟨⟨header, n, rest⟩, hh, h₁⟩ := Source.bind_eq_ok h
  obtain ⟨ds, hds, h₂⟩ := Source.bind_eq_ok h₁
  obtain ⟨hheader, hsub⟩ := Source.isSource_of_readHeader hh
  have hbody := Source.isSource_of_readBody
    (fun line hl => Source.notMem_of_mem_lines (hsub line hl)) hds
  split at h₂
  · cases h₂
  · next hm =>
    cases h₂
    obtain ⟨init, e, rfl, hinit⟩ := Source.misplaced?_eq_none_iff.mp hm
    refine ⟨hheader, init, e, rfl, fun d hd => ?_, hbody (.ret e) (by simp)⟩
    exact Source.isEquation_of_isSource (hbody d (by simp [hd])) (hinit d hd)

theorem Expr.hole?_eq_none_of_isSourceAtom {e : Expr} (h : e.isSourceAtom = true) : e.hole? = none := by
  cases e with
  | lit | var => rfl
  | bin | pow | ite | hole => cases h

theorem Expr.hole?_eq_none_of_isSource {choices : Bool} {e : Expr} (h : e.isSource choices = true) :
    e.hole? = none := by
  induction e generalizing choices with
  | lit | var => rfl
  | bin op l r _ ihr =>
    simp only [isSource, Bool.and_eq_true] at h
    simp [hole?, hole?_eq_none_of_isSourceAtom h.1.2, ihr h.2]
  | pow b n =>
    obtain ⟨hb, m, rfl⟩ := isSource_pow.mp h
    simp [hole?, hole?_eq_none_of_isSourceAtom hb]
  | less l r x y _ _ ihx ihy =>
    simp only [isSource, Bool.and_eq_true] at h
    obtain ⟨⟨⟨⟨_, hl⟩, hr⟩, hx⟩, hy⟩ := h
    simp [hole?, Condition.hole?, hole?_eq_none_of_isSourceAtom hl, hole?_eq_none_of_isSourceAtom hr, ihx hx,
      ihy hy]
  | untested | hole => cases h

namespace Program

variable {p : Program}

theorem IsSource.isSource (h : p.IsSource) : ∀ d ∈ p.definitions, d.isSource = true := by
  obtain ⟨_, ds, e, hds, heq, he⟩ := h
  rw [hds]
  refine List.forall_mem_append.mpr ⟨fun d hd => ?_, List.forall_mem_singleton.mpr he⟩
  obtain ⟨x, b, rfl⟩ := Definition.exists_assign_of_isEquation (heq d hd)
  exact heq _ hd

theorem IsSource.render_eq (h : p.IsSource) : p.render = .ok p.text := by
  have hh : p.hole? = none := by
    rw [hole?, List.findSome?_eq_none_iff]
    intro d hd
    have hs := h.isSource d hd
    cases d with
    | assign x e =>
      exact Expr.hole?_eq_none_of_isSource (Bool.and_eq_true_iff.mp hs).2
    | ret e => exact Expr.hole?_eq_none_of_isSource hs
    | hole => cases hs
  rw [render, hh]
  rfl

theorem IsSource.read_text (h : p.IsSource) : Program.read p.text = .ok p := by
  have hm : Source.misplaced? p.definitions = none := by
    obtain ⟨_, ds, e, hds, heq, _⟩ := h
    refine Source.misplaced?_eq_none_iff.mpr ⟨ds, e, hds, fun d hd => ?_⟩
    obtain ⟨x, b, rfl⟩ := Definition.exists_assign_of_isEquation (heq d hd)
    rfl
  have hl := Source.lines_texts_append h.isSource []
  rw [List.append_nil, Text.lines, List.append_nil] at hl
  rw [Program.read, Source.lines_text h.header, hl, Source.readLines, Source.readHeader_text h.header]
  simp only [bind, Except.bind, Source.readBody_texts h.isSource, hm]
  rfl

end Program

end FlatCircuit
