import Mathlib.Data.Option.Basic
import FlatCircuit.Proofs.Source.Writing
import FlatCircuit.Source.Program

namespace FlatCircuit

namespace Definition

def isEquation : Definition → Bool
  | .assign x e => Form.isIdentifier x.toList && decide (x ≠ "return") && e.isSource true
  | _ => false

def isSource : Definition → Bool
  | .ret e => e.isSource true
  | d => d.isEquation

theorem isSource_assign {x : String} {e : Expr} : (assign x e).isSource = true ↔
    Form.isIdentifier x.toList = true ∧ x ≠ "return" ∧ e.isSource true = true := by
  simp only [isSource, isEquation, Bool.and_eq_true, decide_eq_true_eq, and_assoc]

theorem exists_assign_of_isEquation {d : Definition} (h : d.isEquation = true) :
    ∃ x e, d = .assign x e := by
  cases d with
  | assign x e => exact ⟨x, e, rfl⟩
  | ret | hole => cases h

end Definition

namespace Source

open Text

variable {cs rest word after : List Char} {d : Definition}

theorem head?_isWordChar_of_isBlank {c : Char} (h : isBlank c = true) :
    (c :: cs).head?.any isWordChar = false := by
  rw [List.head?_cons, Option.any_some]
  exact isWordChar_eq_false_of_isBlank h

theorem head?_isWordChar_of_stripStart (h : stripStart cs = '=' :: rest) :
    cs.head?.any isWordChar = false := by
  cases cs with
  | nil => rfl
  | cons c cs =>
    by_cases hb : isBlank c = true
    · exact head?_isWordChar_of_isBlank hb
    · rw [stripStart, List.dropWhile_cons, if_neg hb] at h
      cases h
      have he : isWordChar '=' = false := by decide +kernel
      rw [List.head?_cons, Option.any_some]
      exact he

theorem returned?_append (h : cs.head?.any isWordChar = false) (hb : '\n' ∉ cs) :
    returned? ("return".toList ++ cs) = some (stripStart cs) := by
  have hs : (stripStart cs).contains '\n' = false := by
    rw [Bool.eq_false_iff, ne_eq, List.contains_iff_mem]
    exact fun hm => hb (mem_of_mem_stripStart hm)
  change (if (cs.head?.any isWordChar || (stripStart cs).contains '\n') = true then none
    else some (stripStart cs)) = _
  rw [h, hs]
  rfl

theorem mem_of_returned? (h : returned? cs = some rest) {c : Char} (hc : c ∈ rest) : c ∈ cs := by
  unfold returned? at h
  split at h
  · simp only [Option.ite_none_left_eq_some, Option.some.injEq] at h
    obtain ⟨-, rfl⟩ := h
    simp [mem_of_mem_stripStart hc]
  · cases h

theorem eq_of_equation? (h : equation? cs = some (word, rest)) :
    Form.isIdentifier word = true ∧ ∃ after tail, cs = word ++ after ∧
      stripStart after = '=' :: tail ∧ rest = stripStart tail := by
  unfold equation? at h
  simp only [Option.bind_eq_bind, Option.bind_eq_some_iff, Prod.exists] at h
  obtain ⟨name, after, hw, _, hg, h⟩ := h
  obtain ⟨rfl, -⟩ := Form.eq_append_of_word? hw
  have hi : Form.isIdentifier name = true := (Option.guard_eq_some' _).mp hg
  split at h
  · next tail hs =>
    simp only [Option.ite_none_left_eq_some, Option.some.injEq] at h
    obtain ⟨-, h⟩ := h
    cases h
    exact ⟨hi, after, tail, rfl, hs, rfl⟩
  · cases h

theorem map_eq_ok {ε α β : Type} {x : Except ε α} {f : α → β} {b : β} (h : f <$> x = .ok b) :
    ∃ a, x = .ok a ∧ f a = b := by
  cases x with
  | error => cases h
  | ok a => exact ⟨a, rfl, Except.ok.inj h⟩

theorem map_eq_error {ε α β : Type} {x : Except ε α} {f : α → β} {err : ε}
    (h : f <$> x = .error err) : x = .error err := by
  cases x with
  | error => exact congrArg Except.error (Except.error.inj h)
  | ok => cases h

theorem isSource_of_readDefinition (hb : '\n' ∉ cs) (h : readDefinition cs = .ok d) :
    d.isSource = true := by
  unfold readDefinition at h
  split at h
  · cases h
  · next rest hr =>
    obtain ⟨e, he, rfl⟩ := map_eq_ok h
    exact isSource_of_readExpr (fun hm => hb (mem_of_returned? hr hm)) he
  · next hr =>
    split at h
    · cases h
    · cases h
    · next name rest hne he =>
      obtain ⟨e, hre, rfl⟩ := map_eq_ok h
      obtain ⟨hi, after, tail, rfl, hs, rfl⟩ := eq_of_equation? he
      have hafter : '\n' ∉ after := fun hm => hb (List.mem_append_right _ hm)
      have htail : '\n' ∉ tail := fun hm =>
        hafter (mem_of_mem_stripStart (hs ▸ List.mem_cons_of_mem _ hm))
      have hv := isSource_of_readExpr (fun hm => htail (mem_of_mem_stripStart hm)) hre
      have hn : String.ofList name ≠ "return" := by
        intro hn
        obtain rfl : name = "return".toList := by rw [← hn, String.toList_ofList]
        rw [returned?_append (head?_isWordChar_of_stripStart hs) hafter] at hr
        cases hr
      exact Definition.isSource_assign.mpr ⟨by simpa using hi, hn, hv⟩

theorem isSkipped_append {c : Char} (h : c.isAlphanum = true) : isSkipped (c :: cs) = false := by
  unfold isSkipped
  split
  · next hc => cases hc
  · next hc =>
    cases hc
    exact absurd h (by decide)
  · rfl

theorem stripStart_cons_of_isBlank {c : Char} (h : isBlank c = true) :
    stripStart (c :: cs) = stripStart cs := by
  rw [stripStart, List.dropWhile_cons, h]
  rfl

theorem returned?_eq_none (hw : ∀ c ∈ word, c.isAlphanum = true) (hn : word ≠ "return".toList) :
    returned? (word ++ ' ' :: rest) = none := by
  rw [Option.eq_none_iff_forall_ne_some]
  intro r hr
  unfold returned? at hr
  split at hr
  · next cs hcs =>
    simp only [Option.ite_none_left_eq_some, Bool.or_eq_true, not_or] at hr
    apply hn
    -- the longest word at the start is read in two ways
    have htake := congrArg (List.takeWhile Char.isAlphanum) hcs
    rw [List.takeWhile_append_of_pos hw] at htake
    cases cs with
    | nil => simpa using htake
    | cons c cs =>
      have hc : c.isAlphanum = false := by
        rw [Bool.eq_false_iff]
        intro hc
        exact hr.1.1 (isWordChar_of_isAlphanum hc)
      simpa [hc] using htake
  · cases hr

theorem Spells.stripStart_eq {e : Expr} (h : Spells cs e) : stripStart cs = cs :=
  h.tight.stripStart_eq

theorem Spells.notMem_break {e : Expr} (h : Spells cs e) : '\n' ∉ cs :=
  fun hm => absurd (h.isLineBreak _ hm) (by decide)

theorem Spells.exists_cons {e : Expr} (h : Spells cs e) : ∃ c tail, cs = c :: tail := by
  obtain ⟨c, _, hc, _⟩ := h.tight
  cases cs with
  | nil => cases hc
  | cons c tail => exact ⟨c, tail, rfl⟩

theorem equation?_append {e : Expr} (hi : Form.isIdentifier word = true) (h : Spells cs e) :
    equation? (word ++ ' ' :: '=' :: ' ' :: cs) = some (word, cs) := by
  have hw := Form.isAlphanum_of_isIdentifier hi
  have hne : word ≠ [] := by
    rintro rfl
    cases hi
  have hs : stripStart (' ' :: '=' :: ' ' :: cs) = '=' :: ' ' :: cs := rfl
  have ht : stripStart (' ' :: cs) = cs := (stripStart_cons_of_isBlank rfl).trans h.stripStart_eq
  have hg : (guard (Form.isIdentifier word = true) : Option Unit) = some () := if_pos hi
  simp [equation?, Form.word?_append hw hne, ↓hg, hs, ht, h.notMem_break]

theorem sides_of_text {x : String} {e : Expr} (h : (Definition.assign x e).isSource = true) :
    returned? (Definition.assign x e).text.toList = none ∧
      equation? (Definition.assign x e).text.toList = some (x.toList, e.text.toList) := by
  obtain ⟨hi, hn, he⟩ := Definition.isSource_assign.mp h
  have ht : (Definition.assign x e).text.toList = x.toList ++ ' ' :: '=' :: ' ' :: e.text.toList := by
    simp [Definition.text]
  rw [ht]
  exact ⟨returned?_eq_none (Form.isAlphanum_of_isIdentifier hi) fun hx => hn (String.toList_inj.mp hx),
    equation?_append hi (spells_text he).1⟩

theorem returned?_text {e : Expr} (h : (Definition.ret e).isSource = true) :
    returned? (Definition.ret e).text.toList = some e.text.toList := by
  have hs := (spells_text (e := e) h).1
  have ht : (Definition.ret e).text.toList = "return".toList ++ ' ' :: e.text.toList := by
    simp [Definition.text]
  have hr := returned?_append (head?_isWordChar_of_isBlank (c := ' ') rfl)
    fun hm => hs.notMem_break (List.mem_of_ne_of_mem (by decide) hm)
  rwa [stripStart_cons_of_isBlank rfl, hs.stripStart_eq, ← ht] at hr

theorem readDefinition_text (h : d.isSource = true) : readDefinition d.text.toList = .ok d := by
  cases d with
  | assign x e =>
    obtain ⟨-, -, he⟩ := Definition.isSource_assign.mp h
    obtain ⟨c, tail, hcons⟩ := (spells_text he).1.exists_cons
    obtain ⟨hr, hq⟩ := sides_of_text h
    have hv := readExpr_text he
    rw [hcons] at hq hv
    rw [readDefinition, hr, hq]
    simp only [hv]
    rw [String.ofList_toList]
    rfl
  | ret e =>
    obtain ⟨c, tail, hcons⟩ := (spells_text (e := e) h).1.exists_cons
    have hr := returned?_text h
    have hv := readExpr_text (e := e) h
    rw [hcons] at hr hv
    rw [readDefinition, hr]
    simp only [hv]
    rfl
  | hole => cases h

end Source

end FlatCircuit
