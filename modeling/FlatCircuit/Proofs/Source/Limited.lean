import FlatCircuit.Proofs.Source.Numerals
import FlatCircuit.Proofs.Source.Obstacles
import FlatCircuit.Proofs.Source.Progress
import FlatCircuit.Proofs.Source.RoundTrip

namespace FlatCircuit

open Text

namespace Source

section Definitions

variable {cs ds line : List Char} {lines : List (List Char)} {d : Definition} {es : List Definition}
  {function : String} {n : Nat}

theorem isNumeral_of_mem_definitionNumerals (h : ds ∈ definitionNumerals cs) : Form.isNumeral ds = true := by
  unfold definitionNumerals at h
  split at h
  · exact isNumeral_of_mem_exprNumerals h
  · cases he : equation? cs with
    | none =>
      rw [he] at h
      cases h
    | some sides =>
      rw [he] at h
      exact isNumeral_of_mem_exprNumerals h

theorem isNumeral_of_mem_bodyNumerals (h : ds ∈ bodyNumerals lines) : Form.isNumeral ds = true := by
  induction lines with
  | nil => cases h
  | cons line lines ih =>
    rw [bodyNumerals] at h
    split at h
    · exact ih h
    · exact (mem_or_mem_of_mem_upTo h).elim isNumeral_of_mem_definitionNumerals ih

theorem isNumeral_of_mem_lineNumerals (h : ds ∈ lineNumerals lines) : Form.isNumeral ds = true := by
  induction lines with
  | nil => cases h
  | cons line lines ih =>
    rw [lineNumerals] at h
    split at h
    · refine (mem_or_mem_of_mem_upTo h).elim (fun h => ?_) isNumeral_of_mem_bodyNumerals
      cases h
    · split at h
      · exact ih h
      · cases h

theorem literals_of_readDefinition (h : readDefinition cs = .ok d) :
    d.literals = (definitionNumerals cs).map number := by
  unfold readDefinition at h
  unfold definitionNumerals
  split at h
  · cases h
  · next rest _ hr =>
    obtain ⟨e, he, rfl⟩ := map_eq_ok h
    rw [hr]
    exact literals_of_readExpr he
  · next hr =>
    rw [hr]
    split at h
    · cases h
    · cases h
    · next name rest _ hq =>
      obtain ⟨e, he, rfl⟩ := map_eq_ok h
      rw [hq]
      exact literals_of_readExpr he

theorem literals_of_readBody (h : readBody function n lines = .ok es) :
    es.flatMap Definition.literals = (bodyNumerals lines).map number := by
  induction lines generalizing n es with
  | nil =>
    cases h
    rfl
  | cons line lines ih =>
    rw [readBody] at h
    rw [bodyNumerals]
    split at h
    · next hs =>
      rw [if_pos hs]
      exact ih h
    · next hs =>
      split at h
      · next d hd =>
        obtain ⟨es, hes, rfl⟩ := map_eq_ok h
        rw [if_neg hs, hd, upTo_ok, List.map_append, ← literals_of_readDefinition hd, ← ih hes]
        rfl
      · cases h

theorem lineNumerals_of_readHeader {h : Header} {m : Nat} {rest : List (List Char)}
    (hr : readHeader n lines = .ok (h, m, rest)) : lineNumerals lines = bodyNumerals rest := by
  fun_induction readHeader n lines with
  | case1 | case2 | case4 | case6 => cases hr
  | case3 n line lines cs after hdef name arguments ha ps hps =>
    cases hr
    have hdef : Header.def? (strip line) = some after := hdef
    have hline : readHeader 1 [line] = .ok (⟨.ofList name, ps⟩, 2, []) := by
      simp only [readHeader, hdef, ha, hps]
    rw [lineNumerals, hdef, hline]
    rfl
  | case5 n line lines cs hdef hs ih =>
    rw [lineNumerals, hdef, if_pos hs]
    exact ih hr

end Definitions

section Programs

variable {limit : DigitLimit} {lines : List (List Char)} {p : Program} {err : SourceError}

theorem literals_of_readLines (h : readLines lines = .ok p) : p.literals = (lineNumerals lines).map number := by
  obtain ⟨⟨header, n, rest⟩, hh, h₁⟩ := bind_eq_ok h
  obtain ⟨ds, hds, h₂⟩ := bind_eq_ok h₁
  rw [lineNumerals_of_readHeader hh, ← literals_of_readBody hds]
  split at h₂
  · cases h₂
  · cases h₂
    rfl

theorem shown_eq_nil {cause : SourceCause} (h : ¬ cause.ConcernsWhole) : cause.shown = [] := by
  cases cause with
  | lastNotReturn d => exact absurd (.inr (.inr rfl)) h
  | _ => rfl

theorem mem_literals_of_misplaced? {ds : List Definition} {cause : SourceCause} (h : misplaced? ds = some cause) :
    ∀ n ∈ cause.shown, n ∈ ds.flatMap Definition.literals := by
  intro n hn
  rw [misplaced?] at h
  split at h
  · cases h
    cases hn
  · next last hlast =>
    split at h
    · cases h
      exact List.mem_flatMap.mpr ⟨last, List.mem_of_getLast? hlast, hn⟩
    · split at h <;> cases h
      cases hn

theorem shown_of_readHeader {n : Nat} (h : readHeader n lines = .error err) : err.cause.shown = [] := by
  fun_induction readHeader n lines with
  | case1 | case2 | case6 =>
    cases h
    rfl
  | case3 => cases h
  | case4 _ _ _ _ _ _ _ _ _ _ hcause =>
    cases h
    exact shown_eq_nil (not_concernsWhole_of_readParameters hcause)
  | case5 _ _ _ _ _ _ ih => exact ih h

theorem shown_of_readBody {function : String} {n : Nat} (h : readBody function n lines = .error err) :
    err.cause.shown = [] := by
  induction lines generalizing n with
  | nil => cases h
  | cons line lines ih =>
    rw [readBody] at h
    split at h
    · exact ih h
    · split at h
      · exact ih (map_eq_error h)
      · next hd =>
        cases h
        exact shown_eq_nil (not_concernsWhole_of_readDefinition hd)

theorem mem_of_mem_shown (h : readLines lines = .error err) :
    ∀ n ∈ err.cause.shown, n ∈ (lineNumerals lines).map number := by
  rcases bind_eq_error h with hh | ⟨⟨header, m, rest⟩, hh, h₁⟩
  · rw [shown_of_readHeader hh]
    exact fun _ hn => absurd hn List.not_mem_nil
  · rcases bind_eq_error h₁ with hb | ⟨ds, hds, h₂⟩
    · rw [shown_of_readBody hb]
      exact fun _ hn => absurd hn List.not_mem_nil
    · rw [lineNumerals_of_readHeader hh, ← literals_of_readBody hds]
      split at h₂
      · next hm =>
        cases h₂
        exact mem_literals_of_misplaced? hm
      · cases h₂

theorem writes_number {ds : List Char} (hn : Form.isNumeral ds = true) (h : limit.reads ds = true) :
    limit.writes (number ds) = true := by
  obtain ⟨-, hd⟩ := Bool.and_eq_true_iff.mp hn
  exact DigitLimit.writes_ofDigitChars (List.all_eq_true.mp hd) h

theorem writes_of_mem_numbers (h : ∀ ds ∈ lineNumerals lines, limit.reads ds = true) :
    ∀ n ∈ (lineNumerals lines).map number, limit.writes n = true := by
  intro n hn
  obtain ⟨ds, hds, rfl⟩ := List.mem_map.mp hn
  exact writes_number (isNumeral_of_mem_lineNumerals hds) (h ds hds)

theorem readLinesWithin_eq (limit : DigitLimit) (lines : List (List Char)) :
    readLinesWithin limit lines =
      limit.reading (lineNumerals lines) ((readLines lines).mapError .raised) := by
  unfold readLinesWithin DigitLimit.reading
  split
  · next h =>
    cases hr : readLines lines with
    | ok p => rfl
    | error err =>
      have hw := writes_of_mem_numbers (List.all_eq_true.mp h)
      have hshown : ∀ n ∈ err.cause.shown, limit.writes n = true := fun n hn => hw n (mem_of_mem_shown hr n hn)
      exact congrArg Except.error (Halt.showing_eq_raised_iff.mpr ⟨hshown, rfl⟩)
  · rfl

end Programs

end Source

namespace Program

variable {limit : DigitLimit} {s : String} {p : Program} {err : SourceError}

theorem readWithin_eq_ok_iff : readWithin limit s = .ok p ↔
    Program.read s = .ok p ∧ ∀ ds ∈ Source.lineNumerals (lines s.toList), limit.reads ds = true := by
  rw [readWithin, Source.readLinesWithin_eq, DigitLimit.reading_eq_ok_iff]
  rfl

theorem writes_of_readWithin (h : readWithin limit s = .ok p) : ∀ n ∈ p.literals, limit.writes n = true := by
  obtain ⟨hr, hs⟩ := readWithin_eq_ok_iff.mp h
  rw [Source.literals_of_readLines hr]
  exact Source.writes_of_mem_numbers hs

theorem IsSource.renderWithin_eq (h : p.IsSource) (hw : ∀ n ∈ p.literals, limit.writes n = true) :
    p.renderWithin limit = .ok p.text :=
  p.renderWithin_eq_ok_iff.mpr ⟨(Hole.absent_eq_ok_iff.mp h.render_eq).1, hw, rfl⟩

end Program

end FlatCircuit
