import FlatCircuit.Proofs.Source.Lines
import FlatCircuit.Proofs.Source.Unambiguous
import FlatCircuit.Source.Program

/-! Reading a program as a walk over its lines. A line takes what is known one step further or offends, and an
offence ends the walk, so the line it is reported at does not depend on the lines that follow. What concerns no
single line is looked at when the walk has come to its end. -/

namespace FlatCircuit

def SourceCause.ConcernsWhole (cause : SourceCause) : Prop :=
  cause.kind = "MissingFunctionDefinition" ∨ cause.kind = "MissingOrMisplacedReturn" ∨
    cause.kind = "LastStatementNotReturn"

instance (cause : SourceCause) : Decidable cause.ConcernsWhole :=
  inferInstanceAs (Decidable (_ ∨ _))

namespace Source

open Text

structure Refusal where
  cause : SourceCause
  function : String

def Refusal.error (r : Refusal) (n : Nat) : SourceError :=
  ⟨r.cause, r.function, n⟩

inductive Progress where
  | outside
  | inside (header : Header) (definitions : List Definition)

namespace Progress

def step (cs : List Char) : Progress → Except Refusal Progress
  | .outside =>
    match Header.def? cs with
    | some after =>
      match Header.afterDef? after with
      | none => .error ⟨.malformedHeader (.ofList cs), ""⟩
      | some (name, arguments) =>
        match Header.readParameters arguments with
        | .ok ps => .ok (.inside ⟨.ofList name, ps⟩ [])
        | .error cause => .error ⟨cause, .ofList name⟩
    | none => if isSkipped cs then .ok .outside else .error ⟨.contentBefore (.ofList cs), ""⟩
  | .inside h ds =>
    if isSkipped cs then .ok (.inside h ds)
    else
      match readDefinition cs with
      | .ok d => .ok (.inside h (ds ++ [d]))
      | .error cause => .error ⟨cause, h.function⟩

def walk (n : Nat) : Progress → List (List Char) → Except SourceError Progress
  | s, [] => .ok s
  | s, line :: rest =>
    match s.step (strip line) with
    | .ok t => t.walk (n + 1) rest
    | .error r => .error (r.error n)

def finish : Progress → Except SourceError Program
  | .outside => .error ⟨.missingDefinition, "", 0⟩
  | .inside h ds =>
    match misplaced? ds with
    | some cause => .error ⟨cause, h.function, 0⟩
    | none => .ok ⟨h.function, h.parameters, ds⟩

variable {s t : Progress} {line : List Char} {r : Refusal}

theorem walk_cons_of_ok (hs : s.step (strip line) = .ok t) (n : Nat) (lines : List (List Char)) :
    s.walk n (line :: lines) = t.walk (n + 1) lines := by
  rw [walk, hs]

theorem walk_cons_of_error (hs : s.step (strip line) = .error r) (n : Nat) (lines : List (List Char)) :
    s.walk n (line :: lines) = .error (r.error n) := by
  rw [walk, hs]

theorem walk_inside (n : Nat) (h : Header) (ds : List Definition) (lines : List (List Char)) :
    (inside h ds).walk n lines = (readBody h.function n lines).map fun es => inside h (ds ++ es) := by
  induction lines generalizing n ds with
  | nil => simp [walk, readBody, Except.map]
  | cons line lines ih =>
    rw [walk, readBody, step]
    cases isSkipped (strip line) with
    | true => exact ih (n + 1) ds
    | false =>
      cases readDefinition (strip line) with
      | error cause => rfl
      | ok d =>
        simp only [Bool.false_eq_true, if_false, ih, List.append_assoc, List.singleton_append]
        cases readBody h.function (n + 1) lines <;> rfl

theorem walk_outside (n : Nat) (lines : List (List Char)) :
    outside.walk n lines >>= finish =
      readHeader n lines >>= fun (h, m, rest) => (inside h []).walk m rest >>= finish := by
  -- without a header both sides fail, the one at the end of its walk and the other before it begins
  induction lines generalizing n with
  | nil => rfl
  | cons line lines ih =>
    rw [walk, readHeader, step]
    cases Header.def? (strip line) with
    | none =>
      cases isSkipped (strip line) with
      | true => exact ih (n + 1)
      | false => rfl
    | some after =>
      dsimp only
      cases Header.afterDef? after with
      | none => rfl
      | some p =>
        dsimp only
        cases Header.readParameters p.2 <;> rfl

end Progress

open Progress

theorem readLines_eq_walk (lines : List (List Char)) :
    readLines lines = Progress.outside.walk 1 lines >>= Progress.finish := by
  rw [walk_outside, readLines]
  cases readHeader 1 lines with
  | error => rfl
  | ok p =>
    obtain ⟨h, m, rest⟩ := p
    simp only [bind, Except.bind, walk_inside]
    cases readBody h.function m rest with
    | error => rfl
    | ok ds =>
      cases hm : misplaced? ds with
      | none =>
        simp only [Except.map, List.nil_append, finish, hm]
        rfl
      | some cause =>
        simp only [Except.map, List.nil_append, finish, hm]

namespace Progress

variable {n : Nat} {s t : Progress} {lines : List (List Char)} {ds : List Definition}
  {err : SourceError}

theorem walk_append_of_ok (h : s.walk n lines = .ok t) (rest : List (List Char)) :
    s.walk n (lines ++ rest) = t.walk (n + lines.length) rest := by
  induction lines generalizing n s with
  | nil =>
    cases h
    rfl
  | cons line lines ih =>
    cases hs : s.step (strip line) with
    | error =>
      rw [walk_cons_of_error hs] at h
      cases h
    | ok u =>
      rw [walk_cons_of_ok hs] at h
      rw [List.cons_append, walk_cons_of_ok hs, ih h, List.length_cons, Nat.add_right_comm, Nat.add_assoc]

theorem walk_append_of_error (h : s.walk n lines = .error err) (rest : List (List Char)) :
    s.walk n (lines ++ rest) = .error err := by
  induction lines generalizing n s with
  | nil => cases h
  | cons line lines ih =>
    cases hs : s.step (strip line) with
    | error =>
      rw [walk_cons_of_error hs] at h
      rw [List.cons_append, walk_cons_of_error hs, h]
    | ok u =>
      rw [walk_cons_of_ok hs] at h
      rw [List.cons_append, walk_cons_of_ok hs, ih h]

theorem stop_of_walk (h : s.walk n lines = .error err) :
    ∃ before line after t r, lines = before ++ line :: after ∧ s.walk n before = .ok t ∧
      t.step (strip line) = .error r ∧ err = r.error (n + before.length) := by
  induction lines generalizing n s with
  | nil => cases h
  | cons line lines ih =>
    cases hs : s.step (strip line) with
    | error r =>
      rw [walk_cons_of_error hs] at h
      cases h
      exact ⟨[], line, lines, s, r, rfl, rfl, hs, rfl⟩
    | ok u =>
      rw [walk_cons_of_ok hs] at h
      obtain ⟨before, stop, after, t, r, rfl, hw, ht, rfl⟩ := ih h
      refine ⟨line :: before, stop, after, t, r, rfl, ?_, ht, ?_⟩
      · rw [walk_cons_of_ok hs, hw]
      · rw [List.length_cons, Nat.add_right_comm, Nat.add_assoc]

theorem le_line_of_walk (h : s.walk n lines = .error err) :
    n ≤ err.line ∧ err.line < n + lines.length := by
  obtain ⟨before, line, after, _, r, rfl, _, _, rfl⟩ := stop_of_walk h
  rw [List.length_append, List.length_cons]
  exact ⟨Nat.le_add_right _ _, Nat.add_lt_add_left (by omega) n⟩

theorem concernsWhole_of_misplaced? {cause : SourceCause} (h : misplaced? ds = some cause) :
    cause.ConcernsWhole := by
  rw [misplaced?] at h
  split at h
  · cases h
    exact .inr (.inl rfl)
  · split at h
    · cases h
      exact .inr (.inr rfl)
    · split at h <;> cases h
      exact .inr (.inl rfl)

theorem concernsWhole_of_finish {p : Progress} (h : p.finish = .error err) :
    err.line = 0 ∧ err.cause.ConcernsWhole := by
  cases p with
  | outside =>
    cases h
    exact ⟨rfl, .inl rfl⟩
  | inside header ds =>
    cases hm : misplaced? ds with
    | none =>
      rw [finish, hm] at h
      cases h
    | some cause =>
      rw [finish, hm] at h
      cases h
      exact ⟨rfl, concernsWhole_of_misplaced? hm⟩

end Progress

theorem IsExpressionCause.not_concernsWhole {cause : SourceCause} (h : IsExpressionCause cause) :
    ¬ cause.ConcernsWhole := by
  rcases h with h | h <;> rw [SourceCause.ConcernsWhole, h] <;> decide

theorem not_concernsWhole_of_readParameters {arguments : List Char} {cause : SourceCause}
    (h : Header.readParameters arguments = .error cause) : ¬ cause.ConcernsWhole := by
  simp only [Header.readParameters] at h
  split at h
  · split at h <;> cases h
    simp [SourceCause.ConcernsWhole, SourceCause.kind]
  · cases h
    simp [SourceCause.ConcernsWhole, SourceCause.kind]

theorem not_concernsWhole_of_readDefinition {cs : List Char} {cause : SourceCause}
    (h : readDefinition cs = .error cause) : ¬ cause.ConcernsWhole := by
  unfold readDefinition at h
  split at h
  · cases h
    simp [SourceCause.ConcernsWhole, SourceCause.kind]
  · exact (cause_of_readExpr (map_eq_error h)).not_concernsWhole
  · split at h
    · cases h
      simp [SourceCause.ConcernsWhole, SourceCause.kind]
    · cases h
      simp [SourceCause.ConcernsWhole, SourceCause.kind]
    · exact (cause_of_readExpr (map_eq_error h)).not_concernsWhole

theorem Progress.not_concernsWhole_of_step {p : Progress} {cs : List Char} {r : Refusal}
    (h : p.step cs = .error r) : ¬ r.cause.ConcernsWhole := by
  cases p with
  | outside =>
    simp only [step] at h
    split at h
    · split at h
      · cases h
        simp [SourceCause.ConcernsWhole, SourceCause.kind]
      · split at h
        · cases h
        · next hp =>
          cases h
          exact not_concernsWhole_of_readParameters hp
    · split at h <;> cases h
      simp [SourceCause.ConcernsWhole, SourceCause.kind]
  | inside h ds =>
    simp only [step] at h
    split at h
    · cases h
    · split at h
      · cases h
      · next hd =>
        cases h
        exact not_concernsWhole_of_readDefinition hd

variable {lines others : List (List Char)} {err : SourceError} {p : Progress}

theorem readLines_of_walk (h : Progress.outside.walk 1 lines = .ok p) : readLines lines = p.finish := by
  rw [readLines_eq_walk, h]
  rfl

theorem readLines_of_stop (h : Progress.outside.walk 1 lines = .error err) :
    readLines lines = .error err := by
  rw [readLines_eq_walk, h]
  rfl

theorem readLines_eq_error_iff (hn : 0 < err.line) :
    readLines lines = .error err ↔ Progress.outside.walk 1 lines = .error err := by
  refine ⟨fun h => ?_, readLines_of_stop⟩
  cases hw : Progress.outside.walk 1 lines with
  | error =>
    rw [readLines_of_stop hw] at h
    cases h
    rfl
  | ok p =>
    rw [readLines_of_walk hw] at h
    exact absurd (concernsWhole_of_finish h).1 (Nat.ne_of_gt hn)

theorem line_eq_zero_of_walk (hw : Progress.outside.walk 1 lines = .ok p)
    (h : readLines lines = .error err) : err.line = 0 ∧ err.cause.ConcernsWhole := by
  rw [readLines_of_walk hw] at h
  exact concernsWhole_of_finish h

theorem exists_walk_of_line_eq_zero (h : readLines lines = .error err) (hn : err.line = 0) :
    ∃ p, Progress.outside.walk 1 lines = .ok p := by
  cases hw : Progress.outside.walk 1 lines with
  | ok p => exact ⟨p, rfl⟩
  | error other =>
    rw [readLines_of_stop hw] at h
    cases h
    have := (le_line_of_walk hw).1
    omega

theorem walk_take_of_walk (h : Progress.outside.walk 1 lines = .ok p) (n : Nat) :
    ∃ q, Progress.outside.walk 1 (lines.take n) = .ok q := by
  cases hw : Progress.outside.walk 1 (lines.take n) with
  | ok q => exact ⟨q, rfl⟩
  | error other =>
    have ha := walk_append_of_error hw (lines.drop n)
    rw [List.take_append_drop, h] at ha
    cases ha

theorem walk_take_of_stop (h : Progress.outside.walk 1 lines = .error err) :
    Progress.outside.walk 1 (lines.take err.line) = .error err ∧
      ∃ p, Progress.outside.walk 1 (lines.take (err.line - 1)) = .ok p := by
  obtain ⟨before, line, after, t, r, rfl, hw, ht, rfl⟩ := stop_of_walk h
  have hline : (r.error (1 + before.length)).line = before.length + 1 := Nat.add_comm _ _
  have htake : (before ++ line :: after).take (before.length + 1) = before ++ [line] := by
    rw [List.take_length_add_append]
    rfl
  have hstop : Progress.outside.walk 1 (before ++ [line]) = .error (r.error (1 + before.length)) := by
    rw [walk_append_of_ok hw, walk_cons_of_error ht]
  rw [hline, htake, Nat.add_sub_cancel, List.take_left]
  exact ⟨hstop, t, hw⟩

theorem readLines_of_take (hn : 0 < err.line) (h : readLines (lines.take err.line) = .error err)
    (htake : others.take err.line = lines.take err.line) : readLines others = .error err := by
  rw [readLines_eq_error_iff hn, ← htake] at h
  have ha := walk_append_of_error h (others.drop err.line)
  rw [List.take_append_drop] at ha
  exact readLines_of_stop ha

/-- A line is reported just when the lines up to it are refused for it and the lines before it are not refused
for any of them, so whatever follows it is of no account. What is reported without a line concerns the program
as a whole, and it is reported when the lines up to no point are refused for one of them. -/
theorem readLines_reports_first_line (lines : List (List Char)) :
    (∀ err, 0 < err.line →
      (readLines lines = .error err ↔ readLines (lines.take err.line) = .error err ∧
        ∀ other, readLines (lines.take (err.line - 1)) = .error other → other.line = 0)) ∧
    (∀ err, 0 < err.line → readLines lines = .error err → err.line ≤ lines.length ∧
      ∀ others, others.take err.line = lines.take err.line → readLines others = .error err) ∧
    ∀ err, readLines lines = .error err → (err.line = 0 ↔ err.cause.ConcernsWhole) ∧
      (err.line = 0 → ∀ n other, readLines (lines.take n) = .error other → other.line = 0) := by
  have htake : ∀ err, 0 < err.line → readLines lines = .error err →
      readLines (lines.take err.line) = .error err := by
    intro err hn h
    exact readLines_of_stop (walk_take_of_stop ((readLines_eq_error_iff hn).mp h)).1
  refine ⟨fun err hn => ⟨fun h => ⟨htake err hn h, fun other ho => ?_⟩, fun h => ?_⟩, ?_, ?_⟩
  · obtain ⟨p, hp⟩ := (walk_take_of_stop ((readLines_eq_error_iff hn).mp h)).2
    exact (line_eq_zero_of_walk hp ho).1
  · exact readLines_of_take hn h.1 rfl
  · intro err hn h
    have hline := (le_line_of_walk ((readLines_eq_error_iff hn).mp h)).2
    exact ⟨by omega, fun others ho => readLines_of_take hn (htake err hn h) ho⟩
  · intro err h
    refine ⟨⟨fun hz => ?_, fun hc => ?_⟩, fun hz n other ho => ?_⟩
    · obtain ⟨p, hp⟩ := exists_walk_of_line_eq_zero h hz
      exact (line_eq_zero_of_walk hp h).2
    · refine Nat.eq_zero_of_not_pos fun hn => ?_
      have hw := (readLines_eq_error_iff hn).mp h
      obtain ⟨_, _, _, _, r, _, _, ht, rfl⟩ := stop_of_walk hw
      exact not_concernsWhole_of_step ht hc
    · obtain ⟨p, hp⟩ := exists_walk_of_line_eq_zero h hz
      obtain ⟨q, hq⟩ := walk_take_of_walk hp n
      exact (line_eq_zero_of_walk hq ho).1

theorem readLines_reports_first_line_equation :
    let lines := ["// twice".toList, "def f(x):".toList, "  1 = x".toList]
    let err : SourceError := ⟨.malformedLine "1 = x", "f", 3⟩
    0 < err.line ∧ readLines lines = .error err ∧ ∀ rest, readLines (lines ++ rest) = .error err := by
  intro lines err
  have hline : 0 < err.line := by decide
  have h : readLines lines = .error err := rfl
  have hsame := ((readLines_reports_first_line lines).2.1 err hline h).2
  exact ⟨hline, h, fun rest => hsame (lines ++ rest) rfl⟩

end Source

end FlatCircuit
