import FlatCircuit.Text.Blank
import FlatCircuit.Text.Lines
import FlatCircuit.Text.Word

namespace FlatCircuit.Text

variable {cs left right rest line : List Char} {c : Char}

theorem Ranges.contains_eq_false_of_apart {r s : Ranges}
    (h : ∀ p ∈ r, ∀ q ∈ s, p.2 < q.1 ∨ q.2 < p.1) (hc : r.contains c = true) :
    s.contains c = false := by
  rw [Bool.eq_false_iff, ne_eq, contains_iff]
  rintro ⟨q, hq, hql, hqr⟩
  obtain ⟨p, hp, hpl, hpr⟩ := r.contains_iff c |>.mp hc
  have := h p hp q hq
  omega

theorem isUpper_iff : c.isUpper = true ↔ 65 ≤ c.toNat ∧ c.toNat ≤ 90 := by
  have h : c.isUpper = decide ('A'.val ≤ c.val ∧ c.val ≤ 'Z'.val) := rfl
  rw [h, decide_eq_true_eq, UInt32.le_iff_toNat_le, UInt32.le_iff_toNat_le]
  rfl

theorem isLower_iff : c.isLower = true ↔ 97 ≤ c.toNat ∧ c.toNat ≤ 122 := by
  have h : c.isLower = (decide ('a'.val ≤ c.val) && decide (c.val ≤ 'z'.val)) := rfl
  rw [h, Bool.and_eq_true, decide_eq_true_eq, decide_eq_true_eq, UInt32.le_iff_toNat_le,
    UInt32.le_iff_toNat_le]
  rfl

theorem isDigit_iff : c.isDigit = true ↔ 48 ≤ c.toNat ∧ c.toNat ≤ 57 := by
  have h : c.isDigit = (decide ('0'.val ≤ c.val) && decide (c.val ≤ '9'.val)) := rfl
  rw [h, Bool.and_eq_true, decide_eq_true_eq, decide_eq_true_eq, UInt32.le_iff_toNat_le,
    UInt32.le_iff_toNat_le]
  rfl

theorem isAlpha_iff : c.isAlpha = true ↔ c.isUpper = true ∨ c.isLower = true :=
  Bool.or_eq_true_iff

theorem isAlphanum_iff : c.isAlphanum = true ↔ c.isAlpha = true ∨ c.isDigit = true :=
  Bool.or_eq_true_iff

theorem isAlpha_eq_false_of_isDigit (h : c.isDigit = true) : c.isAlpha = false := by
  rw [isDigit_iff] at h
  rw [Bool.eq_false_iff, ne_eq, isAlpha_iff, isUpper_iff, isLower_iff]
  omega

theorem isBlank_eq_false_of_isAlphanum (h : c.isAlphanum = true) : isBlank c = false := by
  have hr : Ranges.contains [(48, 57), (65, 90), (97, 122)] c = true := by
    rw [isAlphanum_iff, isAlpha_iff, isUpper_iff, isLower_iff, isDigit_iff] at h
    rw [Ranges.contains_iff]
    simp only [List.mem_cons, List.not_mem_nil, or_false, exists_eq_or_imp, exists_eq_left]
    omega
  exact Ranges.contains_eq_false_of_apart (by decide) hr

theorem isBlank_eq_false_of_isDigit (h : c.isDigit = true) : isBlank c = false := by
  apply isBlank_eq_false_of_isAlphanum
  rw [Char.isAlphanum, h, Bool.or_true]

theorem isWordChar_eq_false_of_isBlank (h : isBlank c = true) : isWordChar c = false := by
  have ha : c.isAlphanum = false := by
    rw [Bool.eq_false_iff]
    intro ha
    rw [isBlank_eq_false_of_isAlphanum ha] at h
    cases h
  have hm : c ≠ '_' := by
    rintro rfl
    exact absurd h (by decide)
  have hl : letters.contains c = false := Ranges.contains_eq_false_of_apart (by decide +kernel) h
  simp [isWordChar, ha, hm, hl]

theorem isBlank_of_isLineBreak (h : isLineBreak c = true) : isBlank c = true := by
  obtain ⟨p, hp, hl, hr⟩ := Ranges.contains_iff _ c |>.mp h
  rw [isBlank, Ranges.contains_iff]
  simp only [lineBreaks, List.mem_cons, List.not_mem_nil, or_false] at hp
  rcases hp with rfl | rfl | rfl | rfl
  · exact ⟨(0x0009, 0x000d), by decide, by omega, hr⟩
  · exact ⟨(0x001c, 0x0020), by decide, hl, by omega⟩
  · exact ⟨(0x0085, 0x0085), by decide, hl, hr⟩
  · exact ⟨(0x2028, 0x2029), by decide, hl, hr⟩

theorem isLineBreak_eq_false_of_isBlank (h : isBlank c = false) : isLineBreak c = false := by
  rw [Bool.eq_false_iff]
  intro hb
  rw [isBlank_of_isLineBreak hb] at h
  cases h

theorem isLineBreak_eq_false_of_all (h : cs.all (!isLineBreak ·) = true) :
    ∀ c ∈ cs, isLineBreak c = false := by
  intro c hc
  simpa using List.all_eq_true.mp h c hc

theorem lines_append_break (h : ∀ c ∈ line, isLineBreak c = false) :
    lines (line ++ '\n' :: rest) = line :: lines rest := by
  induction line with
  | nil => rfl
  | cons c line ih =>
    obtain ⟨hc, hline⟩ := List.forall_mem_cons.mp h
    rw [List.cons_append, lines, ih hline, hc]
    · rfl
    · rintro _ rfl
      cases hc

theorem mem_consFirst {ls : List (List Char)} (h : line ∈ consFirst c ls) :
    line ∈ ls ∨ ∃ tail, (tail = [] ∨ tail ∈ ls) ∧ line = c :: tail := by
  cases ls with
  | nil => exact .inr ⟨[], .inl rfl, List.mem_singleton.mp h⟩
  | cons first ls =>
    rcases List.mem_cons.mp h with rfl | h
    · exact .inr ⟨first, .inr List.mem_cons_self, rfl⟩
    · exact .inl (List.mem_cons_of_mem _ h)

theorem isLineBreak_eq_false_of_mem_lines (h : line ∈ lines cs) :
    ∀ c ∈ line, isLineBreak c = false := by
  fun_induction lines cs generalizing line with
  | case1 => cases h
  | case2 cs ih =>
    rcases List.mem_cons.mp h with rfl | h
    · exact fun _ hc => absurd hc List.not_mem_nil
    · exact ih h
  | case3 c cs _ hb ih =>
    rcases List.mem_cons.mp h with rfl | h
    · exact fun _ hc => absurd hc List.not_mem_nil
    · exact ih h
  | case4 c cs _ hb ih =>
    rcases mem_consFirst h with h | ⟨tail, ht, rfl⟩
    · exact ih h
    · refine List.forall_mem_cons.mpr ⟨Bool.eq_false_iff.mpr hb, ?_⟩
      rcases ht with rfl | ht
      · exact fun _ hc => absurd hc List.not_mem_nil
      · exact ih ht

def Tight (cs : List Char) : Prop :=
  ∃ c d, cs.head? = some c ∧ cs.getLast? = some d ∧ isBlank c = false ∧ isBlank d = false

theorem Tight.append (hl : Tight left) (mid : List Char) (hr : Tight right) :
    Tight (left ++ mid ++ right) := by
  obtain ⟨c, _, hc, _, hcb, _⟩ := hl
  obtain ⟨_, d, _, hd, _, hdb⟩ := hr
  refine ⟨c, d, ?_, ?_, hcb, hdb⟩
  · simp [List.head?_append, hc]
  · simp [List.getLast?_append, hd]

theorem tight_of_isAlphanum (h : ∀ c ∈ cs, c.isAlphanum = true) (hne : cs ≠ []) : Tight cs :=
  ⟨cs.head hne, cs.getLast hne, List.head?_eq_some_head hne, List.getLast?_eq_some_getLast hne,
    isBlank_eq_false_of_isAlphanum (h _ (List.head_mem hne)),
    isBlank_eq_false_of_isAlphanum (h _ (List.getLast_mem hne))⟩

theorem Tight.stripStart_eq (h : Tight cs) : stripStart cs = cs := by
  obtain ⟨c, _, hc, _, hb, _⟩ := h
  cases cs with
  | nil => cases hc
  | cons d cs =>
    cases hc
    rw [stripStart, List.dropWhile_cons, hb]
    rfl

theorem Tight.stripEnd_eq (h : Tight cs) : stripEnd cs = cs := by
  obtain ⟨_, d, _, hd, _, hb⟩ := h
  obtain ⟨init, rfl⟩ := List.getLast?_eq_some_iff.mp hd
  rw [stripEnd, List.reverse_append, List.reverse_singleton, List.singleton_append,
    List.dropWhile_cons, hb]
  simp

theorem Tight.strip_eq (h : Tight cs) : strip cs = cs := by
  rw [strip, h.stripStart_eq, h.stripEnd_eq]

theorem Tight.strip_append (h : Tight cs) (hb : ∀ c ∈ left, isBlank c = true) :
    strip (left ++ cs) = cs := by
  rw [strip, stripStart, List.dropWhile_append_of_pos hb]
  exact h.strip_eq

theorem mem_of_mem_stripStart (h : c ∈ stripStart cs) : c ∈ cs :=
  (List.dropWhile_sublist isBlank).mem h

theorem mem_of_mem_strip (h : c ∈ strip cs) : c ∈ cs := by
  have hr := (List.dropWhile_sublist isBlank).mem (List.mem_reverse.mp h)
  exact mem_of_mem_stripStart (List.mem_reverse.mp hr)

end FlatCircuit.Text
