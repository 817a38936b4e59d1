import FlatCircuit.Proofs.Contract.Pieces

namespace FlatCircuit

def lateNames (i : Nat) (known xs : List String) : List Finding :=
  (xs.filter (· ∉ known)).map fun y => ⟨.undefined y, i⟩

def lateReads (i : Nat) (known : List String) : List Piece → List Finding
  | [] => []
  | p :: ps => lateNames i known p.reads ++ lateReads (i + p.definitions.length) (known ++ p.names) ps

theorem lateNames_eq_nil_iff {i : Nat} {known xs : List String} :
    lateNames i known xs = [] ↔ ∀ y ∈ xs, y ∈ known := by
  simp [lateNames]

theorem lateReads_eq_nil_iff {i : Nat} {known : List String} {ps : List Piece} :
    lateReads i known ps = [] ↔ ReadsKnown known ps := by
  induction ps generalizing i known with
  | nil => exact ⟨fun _ => AtEach.nil, fun _ => rfl⟩
  | cons p ps ih =>
    rw [lateReads, List.append_eq_nil_iff, lateNames_eq_nil_iff, ih]
    simp [ReadsKnown, KnownBefore, AtEach.cons_iff, or_assoc]

theorem readLate_of_mem_lateReads {i : Nat} {known : List String} {ps : List Piece} {f : Finding}
    (h : f ∈ lateReads i known ps) :
    ∃ y, f.breach = .undefined y ∧ ReadLate Piece.reads Piece.names known ps y := by
  induction ps generalizing i known with
  | nil => cases h
  | cons p ps ih =>
    rw [lateReads] at h
    rcases List.mem_append.mp h with h | h
    · obtain ⟨y, hy, rfl⟩ := List.mem_map.mp h
      obtain ⟨hy, hk⟩ := List.mem_filter.mp hy
      exact ⟨y, rfl, readLate_cons_iff.mpr (.inl ⟨hy, of_decide_eq_true hk⟩)⟩
    · obtain ⟨y, hb, hl⟩ := ih h
      exact ⟨y, hb, readLate_cons_iff.mpr (.inr hl)⟩

namespace Checking

def Knows (r : Report) (known : List String) : Prop :=
  ∀ y, y ∈ r.defined ↔ y ∈ known

variable {r : Report} {known xs es : List String} {ds : List Definition} {d : Definition} {i k : Nat}

theorem runFrom_bind_ok {α β : Type} {x : Checking α} {f : α → Checking β} {a : α} {s : Report}
    (h : x.runFrom r = (.ok a, s)) : (x >>= f).runFrom r = (f a).runFrom s := by
  rw [runFrom_bind, h]

theorem runFrom_forM_define :
    (xs.forM define).runFrom r = (.ok (), ⟨r.findings, r.defined.insertMany xs⟩) := by
  induction xs generalizing r with
  | nil =>
    rw [Std.ExtTreeSet.insertMany_nil]
    rfl
  | cons x xs ih =>
    rw [Std.ExtTreeSet.insertMany_cons]
    exact (runFrom_bind_ok (runFrom_define r x)).trans ih

theorem Knows.insertMany {fs : List Finding} (h : Knows r known) (xs : List String) :
    Knows ⟨fs, r.defined.insertMany xs⟩ (known ++ xs) := by
  intro y
  rw [Std.ExtTreeSet.mem_insertMany_list, h y, List.contains_iff_mem, List.mem_append]

theorem runFrom_checkRead (h : Knows r known) (x : String) :
    (checkRead i x).runFrom r = (.ok (), ⟨r.findings ++ lateNames i known [x], r.defined⟩) := by
  rw [checkRead, runFrom_bind_ok (runFrom_get r)]
  by_cases hx : x ∈ known
  · have hd : x ∈ r.defined := (h x).mpr hx
    simp [hd, hx, lateNames]
  · have hd : x ∉ r.defined := fun hd => hx ((h x).mp hd)
    simp [hd, hx, lateNames]

theorem runFrom_forM_checkRead (h : Knows r known) :
    (xs.forM (checkRead i)).runFrom r = (.ok (), ⟨r.findings ++ lateNames i known xs, r.defined⟩) := by
  induction xs generalizing r with
  | nil =>
    rw [lateNames, List.filter_nil, List.map_nil, List.append_nil]
    rfl
  | cons x xs ih =>
    have hx : lateNames i known (x :: xs) = lateNames i known [x] ++ lateNames i known xs := by
      rw [lateNames, ← List.singleton_append, List.filter_append, List.map_append]
      rfl
    rw [hx, ← List.append_assoc]
    exact (runFrom_bind_ok (runFrom_checkRead h x)).trans (ih h)

theorem runFrom_checkValue {e : Expr} (h : Knows r known) (he : e.isFlat = true) (d : Definition) :
    (checkValue i d e).runFrom r =
      (.ok (), ⟨r.findings ++ lateNames i known e.variables, r.defined⟩) := by
  simp only [checkValue, he]
  exact runFrom_forM_checkRead h

theorem runFrom_checkSingle (h : Knows r known) (hd : d.isFlat = true) :
    (checkSingle i d).runFrom r =
      (.ok (), ⟨r.findings ++ lateNames i known d.reads, r.defined.insertMany d.assigned⟩) := by
  cases d with
  | assign x e =>
    rw [Definition.assigned, Std.ExtTreeSet.insertMany_list_singleton]
    exact runFrom_bind_ok (runFrom_checkValue h hd _)
  | ret e =>
    have ha : (Definition.ret e).assigned = [] := rfl
    rw [ha, Std.ExtTreeSet.insertMany_nil]
    exact runFrom_checkValue h hd _
  | hole => cases hd

theorem runFrom_checkPlace {isLast : Bool} (h : d.isReturn = isLast) :
    (checkPlace i isLast d).runFrom r = (.ok (), r) := by
  subst h
  cases hd : d.isReturn <;> simp [checkPlace, hd]

def checkAfter (i : Nat) (d : Definition) (ds : List Definition) : Checking Unit :=
  match opened? d ds with
  | none => checkAll (i + 1) 0 ds
  | some x => do
    (Bits.names x).forM define
    let k := agreement (Bits.constraints x) ds
    if k ≤ Bits.width then report (missing x k) (i + 1 + k)
    checkAll (i + 1) k ds

theorem checkAll_cons (i : Nat) (d : Definition) (ds : List Definition) :
    checkAll i 0 (d :: ds) = (do
      checkPlace i ds.isEmpty d
      checkSingle i d
      checkAfter i d ds) := by
  rw [checkAll]
  rfl

theorem checkAll_append (es ds : List Definition) :
    checkAll i es.length (es ++ ds) = checkAll (i + es.length) 0 ds := by
  induction es generalizing i with
  | nil => rfl
  | cons e es ih =>
    rw [List.length_cons, List.cons_append, checkAll, ih, Nat.add_right_comm]
    rfl

theorem agreement_append (es ds : List Definition) : agreement es (es ++ ds) = es.length := by
  induction es with
  | nil => rfl
  | cons e es ih => rw [List.cons_append, agreement, if_pos rfl, ih, List.length_cons]

theorem opened?_eq_none_iff : opened? d ds = none ↔
    ∀ x l r e, d = .assign x (.bin .sub l r) → ds.head? ≠ some (.assign (Name.bit x 0) e) := by
  unfold opened?
  split
  · next x l r b e ds =>
    rw [ite_eq_right_iff]
    constructor
    · intro h x' l' r' e' hd hs
      cases hd
      cases hs
      cases h rfl
    · intro h hb
      exact absurd (hb ▸ rfl) (h x l r e rfl)
  · next hno =>
    refine ⟨fun _ x l r e hd hs => ?_, fun _ => rfl⟩
    obtain ⟨tail, rfl⟩ := List.head?_eq_some_iff.mp hs
    exact hno x l r _ e tail hd rfl

theorem opened?_group (x : String) (l r : Expr) (ds : List Definition) :
    opened? (.assign x (.bin .sub l r)) (Bits.constraints x ++ ds) = some x := by
  have hc : Bits.constraints x ++ ds = Bits.bitConstraint (Name.bit x 0) ::
      ((Bits.constraints x).tail ++ ds) := rfl
  rw [hc]
  exact if_pos rfl

theorem runFrom_checkAll_single (hd : d.isFlat = true) (ho : opened? d ds = none)
    (hp : d.isReturn = ds.isEmpty) (hr : Knows r known) :
    (checkAll i 0 (d :: ds)).runFrom r = (checkAll (i + 1) 0 ds).runFrom
      ⟨r.findings ++ lateNames i known d.reads, r.defined.insertMany d.assigned⟩ := by
  rw [checkAll_cons, runFrom_bind_ok (runFrom_checkPlace hp),
    runFrom_bind_ok (runFrom_checkSingle hr hd), checkAfter, ho]

theorem runFrom_checkAll_group {x : String} {a b : Expr} (ha : a.isAtom = true) (hb : b.isAtom = true)
    (hr : Knows r known) :
    (checkAll i 0 ((Piece.group x a b).definitions ++ ds)).runFrom r =
      (checkAll (i + (Bits.width + 2)) 0 ds).runFrom
        ⟨r.findings ++ lateNames i known (a.variables ++ b.variables),
          (r.defined.insertMany [x]).insertMany (Bits.names x)⟩ := by
  have hd : (Definition.assign x (.bin .sub a b)).isFlat = true := Bool.and_eq_true_iff.mpr ⟨ha, hb⟩
  have hp : (Definition.assign x (.bin .sub a b)).isReturn = (Bits.constraints x ++ ds).isEmpty := rfl
  have hk : ¬ (Bits.constraints x).length ≤ Bits.width := by
    rw [Bits.length_constraints]
    omega
  have ht : checkAll (i + 1) (Bits.constraints x).length (Bits.constraints x ++ ds) =
      checkAll (i + (Bits.width + 2)) 0 ds := by
    rw [checkAll_append, Bits.length_constraints, Nat.add_assoc, Nat.add_comm 1]
  rw [Piece.definitions, List.cons_append, checkAll_cons, runFrom_bind_ok (runFrom_checkPlace hp),
    runFrom_bind_ok (runFrom_checkSingle hr hd), checkAfter, opened?_group]
  simp only [agreement_append, if_neg hk]
  rw [runFrom_bind_ok runFrom_forM_define, ht]
  rfl

theorem runFrom_checkAll_piece {p : Piece} (h : p.Fits ds) (hr : Knows r known) :
    ∃ s, Knows s (known ++ p.names) ∧ s.findings = r.findings ++ lateNames i known p.reads ∧
      (checkAll i 0 (p.definitions ++ ds)).runFrom r =
        (checkAll (i + p.definitions.length) 0 ds).runFrom s := by
  obtain ⟨hf, hs, hp⟩ := h
  cases p with
  | single d =>
    have ho : opened? d ds = none :=
      opened?_eq_none_iff.mpr fun x l r e he => hs x l r e (he ▸ rfl)
    refine ⟨_, ?_, rfl, runFrom_checkAll_single hf ho (hp d rfl) hr⟩
    rw [Piece.names_single]
    exact hr.insertMany d.assigned
  | group x a b =>
    obtain ⟨ha, hb⟩ := Bool.and_eq_true_iff.mp hf
    refine ⟨⟨r.findings ++ lateNames i known (a.variables ++ b.variables),
      (r.defined.insertMany [x]).insertMany (Bits.names x)⟩, ?_, rfl, ?_⟩
    · intro y
      rw [List.mem_append, Piece.mem_names_group, Std.ExtTreeSet.mem_insertMany_list,
        Std.ExtTreeSet.mem_insertMany_list, hr y]
      simp [or_assoc]
    · have hl : (Piece.group x a b).definitions.length = Bits.width + 2 := by
        rw [Piece.definitions, List.length_cons, Bits.length_constraints]
      rw [hl]
      exact runFrom_checkAll_group ha hb hr

theorem runFrom_checkAll {ps : List Piece} (h : Shaped ps) (hr : Knows r known) :
    ∃ s, (checkAll i 0 (ps.flatMap Piece.definitions)).runFrom r = (.ok (), s) ∧
      s.findings = r.findings ++ lateReads i known ps := by
  induction ps generalizing i r known with
  | nil => exact ⟨r, rfl, (List.append_nil _).symm⟩
  | cons p ps ih =>
    obtain ⟨hp, hps⟩ := shaped_cons_iff.mp h
    obtain ⟨s, hk, hfound, hrun⟩ := runFrom_checkAll_piece (i := i) hp hr
    obtain ⟨t, hrun', hfound'⟩ := ih (i := i + p.definitions.length) hps hk
    refine ⟨t, ?_, ?_⟩
    · rw [List.flatMap_cons, hrun, hrun']
    · rw [hfound', hfound, lateReads, List.append_assoc]

/-! The check is put together from reports, definitions and looks at the report. What holds of these, and stays
true when one computation goes on with another, holds of the check, if it also holds where a hole ends it. -/

structure Closed (P : ∀ {α : Type}, Checking α → Prop) : Prop where
  pure : ∀ {α : Type} (a : α), P (Pure.pure a)
  get : P (get : Checking Report)
  report : ∀ b i, P (report b i)
  define : ∀ x, P (define x)
  bind : ∀ {α β : Type} {x : Checking α} {f : α → Checking β}, P x → (∀ a, P (f a)) → P (x >>= f)

namespace Closed

variable {α : Type} {P : ∀ {α : Type}, Checking α → Prop}

theorem forM (h : Closed P) {xs : List α} {f : α → Checking Unit} (hf : ∀ a, P (f a)) : P (xs.forM f) := by
  induction xs with
  | nil => exact h.pure ()
  | cons a xs ih => exact h.bind (hf a) fun _ => ih

theorem checkReads (h : Closed P) (i : Nat) (xs : List String) : P (xs.forM (checkRead i)) := by
  refine h.forM fun x => h.bind h.get fun r => ?_
  split
  · exact h.report _ i
  · exact h.pure ()

theorem checkValue (h : Closed P) (hd : ∀ k, d.hole? = some k → P (throw k : Checking Unit)) (i : Nat)
    (e : Expr) : P (checkValue i d e) := by
  have hreads := h.checkReads i e.variables
  unfold Checking.checkValue
  split
  · cases hk : d.hole? with
    | some k => exact h.bind (hd k hk) fun _ => hreads
    | none => exact h.bind (h.report _ i) fun _ => hreads
  · exact hreads

theorem checkSingle (h : Closed P) (hd : ∀ k, d.hole? = some k → P (throw k : Checking Unit)) (i : Nat) :
    P (checkSingle i d) := by
  cases d with
  | assign x e => exact h.bind (h.checkValue hd i e) fun _ => h.define x
  | ret e => exact h.checkValue hd i e
  | hole => exact h.report _ i

theorem checkPlace (h : Closed P) (i : Nat) (isLast : Bool) (d : Definition) : P (checkPlace i isLast d) := by
  cases isLast <;> cases hd : d.isReturn <;> simp only [Checking.checkPlace, hd]
  · exact h.pure ()
  · exact h.report _ i
  · exact h.report _ i
  · exact h.pure ()

theorem checkAfter (h : Closed P) (hds : ∀ k, P (checkAll (i + 1) k ds)) : P (checkAfter i d ds) := by
  unfold Checking.checkAfter
  split
  · exact hds 0
  · refine h.bind (h.forM h.define) fun _ => ?_
    simp only
    split
    · exact h.bind (h.report _ _) fun _ => hds _
    · exact hds _

theorem checkAll (h : Closed P) (hd : ∀ d ∈ ds, ∀ k, d.hole? = some k → P (throw k : Checking Unit))
    (i k : Nat) : P (checkAll i k ds) := by
  induction ds generalizing i k with
  | nil => exact h.pure ()
  | cons d ds ih =>
    obtain ⟨hd, hds⟩ := List.forall_mem_cons.mp hd
    cases k with
    | succ k => exact ih hds _ k
    | zero =>
      rw [checkAll_cons]
      refine h.bind (h.checkPlace i _ d) fun _ => h.bind (h.checkSingle hd i) fun _ => ?_
      exact h.checkAfter fun k => ih hds _ k

end Closed

def Grows {α : Type} (x : Checking α) : Prop :=
  ∀ r : Report, r.findings <+: (x.runFrom r).2.findings

section Grows

variable {α β : Type}

theorem Grows.bind {x : Checking α} {f : α → Checking β} (hx : Grows x) (hf : ∀ a, Grows (f a)) :
    Grows (x >>= f) := by
  intro r
  have h := hx r
  rw [runFrom_bind]
  rcases hrun : x.runFrom r with ⟨e | a, s⟩
  · rw [hrun] at h
    exact h
  · rw [hrun] at h
    exact h.trans (hf a s)

theorem closed_grows : Closed Grows where
  pure := fun _ _ => List.prefix_refl _
  get := fun _ => List.prefix_refl _
  report := fun _ _ _ => List.prefix_append _ _
  define := fun _ _ => List.prefix_refl _
  bind := Grows.bind

theorem grows_throw (k : Hole) : Grows (throw k : Checking Unit) :=
  fun _ => List.prefix_refl _

theorem grows_checkSingle (i : Nat) (d : Definition) : Grows (checkSingle i d) :=
  closed_grows.checkSingle (fun k _ => grows_throw k) i

theorem grows_checkAll (i k : Nat) (ds : List Definition) : Grows (checkAll i k ds) :=
  closed_grows.checkAll (fun _ _ k _ => grows_throw k) i k

theorem runs_of_bind {x : Checking α} {f : α → Checking β} (hx : Grows x) (hf : ∀ a, Grows (f a))
    {t : Report} {b : β} (h : (x >>= f).runFrom r = (.ok b, t)) (ht : t.findings = r.findings) :
    ∃ a s, x.runFrom r = (.ok a, s) ∧ s.findings = r.findings ∧ (f a).runFrom s = (.ok b, t) := by
  have hxr := hx r
  rcases hrun : x.runFrom r with ⟨e | a, s⟩
  · rw [runFrom_bind, hrun] at h
    cases h
  · rw [runFrom_bind_ok hrun] at h
    have hfs := hf a s
    rw [h, ht] at hfs
    rw [hrun] at hxr
    exact ⟨a, s, rfl, hfs.eq_of_length_le hxr.length_le, h⟩

theorem not_runs_of_report {b : Breach} {j : Nat} {f : Unit → Checking β} (hf : ∀ a, Grows (f a))
    {t : Report} {c : β} (h : (report b j >>= f).runFrom r = (.ok c, t)) :
    t.findings ≠ r.findings := by
  intro ht
  obtain ⟨_, s, hs, hfound, _⟩ := runs_of_bind (closed_grows.report b j) hf h ht
  rw [runFrom_report] at hs
  cases hs
  simp at hfound

end Grows

variable {s t : Report}

theorem place_of_runs {isLast : Bool} (h : (checkPlace i isLast d).runFrom r = (.ok (), s))
    (hs : s.findings = r.findings) : d.isReturn = isLast := by
  cases isLast <;> cases hd : d.isReturn
  · rfl
  · simp only [checkPlace, hd] at h
    exact absurd hs (not_runs_of_report (fun _ => closed_grows.pure ()) h)
  · simp [checkPlace, hd] at h
    simp [← h] at hs
  · rfl

theorem isFlat_of_checkValue {e : Expr} (h : (checkValue i d e).runFrom r = (.ok (), s))
    (hs : s.findings = r.findings) : e.isFlat = true := by
  cases he : e.isFlat with
  | true => rfl
  | false =>
    have hreads := closed_grows.checkReads i e.variables
    simp only [checkValue, he] at h
    cases hd : d.hole? with
    | none =>
      rw [hd] at h
      exact absurd hs (not_runs_of_report (fun _ => hreads) h)
    | some _ =>
      rw [hd] at h
      cases h

theorem isFlat_of_checkSingle (h : (checkSingle i d).runFrom r = (.ok (), s))
    (hs : s.findings = r.findings) : d.isFlat = true := by
  cases d with
  | assign x e =>
    have hvalue : Grows (checkValue i (.assign x e) e) := closed_grows.checkValue (fun k _ => grows_throw k) i e
    obtain ⟨⟨⟩, t, ht, hfound, _⟩ := runs_of_bind hvalue (fun _ => closed_grows.define x) h hs
    exact isFlat_of_checkValue ht hfound
  | ret e => exact isFlat_of_checkValue h hs
  | hole =>
    cases h
    simp at hs

theorem eq_of_opened? {x : String} (h : opened? d ds = some x) :
    ∃ l r, d = .assign x (.bin .sub l r) := by
  unfold opened? at h
  split at h
  · rw [Option.ite_none_right_eq_some] at h
    cases h.2
    exact ⟨_, _, rfl⟩
  · cases h

theorem eq_append_of_agreement {es : List Definition} (h : es.length ≤ agreement es ds) :
    ds = es ++ ds.drop es.length := by
  have ht := take_agreement es ds
  rw [Nat.le_antisymm (agreement_le_left es ds) h, List.take_length] at ht
  calc ds = ds.take es.length ++ ds.drop es.length := (List.take_append_drop _ _).symm
    _ = es ++ ds.drop es.length := by rw [ht]

theorem after_of_runs (h : (checkAll i 0 (d :: ds)).runFrom r = (.ok (), t))
    (ht : t.findings = r.findings) : d.isReturn = ds.isEmpty ∧ d.isFlat = true ∧
      ∃ s, t.findings = s.findings ∧ (checkAfter i d ds).runFrom s = (.ok (), t) := by
  have hafter : ∀ _ : Unit, Grows (checkAfter i d ds) := fun _ =>
    closed_grows.checkAfter fun k => grows_checkAll _ k ds
  rw [checkAll_cons] at h
  obtain ⟨⟨⟩, s₁, hplace, hs₁, h₁⟩ :=
    runs_of_bind (closed_grows.checkPlace i _ d) (fun _ => (grows_checkSingle i d).bind hafter) h ht
  obtain ⟨⟨⟩, s₂, hsingle, hs₂, h₂⟩ :=
    runs_of_bind (grows_checkSingle i d) hafter h₁ (ht.trans hs₁.symm)
  exact ⟨place_of_runs hplace hs₁, isFlat_of_checkSingle hsingle hs₂, s₂,
    ht.trans (hs₁.symm.trans hs₂.symm), h₂⟩

theorem group_of_runs {x : String} (ho : opened? d ds = some x)
    (h : (checkAfter i d ds).runFrom r = (.ok (), t)) (ht : t.findings = r.findings) :
    ∃ es, ds = Bits.constraints x ++ es ∧
      ∃ j s, t.findings = s.findings ∧ (checkAll j 0 es).runFrom s = (.ok (), t) := by
  rw [checkAfter, ho] at h
  simp only [runFrom_bind_ok runFrom_forM_define] at h
  by_cases hk : agreement (Bits.constraints x) ds ≤ Bits.width
  · rw [if_pos hk] at h
    exact (not_runs_of_report (fun _ => grows_checkAll _ _ ds) h ht).elim
  · rw [if_neg hk] at h
    have hlen : (Bits.constraints x).length ≤ agreement (Bits.constraints x) ds := by
      rw [Bits.length_constraints]
      omega
    have hds := eq_append_of_agreement hlen
    rw [Nat.le_antisymm (agreement_le_left _ _) hlen, hds, checkAll_append] at h
    exact ⟨_, hds, _, ⟨r.findings, r.defined.insertMany (Bits.names x)⟩, ht, h⟩

theorem pieces_of_checkAll (h : (checkAll i 0 ds).runFrom r = (.ok (), t))
    (ht : t.findings = r.findings) :
    ∃ ps, ds = ps.flatMap Piece.definitions ∧ Shaped ps := by
  -- a group is taken as a whole, so the induction is on how many definitions are left
  induction hn : ds.length using Nat.strongRecOn generalizing ds i r with
  | _ n ih =>
  cases ds with
  | nil => exact ⟨[], rfl, shaped_nil⟩
  | cons d ds =>
    subst hn
    obtain ⟨hplace, hflat, s, hs, hafter⟩ := after_of_runs h ht
    cases ho : opened? d ds with
    | none =>
      rw [checkAfter, ho] at hafter
      obtain ⟨ps, rfl, hps⟩ := ih _ (Nat.lt_succ_self _) hafter hs rfl
      refine ⟨.single d :: ps, rfl, shaped_cons_iff.mpr ⟨⟨hflat, ?_, ?_⟩, hps⟩⟩
      · intro x l r e he
        cases he
        exact opened?_eq_none_iff.mp ho x l r e rfl
      · intro d' he
        cases he
        exact hplace
    | some x =>
      obtain ⟨l, r', rfl⟩ := eq_of_opened? ho
      obtain ⟨es, rfl, j, s', hs', hrun⟩ := group_of_runs ho hafter hs
      have hlt : es.length < (Definition.assign x (.bin .sub l r') :: (Bits.constraints x ++ es)).length := by
        rw [List.length_cons, List.length_append]
        omega
      obtain ⟨ps, rfl, hps⟩ := ih _ hlt hrun hs' rfl
      refine ⟨.group x l r' :: ps, rfl, shaped_cons_iff.mpr ⟨⟨hflat, ?_, ?_⟩, hps⟩⟩
      · intro x l r e he
        cases he
      · intro d' he
        cases he

end Checking

end FlatCircuit
