import FlatCircuit.Proofs.Contract.Lowered
import FlatCircuit.Proofs.Contract.Safety
import FlatCircuit.Proofs.Evaluation.Arguments
import FlatCircuit.Proofs.Evaluation.Lookups
import FlatCircuit.Proofs.Lowering.Meaning

namespace FlatCircuit

/-- A name that asks for a bit of an owner is the name of that bit, without another spelling of its number. -/
def Name.isCanonical (x : String) : Bool :=
  match splitBit? x with
  | none => true
  | some (owner, index) =>
    match Memory.bitIndex? index with
    | .ok (some i) => x == bit owner (i : Nat)
    | _ => true

theorem Name.ne_empty_of_splitBit? {x owner : String} {index : List Char}
    (h : splitBit? x = some (owner, index)) : owner ≠ "" := by
  unfold splitBit? at h
  split at h <;> cases h
  simp

theorem Memory.lt_of_bitIndex? {index : List Char} {i : Nat} (h : bitIndex? index = .ok (some i)) :
    i < Bits.width := by
  unfold bitIndex? at h
  split at h
  · split at h
    · split at h
      · next hi =>
        cases h
        exact hi
      · cases h
    · cases h
  · cases h

theorem Bits.notMem_names_of_ne {x y z : String} (h : y ≠ x) (hy : z ∈ names y) : z ∉ names x :=
  fun hx => h (eq_of_mem_names hy hx)

theorem Bits.bitOf_eq (v : Int) (i : Nat) : bitOf v i = 0 ∨ bitOf v i = 1 := by
  unfold bitOf
  omega

open Evaluation

def FirstRead (ls : List Lookup) (owner : String) (v : Int) : Prop :=
  ∃ before l after, ls = before ++ l :: after ∧ l.name ∈ Bits.names owner ∧ l.memory[owner]? = some v ∧
    ∀ k ∈ before, k.name ∈ Bits.names owner → ¬ k.memory.Binds owner

theorem FirstRead.append {ls : List Lookup} {owner : String} {v : Int} (h : FirstRead ls owner v)
    (more : List Lookup) : FirstRead (ls ++ more) owner v := by
  obtain ⟨before, l, after, rfl, hl⟩ := h
  exact ⟨before, l, after ++ more, by simp, hl⟩

namespace Memory

variable {m k : Memory} {ls : List Lookup} {x y z : String} {v : Int}

def number (m : Memory) (owner : String) : Int :=
  ((List.range 8).map fun i : Nat => m[Name.bit owner i]?.getD 0 * 2 ^ i).sum

def Supplied (m : Memory) (owner : String) : Prop :=
  ∀ y ∈ Bits.names owner, y ∈ m.witness

structure Witnessed (m : Memory) (ls : List Lookup) : Prop where
  grouped : ∀ y ∈ m.witness, ∃ x, x ≠ "" ∧ m.Binds x ∧ y ∈ Bits.names x ∧ m.Supplied x
  bound_iff : ∀ x, x ≠ "" → ∀ y ∈ Bits.names x, m.Binds y ↔ y ∈ m.witness
  binary : ∀ y ∈ m.witness, m[y]? = some 0 ∨ m[y]? = some 1
  decomposed : ∀ x, x ≠ "" → m.Supplied x → ∃ v, FirstRead ls x v ∧ m.number x = v % 256
  unread : ∀ x, x ≠ "" → ¬ m.Supplied x → ∀ l ∈ ls, l.name ∈ Bits.names x → ¬ l.memory.Binds x

def KeepsBits (k m : Memory) : Prop :=
  ∀ y ∈ k.witness, y ∈ m.witness ∧ m[y]? = k[y]?

theorem KeepsBits.refl (m : Memory) : m.KeepsBits m :=
  fun _ hy => ⟨hy, rfl⟩

theorem binds_supply_of_mem (hy : y ∈ Bits.names x) : (m.supply x v).Binds y := by
  obtain ⟨i, hi, rfl⟩ := (Bits.mem_names x).mp hy
  exact ⟨_, getElem?_supply_bit hi⟩

theorem supplied_supply_self : (m.supply x v).Supplied x :=
  fun _ hy => mem_witness_supply.mpr (.inl hy)

theorem getElem?_supply_of_ne (h : y ≠ x) (hz : z ∈ Bits.names y) : (m.supply x v)[z]? = m[z]? :=
  getElem?_supply_of_notMem (Bits.notMem_names_of_ne h hz)

theorem supplied_supply_iff (h : y ≠ x) : (m.supply x v).Supplied y ↔ m.Supplied y := by
  refine forall₂_congr fun z hz => ?_
  rw [mem_witness_supply, or_iff_right (Bits.notMem_names_of_ne h hz)]

theorem number_congr (h : ∀ y ∈ Bits.names x, k[y]? = m[y]?) : k.number x = m.number x := by
  unfold number
  congr 1
  refine List.map_congr_left fun i hi => ?_
  rw [h _ ((Bits.mem_names x).mpr ⟨i, List.mem_range.mp hi, rfl⟩)]

theorem number_supply (m : Memory) (x : String) (v : Int) : (m.supply x v).number x = v % 256 := by
  have hbits : (m.supply x v).number x = ((List.range 8).map fun i => Bits.bitOf v i * 2 ^ i).sum := by
    unfold number
    congr 1
    refine List.map_congr_left fun i hi => ?_
    rw [getElem?_supply_bit (List.mem_range.mp hi), Option.getD_some]
  rw [hbits]
  have hmodulus : Bits.modulus = 256 := rfl
  simp [List.range_succ, Bits.bitOf, Bits.weight, hmodulus]
  omega

theorem witnessed_empty : Witnessed .empty [] where
  grouped _ hy := absurd hy Std.ExtTreeSet.not_mem_empty
  bound_iff _ _ _ _ := ⟨fun h => absurd h not_binds_empty, fun h => absurd h Std.ExtTreeSet.not_mem_empty⟩
  binary _ hy := absurd hy Std.ExtTreeSet.not_mem_empty
  decomposed x _ h := absurd (h _ ((Bits.mem_names x).mpr ⟨0, by decide, rfl⟩)) Std.ExtTreeSet.not_mem_empty
  unread _ _ _ _ hl := absurd hl List.not_mem_nil

namespace Witnessed

theorem supplied_of_binds (h : m.Witnessed ls) (hx : x ≠ "") (hy : y ∈ Bits.names x) (hb : m.Binds y) :
    m.Supplied x := by
  obtain ⟨z, _, _, hyz, hz⟩ := h.grouped y ((h.bound_iff x hx y hy).mp hb)
  exact Bits.eq_of_mem_names hyz hy ▸ hz

theorem binds_of_supplied (h : m.Witnessed ls) (hx : x ≠ "") (hs : m.Supplied x) (hy : y ∈ Bits.names x) :
    m.Binds y :=
  (h.bound_iff x hx y hy).mpr (hs y hy)

theorem still (h : m.Witnessed ls)
    (hy : ∀ x, x ≠ "" → y ∈ Bits.names x → m.Binds x → m.Supplied x) : m.Witnessed (ls ++ [⟨m, y⟩]) where
  grouped := h.grouped
  bound_iff := h.bound_iff
  binary := h.binary
  decomposed x hx hs := by
    obtain ⟨v, hv, hn⟩ := h.decomposed x hx hs
    exact ⟨v, hv.append _, hn⟩
  unread x hx hs l hl hlx hb := by
    rcases List.mem_append.mp hl with hl | hl
    · exact h.unread x hx hs l hl hlx hb
    · obtain rfl := List.mem_singleton.mp hl
      exact hs (hy x hx hlx hb)

theorem notMem_names (h : m.Witnessed ls) (hx : x ≠ "") (hy : y ∈ Bits.names x) (hb : ¬ m.Binds y)
    (hz : z ∈ m.witness) : z ∉ Bits.names x := by
  intro hzx
  have hs := h.supplied_of_binds hx hzx ((h.bound_iff x hx z hzx).mpr hz)
  exact hb (h.binds_of_supplied hx hs hy)

theorem supply (h : m.Witnessed ls) (hx : x ≠ "") (hy : y ∈ Bits.names x) (hv : m[x]? = some v)
    (hb : ¬ m.Binds y) : (m.supply x v).Witnessed (ls ++ [⟨m, y⟩]) := by
  have hold : ∀ z ∈ m.witness, z ∉ Bits.names x := fun z => h.notMem_names hx hy hb
  have hunsupplied : ¬ m.Supplied x := fun hs => hb (h.binds_of_supplied hx hs hy)
  refine ⟨fun z hz => ?_, fun z hz w hw => ?_, fun z hz => ?_, fun z hz hs => ?_, fun z hz hs l hl hlz => ?_⟩
  · rcases mem_witness_supply.mp hz with hz | hz
    · exact ⟨x, hx, covers_supply x v x ⟨v, hv⟩, hz, supplied_supply_self⟩
    · obtain ⟨w, hw, hbound, hzw, hs⟩ := h.grouped z hz
      exact ⟨w, hw, covers_supply x v w hbound, hzw, fun u hu => mem_witness_supply.mpr (.inr (hs u hu))⟩
  · by_cases hzx : z = x
    · subst hzx
      exact iff_of_true (binds_supply_of_mem hw) (supplied_supply_self w hw)
    · rw [Binds, getElem?_supply_of_ne hzx hw, mem_witness_supply,
        or_iff_right (Bits.notMem_names_of_ne hzx hw)]
      exact h.bound_iff z hz w hw
  · rcases mem_witness_supply.mp hz with hz | hz
    · obtain ⟨i, hi, rfl⟩ := (Bits.mem_names x).mp hz
      rw [getElem?_supply_bit hi]
      exact (Bits.bitOf_eq v i).imp (congrArg some) (congrArg some)
    · rw [getElem?_supply_of_notMem (hold z hz)]
      exact h.binary z hz
  · by_cases hzx : z = x
    · subst hzx
      exact ⟨v, ⟨ls, ⟨m, y⟩, [], rfl, hy, hv, h.unread z hz hunsupplied⟩, number_supply m z v⟩
    · obtain ⟨u, hu, hn⟩ := h.decomposed z hz ((supplied_supply_iff hzx).mp hs)
      exact ⟨u, hu.append _, (number_congr fun w hw => getElem?_supply_of_ne hzx hw).trans hn⟩
  · have hzx : z ≠ x := fun he => hs (he ▸ supplied_supply_self)
    rcases List.mem_append.mp hl with hl | hl
    · exact h.unread z hz (fun hm => hs ((supplied_supply_iff hzx).mpr hm)) l hl hlz
    · obtain rfl := List.mem_singleton.mp hl
      exact absurd hy (Bits.notMem_names_of_ne hzx hlz)

theorem assign (h : m.Witnessed ls) (hx : ∀ z, z ≠ "" → x ∉ Bits.names z) (v : Int) :
    (m.assign x v).Witnessed ls := by
  have hbits : ∀ z, z ≠ "" → ∀ w ∈ Bits.names z, (m.assign x v)[w]? = m[w]? := by
    intro z hz w hw
    rw [getElem?_assign, if_neg]
    rintro rfl
    exact hx z hz hw
  refine ⟨fun z hz => ?_, fun z hz w hw => ?_, fun z hz => ?_, fun z hz hs => ?_, h.unread⟩
  · obtain ⟨w, hw, hb, hzw, hs⟩ := h.grouped z hz
    exact ⟨w, hw, binds_assign_iff.mpr (.inr hb), hzw, hs⟩
  · rw [Binds, hbits z hz w hw]
    exact h.bound_iff z hz w hw
  · obtain ⟨w, hw, _, hzw, _⟩ := h.grouped z hz
    rw [hbits w hw z hzw]
    exact h.binary z hz
  · rw [number_congr (hbits z hz)]
    exact h.decomposed z hz hs

end Witnessed

theorem KeepsBits.supply (h : k.KeepsBits m) (hx : ∀ y ∈ m.witness, y ∉ Bits.names x) (v : Int) :
    k.KeepsBits (m.supply x v) := by
  intro y hy
  obtain ⟨hm, he⟩ := h y hy
  exact ⟨mem_witness_supply.mpr (.inr hm), (getElem?_supply_of_notMem (hx y hm)).trans he⟩

theorem KeepsBits.assign (h : k.KeepsBits m) (hx : x ∉ m.witness) (v : Int) : k.KeepsBits (m.assign x v) := by
  intro y hy
  obtain ⟨hm, he⟩ := h y hy
  refine ⟨hm, ?_⟩
  rw [getElem?_assign, if_neg, he]
  rintro rfl
  exact hx hm

theorem owner?_eq_some {owner : String} (h : m.owner? x = .ok (some (owner, v)))
    (hx : Name.isCanonical x = true) : owner ≠ "" ∧ m[owner]? = some v ∧ x ∈ Bits.names owner := by
  unfold owner? at h
  unfold Name.isCanonical at hx
  cases hs : Name.splitBit? x with
  | none =>
    rw [hs] at h
    cases h
  | some b =>
    obtain ⟨y, index⟩ := b
    simp only [hs] at h hx
    cases hi : bitIndex? index with
    | error => simp [hi, Except.map] at h
    | ok i =>
      cases i with
      | none => simp [hi, Except.map] at h
      | some i =>
        simp only [hi, Except.map, Option.bind_some, Except.ok.injEq, Option.map_eq_some_iff,
          Prod.mk.injEq] at h
        simp only [hi, beq_iff_eq] at hx
        obtain ⟨w, hw, rfl, rfl⟩ := h
        exact ⟨Name.ne_empty_of_splitBit? hs, hw, (Bits.mem_names y).mpr ⟨i, lt_of_bitIndex? hi, hx.symm⟩⟩

end Memory

namespace Evaluation

variable {k m : Memory} {ls : List Lookup} {x : String} {e : Expr} {p : Program}

theorem runFrom_lookup_cases (m : Memory) (x : String) :
    (∃ v, m[x]? = some v ∧ (lookup x).runFrom m = (.ok v, m)) ∨
    (∃ err, (∀ b, m.owner? x ≠ .ok (some b)) ∧ (lookup x).runFrom m = (.error err, m)) ∨
    ∃ owner v r, m.owner? x = .ok (some (owner, v)) ∧ ¬ m.Binds x ∧
      (lookup x).runFrom m = (r, m.supply owner v) ∧ ∀ a, r = .ok a → (m.supply owner v).Binds x := by
  cases hx : m[x]? with
  | some v => exact .inl ⟨v, rfl, runFrom_lookup hx⟩
  | none =>
    rcases ho : m.owner? x with err | (_ | ⟨owner, v⟩)
    · exact .inr (.inl ⟨err, by simp, by simp [lookup, runFrom_bind, hx, ho]⟩)
    · exact .inr (.inl ⟨.undefined x, by simp, by simp [lookup, runFrom_bind, hx, ho]⟩)
    · have hunbound : ¬ m.Binds x := by
        rintro ⟨w, hw⟩
        cases hx.symm.trans hw
      cases hb : (m.supply owner v)[x]? with
      | none =>
        refine .inr (.inr ⟨owner, v, .error (.otherSpelling x), rfl, hunbound, ?_, by simp⟩)
        simp [lookup, runFrom_bind, hx, ho, hb]
      | some b =>
        refine .inr (.inr ⟨owner, v, .ok b, rfl, hunbound, ?_, fun _ _ => ⟨b, hb⟩⟩)
        simp only [lookup, runFrom_bind, runFrom_get, hx, ho, runFrom_lift, runFrom_set, hb, runFrom_pure]

theorem binds_of_lookup {v : Int} (h : (lookup x).runFrom m = (.ok v, k)) : k.Binds x := by
  rcases runFrom_lookup_cases m x with ⟨w, hw, he⟩ | ⟨err, _, he⟩ | ⟨owner, w, r, _, _, he, hb⟩
  · cases he.symm.trans h
    exact ⟨v, hw⟩
  · cases he.symm.trans h
  · cases he.symm.trans h
    exact hb v rfl

theorem binds_of_square {v : Int} (h : (Expr.bin .mul (.var x) (.var x)).eval.runFrom m = (.ok v, k)) :
    k.Binds x := by
  rw [Expr.eval_bin (by decide)] at h
  rcases ha : (lookup x).runFrom m with ⟨err | a, i⟩
  · cases (runFrom_bind_error m ha _).symm.trans h
  · rcases hb : (lookup x).runFrom i with ⟨err | b, j⟩
    · cases ((runFrom_bind_ok m ha _).trans (runFrom_bind_error i hb _)).symm.trans h
    · cases ((runFrom_bind_ok m ha _).trans (runFrom_bind_ok i hb _)).symm.trans h
      exact binds_of_lookup hb

def Follows (k : Memory) (ls : List Lookup) (m : Memory) : Prop :=
  m.Witnessed ls ∧ k.KeepsBits m

def Lookup.IsCanonical (l : Lookup) : Prop :=
  Name.isCanonical l.name = true

theorem keeps_lookup (x : String) : Keeps Lookup.IsCanonical (Follows k) (lookup x) fun m => [⟨m, x⟩] := by
  intro ls m ⟨hm, hk⟩ hg
  have hx : Name.isCanonical x = true := hg _ List.mem_cons_self
  rcases runFrom_lookup_cases m x with ⟨v, hv, he⟩ | ⟨_, ho, he⟩ | ⟨owner, v, _, ho, hb, he, _⟩ <;> rw [he]
  · exact ⟨hm.still fun z hz hxz _ => hm.supplied_of_binds hz hxz ⟨v, hv⟩, hk⟩
  · refine ⟨hm.still fun z hz hxz hbound => ?_, hk⟩
    obtain ⟨i, hi, rfl⟩ := (Bits.mem_names z).mp hxz
    obtain ⟨v, hv⟩ := hbound
    exact absurd (Memory.owner?_bit hz hv hi) (ho _)
  · obtain ⟨hne, hv, hmem⟩ := Memory.owner?_eq_some ho hx
    exact ⟨hm.supply hne hmem hv hb, hk.supply (fun z => hm.notMem_names hne hmem hb) v⟩

def NamesNoBit (x : String) : Prop :=
  ∀ z, z ≠ "" → x ∉ Bits.names z

theorem keeps_assign (hx : NamesNoBit x) (v : Int) :
    Keeps Lookup.IsCanonical (Follows k) (assign x v) fun _ => [] := by
  intro ls m ⟨hm, hk⟩ _
  have hnot : x ∉ m.witness := fun hw => by
    obtain ⟨z, hz, _, hxz, _⟩ := hm.grouped x hw
    exact hx z hz hxz
  rw [List.append_nil, runFrom_assign]
  exact ⟨hm.assign hx v, hk.assign hnot v⟩

theorem keeps_define (hx : NamesNoBit x) (e : Expr) :
    Keeps Lookup.IsCanonical (Follows k) (define x e) e.lookups :=
  keeps_define_of_assign keeps_lookup (keeps_assign hx) e

theorem keeps_bitConstraint (b : String) :
    Keeps Lookup.IsCanonical (Follows k) (define b (.bin .mul (.var b) (.var b)))
      (Expr.bin .mul (.var b) (.var b)).lookups := by
  by_cases hb : NamesNoBit b
  · exact keeps_define hb _
  obtain ⟨z, hz, hbz⟩ : ∃ z, z ≠ "" ∧ b ∈ Bits.names z := by simpa [NamesNoBit] using hb
  intro ls m hm hg
  have hk := keeps_eval keeps_lookup _ ls m hm hg
  rcases he : (Expr.bin .mul (.var b) (.var b)).eval.runFrom m with ⟨err | v, i⟩ <;> rw [he] at hk
  · rw [runFrom_define_error he]
    exact hk
  · have hw : b ∈ i.witness := (hk.1.bound_iff z hz b hbz).mp (binds_of_square he)
    by_cases hv : i[b]? = some v
    · rw [runFrom_define he fun _ => hv, Memory.assign_eq_self hv]
      exact hk
    · have hthrow : (define b (.bin .mul (.var b) (.var b))).runFrom m =
          (.error (.constraint (Bits.bitConstraint b)), i) := by
        simp only [define, runFrom_bind, he, runFrom_get, if_pos (And.intro hw hv), runFrom_throw]
        rfl
      rw [hthrow]
      exact hk

end Evaluation

structure Program.SparesBits (p : Program) : Prop where
  parameters : ∀ x ∈ p.parameters, NamesNoBit x
  definitions : ∀ x e, .assign x e ∈ p.definitions →
    NamesNoBit x ∨ Definition.assign x e = Bits.bitConstraint x

theorem namesNoBit_of_isPlain {x : String} (h : Name.IsPlain x) : NamesNoBit x := by
  intro z _ hx
  obtain ⟨i, _, rfl⟩ := (Bits.mem_names z).mp hx
  exact Name.not_isPlain_bit z i h

theorem namesNoBit_temporary (n : Nat) : NamesNoBit (Name.temporary n) :=
  fun z _ hx => Bits.temporary_notMem_names z n hx

theorem Program.IsPlain.sparesBits {p : Program} (h : p.IsPlain) : p.SparesBits where
  parameters x hx := namesNoBit_of_isPlain (h.parameters x hx)
  definitions _ _ hd := .inl (namesNoBit_of_isPlain (h.definitions _ hd).1)

theorem Piece.IsLowered.sparesBits {p : Piece} {x : String} {e : Expr} (h : p.IsLowered)
    (hd : .assign x e ∈ p.definitions) : NamesNoBit x ∨ Definition.assign x e = Bits.bitConstraint x := by
  cases h with
  | made hp =>
    cases hp with
    | single n f =>
      cases List.mem_singleton.mp hd
      exact .inl (namesNoBit_temporary n)
    | group n l r =>
      rcases List.mem_cons.mp hd with hd | hd
      · cases hd
        exact .inl (namesNoBit_temporary n)
      rcases List.mem_append.mp hd with hd | hd
      · obtain ⟨b, _, hb⟩ := List.mem_map.mp hd
        cases hb
        exact .inr rfl
      · cases List.mem_singleton.mp hd
        exact .inl (namesNoBit_temporary n)
  | assign hx =>
    cases List.mem_singleton.mp hd
    exact .inl (namesNoBit_of_isPlain hx)
  | ret => cases List.mem_singleton.mp hd

theorem Program.IsPlain.sparesBits_of_lower {p q : Program} {strict : Bool} (hp : p.IsPlain)
    (h : p.lower strict = .ok q) : q.SparesBits := by
  obtain ⟨ds, m, hl, rfl⟩ := Lowering.lowersAll_of_lower h
  obtain ⟨ps, rfl, hm, _⟩ := hl.mirrors hp.definitions
  refine ⟨fun x hx => namesNoBit_of_isPlain (hp.parameters x hx), fun x e hd => ?_⟩
  obtain ⟨piece, hpiece, hd⟩ := List.mem_flatMap.mp hd
  exact (hm.lowered piece hpiece).sparesBits hd

namespace Evaluation.Session

variable {s : Session} {ls : List Lookup} {rs : List Request} {k : Memory}

theorem follows_performAll (h : s.program.SparesBits) (hs : Follows k ls s.memory)
    (hg : ∀ l ∈ s.lookups rs, l.IsCanonical) : Follows k (ls ++ s.lookups rs) (s.performAll rs).memory := by
  refine keeps_performAll (fun r => keeps_request keeps_lookup ?_ ?_ r) hs hg
  · exact fun x hx v => keeps_assign (h.parameters x hx) v
  · intro x e hd
    rcases h.definitions x e hd with hx | hx
    · exact keeps_define hx e
    · cases hx
      exact keeps_bitConstraint x

theorem performAll_append (s : Session) (before after : List Request) :
    s.performAll (before ++ after) = (s.performAll before).performAll after :=
  List.foldl_append

theorem lookups_append (s : Session) (before after : List Request) :
    s.lookups (before ++ after) = s.lookups before ++ (s.performAll before).lookups after := by
  induction before generalizing s with
  | nil => rfl
  | cons r before ih =>
    rw [List.cons_append, lookups, ih, ← List.append_assoc]
    rfl

theorem performAll_program (s : Session) (rs : List Request) : (s.performAll rs).program = s.program := by
  induction rs generalizing s with
  | nil => rfl
  | cons r rs ih => exact ih (s.perform r).2

/-- A session over a program that is read from a text, or over its flat form. As long as bits are asked for by
their names, the bits in its memory are whole groups, with the residues that their owners had when the groups
were first read, and they stay what they are. -/
theorem witnessed_performAll (text : String) (p q : Program) (rs : List Request)
    (hr : Program.read text = .ok p) (hq : q = p ∨ ∃ strict, p.lower strict = .ok q)
    (hg : ∀ l ∈ (start q).lookups rs, Name.isCanonical l.name = true) :
    ((start q).performAll rs).memory.Witnessed ((start q).lookups rs) ∧
      ∀ before after, rs = before ++ after →
        ((start q).performAll before).memory.KeepsBits ((start q).performAll rs).memory := by
  have hplain := (Program.isSource_of_read hr).isPlain
  have hspares : q.SparesBits := by
    rcases hq with rfl | ⟨strict, h⟩
    · exact hplain.sparesBits
    · exact hplain.sparesBits_of_lower h
  have hstart : Follows .empty [] (start q).memory := ⟨Memory.witnessed_empty, .refl _⟩
  refine ⟨(follows_performAll hspares hstart hg).1, ?_⟩
  rintro before after rfl
  rw [lookups_append] at hg
  obtain ⟨hgb, hga⟩ := List.forall_mem_append.mp hg
  have hbefore := (follows_performAll hspares hstart hgb).1
  rw [performAll_append]
  have hp := performAll_program (start q) before
  exact (follows_performAll (hp ▸ hspares) ⟨hbefore, .refl _⟩ hga).2

theorem witnessed_performAll_clamp :
    let p : Program := ⟨"f", ["x"], [
      .assign "y" (.ite (.less (.var "x") (.lit 3)) (.var "x") (.lit 7)),
      .ret (.pow (.var "y") (.lit 2))]⟩
    let rs : List Request := [.bind (.positional [2]), .lookup "x_b0", .execute, .bind (.positional [9]), .execute,
      .lookup "sym_2_b7", .expr (.var "z")]
    Program.read p.text = .ok p ∧ ∃ q, p.lower false = .ok q ∧
      (∀ l ∈ (start q).lookups rs, Name.isCanonical l.name = true) ∧
      ((start q).performAll rs).memory.Witnessed ((start q).lookups rs) := by
  intro p rs
  have hp : p.IsSource := {
    header := ⟨by decide, by decide, by decide, by decide⟩
    definitions := ⟨[.assign "y" (.ite (.less (.var "x") (.lit 3)) (.var "x") (.lit 7))],
      .pow (.var "y") (.lit 2), rfl, by decide, by decide⟩ }
  have hlookups : (p.lower false).toOption.map (fun q => ((start q).lookups rs).all
      (Name.isCanonical ·.name)) = some true := by decide +kernel
  cases h : p.lower false with
  | error => simp [h, Except.toOption] at hlookups
  | ok q =>
    simp only [h, Except.toOption, Option.map_some, Option.some.injEq, List.all_eq_true] at hlookups
    exact ⟨hp.read_text, q, rfl, hlookups,
      (witnessed_performAll p.text p q rs hp.read_text (.inr ⟨false, h⟩) hlookups).1⟩

end Evaluation.Session

end FlatCircuit
