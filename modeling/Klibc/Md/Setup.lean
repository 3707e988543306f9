import Mathlib.Data.List.Nodup
import Klibc.Stdio.ScanLoop

/-! # The table of md devices

`md_setup` parses the argument `md=` into an entry of a table, a new one or the one that has the
same minor number and the same `partitioned`. The number of entries grows before the last options
are parsed, so that an argument that is rejected for these leaves an entry behind that was never
written. A minor number is checked against its upper bound only. -/

namespace Klibc.Md.Setup

open Lib.Machine Stdio.ScanLoop Stdio.Strntoumax Stdio.Vsscanf
open Stdio.Vsnprintf (chr)

def MAX_MD_DEVS : ℕ := 256

def LEVEL_LINEAR : ℤ := -1

def LEVEL_NONE : ℤ := -1000000

/-! ### The code -/

/-- The results 0, 1 and 2 of `get_option`, with `*pint` and `*str`. -/
inductive Parsed
  | absent (str : List UInt8)
  | int (v : ℤ) (str : List UInt8)
  | comma (v : ℤ) (str : List UInt8)

/-- Read an `int`, and a comma behind it. `long` has `bits` bits; the result is `none` if a
character behind the string is read. -/
def getOption (bits : ℕ) (str : List UInt8) : Option Parsed := do
  let c ← str.head?
  if c = 0 then some (.absent str)
  else
    let (v, rest) ← strtol bits str 0
    -- Both pointers are into one string, so they are equal iff as much is left.
    if rest.length = str.length then some (.absent rest)
    else
      let c ← rest.head?
      if c = chr ',' then some (.comma (wrap 32 v.toInt) rest.tail)
      else some (.int (wrap 32 v.toInt) rest)

/-- An entry of `md_setup_args`. `chunk` is `none` after an undefined shift. -/
structure Entry where
  minor : ℤ
  partitioned : Bool
  level : ℤ
  chunk : Option ℤ
  deviceNames : Option (List UInt8)

/-- `md_setup_ents` and `md_setup_args`. -/
structure Table where
  ents : ℕ
  args : Vector Entry MAX_MD_DEVS

def Table.empty : Table := ⟨0, Vector.replicate MAX_MD_DEVS ⟨0, false, 0, some 0, none⟩⟩

open List

/-- `1 << (factor + 12)`. -/
def chunkOf (factor : ℤ) : Option ℤ :=
  let s := wrap 32 (factor + 12)
  if 0 ≤ s ∧ s < 32 then some (wrap 32 (2 ^ s.toNat)) else none

/-- The minor number, `partitioned` and `str1`, or `none` if there are too few arguments. -/
def parseMinor (bits : ℕ) (str : List UInt8) : Option (Option (ℤ × Bool × List UInt8)) := do
  let c ← str.head?
  let partitioned := c == chr 'd'
  match ← getOption bits (if partitioned then str.tail else str) with
  | .comma minor str => some (some (minor, partitioned, str))
  | _ => some none

/-- What the `switch` finds: the level, the chunk size if it is set, and the names of the devices,
or `none` if there are too few arguments. The table is written only after the last option. -/
def parseLevel (bits : ℕ) (str1 : List UInt8) :
    Option (Option (ℤ × Option (Option ℤ) × List UInt8)) := do
  match ← getOption bits str1 with
  | .comma level str =>
    if level = 0 ∨ level = LEVEL_LINEAR then
      match ← getOption bits str with
      | .comma factor str =>
        match ← getOption bits str with
        | .comma _ str => some (some (level, some (chunkOf factor), str))
        | _ => some none
      | _ => some none
    else some (some (LEVEL_NONE, none, str1))
  | .int _ _ => some (some (LEVEL_NONE, none, str1))
  | .absent str => some (some (LEVEL_NONE, none, str))

def Entry.is (minor : ℤ) (partitioned : Bool) (e : Entry) : Bool :=
  e.minor == minor && e.partitioned == partitioned

/-- `ent` after the loop. -/
def findEnt (t : Table) (minor : ℤ) (partitioned : Bool) : ℕ :=
  (t.args.toList.take t.ents).findIdx (Entry.is minor partitioned)

/-- The number of entries includes `ent`. -/
def Table.grow (t : Table) (ent : ℕ) : Table :=
  if ent ≥ t.ents then { t with ents := t.ents + 1 } else t

def Entry.assign (e : Entry) (minor : ℤ) (partitioned : Bool)
    (found : ℤ × Option (Option ℤ) × List UInt8) : Entry where
  minor := minor
  partitioned := partitioned
  level := found.1
  chunk := found.2.1.getD e.chunk
  deviceNames := some found.2.2

lemma assign_pair (e : Entry) (minor : ℤ) (partitioned : Bool)
    (found : ℤ × Option (Option ℤ) × List UInt8) :
    ((e.assign minor partitioned found).minor, (e.assign minor partitioned found).partitioned) =
      (minor, partitioned) := rfl

def mdSetup (bits : ℕ) (t : Table) (str : List UInt8) : Option (Bool × Table) := do
  match ← parseMinor bits str with
  | none => some (false, t)
  | some (minor, partitioned, str1) =>
    if minor ≥ MAX_MD_DEVS then some (false, t)
    else
      let ent := findEnt t minor partitioned
      if h : ent < MAX_MD_DEVS then
        let t := t.grow ent
        match ← parseLevel bits str1 with
        | none => some (false, t)
        | some found =>
          let e := (t.args.get ⟨ent, h⟩).assign minor partitioned found
          some (true, { t with args := t.args.set ent e h })
      else some (false, t)

/-- The tables that earlier calls can have left. -/
inductive Reachable (bits : ℕ) : Table → Prop
  | init : Reachable bits Table.empty
  | call {t t' : Table} {ret : Bool} (str : List UInt8) (h : Reachable bits t)
      (hcall : mdSetup bits t (str ++ [0]) = some (ret, t')) : Reachable bits t'

/-! ### Parsing always ends -/

def Parsed.str : Parsed → List UInt8
  | .absent str => str
  | .int _ str => str
  | .comma _ str => str

variable {str : List UInt8}

lemma getOption_returns (bits : ℕ) (h : 0 ∈ str) :
    ∃ o, getOption bits str = some o ∧ 0 ∈ o.str := by
  obtain ⟨c, cs, rfl⟩ := exists_cons_of_ne_nil (ne_nil_of_mem h)
  obtain ⟨v, rest, hnum, hreads⟩ := strntoumax_reads 0 (2 ^ bits - 1) h
  change strntoumax (c :: cs) 0 _ = _ at hnum
  have hrest := hreads.terminated h
  obtain ⟨d, ds, rfl⟩ := exists_cons_of_ne_nil (ne_nil_of_mem hrest)
  by_cases hc : c = 0
  · exact ⟨.absent (c :: cs), by simp [getOption, hc], h⟩
  by_cases hlen : ds.length = cs.length
  · exact ⟨.absent (d :: ds), by simp [getOption, strtol, strtox, hnum, hc, hlen], hrest⟩
  by_cases hd : d = chr ','
  · have hds : 0 ∈ ds := (mem_cons.1 hrest).resolve_left (by rw [hd]; decide)
    exact ⟨.comma _ ds, by simp [getOption, strtol, strtox, hnum, hc, hlen, hd]; rfl, hds⟩
  · exact ⟨.int _ (d :: ds), by simp [getOption, strtol, strtox, hnum, hc, hlen, hd]; rfl, hrest⟩

lemma parseMinor_returns (bits : ℕ) (h : 0 ∈ str) :
    ∃ o, parseMinor bits str = some o ∧ ∀ r ∈ o, 0 ∈ r.2.2 := by
  obtain ⟨c, cs, rfl⟩ := exists_cons_of_ne_nil (ne_nil_of_mem h)
  have hstr : 0 ∈ if c == chr 'd' then cs else c :: cs := by
    split_ifs with hd
    · exact (mem_cons.1 h).resolve_left (by rw [eq_of_beq hd]; decide)
    · exact h
  obtain ⟨o, ho, hrest⟩ := getOption_returns bits hstr
  simp only [beq_iff_eq] at ho
  cases o with
  | comma v rest =>
    refine ⟨some (v, c == chr 'd', rest), by simp [parseMinor, ho], fun r hr => ?_⟩
    rw [← Option.some.inj hr]
    exact hrest
  | absent rest => exact ⟨none, by simp [parseMinor, ho], by simp⟩
  | int v rest => exact ⟨none, by simp [parseMinor, ho], by simp⟩

lemma parseLevel_returns (bits : ℕ) (h : 0 ∈ str) : ∃ o, parseLevel bits str = some o := by
  obtain ⟨o, ho, hrest⟩ := getOption_returns bits h
  cases o with
  | absent rest => exact ⟨_, by simp [parseLevel, ho]; rfl⟩
  | int v rest => exact ⟨_, by simp [parseLevel, ho]; rfl⟩
  | comma level rest =>
    by_cases hlevel : level = 0 ∨ level = LEVEL_LINEAR
    · obtain ⟨o', ho', hrest'⟩ := getOption_returns bits hrest
      simp only [Parsed.str] at ho'
      cases o' with
      | absent _ => exact ⟨none, by simp [parseLevel, ho, ho', hlevel]⟩
      | int _ _ => exact ⟨none, by simp [parseLevel, ho, ho', hlevel]⟩
      | comma factor rest' =>
        obtain ⟨o'', ho'', -⟩ := getOption_returns bits hrest'
        simp only [Parsed.str] at ho''
        cases o'' <;> exact ⟨_, by simp [parseLevel, ho, ho', ho'', hlevel]; rfl⟩
    · exact ⟨_, by simp [parseLevel, ho, hlevel]; rfl⟩

/-! ### The entries -/

section

variable {bits : ℕ} {t t' : Table} {minor : ℤ} {partitioned : Bool}

def Table.pairs (t : Table) : List (ℤ × Bool) :=
  (t.args.toList.take t.ents).map fun e => (e.minor, e.partitioned)

variable {str : List UInt8} {e : Entry}

lemma Entry.is_iff :
    e.is minor partitioned = true ↔ (e.minor, e.partitioned) = (minor, partitioned) := by
  simp [Entry.is]

lemma length_take_args (h : t.ents ≤ MAX_MD_DEVS) :
    (t.args.toList.take t.ents).length = t.ents := by
  rw [length_take, Vector.length_toList]
  omega

lemma findEnt_le (minor : ℤ) (partitioned : Bool) (h : t.ents ≤ MAX_MD_DEVS) :
    findEnt t minor partitioned ≤ t.ents :=
  findIdx_le_length.trans_eq (length_take_args h)

lemma findEnt_lt_iff (minor : ℤ) (partitioned : Bool) (h : t.ents ≤ MAX_MD_DEVS) :
    findEnt t minor partitioned < t.ents ↔ (minor, partitioned) ∈ t.pairs := by
  have hlt : findEnt t minor partitioned < t.ents ↔
      ∃ e ∈ t.args.toList.take t.ents, e.is minor partitioned = true := by
    rw [← findIdx_lt_length, length_take_args h, findEnt]
  rw [hlt, Table.pairs, mem_map]
  exact exists_congr fun e => and_congr_right fun _ => Entry.is_iff

lemma pairs_getElem?_findEnt (h : t.ents ≤ MAX_MD_DEVS)
    (hlt : findEnt t minor partitioned < t.ents) :
    t.pairs[findEnt t minor partitioned]? = some (minor, partitioned) := by
  have hlen : findEnt t minor partitioned < (t.args.toList.take t.ents).length := by
    rw [length_take_args h]
    exact hlt
  have his := findIdx_getElem (p := Entry.is minor partitioned) (w := hlen)
  rw [Table.pairs, getElem?_map, getElem?_eq_getElem hlen, Option.map_some]
  exact congrArg some (Entry.is_iff.1 his)

section
variable (h : t.ents ≤ MAX_MD_DEVS) (he : (e.minor, e.partitioned) = (minor, partitioned))
  (hlt : findEnt t minor partitioned < MAX_MD_DEVS)
include h he hlt

/-- **The pairs after a call**: a new one is behind the others. -/
theorem pairs_set : (Table.mk (t.grow (findEnt t minor partitioned)).ents
      (t.args.set (findEnt t minor partitioned) e hlt)).pairs =
      if (minor, partitioned) ∈ t.pairs then t.pairs else t.pairs ++ [(minor, partitioned)] := by
  have hle := findEnt_le minor partitioned h
  have hmem := findEnt_lt_iff minor partitioned h
  by_cases hold : (minor, partitioned) ∈ t.pairs
  · have hfound := hmem.2 hold
    have hsame := pairs_getElem?_findEnt h hfound
    rw [if_pos hold, Table.grow, if_neg (by omega), Table.pairs, Vector.toList_set, take_set,
      map_set, he]
    obtain ⟨hi, heq⟩ := List.getElem?_eq_some_iff.1 hsame
    exact (congrArg (t.pairs.set _) heq.symm).trans (set_getElem_self hi)
  · have hlast : findEnt t minor partitioned = t.ents := by
      by_contra hne
      exact hold (hmem.1 (by omega))
    rw [if_neg hold]
    simp only [hlast] at hlt ⊢
    rw [Table.grow, if_pos (le_refl _), Table.pairs, Vector.toList_set, take_add_one,
      take_set_of_le (le_refl _), getElem?_set_self (by simpa using hlt),
      Option.toList_some, map_append, map_singleton, he]
    rfl

lemma nodup_pairs_set : (Table.mk (t.grow (findEnt t minor partitioned)).ents
      (t.args.set (findEnt t minor partitioned) e hlt)).pairs.Nodup ↔ t.pairs.Nodup := by
  rw [pairs_set h he hlt]
  split_ifs with hold
  · rfl
  · rw [← concat_eq_append, nodup_concat]
    exact ⟨fun hn => hn.2, fun hn => ⟨hold, hn⟩⟩

end

lemma grow_ents_le (hent : findEnt t minor partitioned < MAX_MD_DEVS) (h : t.ents ≤ MAX_MD_DEVS) :
    (t.grow (findEnt t minor partitioned)).ents ≤ MAX_MD_DEVS := by
  unfold Table.grow
  split_ifs
  · change t.ents + 1 ≤ MAX_MD_DEVS
    omega
  · exact h

/-! ### What a call can do -/

def Admitted (bits : ℕ) (t : Table) (str : List UInt8) (minor : ℤ) (partitioned : Bool)
    (str1 : List UInt8) : Prop :=
  parseMinor bits str = some (some (minor, partitioned, str1)) ∧ minor < MAX_MD_DEVS ∧
    findEnt t minor partitioned < MAX_MD_DEVS

lemma parseMinor_unique {str str1 str1' : List UInt8} {minor' : ℤ} {partitioned' : Bool}
    (h : parseMinor bits str = some (some (minor, partitioned, str1)))
    (h' : parseMinor bits str = some (some (minor', partitioned', str1'))) :
    minor = minor' ∧ partitioned = partitioned' ∧ str1 = str1' := by
  simpa only [Option.some.injEq, Prod.mk.injEq] using h.symm.trans h'

/-- The three ways in which a call ends: before the table is touched, after it has grown, and with
an entry written. -/
inductive Outcome (bits : ℕ) (t : Table) (str : List UInt8) : Bool → Table → Prop
  | rejected (h : ∀ minor partitioned str1, ¬Admitted bits t str minor partitioned str1) :
      Outcome bits t str false t
  | cut {minor : ℤ} {partitioned : Bool} {str1 : List UInt8}
      (h : Admitted bits t str minor partitioned str1) (hlevel : parseLevel bits str1 = some none) :
      Outcome bits t str false (t.grow (findEnt t minor partitioned))
  | stored {minor : ℤ} {partitioned : Bool} {str1 : List UInt8}
      {found : ℤ × Option (Option ℤ) × List UInt8}
      (h : Admitted bits t str minor partitioned str1)
      (hlevel : parseLevel bits str1 = some (some found)) :
      Outcome bits t str true ⟨(t.grow (findEnt t minor partitioned)).ents,
        t.args.set (findEnt t minor partitioned)
          ((t.args.get ⟨_, h.2.2⟩).assign minor partitioned found) h.2.2⟩

lemma grow_args (t : Table) (ent : ℕ) : (t.grow ent).args = t.args := by
  unfold Table.grow
  split_ifs <;> rfl

/-- **A call always returns**, in one of these ways. -/
theorem mdSetup_outcome (bits : ℕ) (t : Table) (h : 0 ∈ str) :
    ∃ ret t', mdSetup bits t str = some (ret, t') ∧ Outcome bits t str ret t' := by
  obtain ⟨o, ho, hstr1⟩ := parseMinor_returns bits h
  cases o with
  | none =>
    refine ⟨false, t, by simp [mdSetup, ho], .rejected fun minor partitioned str1 hadm => ?_⟩
    simp [Admitted, ho] at hadm
  | some r =>
    obtain ⟨minor, partitioned, str1⟩ := r
    have hunique {minor' : ℤ} {partitioned' : Bool} {str1' : List UInt8}
        (hadm : Admitted bits t str minor' partitioned' str1') :
        minor < MAX_MD_DEVS ∧ findEnt t minor partitioned < MAX_MD_DEVS := by
      obtain ⟨rfl, rfl, -⟩ := parseMinor_unique ho hadm.1
      exact hadm.2
    by_cases hminor : minor < MAX_MD_DEVS
    · by_cases hent : findEnt t minor partitioned < MAX_MD_DEVS
      · have hadm : Admitted bits t str minor partitioned str1 := ⟨ho, hminor, hent⟩
        obtain ⟨o', hlevel⟩ := parseLevel_returns bits (hstr1 _ rfl)
        simp only at hlevel
        cases o' with
        | none =>
          exact ⟨_, _, by simp [mdSetup, ho, not_le.2 hminor, hent, hlevel], .cut hadm hlevel⟩
        | some found =>
          refine ⟨_, _, ?_, .stored hadm hlevel⟩
          simp [mdSetup, ho, ge_iff_le, if_neg (not_le.2 hminor), dif_pos hent, hlevel, grow_args]
      · exact ⟨_, _, by simp [mdSetup, ho, not_le.2 hminor, hent],
          .rejected fun _ _ _ hadm => hent (hunique hadm).2⟩
    · exact ⟨_, _, by simp [mdSetup, ho, not_lt.1 hminor],
        .rejected fun _ _ _ hadm => hminor (hunique hadm).1⟩

lemma Outcome.ents_le {ret : Bool} (h : Outcome bits t str ret t')
    (hle : t.ents ≤ MAX_MD_DEVS) : t'.ents ≤ MAX_MD_DEVS := by
  cases h with
  | rejected _ => exact hle
  | cut hadm _ => exact grow_ents_le hadm.2.2 hle
  | stored hadm _ => exact grow_ents_le hadm.2.2 hle

lemma zero_mem_append (str : List UInt8) : 0 ∈ str ++ [0] := by simp

/-- **The number of entries** is never too large. -/
theorem Reachable.ents_le (h : Reachable bits t) : t.ents ≤ MAX_MD_DEVS := by
  induction h with
  | init => exact Nat.zero_le _
  | @call t _ _ str _ hcall ih =>
    obtain ⟨ret, t', hcall', hout⟩ := mdSetup_outcome bits t (zero_mem_append str)
    rw [hcall, Option.some.injEq, Prod.mk.injEq] at hcall'
    rw [hcall'.2]
    exact hout.ents_le ih

/-! ### Atomicity -/

/-- Exactly the entry with this pair is replaced or added. -/
def Written (t t' : Table) (minor : ℤ) (partitioned : Bool) : Prop :=
  ∃ (ent : ℕ) (h : ent < MAX_MD_DEVS) (e : Entry), (e.minor, e.partitioned) = (minor, partitioned) ∧
    t'.args = t.args.set ent e h ∧ ((t.pairs[ent]? = some (minor, partitioned) ∧ t'.ents = t.ents) ∨
      (ent = t.ents ∧ (minor, partitioned) ∉ t.pairs ∧ t'.ents = t.ents + 1))

/-- A call returns 0 and changes nothing, or it returns 1 and writes the entry with the pair that
was parsed, into a table that is well formed after it. -/
def Atomic (bits : ℕ) (t : Table) (str : List UInt8) : Prop :=
  ∃ ret t', mdSetup bits t str = some (ret, t') ∧ (ret = false → t' = t) ∧
    (ret = true → ∃ minor partitioned str1,
      parseMinor bits str = some (some (minor, partitioned, str1)) ∧
      Written t t' minor partitioned ∧ 0 ≤ minor ∧ minor < MAX_MD_DEVS ∧ t'.pairs.Nodup ∧
      t'.ents ≤ MAX_MD_DEVS)

/-- An argument for a new entry that is rejected for its last options. -/
def CutShort (bits : ℕ) (t : Table) (str : List UInt8) : Prop :=
  ∃ minor partitioned str1, Admitted bits t str minor partitioned str1 ∧
    (minor, partitioned) ∉ t.pairs ∧ parseLevel bits str1 = some none

lemma atomic_iff_of_eq {ret : Bool} (hcall : mdSetup bits t str = some (ret, t')) :
    Atomic bits t str ↔ (ret = false → t' = t) ∧ (ret = true → ∃ minor partitioned str1,
      parseMinor bits str = some (some (minor, partitioned, str1)) ∧
      Written t t' minor partitioned ∧ 0 ≤ minor ∧ minor < MAX_MD_DEVS ∧ t'.pairs.Nodup ∧
      t'.ents ≤ MAX_MD_DEVS) := by
  refine ⟨?_, fun hspec => ⟨ret, t', hcall, hspec⟩⟩
  rintro ⟨ret', t'', hcall', hspec⟩
  rw [hcall, Option.some.injEq, Prod.mk.injEq] at hcall'
  rw [hcall'.1, hcall'.2]
  exact hspec

lemma written_stored (h : t.ents ≤ MAX_MD_DEVS)
    (he : (e.minor, e.partitioned) = (minor, partitioned))
    (hlt : findEnt t minor partitioned < MAX_MD_DEVS) :
    Written t ⟨(t.grow (findEnt t minor partitioned)).ents,
      t.args.set (findEnt t minor partitioned) e hlt⟩ minor partitioned := by
  have hle := findEnt_le minor partitioned h
  have hmem := findEnt_lt_iff minor partitioned h
  refine ⟨_, hlt, e, he, rfl, ?_⟩
  by_cases hold : findEnt t minor partitioned < t.ents
  · exact .inl ⟨pairs_getElem?_findEnt h hold, by simp [Table.grow, not_le.2 hold]⟩
  · exact .inr ⟨by omega, fun hin => hold (hmem.2 hin), by simp [Table.grow, not_lt.1 hold]⟩

lemma grow_eq_iff (h : t.ents ≤ MAX_MD_DEVS) :
    t.grow (findEnt t minor partitioned) = t ↔ (minor, partitioned) ∈ t.pairs := by
  rw [← findEnt_lt_iff minor partitioned h, Table.grow]
  split_ifs with hnew
  · refine ⟨fun heq => ?_, fun hlt => absurd hlt (not_lt.2 hnew)⟩
    have hents : t.ents + 1 = t.ents := congrArg Table.ents heq
    omega
  · exact ⟨fun _ => not_le.1 hnew, fun _ => rfl⟩

end

/-- **A call is atomic** iff it is not cut short and, if it writes an entry, the minor number is not
negative and the pairs were distinct before. -/
theorem md_setup_atomic_iff {bits : ℕ} {t : Table} (h : Reachable bits t) (str : List UInt8) :
    Atomic bits t (str ++ [0]) ↔ ¬CutShort bits t (str ++ [0]) ∧
      ∀ minor partitioned str1 found, Admitted bits t (str ++ [0]) minor partitioned str1 →
        parseLevel bits str1 = some (some found) → 0 ≤ minor ∧ t.pairs.Nodup := by
  have hle := h.ents_le
  obtain ⟨ret, t', hcall, hout⟩ := mdSetup_outcome bits t (zero_mem_append str)
  have hents := hout.ents_le hle
  rw [atomic_iff_of_eq hcall]
  cases hout with
  | rejected hno =>
    simp only [forall_const, Bool.false_eq_true, false_implies, and_true, true_iff]
    exact ⟨fun ⟨minor, partitioned, str1, hadm, _⟩ => hno _ _ _ hadm,
      fun minor partitioned str1 _ hadm => absurd hadm (hno _ _ _)⟩
  | @cut minor partitioned str1 hadm hlevel =>
    simp only [forall_const, Bool.false_eq_true, false_implies, and_true, grow_eq_iff hle]
    constructor
    · intro hold
      refine ⟨fun ⟨minor', partitioned', str1', hadm', hnew, _⟩ => ?_,
        fun minor' partitioned' str1' found hadm' hlevel' => ?_⟩
      · obtain ⟨rfl, rfl, -⟩ := parseMinor_unique hadm.1 hadm'.1
        exact hnew hold
      · obtain ⟨-, -, rfl⟩ := parseMinor_unique hadm.1 hadm'.1
        exact absurd (hlevel.symm.trans hlevel') (by simp)
    · rintro ⟨hcut, -⟩
      by_contra hnew
      exact hcut ⟨minor, partitioned, str1, hadm, hnew, hlevel⟩
  | @stored minor partitioned str1 found hadm hlevel =>
    have hassign := assign_pair (t.args.get ⟨_, hadm.2.2⟩) minor partitioned found
    simp only [Bool.true_eq_false, false_implies, true_and, forall_const,
      nodup_pairs_set hle hassign hadm.2.2]
    constructor
    · rintro ⟨minor', partitioned', str1', hparse, -, hminor, -, hnodup, -⟩
      refine ⟨fun ⟨minor'', partitioned'', str1'', hadm'', _, hcut⟩ => ?_,
        fun minor'' partitioned'' str1'' _ hadm'' _ => ?_⟩
      · obtain ⟨-, -, rfl⟩ := parseMinor_unique hadm.1 hadm''.1
        exact absurd (hlevel.symm.trans hcut) (by simp)
      · obtain ⟨rfl, -, -⟩ := parseMinor_unique hparse hadm''.1
        exact ⟨hminor, hnodup⟩
    · rintro ⟨-, hall⟩
      obtain ⟨hminor, hnodup⟩ := hall _ _ _ _ hadm hlevel
      exact ⟨minor, partitioned, str1, hadm.1, written_stored hle hassign hadm.2.2, hminor,
        hadm.2.1, hnodup, hents⟩

/-- `md=0,0,` on an empty table is rejected and adds an entry, and `md=-1,x` is accepted. -/
theorem md_setup_not_atomic :
    ((mdSetup 64 Table.empty ("0,0,".toList.map chr ++ [0])).map fun r => (r.1, r.2.ents)) =
      some (false, 1) ∧
    ¬Atomic 64 Table.empty ("0,0,".toList.map chr ++ [0]) ∧
    ((mdSetup 64 Table.empty ("-1,x".toList.map chr ++ [0])).map fun r => (r.1, r.2.pairs)) =
      some (true, [(-1, false)]) ∧
    ¬Atomic 64 Table.empty ("-1,x".toList.map chr ++ [0]) := by
  have hzero : (mdSetup 64 Table.empty ("0,0,".toList.map chr ++ [0])).map
      (fun r => (r.1, r.2.ents)) = some (false, 1) := by decide +kernel
  have hneg : (mdSetup 64 Table.empty ("-1,x".toList.map chr ++ [0])).map
      (fun r => (r.1, r.2.pairs)) = some (true, [(-1, false)]) := by decide +kernel
  have hminor : (parseMinor 64 ("-1,x".toList.map chr ++ [0])).map
      (fun o => o.map fun r => r.1) = some (some (-1)) := by decide +kernel
  refine ⟨hzero, ?_, hneg, ?_⟩
  · rintro ⟨ret, t', hcall, hsame, -⟩
    rw [hcall, Option.map_some, Option.some.injEq, Prod.mk.injEq] at hzero
    rw [hsame hzero.1] at hzero
    have hents : (0 : ℕ) = 1 := hzero.2
    omega
  · rintro ⟨ret, t', hcall, -, hspec⟩
    rw [hcall, Option.map_some, Option.some.injEq, Prod.mk.injEq] at hneg
    obtain ⟨minor, partitioned, str1, hparse, -, hge, -⟩ := hspec hneg.1
    rw [hparse, Option.map_some, Option.map_some, Option.some.injEq, Option.some.injEq] at hminor
    simp only at hminor
    omega

/-- `md=1,x` behind `md=0,x`. -/
theorem md_setup_atomic_second :
    ∃ t, mdSetup 64 Table.empty ("0,x".toList.map chr ++ [0]) = some (true, t) ∧
      t.pairs = [(0, false)] ∧ Atomic 64 t ("1,x".toList.map chr ++ [0]) := by
  have hfirst : (mdSetup 64 Table.empty ("0,x".toList.map chr ++ [0])).map
      (fun r => (r.1, r.2.pairs)) = some (true, [(0, false)]) := by decide +kernel
  have hparse : parseMinor 64 ("1,x".toList.map chr ++ [0]) =
      some (some (1, false, [chr 'x', 0])) := by decide +kernel
  have hlevel : parseLevel 64 [chr 'x', 0] = some (some (LEVEL_NONE, none, [chr 'x', 0])) := by
    decide +kernel
  obtain ⟨⟨ret, t⟩, hcall, heq⟩ := Option.map_eq_some_iff.1 hfirst
  obtain ⟨rfl, hpairs⟩ := Prod.mk.inj heq
  refine ⟨t, hcall, hpairs, (md_setup_atomic_iff (.call _ .init hcall) _).2 ⟨?_, ?_⟩⟩
  · rintro ⟨minor, partitioned, str1, hadm, -, hcut⟩
    obtain ⟨-, -, rfl⟩ := parseMinor_unique hparse hadm.1
    exact absurd (hlevel.symm.trans hcut) (by simp)
  · intro minor partitioned str1 found hadm _
    obtain ⟨rfl, -, -⟩ := parseMinor_unique hparse hadm.1
    exact ⟨by decide, hpairs ▸ nodup_singleton _⟩

end Klibc.Md.Setup
