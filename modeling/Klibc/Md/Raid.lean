import Klibc.Env.Entries
import Klibc.Stdio.Vsnprintf

/-! # The argument `raid=`

`raid_setup` goes through the components of its argument between commas, but it always compares the
start of the whole argument, as many characters as the component has. So what a component has to do
with a flag is its length alone: the flag is set iff the argument up to that length is the start of
the flag's name. A component after the first is never recognised as such, and an empty one sets both
flags. In effect only the shortest component matters.

Positions and lengths are `int`s. An argument whose length plus one is not an `int` makes `len`
negative, or smaller than the argument. -/

namespace Klibc.Md.Raid

open Lib.Machine Lib.Total List
open Env.Environ (CString strncmp)
open Env.Entries (strncmp_eq_zero)
open Stdio.Vsnprintf (chr)

/-! ### The code -/

/-- `raid_noautodetect` and `raid_autopart`. -/
structure Flags where
  noautodetect : Bool
  autopart : Bool
  deriving DecidableEq

def noautodetectName : List UInt8 := "noautodetect".toList.map chr

def partitionableName : List UInt8 := "partitionable".toList.map chr

def partName : List UInt8 := "part".toList.map chr

def Flags.compare (str : List UInt8) (wlen : ℕ) (f : Flags) : Flags where
  noautodetect := f.noautodetect || strncmp str noautodetectName wlen == 0
  autopart := f.autopart || strncmp str partitionableName wlen == 0 ||
    strncmp str partName wlen == 0

/-- `wlen` for the component at `pos`. -/
def wordLength (str : List UInt8) (len pos : ℤ) : ℤ :=
  match (str.drop pos.toNat).idxOf? (chr ',') with
  | some comma => wrap 32 comma
  | none => wrap 32 (wrap 32 (len - 1) - pos)

/-- A turn of the loop. `strchr` must not begin outside of the argument; `strncmp` takes `wlen` as a
`size_t`. -/
def turn (str : List UInt8) (len pos : ℤ) : StateT Flags Option (ℤ ⊕ Unit) := do
  if pos < len then
    if pos < 0 ∨ str.length < pos then failure
    let wlen := wordLength str len pos
    modify (Flags.compare str (unsigned 64 wlen))
    return .inl (wrap 32 (pos + wrap 32 (wlen + 1)))
  else return .inr ()

/-- The flags after the call, which always returns 1. -/
def raidSetup (str : CString) (f : Flags) : Option Flags :=
  (Loop.run ⟨turn str.bytes (wrap 32 (str.bytes.length + 1))⟩ 0 f).map Prod.snd

/-! ### Components -/

def components (str : List UInt8) : List (List UInt8) := str.splitOn (chr ',')

lemma components_of_comma {str : List UInt8} {pos i : ℕ}
    (h : (str.drop pos).idxOf? (chr ',') = some i) :
    pos + i < str.length ∧ components (str.drop pos) =
      (str.drop pos).take i :: components (str.drop (pos + i + 1)) := by
  obtain ⟨hlt, hcomma, hfront⟩ := findIdx?_eq_some_iff_getElem.1 h
  have hcut : (str.drop pos).take i ++ chr ',' :: (str.drop pos).drop (i + 1) = str.drop pos := by
    rw [← eq_of_beq hcomma, ← drop_eq_getElem_cons hlt, take_append_drop]
  have hnone : ∀ c ∈ (str.drop pos).take i, (c == chr ',') = false := by
    intro c hc
    obtain ⟨j, hj, rfl⟩ := mem_iff_getElem.1 hc
    rw [length_take] at hj
    rw [getElem_take]
    simpa using hfront j (by omega)
  have hsplit : components ((str.drop pos).take i ++ chr ',' :: (str.drop pos).drop (i + 1)) =
      (str.drop pos).take i :: components ((str.drop pos).drop (i + 1)) :=
    splitOnP_append_cons_of_forall_mem hnone _ (by simp) _
  rw [hcut, drop_drop, ← Nat.add_assoc] at hsplit
  rw [length_drop] at hlt
  exact ⟨by omega, hsplit⟩

section
variable {str : List UInt8} {pos : ℕ} (hlen : str.length + 1 < 2 ^ 31)
include hlen

lemma returns_turn {i : ℕ} (hpos : pos + i ≤ str.length)
    (hword : wordLength str (str.length + 1) pos = i) {f : Flags} {Q : ℤ ⊕ Unit → Flags → Prop} :
    Returns (turn str (str.length + 1) pos) f Q ↔
      Q (.inl ((pos + i + 1 : ℕ) : ℤ)) (f.compare str i) := by
  have hsize : unsigned 64 (i : ℤ) = i := unsigned_eq (by omega)
  have hnext : wrap 32 (pos + wrap 32 ((i : ℤ) + 1)) = (pos + i + 1 : ℕ) := by
    rw [wrap_eq (x := (i : ℤ) + 1) (by decide) (by omega) (by omega),
      wrap_eq (by decide) (by omega) (by omega)]
    push_cast
    ring
  rw [turn, if_pos (by omega), if_neg (by omega), hword]
  simp only [returns_bind, returns_modify, returns_pure, hsize, hnext]

/-- **The loop** compares once for each component. -/
theorem returns_loop_turn (h : pos ≤ str.length) (f : Flags) :
    Returns (Loop.run ⟨turn str (str.length + 1)⟩ pos) f fun _ f' =>
      f' = (components (str.drop pos)).foldl (fun f c => f.compare str c.length) f := by
  -- The induction is on what is left behind the position.
  induction hleft : str.length - pos using Nat.strong_induction_on generalizing pos f with
  | _ left ih =>
    rw [returns_loop]
    cases hidx : (str.drop pos).idxOf? (chr ',') with
    | none =>
      have hnone : chr ',' ∉ str.drop pos := by simpa using hidx
      have hword : wordLength str (str.length + 1) pos = (str.length - pos : ℕ) := by
        simp only [wordLength, Int.toNat_natCast, hidx, add_sub_cancel_right]
        rw [wrap_eq (x := (str.length : ℤ)) (by decide) (by omega) (by omega),
          wrap_eq (by decide) (by omega) (by omega)]
        omega
      have hlast : components (str.drop pos) = [str.drop pos] := splitOn_eq_singleton hnone
      rw [returns_turn hlen (by omega) hword, hlast, Sum.elim_inl, returns_loop, turn,
        if_neg (by omega)]
      simp
    | some i =>
      obtain ⟨hlt, hcomponents⟩ := components_of_comma hidx
      have hword : wordLength str (str.length + 1) pos = i := by
        simp only [wordLength, Int.toNat_natCast, hidx]
        exact wrap_eq (by decide) (by omega) (by omega)
      have hlength : ((str.drop pos).take i).length = i := by
        rw [length_take, length_drop]
        omega
      rw [returns_turn hlen hlt.le hword, hcomponents, foldl_cons, hlength]
      exact ih (str.length - (pos + i + 1)) (by omega) (by omega) _ rfl

end

/-! ### The flags -/

section
variable (str : CString) (hlen : str.bytes.length + 1 < 2 ^ 31)

include hlen in
lemma raidSetup_eq (f : Flags) : raidSetup str f =
    some ((components str.bytes).foldl (fun f c => f.compare str.bytes c.length) f) := by
  have hint : wrap 32 ((str.bytes.length : ℤ) + 1) = str.bytes.length + 1 :=
    wrap_eq (by decide) (by omega) (by omega)
  obtain ⟨u, f', he, hf⟩ := returns_loop_turn hlen (Nat.zero_le _) f
  rw [raidSetup, hint, ← Int.natCast_zero, he, hf]
  rfl

/-- The length of the shortest component. -/
def shortest (str : CString) : ℕ := ((components str.bytes).map List.length).min?.getD 0

/-- The argument begins like a name, as far as the shortest component is long. -/
def BeginsLike (str : CString) (name : List UInt8) : Prop :=
  str.bytes.take (shortest str) = name.take (shortest str)

instance (str : CString) (name : List UInt8) : Decidable (BeginsLike str name) :=
  inferInstanceAs (Decidable (_ = _))

lemma foldl_compare (str : List UInt8) (cs : List (List UInt8)) (f : Flags) :
    cs.foldl (fun f c => f.compare str c.length) f =
      ⟨f.noautodetect || cs.any fun c => strncmp str noautodetectName c.length == 0,
        f.autopart || ((cs.any fun c => strncmp str partitionableName c.length == 0) ||
          cs.any fun c => strncmp str partName c.length == 0)⟩ := by
  induction cs generalizing f with
  | nil => simp
  | cons c cs ih =>
    rw [foldl_cons, ih]
    simp [Flags.compare, Bool.or_assoc, Bool.or_left_comm]

/-- **The shortest component decides**: what is compared for a longer one is longer. -/
theorem any_strncmp_iff {name : List UInt8} (hname : 0 ∉ name) :
    (∃ c ∈ components str.bytes, strncmp str.bytes name c.length = 0) ↔ BeginsLike str name := by
  have hne : (components str.bytes).map List.length ≠ [] := by simp [components]
  obtain ⟨m, hm⟩ := Option.isSome_iff_exists.1 (isSome_min?_of_ne_nil hne)
  have hshortest : shortest str = m := by rw [shortest, hm, Option.getD_some]
  obtain ⟨hmem, hmin⟩ := min?_eq_some_iff.1 hm
  simp only [strncmp_eq_zero _ str.nulFree hname, BeginsLike, hshortest]
  constructor
  · rintro ⟨c, hc, htake⟩
    have hle : m ≤ c.length := hmin _ (mem_map_of_mem hc)
    have hcut := congrArg (List.take m) htake
    rwa [take_take, take_take, min_eq_left hle] at hcut
  · intro htake
    obtain ⟨c, hc, rfl⟩ := mem_map.1 hmem
    exact ⟨c, hc, htake⟩

end

/-- The call returns; a flag is set iff a component is its name, or one of its names, and otherwise
keeps its value. -/
def Correct (str : CString) (f : Flags) : Prop :=
  ∃ f', raidSetup str f = some f' ∧
    (f'.noautodetect = true ↔ f.noautodetect = true ∨ noautodetectName ∈ components str.bytes) ∧
    (f'.autopart = true ↔ f.autopart = true ∨
      partitionableName ∈ components str.bytes ∨ partName ∈ components str.bytes)

/-- **The flags are right** iff each was set already, or the argument begins like one of its names,
as far as the shortest component is long, exactly if a component is one of its names. -/
theorem raid_setup_correct_iff (str : CString) (hlen : str.bytes.length + 1 < 2 ^ 31) (f : Flags) :
    Correct str f ↔
      (f.noautodetect = true ∨
        (BeginsLike str noautodetectName ↔ noautodetectName ∈ components str.bytes)) ∧
      (f.autopart = true ∨ (BeginsLike str partitionableName ∨ BeginsLike str partName ↔
        partitionableName ∈ components str.bytes ∨ partName ∈ components str.bytes)) := by
  simp only [Correct, raidSetup_eq str hlen, foldl_compare, Option.some.injEq, exists_eq_left',
    Bool.or_eq_true, any_eq_true, beq_iff_eq,
    any_strncmp_iff str (show 0 ∉ noautodetectName by decide),
    any_strncmp_iff str (show 0 ∉ partitionableName by decide),
    any_strncmp_iff str (show 0 ∉ partName by decide)]
  refine and_congr ?_ ?_
  · cases f.noautodetect <;> simp
  · cases f.autopart <;> simp

theorem raid_setup_correct_iff_part :
    Correct ⟨"part,partitionable".toList.map chr, by decide⟩ ⟨false, false⟩ :=
  (raid_setup_correct_iff _ (by decide) _).2 (by decide +kernel)

/-- `raid=part,noautodetect` does not set `raid_noautodetect`, and an empty argument sets both
flags. -/
theorem raid_setup_wrong :
    raidSetup ⟨"part,noautodetect".toList.map chr, by decide⟩ ⟨false, false⟩ =
        some ⟨false, true⟩ ∧
      ¬Correct ⟨"part,noautodetect".toList.map chr, by decide⟩ ⟨false, false⟩ ∧
      raidSetup ⟨[], by decide⟩ ⟨false, false⟩ = some ⟨true, true⟩ ∧
      ¬Correct ⟨[], by decide⟩ ⟨false, false⟩ := by
  simp only [Correct, raidSetup_eq ⟨"part,noautodetect".toList.map chr, by decide⟩ (by decide),
    raidSetup_eq ⟨[], by decide⟩ (by decide), Option.some.injEq, exists_eq_left']
  decide +kernel

end Klibc.Md.Raid
