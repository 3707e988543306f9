import Klibc.Stdio.Vsnprintf

/-! # `fnmatch`

The pattern and the string are given as the memory from `p` and from `s` on; there is no result if
something behind it is read. A call looks at one character `c = *s` of the string (`attempt`); it
goes on with the rest of it by `next`, and with the same character only behind a `*`. -/

namespace Klibc.Wildcard.Fnmatch

open Lib.Machine
open Stdio.Vsnprintf (chr)

def fnmPathname : BitVec 32 := 1
def fnmNoescape : BitVec 32 := 2
def fnmPeriod : BitVec 32 := 4

/-- The bits of `flags` that are looked at. -/
structure Flags where
  pathname : Bool
  noescape : Bool
  period : Bool
  deriving DecidableEq

def Flags.of (flags : BitVec 32) : Flags :=
  ⟨flags &&& fnmPathname ≠ 0, flags &&& fnmNoescape ≠ 0, flags &&& fnmPeriod ≠ 0⟩

/-- `flags &= ~FNM_PERIOD;` -/
def Flags.clearPeriod (flags : Flags) : Flags := { flags with period := false }

/-- `while ((*p != '\0') && (*p != ']')) p++;` and what is behind the `]`, if there is one. -/
def closing : List UInt8 → Option (Option (List UInt8))
  | [] => none
  | a :: p => if a = 0 then some none else if a = chr ']' then some (some p) else closing p

def bracket (charSigned not : Bool) (c : UInt8) : List UInt8 → Option (Option (List UInt8))
  | [] => none
  | a :: p =>
    if a = 0 ∨ a = chr ']' then some none
    else
      match p with
      | [] => none
      | b :: p =>
        if b = chr '-' then
          match p with
          | [] => none
          | d :: p =>
            let hit := decide (charInt charSigned a ≤ charInt charSigned c ∧
              charInt charSigned c ≤ charInt charSigned d)
            if hit ^^ not then closing p else bracket charSigned not c p
        else if decide (a = c) ^^ not then closing (b :: p)
        else bracket charSigned not c (b :: p)

/-- `case '[':` for `p` behind it, where `next p` is `fnmatch(p, s + 1, flags)`. -/
def caseBracket (charSigned : Bool) (next : List UInt8 → Option ℤ) (c : UInt8)
    (p : List UInt8) : Option ℤ := do
  let b ← p.head?
  match ← bracket charSigned (b = chr '!') c (if b = chr '!' then p.tail else p) with
  | some p => next p
  | none => some 1

/-- `while (*p == '*') p++;` and the character behind. -/
def behindStars : List UInt8 → Option UInt8
  | [] => none
  | a :: p => if a = chr '*' then behindStars p else some a

/-- The value of `x || y`, if `x` is false. -/
def truth (r : ℤ) : ℤ := if r ≠ 0 then 1 else 0

/-- `fnmatch(p, s, flags)` with `c = *s`, where `next p flags` is `fnmatch(p, s + 1, flags)`. -/
def attempt (charSigned : Bool) (next : List UInt8 → Flags → Option ℤ) (c : UInt8) :
    List UInt8 → Flags → Option ℤ
  | [], _ => none
  | a :: p, flags =>
    if flags.pathname ∧ c = chr '/' then
      if a ≠ chr '/' then some 1 else (next p flags).map truth
    else if flags.period ∧ c = chr '.' then
      if a ≠ chr '.' then some 1 else (next p flags).map truth
    else
      let flags := flags.clearPeriod
      if ¬flags.noescape ∧ a = chr '\\' then do
        let b ← p.head?
        if b ≠ c then some 1 else (next p.tail flags).map truth
      else if c = 0 then do
        let b ← behindStars (a :: p)
        some (if b ≠ 0 then 1 else 0)
      else if a = chr '[' then caseBracket charSigned (next · flags) c p
      else if a = chr '*' then do
        let r ← next (a :: p) flags
        if r ≠ 0 then attempt charSigned next c p flags else some 0
      else if a = 0 then some 1
      else if a = c ∨ a = chr '?' then next p flags
      else some 1

/-- `fnmatch(p, s, flags)`, from the string. -/
def fnmatchAt (charSigned : Bool) : List UInt8 → List UInt8 → Flags → Option ℤ
  | [] => fun _ _ => none
  | c :: s => attempt charSigned (fnmatchAt charSigned s) c

/-- `fnmatch(p, s, flags)`. -/
def fnmatch (charSigned : Bool) (p s : List UInt8) (flags : BitVec 32) : Option ℤ :=
  fnmatchAt charSigned s p (Flags.of flags)

/-! ### The cases of a call -/

def Flagged (flags : Flags) (c : UInt8) : Prop :=
  flags.pathname = true ∧ c = chr '/' ∨ flags.period = true ∧ c = chr '.'

def Escape (flags : Flags) (a : UInt8) : Prop := flags.noescape = false ∧ a = chr '\\'

section
variable {charSigned : Bool} {next : List UInt8 → Flags → Option ℤ} {a b c : UInt8}
  {p : List UInt8} {flags : Flags}

lemma not_flagged_zero : ¬Flagged flags 0 := by simp [Flagged, chr]

@[simp] lemma clearPeriod_pathname : flags.clearPeriod.pathname = flags.pathname := rfl
@[simp] lemma clearPeriod_noescape : flags.clearPeriod.noescape = flags.noescape := rfl
@[simp] lemma clearPeriod_period : flags.clearPeriod.period = false := rfl

lemma clearPeriod_of_period (h : flags.period = false) : flags.clearPeriod = flags := by
  cases flags
  simp_all [Flags.clearPeriod]

lemma flagged_clearPeriod : Flagged flags.clearPeriod c ↔ flags.pathname = true ∧ c = chr '/' := by
  simp [Flagged]

lemma attempt_nil : attempt charSigned next c [] flags = none := rfl

lemma attempt_flagged (h : Flagged flags c) : attempt charSigned next c (a :: p) flags =
      if a ≠ c then some 1 else (next p flags).map truth := by
  rw [attempt]
  by_cases hp : flags.pathname = true ∧ c = chr '/'
  · rw [if_pos hp, hp.2]
  · have hd := h.resolve_left hp
    rw [if_neg hp, if_pos hd, hd.2]

lemma attempt_unflagged (h : ¬Flagged flags c) : attempt charSigned next c (a :: p) flags =
      attempt charSigned next c (a :: p) flags.clearPeriod := by
  have hp : ¬(flags.pathname = true ∧ c = chr '/') := fun hp => h (.inl hp)
  have hd : ¬(flags.period = true ∧ c = chr '.') := fun hd => h (.inr hd)
  have hd' : ¬(flags.clearPeriod.period = true ∧ c = chr '.') := by simp
  rw [attempt, attempt, if_neg hp, if_neg hd, clearPeriod_pathname, if_neg hp, if_neg hd']
  rfl

end

section
variable {charSigned : Bool} {next : List UInt8 → Flags → Option ℤ} {a b c : UInt8}
  {p : List UInt8} {flags : Flags} (h : ¬Flagged flags c)
include h

lemma attempt_escape (he : Escape flags a) : attempt charSigned next c (a :: b :: p) flags =
      if b ≠ c then some 1 else (next p flags.clearPeriod).map truth := by
  have hp : ¬(flags.pathname = true ∧ c = chr '/') := fun hp => h (.inl hp)
  have hd : ¬(flags.period = true ∧ c = chr '.') := fun hd => h (.inr hd)
  rw [attempt, if_neg hp, if_neg hd]
  simp [he.1, he.2]

lemma attempt_ordinary (he : ¬Escape flags a) : attempt charSigned next c (a :: p) flags =
      if c = 0 then (behindStars (a :: p)).map fun b => if b ≠ 0 then 1 else 0
      else if a = chr '[' then caseBracket charSigned (next · flags.clearPeriod) c p
      else if a = chr '*' then do
        let r ← next (a :: p) flags.clearPeriod
        if r ≠ 0 then attempt charSigned next c p flags.clearPeriod else some 0
      else if a = 0 then some 1
      else if a = c ∨ a = chr '?' then next p flags.clearPeriod
      else some 1 := by
  have hp : ¬(flags.pathname = true ∧ c = chr '/') := fun hp => h (.inl hp)
  have hd : ¬(flags.period = true ∧ c = chr '.') := fun hd => h (.inr hd)
  have he' : ¬(¬flags.clearPeriod.noescape = true ∧ a = chr '\\') := by simpa [Escape] using he
  rw [attempt, if_neg hp, if_neg hd]
  simp only [if_neg he']
  rw [Option.map_eq_bind]
  rfl

end

end Klibc.Wildcard.Fnmatch
