import Klibc.Lib.Glob
import Klibc.Wildcard.Fnmatch

/-! # The language of a pattern

A pattern without brackets is a sequence of elements (`elems`). `accepts` reads the string against
them as the calls of `fnmatch` do, and without `FNM_PATHNAME` this is the language of the
wildcards. -/

namespace Klibc.Wildcard.Language

open Lib.Glob Fnmatch List
open Stdio.Vsnprintf (chr)

/-! ### Elements -/

/-- An element of a pattern without brackets: a wildcard, a character that stands for itself, or
one behind a backslash. -/
inductive Elem
  | star
  | any
  | plain (c : UInt8)
  | quoted (c : UInt8)
  deriving DecidableEq

def Elem.of (a : UInt8) : Elem :=
  if a = chr '*' then .star else if a = chr '?' then .any else .plain a

def Elem.tok : Elem → Tok UInt8
  | .star => .star
  | .any => .any
  | .plain c => .lit c
  | .quoted c => .lit c

def elems (noescape : Bool) : List UInt8 → Option (List Elem)
  | [] => some []
  | [a] => if noescape = false ∧ a = chr '\\' then none else some [Elem.of a]
  | a :: b :: p =>
    if noescape = false ∧ a = chr '\\' then (elems noescape p).map (Elem.quoted b :: ·)
    else (elems noescape (b :: p)).map (Elem.of a :: ·)

def InLanguage (noescape : Bool) (p w : List UInt8) : Prop :=
  ∃ es, elems noescape p = some es ∧ Matches (es.map Elem.tok) w

/-- The elements read against a string that starts with `c`; `next` reads against the rest. -/
def acceptsAt (pathname : Bool) (next : List Elem → Bool) (c : UInt8) : List Elem → Bool
  | [] => false
  | e :: es =>
    if pathname = true ∧ c = chr '/' then decide (e = .plain c) && next es
    else
      match e with
      | .star => next (e :: es) || acceptsAt pathname next c es
      | .any => next es
      | .plain a => decide (a = c) && next es
      | .quoted a => decide (a = c) && next es

/-- The elements read against the string; with `pathname` a slash is read by itself only. -/
def accepts (pathname : Bool) : List UInt8 → List Elem → Bool
  | [] => fun es => es.all (· = .star)
  | c :: w => acceptsAt pathname (accepts pathname w) c

section
variable {noescape : Bool} {a : UInt8} {p : List UInt8} {es : List Elem}

lemma elems_escape_nil (h : noescape = false ∧ a = chr '\\') : elems noescape [a] = none := by
  rw [elems, if_pos h]

lemma elems_escape {b : UInt8} (h : noescape = false ∧ a = chr '\\') :
    elems noescape (a :: b :: p) = (elems noescape p).map (Elem.quoted b :: ·) := by
  rw [elems, if_pos h]

lemma elems_ordinary (h : ¬(noescape = false ∧ a = chr '\\')) :
    elems noescape (a :: p) = (elems noescape p).map (Elem.of a :: ·) := by
  cases p with
  | nil => simp [elems, h]
  | cons b p => rw [elems, if_neg h]

lemma of_star : Elem.of (chr '*') = .star := by rw [Elem.of, if_pos rfl]

lemma tok_eq_star {e : Elem} : e.tok = .star ↔ e = .star := by cases e <;> simp [Elem.tok]

lemma of_any : Elem.of (chr '?') = .any := by rw [Elem.of, if_neg (by simp [chr]), if_pos rfl]

lemma of_plain (hs : a ≠ chr '*') (hq : a ≠ chr '?') : Elem.of a = .plain a := by
  rw [Elem.of, if_neg hs, if_neg hq]

lemma of_eq_slash : Elem.of a = .plain (chr '/') ↔ a = chr '/' := by
  constructor
  · intro h
    by_cases hs : a = chr '*'
    · rw [hs, of_star] at h; cases h
    by_cases hq : a = chr '?'
    · rw [hq, of_any] at h; cases h
    rw [of_plain hs hq] at h
    exact Elem.plain.inj h
  · rintro rfl
    exact of_plain (by simp [chr]) (by simp [chr])

lemma of_ne_star (h : a ≠ chr '*') : Elem.of a ≠ .star := by
  rw [Elem.of, if_neg h]
  split <;> simp

lemma elems_cons_cases (h : elems noescape (a :: p) = some es) : (noescape = false ∧ a = chr '\\' ∧
      ∃ b p' es', p = b :: p' ∧ elems noescape p' = some es' ∧ es = .quoted b :: es') ∨
    (¬(noescape = false ∧ a = chr '\\') ∧
      ∃ es', elems noescape p = some es' ∧ es = Elem.of a :: es') := by
  by_cases he : noescape = false ∧ a = chr '\\'
  · cases p with
    | nil => rw [elems_escape_nil he] at h; cases h
    | cons b p' =>
      rw [elems_escape he, Option.map_eq_some_iff] at h
      obtain ⟨es', h', rfl⟩ := h
      exact .inl ⟨he.1, he.2, b, p', es', rfl, h', rfl⟩
  · rw [elems_ordinary he, Option.map_eq_some_iff] at h
    obtain ⟨es', h', rfl⟩ := h
    exact .inr ⟨he, es', h', rfl⟩

end

section
variable {pathname : Bool} {next : List Elem → Bool} {c : UInt8} {e : Elem} {es : List Elem}
  {w : List UInt8}

lemma acceptsAt_nil : acceptsAt pathname next c [] = false := rfl

lemma acceptsAt_slash (h : pathname = true ∧ c = chr '/') :
    acceptsAt pathname next c (e :: es) = (decide (e = .plain c) && next es) := by
  rw [acceptsAt.eq_def]
  exact if_pos h

lemma acceptsAt_star (h : ¬(pathname = true ∧ c = chr '/')) :
    acceptsAt pathname next c (.star :: es) =
      (next (.star :: es) || acceptsAt pathname next c es) := by
  rw [acceptsAt, if_neg h]

lemma acceptsAt_any (h : ¬(pathname = true ∧ c = chr '/')) :
    acceptsAt pathname next c (.any :: es) = next es := by
  rw [acceptsAt, if_neg h]

lemma acceptsAt_plain {a : UInt8} (h : ¬(pathname = true ∧ c = chr '/')) :
    acceptsAt pathname next c (.plain a :: es) = (decide (a = c) && next es) := by
  rw [acceptsAt, if_neg h]

lemma acceptsAt_quoted {a : UInt8} (h : ¬(pathname = true ∧ c = chr '/')) :
    acceptsAt pathname next c (.quoted a :: es) = (decide (a = c) && next es) := by
  rw [acceptsAt, if_neg h]

end

/-! ### What `fnmatch` does on the elements -/

/-- The text of a pattern, up to its NUL, without a bracket. -/
structure BracketFree (p : List UInt8) : Prop where
  nul : 0 ∉ p
  bracket : chr '[' ∉ p

lemma BracketFree.of_cons {a : UInt8} {p : List UInt8} (h : BracketFree (a :: p)) :
    a ≠ 0 ∧ a ≠ chr '[' ∧ BracketFree p := by
  obtain ⟨h0, hb⟩ := h
  rw [mem_cons, not_or] at h0 hb
  exact ⟨Ne.symm h0.1, Ne.symm hb.1, h0.2, hb.2⟩

def verdict (b : Bool) : ℤ := if b then 0 else 1

@[simp] lemma truth_verdict (b : Bool) : truth (verdict b) = verdict b := by cases b <;> rfl

lemma verdict_eq_zero {b : Bool} : verdict b = 0 ↔ b = true := by cases b <;> simp [verdict]

lemma behindStars_elems {noescape : Bool} {p : List UInt8} :
    ∀ {es : List Elem}, BracketFree p → elems noescape p = some es →
      ∃ b, behindStars (p ++ [0]) = some b ∧ (b = 0 ↔ ∀ e ∈ es, e = .star) := by
  induction p with
  | nil =>
    intro es _ h
    cases h
    exact ⟨0, rfl, by simp⟩
  | cons a p ih =>
    intro es hp h
    obtain ⟨ha, -, hp'⟩ := hp.of_cons
    rw [cons_append, behindStars]
    by_cases hstar : a = chr '*'
    · subst hstar
      have he : ¬(noescape = false ∧ chr '*' = chr '\\') := by simp [chr]
      rw [elems_ordinary he, Option.map_eq_some_iff] at h
      obtain ⟨es', h', rfl⟩ := h
      obtain ⟨b, hb, hes⟩ := ih hp' h'
      exact ⟨b, by rw [if_pos rfl, hb], by simp [hes, of_star]⟩
    · refine ⟨a, by rw [if_neg hstar], iff_of_false ha fun hall => ?_⟩
      obtain ⟨-, -, b, p', es', -, -, rfl⟩ | ⟨-, es', -, rfl⟩ := elems_cons_cases h
      · simpa using hall _ mem_cons_self
      · exact of_ne_star hstar (hall _ mem_cons_self)

section
variable {charSigned : Bool} {flags : Flags} {next : List UInt8 → Flags → Option ℤ}
  {anext : List Elem → Bool} {c : UInt8} {p : List UInt8} {es : List Elem}

lemma attempt_zero_elems (hp : BracketFree p) (hes : elems flags.noescape p = some es) :
    attempt charSigned next 0 (p ++ [0]) flags = some (verdict (es.all (· = .star))) := by
  obtain ⟨b, hb, hstars⟩ := behindStars_elems hp hes
  have hend : (behindStars (p ++ [0])).map (fun b => if b ≠ 0 then (1 : ℤ) else 0) =
      some (verdict (es.all (· = .star))) := by
    rw [hb, verdict]
    by_cases h0 : b = 0
    · simpa [h0] using hstars.1 h0
    · have hne := fun hall => h0 (hstars.2 hall)
      simpa [h0] using hne
  cases p with
  | nil =>
    have he : ¬Escape flags 0 := by simp [Escape, chr]
    rw [nil_append, attempt_ordinary not_flagged_zero he, if_pos rfl]
    exact hend
  | cons a p =>
    obtain ⟨hn, rfl, b, p', es', rfl, -, rfl⟩ | ⟨he, -⟩ := elems_cons_cases hes
    · have hb0 : b ≠ 0 := hp.of_cons.2.2.of_cons.1
      rw [cons_append, cons_append, attempt_escape not_flagged_zero ⟨hn, rfl⟩, if_pos hb0]
      simp [verdict]
    · rw [cons_append, attempt_ordinary not_flagged_zero he, if_pos rfl]
      exact hend

lemma attempt_slash_elems (hf : Flagged flags c) (hslash : flags.pathname = true ∧ c = chr '/')
    (hnext : ∀ p es, BracketFree p → elems flags.noescape p = some es →
      next (p ++ [0]) flags = some (verdict (anext es)))
    (hp : BracketFree p) (hes : elems flags.noescape p = some es) :
    attempt charSigned next c (p ++ [0]) flags =
      some (verdict (acceptsAt flags.pathname anext c es)) := by
  cases p with
  | nil =>
    cases hes
    have hc : (0 : UInt8) ≠ c := by rw [hslash.2]; simp [chr]
    rw [nil_append, attempt_flagged hf, if_pos hc]
    rfl
  | cons a p =>
    obtain ⟨-, -, hp'⟩ := hp.of_cons
    rw [cons_append, attempt_flagged hf]
    obtain ⟨-, rfl, b, p', es', rfl, -, rfl⟩ | ⟨-, es', hes', rfl⟩ := elems_cons_cases hes
    · rw [if_pos (by rw [hslash.2]; simp [chr]), acceptsAt_slash hslash]
      rfl
    · rw [acceptsAt_slash hslash]
      by_cases hac : a = c
      · have hof : Elem.of a = .plain c := by rw [hac, hslash.2]; exact of_eq_slash.2 rfl
        rw [if_neg (not_not.2 hac), hnext p es' hp' hes']
        simp [hof]
      · have hof : Elem.of a ≠ .plain c := by
          rw [hslash.2] at hac ⊢
          exact fun h => hac (of_eq_slash.1 h)
        rw [if_pos hac]
        simp [hof, verdict]

lemma attempt_elems (hper : flags.period = false) (hc : c ≠ 0)
    (hnext : ∀ p es, BracketFree p → elems flags.noescape p = some es →
      next (p ++ [0]) flags = some (verdict (anext es))) :
    ∀ es, BracketFree p → elems flags.noescape p = some es →
      attempt charSigned next c (p ++ [0]) flags =
        some (verdict (acceptsAt flags.pathname anext c es)) := by
  have hclear := clearPeriod_of_period hper
  have hflag : Flagged flags c ↔ flags.pathname = true ∧ c = chr '/' := by simp [Flagged, hper]
  by_cases hf : Flagged flags c
  · exact fun es hp hes => attempt_slash_elems hf (hflag.1 hf) hnext hp hes
  have hslash : ¬(flags.pathname = true ∧ c = chr '/') := fun h => hf (hflag.2 h)
  induction p with
  | nil =>
    intro es _ hes
    cases hes
    have he : ¬Escape flags 0 := by simp [Escape, chr]
    rw [nil_append, attempt_ordinary hf he, if_neg hc, if_neg (by simp [chr]),
      if_neg (by simp [chr]), if_pos rfl]
    rfl
  | cons a p ih =>
    intro es hp hes
    obtain ⟨ha, hbr, hp'⟩ := hp.of_cons
    rw [cons_append]
    obtain ⟨hn, rfl, b, p', es', rfl, hes', rfl⟩ | ⟨he, es', hes', rfl⟩ := elems_cons_cases hes
    · rw [cons_append, attempt_escape hf ⟨hn, rfl⟩, hclear, acceptsAt_quoted hslash,
        hnext p' es' hp'.of_cons.2.2 hes']
      by_cases hbc : b = c
      · simp [hbc]
      · simp [hbc, verdict]
    · rw [attempt_ordinary hf he, if_neg hc, if_neg hbr, hclear]
      by_cases hstar : a = chr '*'
      · subst hstar
        have hagain := hnext (chr '*' :: p) _ hp hes
        rw [of_star] at hagain
        rw [if_pos rfl, of_star, acceptsAt_star hslash, ← cons_append, hagain, ih es' hp' hes']
        cases anext (.star :: es') <;> simp [verdict]
      · rw [if_neg hstar, if_neg ha]
        by_cases hany : a = chr '?'
        · subst hany
          rw [if_pos (.inr rfl), of_any, acceptsAt_any hslash, hnext p es' hp' hes']
        · rw [of_plain hstar hany, acceptsAt_plain hslash]
          by_cases hac : a = c
          · rw [if_pos (.inl hac), hnext p es' hp' hes']
            simp [hac]
          · rw [if_neg (by simp [hac, hany])]
            simp [hac, verdict]

/-- **The results on a pattern without brackets**: `fnmatch` reads the elements against the
string. -/
theorem fnmatchAt_elems (hper : flags.period = false) {s : List UInt8} (hs : 0 ∉ s) :
    ∀ p es, BracketFree p → elems flags.noescape p = some es →
      fnmatchAt charSigned (s ++ [0]) (p ++ [0]) flags =
        some (verdict (accepts flags.pathname s es)) := by
  induction s with
  | nil => exact fun p es hp hes => attempt_zero_elems hp hes
  | cons c s ih =>
    rw [mem_cons, not_or] at hs
    exact fun p es hp hes => attempt_elems hper (Ne.symm hs.1) (ih hs.2) es hp hes

end

/-! ### The language -/

lemma acceptsAt_iff {next : List Elem → Bool} {c : UInt8} {w : List UInt8}
    (hnext : ∀ es, next es = true ↔ Matches (es.map Elem.tok) w) (es : List Elem) :
    acceptsAt false next c es = true ↔ Matches (es.map Elem.tok) (c :: w) := by
  have hslash : ¬(false = true ∧ c = chr '/') := by simp
  induction es with
  | nil => simp [acceptsAt_nil, matches_nil]
  | cons e es ih =>
    cases e with
    | star =>
      rw [acceptsAt_star hslash, Bool.or_eq_true]
      exact (or_congr (hnext _) ih).trans matches_star_cons.symm
    | any =>
      rw [acceptsAt_any hslash, hnext]
      exact matches_any_cons.symm
    | plain a =>
      rw [acceptsAt_plain hslash, Bool.and_eq_true, decide_eq_true_iff, hnext]
      exact matches_lit_cons.symm
    | quoted a =>
      rw [acceptsAt_quoted hslash, Bool.and_eq_true, decide_eq_true_iff, hnext]
      exact matches_lit_cons.symm

lemma accepts_iff (w : List UInt8) :
    ∀ es, accepts false w es = true ↔ Matches (es.map Elem.tok) w := by
  induction w with
  | nil =>
    intro es
    rw [matches_nil_right]
    simp [accepts, tok_eq_star]
  | cons c w ih => exact acceptsAt_iff ih

/-- The pattern has a character behind every backslash that quotes one. -/
def Complete (noescape : Bool) (p : List UInt8) : Prop := (elems noescape p).isSome = true

lemma complete_noescape (p : List UInt8) : Complete true p := by
  induction p with
  | nil => rfl
  | cons a p ih =>
    rw [Complete, elems_ordinary (by simp), Option.isSome_map]
    exact ih

/-- **The language of a pattern without brackets**: the call returns, and it returns 0 exactly for
the strings of the language. -/
theorem fnmatch_language (charSigned : Bool) {p s : List UInt8} {flags : BitVec 32}
    (hflags : flags = 0 ∨ flags = fnmNoescape) (hp : 0 ∉ p) (hs : 0 ∉ s) (hb : chr '[' ∉ p)
    (hesc : flags = 0 → Complete false p) :
    ∃ r, fnmatch charSigned (p ++ [0]) (s ++ [0]) flags = some r ∧
      (r = 0 ↔ InLanguage (decide (flags = fnmNoescape)) p s) := by
  have hof : (Flags.of flags).noescape = decide (flags = fnmNoescape) ∧
      (Flags.of flags).pathname = false ∧ (Flags.of flags).period = false := by
    obtain rfl | rfl := hflags <;> decide
  have hcomplete : Complete (Flags.of flags).noescape p := by
    obtain rfl | rfl := hflags
    · exact hesc rfl
    · exact complete_noescape p
  obtain ⟨es, hes⟩ := Option.isSome_iff_exists.1 hcomplete
  refine ⟨_, fnmatchAt_elems hof.2.2 hs p es ⟨hp, hb⟩ hes, ?_⟩
  rw [verdict_eq_zero, hof.2.1, accepts_iff, ← hof.1]
  constructor
  · exact fun h => ⟨es, hes, h⟩
  · rintro ⟨es', hes', h⟩
    rwa [Option.some.inj (hes.symm.trans hes')]

/-- A pattern with stars, one of them quoted. -/
theorem fnmatch_language_stars :
    let p := "a*\\**b?".toList.map chr
    let s := "ax*yzb*".toList.map chr
    ∃ r, fnmatch true (p ++ [0]) (s ++ [0]) 0 = some r ∧
      (r = 0 ↔ InLanguage (decide ((0 : BitVec 32) = fnmNoescape)) p s) :=
  fnmatch_language true (.inl rfl) (by decide) (by decide) (by decide) (fun _ => by rfl)

end Klibc.Wildcard.Language
