import Klibc.Wildcard.Language

/-! # `FNM_PATHNAME` and `FNM_PERIOD`

Both flags are tested before the wildcards, at every call: with `FNM_PATHNAME` a slash is read by
an unquoted slash of the pattern only, and a star that stands at it gives up (`accepts_path_iff`);
with `FNM_PERIOD` all the periods the string begins with are read that way
(`fnmatchAt_period_iff`). -/

namespace Klibc.Wildcard.Separators

open Lib.Glob Fnmatch Wildcard.Language List
open Stdio.Vsnprintf (chr)

/-! ### Slashes -/

def Blocked (es : List Elem) : Prop := .quoted (chr '/') ∈ es ∨ [.star, .plain (chr '/')] <:+: es

section
variable {es : List Elem} {a : UInt8}

lemma not_blocked_nil : ¬Blocked [] := by simp [Blocked]

lemma blocked_star : Blocked (.star :: es) ↔ es.head? = some (.plain (chr '/')) ∨ Blocked es := by
  cases es with
  | nil => simp [Blocked, infix_cons_iff]
  | cons e es =>
    simp only [Blocked, mem_cons, infix_cons_iff (a := Elem.star), cons_prefix_cons,
      head?_cons, Option.some.injEq, nil_prefix, reduceCtorEq, false_or, true_and,
      and_true, @eq_comm _ (Elem.plain _) e]
    tauto

lemma blocked_any : Blocked (.any :: es) ↔ Blocked es := by
  simp [Blocked, infix_cons_iff, cons_prefix_cons]

lemma blocked_plain : Blocked (.plain a :: es) ↔ Blocked es := by
  simp [Blocked, infix_cons_iff, cons_prefix_cons]

lemma blocked_quoted : Blocked (.quoted a :: es) ↔ a = chr '/' ∨ Blocked es := by
  simp [Blocked, infix_cons_iff, cons_prefix_cons, or_assoc, eq_comm]

lemma not_blocked_stars (h : ∀ e ∈ es, e = .star) : ¬Blocked es := by
  induction es with
  | nil => exact not_blocked_nil
  | cons e es ih =>
    obtain ⟨rfl, hes⟩ := forall_mem_cons.1 h
    rw [blocked_star, not_or]
    refine ⟨fun hhead => ?_, ih hes⟩
    simpa using hes _ (mem_of_mem_head? hhead)

end

section
variable {next : List Elem → Bool} {c : UInt8} {w : List UInt8}

lemma acceptsAt_slash_iff (hnext : ∀ es, next es = true ↔
      MatchesPath (chr '/') (es.map Elem.tok) w ∧ ¬Blocked es) (es : List Elem) :
    acceptsAt true next (chr '/') es = true ↔
      MatchesPath (chr '/') (es.map Elem.tok) (chr '/' :: w) ∧ ¬Blocked es := by
  have hslash : true = true ∧ chr '/' = chr '/' := ⟨rfl, rfl⟩
  induction es with
  | nil => simp [acceptsAt_nil]
  | cons e es ih =>
    rw [map_cons]
    cases e with
    | star =>
      -- What the star stands before would have to read the slash itself.
      have hfirst : acceptsAt true next (chr '/') es = true →
          es.head? = some (.plain (chr '/')) := by
        intro h
        cases es with
        | nil => simp [acceptsAt_nil] at h
        | cons e es =>
          rw [acceptsAt_slash hslash, Bool.and_eq_true, decide_eq_true_iff] at h
          rw [h.1, head?_cons]
      have hne : Elem.star.tok ≠ .lit (chr '/') := by simp [Elem.tok]
      rw [acceptsAt_slash hslash, matchesPath_cons_sep hne, blocked_star, not_or]
      refine iff_of_false (by simp) ?_
      rintro ⟨⟨-, hm⟩, hhead, hb⟩
      exact hhead (hfirst (ih.2 ⟨hm, hb⟩))
    | any =>
      have hne : Elem.any.tok ≠ .lit (chr '/') := by simp [Elem.tok]
      rw [acceptsAt_slash hslash, matchesPath_cons_sep hne]
      simp [Elem.tok]
    | plain a =>
      rw [acceptsAt_slash hslash, blocked_plain]
      by_cases ha : a = chr '/'
      · subst ha
        simpa [Elem.tok] using hnext es
      · have hne : (Elem.plain a).tok ≠ .lit (chr '/') := by simpa [Elem.tok] using ha
        rw [matchesPath_cons_sep hne]
        simp [Elem.tok, ha]
    | quoted a =>
      rw [acceptsAt_slash hslash, blocked_quoted]
      by_cases ha : a = chr '/'
      · simp [ha]
      · have hne : (Elem.quoted a).tok ≠ .lit (chr '/') := by simpa [Elem.tok] using ha
        rw [matchesPath_cons_sep hne]
        simp [Elem.tok]

lemma acceptsAt_component_iff (hc : c ≠ chr '/') (hnext : ∀ es, next es = true ↔
      MatchesPath (chr '/') (es.map Elem.tok) w ∧ ¬Blocked es) (es : List Elem) :
    acceptsAt true next c es = true ↔
      MatchesPath (chr '/') (es.map Elem.tok) (c :: w) ∧ ¬Blocked es := by
  have hslash : ¬(true = true ∧ c = chr '/') := by simp [hc]
  -- A character that stands for itself, quoted or not.
  have hlit : ∀ (a : UInt8) (es : List Elem), a ≠ chr '/' → ((decide (a = c) && next es) = true ↔
        MatchesPath (chr '/') (.lit a :: es.map Elem.tok) (c :: w) ∧ ¬Blocked es) := by
    intro a es ha
    rw [Bool.and_eq_true, decide_eq_true_iff, hnext, matchesPath_lit_cons ha hc, and_assoc]
  have hsep : ∀ es : List Elem,
      ¬MatchesPath (chr '/') (.lit (chr '/') :: es.map Elem.tok) (c :: w) :=
    fun es => not_matchesPath_sep_cons hc
  induction es with
  | nil => simp [acceptsAt_nil]
  | cons e es ih =>
    cases e with
    | star =>
      have hhead : MatchesPath (chr '/') (es.map Elem.tok) (c :: w) →
          es.head? ≠ some (.plain (chr '/')) := by
        intro hm h
        obtain ⟨es', rfl⟩ := head?_eq_some_iff.1 h
        exact hsep es' hm
      rw [acceptsAt_star hslash, Bool.or_eq_true, hnext]
      rw [map_cons, Elem.tok, matchesPath_star_cons hc, or_and_right]
      refine or_congr Iff.rfl (ih.trans ?_)
      rw [blocked_star, not_or]
      exact and_congr_right fun hm => (and_iff_right (hhead hm)).symm
    | any =>
      rw [acceptsAt_any hslash, hnext, blocked_any]
      exact and_congr_left' (matchesPath_any_cons hc).symm
    | plain a =>
      rw [acceptsAt_plain hslash, blocked_plain]
      by_cases ha : a = chr '/'
      · subst ha
        exact iff_of_false (by simp [Ne.symm hc]) fun h => hsep es h.1
      · exact hlit a es ha
    | quoted a =>
      rw [acceptsAt_quoted hslash, blocked_quoted]
      by_cases ha : a = chr '/'
      · subst ha
        exact iff_of_false (by simp [Ne.symm hc]) fun h => hsep es h.1
      · simpa [ha, Elem.tok] using hlit a es ha

/-- **With `FNM_PATHNAME`** the strings that are accepted are those that match component by
component, if the pattern lets a slash be read at all. -/
theorem accepts_path_iff (w : List UInt8) : ∀ es, accepts true w es = true ↔
      MatchesPath (chr '/') (es.map Elem.tok) w ∧ ¬Blocked es := by
  induction w with
  | nil =>
    intro es
    rw [matchesPath_nil_right]
    have hall : accepts true [] es = true ↔ ∀ e ∈ es, e = .star := by simp [accepts]
    rw [hall]
    simp only [forall_mem_map, tok_eq_star]
    exact (and_iff_left_of_imp not_blocked_stars).symm
  | cons c w ih =>
    by_cases hc : c = chr '/'
    · subst hc
      exact acceptsAt_slash_iff ih
    · exact acceptsAt_component_iff hc ih

end

/-! ### A backslash left without a character -/

section
variable {charSigned : Bool} {flags : Flags} {next : List UInt8 → Flags → Option ℤ} {c : UInt8}
  {p : List UInt8}

lemma map_truth_eq_zero {r : Option ℤ} : r.map truth = some 0 ↔ r = some 0 := by
  cases r with
  | none => simp
  | some r => simp [truth]

lemma behindStars_incomplete {noescape : Bool} (hp : BracketFree p)
    (hes : elems noescape p = none) : behindStars (p ++ [0]) ≠ some 0 := by
  induction p with
  | nil => cases hes
  | cons a p ih =>
    obtain ⟨ha, -, hp'⟩ := hp.of_cons
    rw [cons_append, behindStars]
    by_cases hstar : a = chr '*'
    · rw [elems_ordinary (by simp [hstar, chr]), Option.map_eq_none_iff] at hes
      rw [if_pos hstar]
      exact ih hp' hes
    · rw [if_neg hstar]
      exact fun h => ha (Option.some.inj h)

section
variable (hper : flags.period = false)
  (hnext : ∀ p, BracketFree p → elems flags.noescape p = none → next (p ++ [0]) flags ≠ some 0)
  (hend : c = 0 → next [] flags ≠ some 0)
include hper hnext

lemma attempt_flagged_incomplete {a : UInt8} (hf : Flagged flags c) (hp : BracketFree (a :: p))
    (hes : elems flags.noescape (a :: p) = none) :
    attempt charSigned next c (a :: (p ++ [0])) flags ≠ some 0 := by
  rw [attempt_flagged hf]
  by_cases hac : a = c
  · have hslash : a = chr '/' := by
      simpa [Flagged, hper, ← hac] using hf.elim (fun h => h.2) (fun h => by simp [hper] at h)
    rw [elems_ordinary (by simp [hslash, chr]), Option.map_eq_none_iff] at hes
    rw [if_neg (not_not.2 hac), Ne, map_truth_eq_zero]
    exact hnext p hp.of_cons.2.2 hes
  · rw [if_pos hac]
    simp

include hend

lemma attempt_escape_incomplete {a : UInt8} (hf : ¬Flagged flags c) (he : Escape flags a)
    (hp : BracketFree (a :: p)) (hes : elems flags.noescape (a :: p) = none) :
    attempt charSigned next c (a :: (p ++ [0])) flags ≠ some 0 := by
  have hclear := clearPeriod_of_period hper
  cases p with
  | nil =>
    rw [nil_append, attempt_escape hf he, hclear]
    by_cases hc : c = 0
    · rw [if_neg (not_not.2 hc.symm), Ne, map_truth_eq_zero]
      exact hend hc
    · rw [if_pos (Ne.symm hc)]
      simp
  | cons b p =>
    rw [elems_escape he, Option.map_eq_none_iff] at hes
    rw [cons_append, attempt_escape hf he, hclear]
    by_cases hbc : b = c
    · rw [if_neg (not_not.2 hbc), Ne, map_truth_eq_zero]
      exact hnext p hp.of_cons.2.2.of_cons.2.2 hes
    · rw [if_pos hbc]
      simp

lemma attempt_incomplete (hp : BracketFree p) (hes : elems flags.noescape p = none) :
    attempt charSigned next c (p ++ [0]) flags ≠ some 0 := by
  induction p with
  | nil => cases hes
  | cons a p ih =>
    obtain ⟨ha, hbr, hp'⟩ := hp.of_cons
    rw [cons_append]
    by_cases hf : Flagged flags c
    · exact attempt_flagged_incomplete hper hnext hf hp hes
    by_cases he : Escape flags a
    · exact attempt_escape_incomplete hper hnext hend hf he hp hes
    have hes' : elems flags.noescape p = none := by
      rwa [elems_ordinary he, Option.map_eq_none_iff] at hes
    rw [attempt_ordinary hf he, clearPeriod_of_period hper]
    by_cases hc : c = 0
    · have hstars := behindStars_incomplete hp hes
      rw [if_pos hc]
      intro h
      obtain ⟨b, hb, hb0⟩ := Option.map_eq_some_iff.1 h
      have hzero : b = 0 := by
        by_contra h0
        simp [h0] at hb0
      exact hstars (hzero ▸ hb)
    rw [if_neg hc, if_neg hbr]
    by_cases hstar : a = chr '*'
    · have hagain := hnext (a :: p) hp hes
      rw [if_pos hstar, ← cons_append]
      cases hr : next (a :: p ++ [0]) flags with
      | none => simp
      | some r =>
        have hr0 : r ≠ 0 := by
          rintro rfl
          exact hagain hr
        simpa [hr0] using ih hp' hes'
    rw [if_neg hstar, if_neg ha]
    split
    · exact hnext p hp' hes'
    · simp

end

lemma fnmatchAt_incomplete (hper : flags.period = false) {s : List UInt8} :
    ∀ p, BracketFree p → elems flags.noescape p = none →
      fnmatchAt charSigned (s ++ [0]) (p ++ [0]) flags ≠ some 0 := by
  induction s with
  | nil =>
    intro p hp hes
    exact attempt_incomplete hper (fun _ _ _ => by simp [fnmatchAt]) (fun _ => by simp [fnmatchAt])
      hp hes
  | cons c s ih =>
    intro p hp hes
    exact attempt_incomplete hper ih (fun _ => by cases s <;> simp [fnmatchAt, attempt_nil]) hp hes

end

/-! ### Leading periods -/

instance (flags : Flags) (c : UInt8) : Decidable (Flagged flags c) :=
  inferInstanceAs (Decidable (_ ∨ _))

section
variable {charSigned : Bool} {flags : Flags}

lemma attempt_clearPeriod {next : List UInt8 → Flags → Option ℤ} {c : UInt8} {p : List UInt8}
    (hf : Flagged flags c) : attempt charSigned next c (c :: p) flags.clearPeriod = some 0 ↔
      next p flags.clearPeriod = some 0 := by
  by_cases hf' : Flagged flags.clearPeriod c
  · rw [attempt_flagged hf', if_neg (by simp), map_truth_eq_zero]
  · have hc : c = chr '.' := by
      obtain h | h := hf
      · exact absurd (flagged_clearPeriod.2 h) hf'
      · exact h.2
    have he : ¬Escape flags.clearPeriod c := by simp [Escape, hc, chr]
    rw [attempt_ordinary hf' he, if_neg (by simp [hc, chr]), if_neg (by simp [hc, chr]),
      if_neg (by simp [hc, chr]), if_neg (by simp [hc, chr]), if_pos (.inl rfl)]
    rfl

/-- **With `FNM_PERIOD`** the pattern begins with all the flagged characters the string begins
with, and the rest is as without. -/
theorem fnmatchAt_period_iff {s : List UInt8} :
    ∀ p, fnmatchAt charSigned (s ++ [0]) (p ++ [0]) flags = some 0 ↔
      s.takeWhile (fun c => Flagged flags c) <+: p ∧
        fnmatchAt charSigned (s ++ [0]) (p ++ [0]) flags.clearPeriod = some 0 := by
  have hcons : ∀ p : List UInt8, ∃ a q, p ++ [0] = a :: q := fun p => by cases p <;> simp
  induction s with
  | nil =>
    intro p
    obtain ⟨a, q, hp⟩ := hcons p
    have hsame : attempt charSigned (fnmatchAt charSigned []) 0 (a :: q) flags =
        attempt charSigned (fnmatchAt charSigned []) 0 (a :: q) flags.clearPeriod :=
      attempt_unflagged not_flagged_zero
    rw [hp]
    simp only [takeWhile_nil, nil_prefix, true_and]
    exact Eq.congr_left hsame
  | cons c s ih =>
    intro p
    by_cases hf : Flagged flags c
    · rw [takeWhile_cons_of_pos (by simpa using hf)]
      cases p with
      | nil =>
        have hc : (0 : UInt8) ≠ c := fun h => not_flagged_zero (h ▸ hf)
        refine iff_of_false ?_ (by simp)
        rw [cons_append, fnmatchAt, nil_append, attempt_flagged hf, if_pos hc]
        simp
      | cons a p =>
        rw [cons_append, cons_append, fnmatchAt, attempt_flagged hf, cons_prefix_cons]
        by_cases hac : a = c
        · subst hac
          rw [if_neg (by simp), map_truth_eq_zero, ih, attempt_clearPeriod hf]
          simp
        · rw [if_pos hac]
          simp [Ne.symm hac]
    · obtain ⟨a, q, hp⟩ := hcons p
      rw [takeWhile_cons_of_neg (by simpa using hf), cons_append, hp, fnmatchAt,
        attempt_unflagged hf]
      simp

lemma periods_eq_zero_iff {p s : List UInt8} (hpath : flags.pathname = false)
    (hper : flags.period = true) : fnmatchAt charSigned (s ++ [0]) (p ++ [0]) flags = some 0 ↔
      s.takeWhile (fun c => c = chr '.') <+: p ∧
        fnmatchAt charSigned (s ++ [0]) (p ++ [0]) flags.clearPeriod = some 0 := by
  rw [fnmatchAt_period_iff]
  simp [Flagged, hpath, hper]

end

/-! ### The flags -/

/-- As many components in the string as in the pattern, and each matches its own. -/
def MatchesComponents (noescape : Bool) (p w : List UInt8) : Prop :=
  ∃ es, elems noescape p = some es ∧ MatchesPath (chr '/') (es.map Elem.tok) w

/-- The pattern has a star directly before a slash, or a slash behind a backslash. -/
def SlashBlocked (noescape : Bool) (p : List UInt8) : Prop :=
  ∃ es, elems noescape p = some es ∧ Blocked es

def StartsWithPeriod (noescape : Bool) (p : List UInt8) : Prop :=
  ∃ e es, elems noescape p = some (e :: es) ∧ e.tok = .lit (chr '.')

lemma of_and_not_period (flags : BitVec 32) :
    Flags.of (flags &&& ~~~fnmPeriod) = (Flags.of flags).clearPeriod := by
  have hp : ~~~fnmPeriod &&& fnmPathname = fnmPathname := by decide
  have hn : ~~~fnmPeriod &&& fnmNoescape = fnmNoescape := by decide
  have hd : ~~~fnmPeriod &&& fnmPeriod = 0 := by decide
  simp [Flags.of, Flags.clearPeriod, BitVec.and_assoc, hp, hn, hd]

section
variable {charSigned : Bool} {p s : List UInt8} (hp : BracketFree p) (hs : 0 ∉ s)
include hp hs

lemma fnmatchAt_eq_zero_iff {flags : Flags} (hper : flags.period = false) :
    fnmatchAt charSigned (s ++ [0]) (p ++ [0]) flags = some 0 ↔
      ∃ es, elems flags.noescape p = some es ∧ accepts flags.pathname s es = true := by
  cases hes : elems flags.noescape p with
  | none => simpa using fnmatchAt_incomplete hper p hp hes
  | some es =>
    rw [fnmatchAt_elems hper hs p es hp hes, Option.some.injEq, verdict_eq_zero]
    simp

lemma pathname_eq_zero_iff {flags : Flags} (hper : flags.period = false)
    (hpath : flags.pathname = true) : fnmatchAt charSigned (s ++ [0]) (p ++ [0]) flags = some 0 ↔
      MatchesComponents flags.noescape p s ∧ ¬SlashBlocked flags.noescape p := by
  rw [fnmatchAt_eq_zero_iff hp hs hper, hpath]
  constructor
  · rintro ⟨es, hes, h⟩
    obtain ⟨hm, hb⟩ := (accepts_path_iff s es).1 h
    refine ⟨⟨es, hes, hm⟩, ?_⟩
    rintro ⟨es', hes', hb'⟩
    rw [hes] at hes'
    exact hb (Option.some.inj hes' ▸ hb')
  · rintro ⟨⟨es, hes, hm⟩, hb⟩
    exact ⟨es, hes, (accepts_path_iff s es).2 ⟨hm, fun hb' => hb ⟨es, hes, hb'⟩⟩⟩

lemma components_eq_zero_iff {flags : Flags} (hpath : flags.pathname = true) :
    fnmatchAt charSigned (s ++ [0]) (p ++ [0]) flags = some 0 ↔
      MatchesComponents flags.noescape p s ∧ ¬SlashBlocked flags.noescape p ∧
        (flags.period = true → s.takeWhile (fun c => c = chr '/' ∨ c = chr '.') <+: p) := by
  cases hper : flags.period with
  | false => simpa using pathname_eq_zero_iff hp hs hper hpath
  | true =>
    rw [fnmatchAt_period_iff, pathname_eq_zero_iff hp hs clearPeriod_period hpath]
    simp only [Flagged, hpath, hper, true_and, forall_const, clearPeriod_noescape]
    tauto

lemma startsWithPeriod_of_prefix {flags : Flags} (hper : flags.period = false)
    (h : fnmatchAt charSigned (s ++ [0]) (p ++ [0]) flags = some 0)
    (hpre : s.takeWhile (fun c => c = chr '.') <+: p) (hhead : s.head? = some (chr '.')) :
    StartsWithPeriod flags.noescape p := by
  obtain ⟨es, hes, -⟩ := (fnmatchAt_eq_zero_iff hp hs hper).1 h
  obtain ⟨s', rfl⟩ := head?_eq_some_iff.1 hhead
  rw [takeWhile_cons_of_pos (by simp)] at hpre
  obtain ⟨q, rfl⟩ := hpre
  rw [cons_append, elems_ordinary (by simp [chr]), Option.map_eq_some_iff] at hes
  obtain ⟨es', hes', -⟩ := hes
  refine ⟨Elem.of (chr '.'), es', ?_, by rw [of_plain (by simp [chr]) (by simp [chr])]; rfl⟩
  rw [cons_append, elems_ordinary (by simp [chr]), hes']
  rfl

end

/-- **What the flags do**, for every pattern without brackets and every string. -/
theorem flag_semantics_iff (charSigned : Bool) {p s : List UInt8} (hp : BracketFree p) (hs : 0 ∉ s)
    (flags : BitVec 32) : let f := Flags.of flags
    let result := fnmatch charSigned (p ++ [0]) (s ++ [0])
    (f.pathname = true → ((result flags = some 0 ↔ MatchesComponents f.noescape p s) ↔
        (MatchesComponents f.noescape p s → ¬SlashBlocked f.noescape p ∧
          (f.period = true → s.takeWhile (fun c => c = chr '/' ∨ c = chr '.') <+: p)))) ∧
    (f.pathname = false → f.period = true → let spec := result (flags &&& ~~~fnmPeriod) = some 0 ∧
        (s.head? = some (chr '.') → StartsWithPeriod f.noescape p)
      ((result flags = some 0 ↔ spec) ↔ (spec → s.takeWhile (fun c => c = chr '.') <+: p))) := by
  intro f result
  refine ⟨fun hpath => ?_, fun hpath hper => ?_⟩
  · have h : result flags = some 0 ↔ _ := components_eq_zero_iff hp hs hpath
    rw [h]
    tauto
  · intro spec
    have h0 : result (flags &&& ~~~fnmPeriod) =
        fnmatchAt charSigned (s ++ [0]) (p ++ [0]) f.clearPeriod := by
      rw [← of_and_not_period]
      rfl
    have h : result flags = some 0 ↔ _ := periods_eq_zero_iff hpath hper
    have hspec : result flags = some 0 → spec := by
      intro hr
      obtain ⟨hpre, hr0⟩ := h.1 hr
      have hstart := startsWithPeriod_of_prefix hp hs clearPeriod_period hr0 hpre
      exact ⟨h0.trans hr0, hstart⟩
    constructor
    · exact fun hiff hsp => (h.1 (hiff.2 hsp)).1
    · exact fun hpre => ⟨hspec, fun hsp => h.2 ⟨hpre hsp, h0.symm.trans hsp.1⟩⟩

/-- The pattern `a*/b` and the string `ax/b`; the pattern `.*` and the string `..`. -/
theorem star_stops_before_slash :
    (fnmatch true ("a*/b".toList.map chr ++ [0]) ("ax/b".toList.map chr ++ [0]) fnmPathname =
        some 1 ∧
      MatchesComponents false ("a*/b".toList.map chr) ("ax/b".toList.map chr)) ∧
    (fnmatch true (".*".toList.map chr ++ [0]) ("..".toList.map chr ++ [0]) fnmPeriod = some 1 ∧
      fnmatch true (".*".toList.map chr ++ [0]) ("..".toList.map chr ++ [0]) 0 = some 0 ∧
      StartsWithPeriod false (".*".toList.map chr)) := by
  refine ⟨⟨by decide, [.plain (chr 'a'), .star, .plain (chr '/'), .plain (chr 'b')], by decide, ?_⟩,
    by decide, by decide, .plain (chr '.'), [.star], by decide, rfl⟩
  exact .cons (.lit _ (.star [chr 'x'] .nil)) (.cons (.lit _ .nil) .nil)

/-- A path with two components, and a name that starts with a period. -/
theorem flag_semantics_iff_two :
    let path := fnmatch true ("a?/*b".toList.map chr ++ [0]) ("ax/xb".toList.map chr ++ [0])
    let file := fnmatch true (".a*".toList.map chr ++ [0]) (".ab".toList.map chr ++ [0])
    let components := MatchesComponents false ("a?/*b".toList.map chr) ("ax/xb".toList.map chr)
    let spec := file (fnmPeriod &&& ~~~fnmPeriod) = some 0 ∧
      ((".ab".toList.map chr).head? = some (chr '.') →
        StartsWithPeriod false (".a*".toList.map chr))
    ((path fnmPathname = some 0 ↔ components) ↔
      (components → ¬SlashBlocked false ("a?/*b".toList.map chr) ∧
        (false = true → ("ax/xb".toList.map chr).takeWhile (fun c => c = chr '/' ∨ c = chr '.') <+:
          "a?/*b".toList.map chr))) ∧
    ((file fnmPeriod = some 0 ↔ spec) ↔
      (spec → (".ab".toList.map chr).takeWhile (fun c => c = chr '.') <+: ".a*".toList.map chr)) :=
  ⟨(flag_semantics_iff true ⟨by decide, by decide⟩ (by decide) fnmPathname).1 (by decide),
    (flag_semantics_iff true ⟨by decide, by decide⟩ (by decide) fnmPeriod).2 (by decide)
      (by decide)⟩

end Klibc.Wildcard.Separators
