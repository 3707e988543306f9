import Klibc.Wildcard.Brackets

/-! # Reads behind the pattern

A call goes on with other calls (`Calls`) or it returns. It reads behind the NUL of the pattern at
two places only (`Stuck`): at a lone backslash when the string is used up, where NUL is compared
with NUL and both pointers advance, and in a bracket expression that ends in a range without its
last character, where the pointer advances by three. -/

namespace Klibc.Wildcard.Overrun

open Fnmatch Brackets List
open Stdio.Vsnprintf (chr)

/-! ### Texts -/

inductive Text : List UInt8 → Prop
  | nul : Text [0]
  | cons {a : UInt8} {l : List UInt8} (ha : a ≠ 0) (hl : Text l) : Text (a :: l)

section
variable {a : UInt8} {l : List UInt8}

lemma text_append : ∀ {t : List UInt8}, 0 ∉ t → Text (t ++ [0])
  | [], _ => .nul
  | a :: t, h => by
    rw [mem_cons, not_or] at h
    exact .cons (Ne.symm h.1) (text_append h.2)

lemma Text.tail (h : Text (a :: l)) (ha : a ≠ 0) : Text l := by
  cases h with
  | nul => exact absurd rfl ha
  | cons _ hl => exact hl

lemma Text.eq_nil (h : Text (0 :: l)) : l = [] := by
  cases h with
  | nul => rfl
  | cons ha _ => exact absurd rfl ha

lemma Text.exists_cons (h : Text l) : ∃ a t, l = a :: t := by
  cases h with
  | nul => exact ⟨0, [], rfl⟩
  | cons _ _ => exact ⟨_, _, rfl⟩

end

/-! ### The bracket expression -/

/-- The loop gets to a range that has no last character. -/
inductive Cut (charSigned not : Bool) (c : UInt8) : List UInt8 → Prop
  | here {a : UInt8} (ha : a ≠ 0) (hb : a ≠ chr ']') : Cut charSigned not c [a, chr '-', 0]
  | range {a d : UInt8} {p : List UInt8} (ha : a ≠ 0) (hb : a ≠ chr ']')
      (hmiss : ((Item.range a d).has charSigned c ^^ not) = false) (h : Cut charSigned not c p) :
      Cut charSigned not c (a :: chr '-' :: d :: p)
  | single {a b : UInt8} {p : List UInt8} (ha : a ≠ 0) (hb : a ≠ chr ']') (hd : b ≠ chr '-')
      (hmiss : ((Item.single a).has charSigned c ^^ not) = false)
      (h : Cut charSigned not c (b :: p)) : Cut charSigned not c (a :: b :: p)

section
variable {charSigned not : Bool} {c : UInt8} {l q : List UInt8}

lemma closing_text (h : Text l) : ∃ r, closing l = some r ∧ ∀ q, r = some q → Text q := by
  induction h with
  | nul => exact ⟨none, rfl, by simp⟩
  | cons ha hl ih =>
    rw [closing, if_neg ha]
    split
    · exact ⟨_, rfl, fun q hq => Option.some.inj hq ▸ hl⟩
    · exact ih

lemma Cut.ne_nil (h : Cut charSigned not c l) : l ≠ [] := by cases h <;> simp

lemma ne_nil_of_bracket {r : Option (List UInt8)} (h : bracket charSigned not c l = some r) :
    l ≠ [] := by
  rintro rfl
  cases h

lemma Cut.bracket_eq (h : Cut charSigned not c l) : bracket charSigned not c l = none := by
  induction h with
  | here ha hb =>
    rw [bracket_range ha hb]
    split <;> rfl
  | range ha hb hmiss _ ih => rw [bracket_range ha hb, hmiss, if_neg (by simp), ih]
  | single ha hb hd hmiss _ ih => rw [bracket_single ha hb hd, hmiss, if_neg (by simp), ih]

lemma bracket_text (n : ℕ) : ∀ {l : List UInt8}, l.length ≤ n → Text l → Cut charSigned not c l ∨
      ∃ r, bracket charSigned not c l = some r ∧ ∀ q, r = some q → Text q := by
  have hstop : ∃ r : Option (List UInt8), some none = some r ∧ ∀ q, r = some q → Text q :=
    ⟨none, rfl, by simp⟩
  induction n with
  | zero =>
    intro l hn hl
    obtain ⟨a, t, rfl⟩ := hl.exists_cons
    simp at hn
  | succ n ih =>
    intro l hn hl
    obtain ⟨a, t, rfl⟩ := hl.exists_cons
    by_cases ha : a = 0
    · rw [ha, bracket_nul]
      exact .inr hstop
    by_cases hb : a = chr ']'
    · rw [hb, bracket_bracket]
      exact .inr hstop
    have ht := hl.tail ha
    obtain ⟨b, u, rfl⟩ := ht.exists_cons
    by_cases hd : b = chr '-'
    · subst hd
      obtain ⟨d, v, rfl⟩ := (ht.tail (by simp [chr])).exists_cons
      by_cases hd0 : d = 0
      · subst hd0
        rw [(ht.tail (by simp [chr])).eq_nil]
        exact .inl (.here ha hb)
      · have hv := (ht.tail (by simp [chr])).tail hd0
        rw [bracket_range ha hb]
        by_cases hhit : ((Item.range a d).has charSigned c ^^ not) = true
        · rw [if_pos hhit]
          exact .inr (closing_text hv)
        · rw [if_neg hhit]
          refine (ih (by simp at hn; omega) hv).imp_left fun h => ?_
          exact .range ha hb (Bool.eq_false_iff.2 hhit) h
    · rw [bracket_single ha hb hd]
      by_cases hhit : ((Item.single a).has charSigned c ^^ not) = true
      · rw [if_pos hhit]
        exact .inr (closing_text ht)
      · rw [if_neg hhit]
        refine (ih (by simpa using hn) ht).imp_left fun h => ?_
        exact .single ha hb hd (Bool.eq_false_iff.2 hhit) h

end

/-! ### The calls -/

structure Call where
  p : List UInt8
  s : List UInt8
  flags : Flags

def Call.result (charSigned : Bool) (x : Call) : Option ℤ := fnmatchAt charSigned x.s x.p x.flags

/-- Where the items of a bracket expression begin, behind the `[`. -/
def items (p : List UInt8) : List UInt8 := if p.head? = some (chr '!') then p.tail else p

/-- **The calls a call makes**, one at a time; `fnmatch(p + 1, s, flags)` is only called behind a
star that does not match with the next character of the string. -/
inductive Calls (charSigned : Bool) : Call → Call → Prop
  | flagged {c : UInt8} {p s : List UInt8} {flags : Flags} (hf : Flagged flags c) :
      Calls charSigned ⟨c :: p, c :: s, flags⟩ ⟨p, s, flags⟩
  | escaped {a c : UInt8} {p s : List UInt8} {flags : Flags} (hf : ¬Flagged flags c) (hc : c ≠ 0)
      (he : Escape flags a) :
      Calls charSigned ⟨a :: c :: p, c :: s, flags⟩ ⟨p, s, flags.clearPeriod⟩
  | bracket {c : UInt8} {p q s : List UInt8} {flags : Flags} (hf : ¬Flagged flags c) (hc : c ≠ 0)
      (hq : bracket charSigned (p.head? = some (chr '!')) c (items p) = some (some q)) :
      Calls charSigned ⟨chr '[' :: p, c :: s, flags⟩ ⟨q, s, flags.clearPeriod⟩
  | star {c : UInt8} {p s : List UInt8} {flags : Flags} (hf : ¬Flagged flags c) (hc : c ≠ 0) :
      Calls charSigned ⟨chr '*' :: p, c :: s, flags⟩ ⟨chr '*' :: p, s, flags.clearPeriod⟩
  | skip {c : UInt8} {p s : List UInt8} {flags : Flags} {r : ℤ} (hf : ¬Flagged flags c)
      (hc : c ≠ 0) (hr : fnmatchAt charSigned s (chr '*' :: p) flags.clearPeriod = some r)
      (hr0 : r ≠ 0) :
      Calls charSigned ⟨chr '*' :: p, c :: s, flags⟩ ⟨p, c :: s, flags.clearPeriod⟩
  | character {a c : UInt8} {p s : List UInt8} {flags : Flags} (hf : ¬Flagged flags c)
      (hc : c ≠ 0) (he : ¬Escape flags a) (ha : a ≠ 0) (hb : a ≠ chr '[') (hs : a ≠ chr '*')
      (hac : a = c ∨ a = chr '?') :
      Calls charSigned ⟨a :: p, c :: s, flags⟩ ⟨p, s, flags.clearPeriod⟩

/-- **A call that reads behind the pattern.** -/
inductive Stuck (charSigned : Bool) : Call → Prop
  | backslash {flags : Flags} (hn : flags.noescape = false) :
      Stuck charSigned ⟨[chr '\\', 0], [0], flags⟩
  | range {c : UInt8} {p s : List UInt8} {flags : Flags} (hf : ¬Flagged flags c) (hc : c ≠ 0)
      (h : Cut charSigned (p.head? = some (chr '!')) c (items p)) :
      Stuck charSigned ⟨chr '[' :: p, c :: s, flags⟩

section
variable {charSigned : Bool} {x y : Call} {p s : List UInt8} {c : UInt8} {flags : Flags}

lemma ne_zero_of_escape {a : UInt8} (h : Escape flags a) : a ≠ 0 := by
  rw [h.2]
  simp [chr]

lemma caseBracket_eq {next : List UInt8 → Option ℤ} (hp : p ≠ []) :
    caseBracket charSigned next c p =
      (bracket charSigned (p.head? = some (chr '!')) c (items p)).bind fun r =>
        r.elim (some 1) next := by
  obtain ⟨b, t, rfl⟩ := exists_cons_of_ne_nil hp
  by_cases hb : b = chr '!'
  · subst hb
    simpa [items] using caseBracket_bang
  · simpa [items, hb] using caseBracket_plain hb

lemma result_bracket (hf : ¬Flagged flags c) (hc : c ≠ 0) (hp : p ≠ []) :
    Call.result charSigned ⟨chr '[' :: p, c :: s, flags⟩ =
      (bracket charSigned (p.head? = some (chr '!')) c (items p)).bind fun r =>
        r.elim (some 1) fun q => fnmatchAt charSigned s q flags.clearPeriod := by
  have he : ¬Escape flags (chr '[') := by simp [Escape, chr]
  rw [Call.result, fnmatchAt, attempt_ordinary hf he, if_neg hc, if_pos rfl, caseBracket_eq hp]

lemma result_star (hf : ¬Flagged flags c) (hc : c ≠ 0) :
    Call.result charSigned ⟨chr '*' :: p, c :: s, flags⟩ =
      (fnmatchAt charSigned s (chr '*' :: p) flags.clearPeriod).bind fun r =>
        if r ≠ 0 then fnmatchAt charSigned (c :: s) p flags.clearPeriod else some 0 := by
  have he : ¬Escape flags (chr '*') := by simp [Escape, chr]
  have hb : chr '*' ≠ chr '[' := by simp [chr]
  rw [Call.result, fnmatchAt, attempt_ordinary hf he, if_neg hc, if_neg hb, if_pos rfl]
  rfl

lemma items_ne_nil {l : List UInt8} (h : items l ≠ []) : l ≠ [] := by
  rintro rfl
  exact h rfl

lemma Stuck.result_eq (h : Stuck charSigned x) : x.result charSigned = none := by
  cases h with
  | backslash hn =>
    rw [Call.result, fnmatchAt, attempt_escape not_flagged_zero ⟨hn, rfl⟩]
    rfl
  | range hf hc h =>
    rw [result_bracket hf hc (items_ne_nil h.ne_nil), h.bracket_eq]
    rfl

lemma Calls.result_eq (h : Calls charSigned x y) (hy : y.result charSigned = none) :
    x.result charSigned = none := by
  cases h with
  | flagged hf =>
    rw [Call.result, fnmatchAt, attempt_flagged hf, if_neg (by simp)]
    exact Option.map_eq_none_iff.2 hy
  | escaped hf hc he =>
    rw [Call.result, fnmatchAt, attempt_escape hf he, if_neg (by simp)]
    exact Option.map_eq_none_iff.2 hy
  | bracket hf hc hq =>
    rw [result_bracket hf hc (items_ne_nil (ne_nil_of_bracket hq)), hq]
    exact hy
  | star hf hc =>
    have hy : fnmatchAt charSigned _ _ _ = none := hy
    rw [result_star hf hc, hy]
    rfl
  | skip hf hc hr hr0 =>
    have hy : fnmatchAt charSigned _ _ _ = none := hy
    rw [result_star hf hc, hr, Option.bind_some, if_pos hr0, hy]
  | character hf hc he ha hb hs hac =>
    rw [Call.result, fnmatchAt, attempt_ordinary hf he, if_neg hc, if_neg hb, if_neg hs,
      if_neg ha, if_pos hac]
    exact hy

lemma behindStars_text {l : List UInt8} (h : Text l) : behindStars l ≠ none := by
  induction h with
  | nul => simp [behindStars, chr]
  | cons _ _ ih =>
    rw [behindStars]
    split
    · exact ih
    · simp

lemma text_items {l : List UInt8} (h : Text l) : Text (items l) := by
  obtain ⟨a, t, rfl⟩ := h.exists_cons
  rw [items]
  split
  · next hbang =>
    have ha : a = chr '!' := by simpa using hbang
    exact h.tail (by simp [ha, chr])
  · exact h

lemma stuck_or_calls_bracket (hp : Text p) (hf : ¬Flagged flags c) (hc : c ≠ 0)
    (h : Call.result charSigned ⟨chr '[' :: p, c :: s, flags⟩ = none) :
    Stuck charSigned ⟨chr '[' :: p, c :: s, flags⟩ ∨
      ∃ y, Calls charSigned ⟨chr '[' :: p, c :: s, flags⟩ y ∧ y.result charSigned = none := by
  have hne : p ≠ [] := by
    obtain ⟨b, q, rfl⟩ := hp.exists_cons
    simp
  rw [result_bracket hf hc hne] at h
  obtain hcut | ⟨r, hr, -⟩ := bracket_text (items p).length le_rfl (text_items hp)
  · exact .inl (.range hf hc hcut)
  · rw [hr, Option.bind_some] at h
    cases r with
    | none => cases h
    | some q => exact .inr ⟨_, .bracket hf hc hr, h⟩

lemma calls_of_star (hf : ¬Flagged flags c) (hc : c ≠ 0)
    (h : Call.result charSigned ⟨chr '*' :: p, c :: s, flags⟩ = none) :
    ∃ y, Calls charSigned ⟨chr '*' :: p, c :: s, flags⟩ y ∧ y.result charSigned = none := by
  rw [result_star hf hc] at h
  cases hr : fnmatchAt charSigned s (chr '*' :: p) flags.clearPeriod with
  | none => exact ⟨_, .star hf hc, hr⟩
  | some r =>
    rw [hr, Option.bind_some] at h
    by_cases hr0 : r = 0
    · rw [if_neg (not_not.2 hr0)] at h
      cases h
    · rw [if_pos hr0] at h
      exact ⟨_, .skip hf hc hr hr0, h⟩

/-- **One call**: it has a value, it is stuck, or a call it makes has no value. -/
theorem stuck_or_calls (hp : Text p) (hs : Text s)
    (h : Call.result charSigned ⟨p, s, flags⟩ = none) : Stuck charSigned ⟨p, s, flags⟩ ∨
      ∃ y, Calls charSigned ⟨p, s, flags⟩ y ∧ y.result charSigned = none := by
  obtain ⟨a, q, rfl⟩ := hp.exists_cons
  obtain ⟨c, t, rfl⟩ := hs.exists_cons
  rw [Call.result, fnmatchAt] at h
  by_cases hf : Flagged flags c
  · rw [attempt_flagged hf] at h
    by_cases hac : a = c
    · subst hac
      rw [if_neg (by simp), Option.map_eq_none_iff] at h
      exact .inr ⟨_, .flagged hf, h⟩
    · rw [if_pos hac] at h
      cases h
  by_cases he : Escape flags a
  · have ha := ne_zero_of_escape he
    obtain ⟨b, q', rfl⟩ := (hp.tail ha).exists_cons
    rw [attempt_escape hf he] at h
    by_cases hbc : b = c
    · subst hbc
      rw [if_neg (by simp), Option.map_eq_none_iff] at h
      by_cases hb : b = 0
      · subst hb
        rw [(hp.tail ha).eq_nil, hs.eq_nil, he.2]
        exact .inl (.backslash he.1)
      · exact .inr ⟨_, .escaped hf hb he, h⟩
    · rw [if_pos hbc] at h
      cases h
  by_cases hc : c = 0
  · rw [attempt_ordinary hf he, if_pos hc, Option.map_eq_none_iff] at h
    exact absurd h (behindStars_text hp)
  by_cases hb : a = chr '['
  · subst hb
    exact stuck_or_calls_bracket (hp.tail (by simp [chr])) hf hc h
  by_cases hstar : a = chr '*'
  · subst hstar
    exact .inr (calls_of_star hf hc h)
  rw [attempt_ordinary hf he, if_neg hc, if_neg hb, if_neg hstar] at h
  split at h
  · cases h
  next ha =>
  split at h
  · next hac => exact .inr ⟨_, .character hf hc he ha hb hstar hac, h⟩
  · cases h

lemma Calls.text (h : Calls charSigned x y) (hp : Text x.p) (hs : Text x.s) : Text y.p ∧ Text y.s ∧
      ((∃ c, x.s = c :: y.s) ∨ (x.s = y.s ∧ ∃ a, x.p = a :: y.p)) := by
  have hzero : ∀ {flags : Flags} {c : UInt8}, Flagged flags c → c ≠ 0 := by
    rintro flags c hf rfl
    exact not_flagged_zero hf
  cases h with
  | flagged hf => exact ⟨hp.tail (hzero hf), hs.tail (hzero hf), .inl ⟨_, rfl⟩⟩
  | escaped hf hc he => exact ⟨(hp.tail (ne_zero_of_escape he)).tail hc, hs.tail hc, .inl ⟨_, rfl⟩⟩
  | bracket hf hc hq =>
    have hitems := text_items (hp.tail (by simp [chr]))
    obtain hcut | ⟨r, hr, hq'⟩ := bracket_text _ le_rfl hitems
    · rw [hcut.bracket_eq] at hq
      cases hq
    · exact ⟨hq' _ (Option.some.inj (hr.symm.trans hq)), hs.tail hc, .inl ⟨_, rfl⟩⟩
  | star hf hc => exact ⟨hp, hs.tail hc, .inl ⟨_, rfl⟩⟩
  | skip hf hc hr hr0 => exact ⟨hp.tail (by simp [chr]), hs, .inr ⟨rfl, _, rfl⟩⟩
  | character hf hc he ha hb hs' hac => exact ⟨hp.tail ha, hs.tail hc, .inl ⟨_, rfl⟩⟩

end

/-! ### Whole runs -/

section
variable {charSigned : Bool} {flags : Flags}

lemma result_of_reach {x y : Call} (h : Relation.ReflTransGen (Calls charSigned) x y)
    (hy : Stuck charSigned y) : x.result charSigned = none := by
  induction h using Relation.ReflTransGen.head_induction_on with
  | refl => exact hy.result_eq
  | head hcall _ ih => exact hcall.result_eq ih

lemma exists_reach_stuck {s : List UInt8} : ∀ {p : List UInt8} {flags : Flags}, Text p → Text s →
      Call.result charSigned ⟨p, s, flags⟩ = none →
      ∃ y, Relation.ReflTransGen (Calls charSigned) ⟨p, s, flags⟩ y ∧ Stuck charSigned y := by
  induction s with
  | nil => intro p flags _ hs; cases hs
  | cons c s ihs =>
    intro p
    induction p with
    | nil => intro flags hp; cases hp
    | cons a p ihp =>
      intro flags hp hs h
      obtain hstuck | ⟨y, hcall, hy⟩ := stuck_or_calls hp hs h
      · exact ⟨_, .refl, hstuck⟩
      obtain ⟨q, t, flags'⟩ := y
      obtain ⟨hq, ht, ⟨d, hd⟩ | ⟨hd, b, hb⟩⟩ := hcall.text hp hs
      · obtain ⟨-, rfl⟩ := List.cons.inj hd
        obtain ⟨z, hz, hstuck⟩ := ihs hq ht hy
        exact ⟨z, .head hcall hz, hstuck⟩
      · obtain ⟨-, rfl⟩ := List.cons.inj hb
        obtain rfl := hd
        obtain ⟨z, hz, hstuck⟩ := ihp hq ht hy
        exact ⟨z, .head hcall hz, hstuck⟩

/-- **Reads behind the pattern**: a call on texts returns exactly if no call it leads to stands at
a lone backslash with the string used up, or at a bracket expression that is cut. -/
theorem fnmatch_returns_iff (charSigned : Bool) {p s : List UInt8} (hp : 0 ∉ p) (hs : 0 ∉ s)
    (flags : BitVec 32) : fnmatch charSigned (p ++ [0]) (s ++ [0]) flags ≠ none ↔
      ∀ x, Relation.ReflTransGen (Calls charSigned) ⟨p ++ [0], s ++ [0], Flags.of flags⟩ x →
        ¬Stuck charSigned x := by
  constructor
  · exact fun h x hx hstuck => h (result_of_reach hx hstuck)
  · intro h hnone
    obtain ⟨x, hx, hstuck⟩ := exists_reach_stuck (text_append hp) (text_append hs) hnone
    exact h x hx hstuck

/-- A lone backslash and an empty string, with escapes; a range without its end. -/
theorem reads_behind_pattern :
    fnmatch true ("\\".toList.map chr ++ [0]) ([] ++ [0]) 0 = none ∧
      fnmatch true ("[a-".toList.map chr ++ [0]) ("b".toList.map chr ++ [0]) 0 = none := by
  decide

/-- A bracket expression that is not closed. -/
theorem fnmatch_returns_iff_unclosed :
    fnmatch true ("*[a-c".toList.map chr ++ [0]) ("xyb".toList.map chr ++ [0]) 0 ≠ none ↔
      ∀ x, Relation.ReflTransGen (Calls true)
          ⟨"*[a-c".toList.map chr ++ [0], "xyb".toList.map chr ++ [0], Flags.of 0⟩ x →
        ¬Stuck true x :=
  fnmatch_returns_iff true (by decide) (by decide) 0

end

/-! ### Patterns on which every call returns -/

section
variable {charSigned not : Bool} {c : UInt8} {l q : List UInt8} {x y : Call}

lemma Cut.dash_suffix (h : Cut charSigned not c l) : [chr '-', 0] <:+ l := by
  induction h with
  | here => exact suffix_cons _ _
  | range _ _ _ _ ih => exact ih.trans (suffix_append [_, _, _] _)
  | single _ _ _ _ _ ih => exact ih.trans (suffix_cons _ _)

lemma closing_suffix (h : closing l = some (some q)) : q <:+ l := by
  induction l with
  | nil => cases h
  | cons a l ih =>
    rw [closing] at h
    split at h
    · cases h
    split at h
    · obtain rfl := Option.some.inj (Option.some.inj h)
      exact suffix_cons _ _
    · exact (ih h).trans (suffix_cons _ _)

lemma bracket_suffix (h : bracket charSigned not c l = some (some q)) : q <:+ l := by
  fun_induction bracket charSigned not c l with
  | case1 => cases h
  | case2 => cases h
  | case3 => cases h
  | case4 => cases h
  | case5 => exact (closing_suffix h).trans (suffix_append [_, _, _] _)
  | case6 _ _ _ _ _ _ ih => exact (ih h).trans (suffix_append [_, _, _] _)
  | case7 => exact (closing_suffix h).trans (suffix_cons _ _)
  | case8 _ _ _ _ _ _ ih => exact (ih h).trans (suffix_cons _ _)

lemma items_suffix (l : List UInt8) : items l <:+ l := by
  rw [items]
  split
  · exact tail_suffix l
  · exact suffix_rfl

lemma Calls.suffix (h : Calls charSigned x y) : y.p <:+ x.p := by
  cases h with
  | flagged => exact suffix_cons _ _
  | escaped => exact suffix_append [_, _] _
  | bracket _ _ hq => exact (bracket_suffix hq).trans ((items_suffix _).trans (suffix_cons _ _))
  | star => exact suffix_rfl
  | skip => exact suffix_cons _ _
  | character => exact suffix_cons _ _

lemma suffix_of_reach (h : Relation.ReflTransGen (Calls charSigned) x y) : y.p <:+ x.p := by
  induction h with
  | refl => exact suffix_rfl
  | tail _ hcall ih => exact hcall.suffix.trans ih

lemma Stuck.suffix (h : Stuck charSigned x) :
    ∃ a, (a = chr '\\' ∨ a = chr '-') ∧ [a, 0] <:+ x.p := by
  cases h with
  | backslash => exact ⟨_, .inl rfl, suffix_rfl⟩
  | range _ _ h =>
    exact ⟨_, .inr rfl, h.dash_suffix.trans ((items_suffix _).trans (suffix_cons _ _))⟩

/-- **A pattern that ends in neither a backslash nor a dash** is never read behind its NUL. -/
theorem fnmatch_returns_of_last {p s : List UInt8} (hp : 0 ∉ p) (hs : 0 ∉ s)
    (hlast : ∀ a ∈ p.getLast?, a ≠ chr '\\' ∧ a ≠ chr '-') (flags : BitVec 32) :
    fnmatch charSigned (p ++ [0]) (s ++ [0]) flags ≠ none := by
  intro h
  obtain ⟨x, hx, hstuck⟩ := exists_reach_stuck (text_append hp) (text_append hs) h
  obtain ⟨a, ha, hend⟩ := hstuck.suffix
  obtain ⟨t, ht⟩ := hend.trans (suffix_of_reach hx)
  have hmem : a ∈ p.getLast? := by
    have hcut : t ++ [a] = p := by
      have h := ht
      rw [← singleton_append, ← append_assoc] at h
      exact append_cancel_right h
    rw [← hcut]
    simp
  obtain ⟨h1, h2⟩ := hlast a hmem
  exact ha.elim h1 h2

end

theorem fnmatch_returns_of_last_star :
    fnmatch true ("[a*".toList.map chr ++ [0]) ("b".toList.map chr ++ [0]) 0 ≠ none :=
  fnmatch_returns_of_last (by decide) (by decide) (by decide +kernel) 0

end Klibc.Wildcard.Overrun
