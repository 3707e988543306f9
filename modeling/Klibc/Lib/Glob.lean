import Mathlib.Data.List.Forall2

/-! # Wildcard patterns

Patterns with `*` for any string, `?` for any one character and literal characters, and the strings
they match: as wholes (`Matches`), and component by component between separators
(`MatchesPath`). -/

namespace Klibc.Lib.Glob

open List

inductive Tok (α : Type*)
  | star
  | any
  | lit (a : α)
  deriving DecidableEq

variable {α : Type*}

/-- **The language of a pattern.** -/
inductive Matches : List (Tok α) → List α → Prop
  | nil : Matches [] []
  | star (u : List α) {ts : List (Tok α)} {w : List α} (h : Matches ts w) :
      Matches (.star :: ts) (u ++ w)
  | any (a : α) {ts : List (Tok α)} {w : List α} (h : Matches ts w) : Matches (.any :: ts) (a :: w)
  | lit (a : α) {ts : List (Tok α)} {w : List α} (h : Matches ts w) :
      Matches (.lit a :: ts) (a :: w)

/-- **Component by component**, as many in the pattern as in the string. -/
def MatchesPath [DecidableEq α] (sep : α) (ts : List (Tok α)) (w : List α) : Prop :=
  List.Forall₂ Matches (ts.splitOn (.lit sep)) (w.splitOn sep)

section
variable {ts : List (Tok α)} {a b : α} {w : List α}

@[simp] lemma matches_nil : Matches [] w ↔ w = [] := by
  constructor
  · intro h
    cases h
    rfl
  · rintro rfl
    exact .nil

@[simp] lemma matches_any_nil : ¬Matches (.any :: ts) ([] : List α) := by
  intro h
  cases h

@[simp] lemma matches_any_cons : Matches (.any :: ts) (a :: w) ↔ Matches ts w := by
  constructor
  · intro h
    cases h with
    | any _ h => exact h
  · exact .any a

@[simp] lemma matches_lit_nil : ¬Matches (.lit b :: ts) ([] : List α) := by
  intro h
  cases h

@[simp] lemma matches_lit_cons : Matches (.lit b :: ts) (a :: w) ↔ b = a ∧ Matches ts w := by
  constructor
  · intro h
    cases h with
    | lit _ h => exact ⟨rfl, h⟩
  · rintro ⟨rfl, h⟩
    exact .lit b h

lemma matches_star : Matches (.star :: ts) w ↔ ∃ u v, w = u ++ v ∧ Matches ts v := by
  constructor
  · intro h
    cases h with
    | star u h => exact ⟨u, _, rfl, h⟩
  · rintro ⟨u, v, rfl, h⟩
    exact .star u h

@[simp] lemma matches_star_nil : Matches (.star :: ts) ([] : List α) ↔ Matches ts [] := by
  rw [matches_star]
  constructor
  · rintro ⟨u, v, hw, h⟩
    rwa [(append_eq_nil_iff.1 hw.symm).2] at h
  · intro h
    exact ⟨[], [], rfl, h⟩

lemma matches_star_cons : Matches (.star :: ts) (a :: w) ↔
    Matches (.star :: ts) w ∨ Matches ts (a :: w) := by
  rw [matches_star, matches_star]
  constructor
  · rintro ⟨_ | ⟨b, u⟩, v, hw, h⟩
    · exact .inr (hw ▸ h)
    · rw [cons_append] at hw
      exact .inl ⟨u, v, (List.cons.inj hw).2, h⟩
  · rintro (⟨u, v, rfl, h⟩ | h)
    · exact ⟨a :: u, v, rfl, h⟩
    · exact ⟨[], a :: w, rfl, h⟩

lemma matches_nil_right : Matches ts ([] : List α) ↔ ∀ t ∈ ts, t = .star := by
  induction ts with
  | nil => simp
  | cons t ts ih =>
    cases t with
    | star => simpa using ih
    | any => simp
    | lit b => simp

end

section
variable {β : Type*} [DecidableEq β] {x y : β} {l : List β}

lemma splitOn_cons_self : (x :: l).splitOn x = [] :: l.splitOn x := by
  rw [splitOn_cons_eq_if_modifyHead, if_pos (beq_self_eq_true x)]

lemma splitOn_cons_of_ne (h : y ≠ x) :
    ∃ u us, l.splitOn x = u :: us ∧ (y :: l).splitOn x = (y :: u) :: us := by
  obtain ⟨u, us, hl⟩ := exists_cons_of_ne_nil (splitOn_ne_nil x l)
  refine ⟨u, us, hl, ?_⟩
  rw [splitOn_cons_eq_if_modifyHead, if_neg (by simpa using h), hl]
  rfl

end

section
variable [DecidableEq α] {sep a b : α} {t : Tok α} {ts : List (Tok α)} {w : List α}

@[simp] lemma matchesPath_sep_sep :
    MatchesPath sep (.lit sep :: ts) (sep :: w) ↔ MatchesPath sep ts w := by
  rw [MatchesPath, splitOn_cons_self, splitOn_cons_self, List.forall₂_cons]
  exact and_iff_right .nil

lemma not_matchesPath_sep_cons (h : a ≠ sep) : ¬MatchesPath sep (.lit sep :: ts) (a :: w) := by
  obtain ⟨v, vs, -, hw⟩ := splitOn_cons_of_ne (l := w) h
  rw [MatchesPath, splitOn_cons_self, hw, List.forall₂_cons]
  simp

@[simp] lemma not_matchesPath_nil_cons : ¬MatchesPath sep [] (a :: w) := by
  rw [MatchesPath, splitOn_nil]
  by_cases h : a = sep
  · subst h
    rw [splitOn_cons_self, List.forall₂_cons, List.forall₂_nil_left_iff]
    exact fun h => splitOn_ne_nil _ _ h.2
  · obtain ⟨v, vs, -, hw⟩ := splitOn_cons_of_ne (l := w) h
    rw [hw, List.forall₂_cons]
    simp

lemma matchesPath_cons_sep (h : t ≠ .lit sep) :
    MatchesPath sep (t :: ts) (sep :: w) ↔ t = .star ∧ MatchesPath sep ts (sep :: w) := by
  obtain ⟨u, us, hts, htts⟩ := splitOn_cons_of_ne (l := ts) h
  rw [MatchesPath, MatchesPath, splitOn_cons_self, hts, htts, List.forall₂_cons, List.forall₂_cons]
  cases t with
  | star => simp
  | any => simp
  | lit b => simp

lemma matchesPath_any_cons (h : a ≠ sep) :
    MatchesPath sep (.any :: ts) (a :: w) ↔ MatchesPath sep ts w := by
  obtain ⟨u, us, hts, htts⟩ := splitOn_cons_of_ne (x := .lit sep) (y := .any) (l := ts) (by simp)
  obtain ⟨v, vs, hw, haw⟩ := splitOn_cons_of_ne (l := w) h
  rw [MatchesPath, MatchesPath, hts, htts, hw, haw, List.forall₂_cons, List.forall₂_cons,
    matches_any_cons]

lemma matchesPath_lit_cons (hb : b ≠ sep) (h : a ≠ sep) :
    MatchesPath sep (.lit b :: ts) (a :: w) ↔ b = a ∧ MatchesPath sep ts w := by
  obtain ⟨u, us, hts, htts⟩ :=
    splitOn_cons_of_ne (x := .lit sep) (y := .lit b) (l := ts) (by simpa using hb)
  obtain ⟨v, vs, hw, haw⟩ := splitOn_cons_of_ne (l := w) h
  rw [MatchesPath, MatchesPath, hts, htts, hw, haw, List.forall₂_cons, List.forall₂_cons,
    matches_lit_cons, and_assoc]

lemma matchesPath_star_cons (h : a ≠ sep) : MatchesPath sep (.star :: ts) (a :: w) ↔
      MatchesPath sep (.star :: ts) w ∨ MatchesPath sep ts (a :: w) := by
  obtain ⟨u, us, hts, htts⟩ := splitOn_cons_of_ne (x := .lit sep) (y := .star) (l := ts) (by simp)
  obtain ⟨v, vs, hw, haw⟩ := splitOn_cons_of_ne (l := w) h
  rw [MatchesPath, MatchesPath, MatchesPath, hts, htts, hw, haw, List.forall₂_cons,
    List.forall₂_cons, List.forall₂_cons, matches_star_cons, or_and_right]

lemma matchesPath_nil_right : MatchesPath sep ts ([] : List α) ↔ ∀ t ∈ ts, t = .star := by
  induction ts with
  | nil => simp [MatchesPath]
  | cons t ts ih =>
    by_cases h : t = .lit sep
    · subst h
      rw [MatchesPath, splitOn_cons_self, splitOn_nil, List.forall₂_cons,
        List.forall₂_nil_right_iff]
      simp
    · obtain ⟨u, us, hts, htts⟩ := splitOn_cons_of_ne (l := ts) h
      rw [MatchesPath, hts, splitOn_nil, List.forall₂_cons] at ih
      rw [MatchesPath, htts, splitOn_nil, List.forall₂_cons, forall_mem_cons, ← ih]
      cases t with
      | star => simp
      | any => simp
      | lit b => simp

end

end Klibc.Lib.Glob
