import Mathlib.Data.List.TakeWhile

/-! # Words of a text

The words of a text are its maximal runs without separators. They are found in one pass that only
knows whether the element before was a separator, and they become terminated strings in place when
the separator behind each of them is overwritten. -/

namespace Klibc.Lib.Words

open List

variable {α : Type} (sep : α → Bool)

/-- A word of a text, at its offset: no separator is in it, and it is not a part of a longer one. -/
structure IsWord (l : List α) (o : ℕ) (w : List α) : Prop where
  ne_nil : w ≠ []
  plain : ∀ c ∈ w, sep c = false
  split : ∃ pre post, l = pre ++ w ++ post ∧ pre.length = o ∧
    (∀ c ∈ pre.getLast?, sep c = true) ∧ ∀ c ∈ post.head?, sep c = true

/-- Where words begin in a text that begins at `p`, behind a separator or not. -/
def starts : Bool → ℕ → List α → List ℕ
  | _, _, [] => []
  | was, p, c :: cs =>
    if was = true ∧ sep c = false then p :: starts (sep c) (p + 1) cs
    else starts (sep c) (p + 1) cs

def words (l : List α) : List (ℕ × List α) :=
  (starts sep true 0 l).map fun o => (o, (l.drop o).takeWhile fun c => !sep c)

/-- The text with `z` in the place of each separator behind a word. -/
def cut (z : α) : Bool → List α → List α
  | _, [] => []
  | was, c :: cs => (if was = false ∧ sep c = true then z else c) :: cut z (sep c) cs

/-- Whether a separator is before what follows `l`. -/
def behind (was : Bool) (l : List α) : Bool := l.foldl (fun _ c => sep c) was

variable {sep}

section

variable {was : Bool} {p : ℕ} {z c : α} {l : List α}

lemma starts_sep (hc : sep c = true) : starts sep was p (c :: l) = starts sep true (p + 1) l := by
  rw [starts, if_neg (by simp [hc]), hc]

lemma starts_begin (hc : sep c = false) :
    starts sep true p (c :: l) = p :: starts sep false (p + 1) l := by
  rw [starts, if_pos ⟨rfl, hc⟩, hc]

lemma starts_inside (hc : sep c = false) :
    starts sep false p (c :: l) = starts sep false (p + 1) l := by
  rw [starts, if_neg (by simp), hc]

lemma cut_end (hc : sep c = true) : cut sep z false (c :: l) = z :: cut sep z true l := by
  rw [cut, if_pos ⟨rfl, hc⟩, hc]

lemma cut_sep (hc : sep c = true) : cut sep z true (c :: l) = c :: cut sep z true l := by
  rw [cut, if_neg (by simp), hc]

lemma cut_word_cons (hc : sep c = false) : cut sep z was (c :: l) = c :: cut sep z false l := by
  rw [cut, if_neg (by simp [hc]), hc]

end

/-! ### The words -/

variable {l : List α} {was : Bool} {z : α}

lemma behind_iff : behind sep true l = true ↔ ∀ c ∈ l.getLast?, sep c = true := by
  rcases eq_nil_or_concat l with rfl | ⟨l, c, rfl⟩
  · simp [behind]
  · simp [behind]

variable {w l : List α} {p o : ℕ}

lemma mem_starts :
    o ∈ starts sep was p l ↔ ∃ pre c post, l = pre ++ c :: post ∧ o = p + pre.length ∧
      sep c = false ∧ behind sep was pre = true := by
  induction l generalizing was p with
  | nil => simp [starts]
  | cons d l ih =>
    have hhead : o ∈ starts sep was p (d :: l) ↔
        (o = p ∧ was = true ∧ sep d = false) ∨ o ∈ starts sep (sep d) (p + 1) l := by
      rw [starts]
      split_ifs with h
      · rw [mem_cons, and_iff_left h]
      · rw [or_iff_right fun h' => h h'.2]
    rw [hhead, ih]
    constructor
    · rintro (⟨rfl, hwas, hd⟩ | ⟨pre, c, post, rfl, rfl, hc, hpre⟩)
      · exact ⟨[], d, l, rfl, rfl, hd, hwas⟩
      · exact ⟨d :: pre, c, post, rfl, by rw [length_cons]; omega, hc, hpre⟩
    · rintro ⟨pre, c, post, hl, rfl, hc, hpre⟩
      cases pre with
      | nil =>
        obtain ⟨rfl, rfl⟩ := List.cons.inj hl
        exact Or.inl ⟨rfl, hpre, hc⟩
      | cons e pre =>
        obtain ⟨rfl, rfl⟩ := List.cons.inj hl
        exact Or.inr ⟨pre, c, post, rfl, by rw [length_cons]; omega, hc, hpre⟩

/-- **The words of the list are the words of the text.** -/
theorem mem_words : (o, w) ∈ words sep l ↔ IsWord sep l o w := by
  rw [words, mem_map]
  constructor
  · rintro ⟨o, ho, he⟩
    cases he
    obtain ⟨pre, c, post, rfl, rfl, hc, hpre⟩ := mem_starts.1 ho
    rw [Nat.zero_add, drop_left, takeWhile_cons_of_pos (by rw [hc]; rfl)]
    refine ⟨cons_ne_nil _ _, ?_, pre, post.dropWhile (fun c => !sep c), ?_, rfl,
      behind_iff.1 hpre, ?_⟩
    · rintro d hd
      rcases mem_cons.1 hd with rfl | hd
      · exact hc
      · simpa using mem_takeWhile_imp hd
    · rw [append_assoc, cons_append, takeWhile_append_dropWhile]
    · intro d hd
      have hhead := head?_dropWhile_not (fun c => !sep c) post
      rw [Option.mem_def] at hd
      rw [hd] at hhead
      simpa using hhead
  · rintro ⟨hne, hplain, pre, post, rfl, rfl, hpre, hpost⟩
    obtain ⟨c, w, rfl⟩ := exists_cons_of_ne_nil hne
    refine ⟨pre.length, mem_starts.2 ⟨pre, c, w ++ post, ?_, ?_, ?_, behind_iff.2 hpre⟩, ?_⟩
    · rw [append_assoc, cons_append]
    · rw [Nat.zero_add]
    · exact hplain c mem_cons_self
    · have hword : ∀ d ∈ c :: w, (!sep d) = true := fun d hd => by rw [hplain d hd]; rfl
      have hstop : post.takeWhile (fun c => !sep c) = [] := by
        cases post with
        | nil => rfl
        | cons d post =>
          have hd : sep d = true := hpost d rfl
          exact takeWhile_cons_of_neg (by rw [hd]; exact Bool.false_ne_true)
      rw [append_assoc, drop_left, takeWhile_append_of_pos hword, hstop, append_nil]

lemma le_of_mem_starts (h : o ∈ starts sep was p l) : p ≤ o := by
  obtain ⟨pre, c, post, -, rfl, -⟩ := mem_starts.1 h
  exact Nat.le_add_right _ _

lemma starts_sorted : (starts sep was p l).Pairwise (· < ·) := by
  induction l generalizing was p with
  | nil => exact List.Pairwise.nil
  | cons c l ih =>
    rw [starts]
    split_ifs
    · exact pairwise_cons.2 ⟨fun o ho => le_of_mem_starts ho, ih⟩
    · exact ih

lemma words_sorted : (words sep l).Pairwise fun v w => v.1 < w.1 := by
  rw [words, pairwise_map]
  exact starts_sorted

lemma starts_add {n : ℕ} : starts sep was (p + n) l = (starts sep was p l).map (· + n) := by
  induction l generalizing was p with
  | nil => rfl
  | cons c l ih =>
    rw [starts, starts, show p + n + 1 = p + 1 + n by omega, ih]
    split_ifs <;> rfl

/-! ### The cut text -/

lemma length_cut : (cut sep z was l).length = l.length := by
  induction l generalizing was with
  | nil => rfl
  | cons c l ih => rw [cut, length_cons, length_cons, ih]

lemma cut_append {l' : List α} :
    cut sep z was (l ++ l') = cut sep z was l ++ cut sep z (behind sep was l) l' := by
  induction l generalizing was with
  | nil => rfl
  | cons c l ih =>
    rw [cons_append, cut, ih, cut]
    rfl

lemma cut_plain (h : ∀ c ∈ w, sep c = false) : cut sep z was w = w := by
  induction w generalizing was with
  | nil => rfl
  | cons c w ih => rw [cut_word_cons (h c mem_cons_self), ih fun d hd => h d (mem_cons_of_mem _ hd)]

lemma behind_plain (hne : w ≠ []) (h : ∀ c ∈ w, sep c = false) : behind sep was w = false := by
  rcases eq_nil_or_concat w with rfl | ⟨w, c, rfl⟩
  · exact absurd rfl hne
  · have hc : sep c = false := h c (by simp)
    simpa [behind] using hc

lemma cut_of_starts_nil (h : starts sep true p l = []) : cut sep z true l = l := by
  induction l generalizing p with
  | nil => rfl
  | cons c l ih =>
    cases hc : sep c with
    | false =>
      rw [starts_begin hc] at h
      cases h
    | true =>
      rw [starts_sep hc] at h
      rw [cut_sep hc, ih h]

/-- **In the cut text each word is terminated.** -/
theorem cut_word (h : IsWord sep l o w) :
    ((cut sep z true l ++ [z]).drop o).take (w.length + 1) = w ++ [z] := by
  obtain ⟨hne, hplain, pre, post, rfl, rfl, -, hpost⟩ := h
  have hbehind : behind sep true (pre ++ w) = false := by
    rw [behind, foldl_append]
    exact behind_plain hne hplain
  have hnext : (cut sep z false post ++ [z]).take 1 = [z] := by
    cases post with
    | nil => rfl
    | cons d post =>
      have hd : sep d = true := hpost d rfl
      rw [cut, if_pos ⟨rfl, hd⟩]
      rfl
  rw [cut_append, cut_append, hbehind, cut_plain hplain, append_assoc, append_assoc,
    drop_left' length_cut, take_length_add_append, hnext]

end Klibc.Lib.Words
