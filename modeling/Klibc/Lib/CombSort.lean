import Mathlib.Data.List.Count
import Mathlib.Data.List.Perm.Basic

/-! # Passes of exchanges

A pass over a list compares every element with the one `gap` places behind it, and exchanges the two
where they are out of order. It permutes the list (`Pass.perm`). A pass over neighbours that makes
an exchange leaves fewer inversions behind (`Pass.fewer`), and one without an exchange has found the
list in order (`Pass.ordered`). -/

namespace Klibc.Lib.CombSort

open List

variable {α : Type*} (gt : α → α → Bool)

def inversions : List α → ℕ
  | [] => 0
  | x :: l => l.countP (gt x) + inversions l

variable {gt} {l l' u v w : List α} {a b : α}

lemma inversions_append_lt (hperm : l'.Perm l) (h : inversions gt l' < inversions gt l)
    (u : List α) : inversions gt (u ++ l') < inversions gt (u ++ l) := by
  induction u with
  | nil => exact h
  | cons x u ih =>
    have hcount := (hperm.append_left u).countP_eq (gt x)
    simp only [cons_append, inversions]
    omega

lemma inversions_swap_lt (hgt : gt a b = true) (hasymm : gt b a = false) (w : List α) :
    inversions gt (b :: a :: w) < inversions gt (a :: b :: w) := by
  simp only [inversions, countP_cons, hgt, hasymm, if_true, if_false, Bool.false_eq_true]
  omega

lemma perm_exchange (u v w : List α) (a b : α) :
    (u ++ b :: (v ++ a :: w)).Perm (u ++ a :: (v ++ b :: w)) := by
  have hfront : (b :: (v ++ a :: w)).Perm (b :: a :: (v ++ w)) := perm_middle.cons b
  have hback : (a :: (v ++ b :: w)).Perm (a :: b :: (v ++ w)) := perm_middle.cons a
  exact (hfront.trans ((List.Perm.swap a b _).trans hback.symm)).append_left u

lemma exists_split {i gap : ℕ} (hgap : 0 < gap) (h : i + gap < l.length) :
    ∃ u a v b w, l = u ++ a :: (v ++ b :: w) ∧ u.length = i ∧ v.length + 1 = gap := by
  have hi : i < l.length := by omega
  have hlen : gap - 1 < (l.drop (i + 1)).length := by rw [length_drop]; omega
  refine ⟨l.take i, l[i], (l.drop (i + 1)).take (gap - 1), (l.drop (i + 1))[gap - 1],
    (l.drop (i + 1)).drop (gap - 1 + 1), ?_, ?_, ?_⟩
  · rw [getElem_cons_drop, take_append_drop, getElem_cons_drop, take_append_drop]
  · rw [length_take]; omega
  · rw [length_take]; omega

/-- A pass over `l` after its first `i` comparisons: what it has made of the list, and whether it
has exchanged anything. -/
structure Pass (gt : α → α → Bool) (gap i : ℕ) (l l' : List α) (swapped : Bool) : Prop where
  perm : l'.Perm l
  same : swapped = false → l' = l
  ordered : swapped = false → ∀ k < i, ∀ x y, l[k]? = some x → l[k + gap]? = some y → gt x y = false
  fewer : swapped = true → gap = 1 → inversions gt l' < inversions gt l

section
variable {gap i : ℕ} {swapped : Bool}

lemma Pass.start (gap : ℕ) (l : List α) : Pass gt gap 0 l l false where
  perm := List.Perm.refl l
  same _ := rfl
  ordered _ k hk := absurd hk (Nat.not_lt_zero k)
  fewer h := absurd h Bool.false_ne_true

/-- **An exchange.** -/
theorem Pass.exchange (h : Pass gt gap i l (u ++ a :: (v ++ b :: w)) swapped)
    (hv : v.length + 1 = gap) (hgt : gt a b = true) (hasymm : gt b a = false) :
    Pass gt gap (i + 1) l (u ++ b :: (v ++ a :: w)) true where
  perm := (perm_exchange u v w a b).trans h.perm
  same hs := absurd hs.symm Bool.false_ne_true
  ordered hs := absurd hs.symm Bool.false_ne_true
  fewer _ hgap := by
    obtain rfl : v = [] := length_eq_zero_iff.1 (by omega)
    have hlt := inversions_append_lt (List.Perm.swap a b w) (inversions_swap_lt hgt hasymm w) u
    cases swapped with
    | false => rwa [← h.same rfl]
    | true => exact Nat.lt_trans hlt (h.fewer rfl hgap)

/-- **A comparison without an exchange.** -/
theorem Pass.keep (h : Pass gt gap i l (u ++ a :: (v ++ b :: w)) swapped) (hu : u.length = i)
    (hv : v.length + 1 = gap) (hle : gt a b = false) :
    Pass gt gap (i + 1) l (u ++ a :: (v ++ b :: w)) swapped where
  perm := h.perm
  same := h.same
  ordered hs k hk x y hx hy := by
    rcases Nat.lt_succ_iff_lt_or_eq.1 hk with hlt | rfl
    · exact h.ordered hs k hlt x y hx hy
    · have hj : k + gap - u.length = v.length + 1 := by omega
      rw [← h.same hs, getElem?_append_right (by omega)] at hx hy
      rw [hu, Nat.sub_self, getElem?_cons_zero, Option.some.injEq] at hx
      rw [hj, getElem?_cons_succ, getElem?_append_right (Nat.le_refl _), Nat.sub_self,
        getElem?_cons_zero, Option.some.injEq] at hy
      rwa [← hx, ← hy]
  fewer := h.fewer

end

end Klibc.Lib.CombSort
