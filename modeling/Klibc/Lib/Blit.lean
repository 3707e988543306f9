import Mathlib.Data.List.Basic
import Mathlib.Data.Int.Notation
import Mathlib.Logic.Function.Basic

/-! # Memory written so far

A buffer whose old contents do not matter is a function to `Option`: `none` where nothing was
written. `blit m q t` is the memory after the bytes `t` were written from address `q` on. -/

namespace Klibc.Lib.Blit

variable {α : Type*}

/-- The memory `m` with `t` written at `q`. -/
def blit (m : ℤ → Option α) (q : ℤ) (t : List α) : ℤ → Option α := fun i =>
  if 0 ≤ i - q ∧ i - q < t.length then t[(i - q).toNat]? else m i

variable {m : ℤ → Option α} {q : ℤ}

@[simp]
lemma blit_nil (m : ℤ → Option α) (q : ℤ) : blit m q [] = m := by
  funext i
  exact if_neg (by simp only [List.length_nil]; omega)

lemma blit_of_not {t : List α} {i : ℤ} (h : i < q ∨ q + t.length ≤ i) : blit m q t i = m i :=
  if_neg (by omega)

lemma blit_of_mem {t : List α} {i : ℤ} (h0 : q ≤ i) (h1 : i < q + t.length) :
    blit m q t i = t[(i - q).toNat]? := if_pos (by omega)

lemma blit_append (m : ℤ → Option α) (q : ℤ) (a b : List α) :
    blit (blit m q a) (q + a.length) b = blit m q (a ++ b) := by
  funext i
  by_cases h1 : q ≤ i ∧ i < q + a.length
  · rw [blit_of_not (by omega), blit_of_mem h1.1 h1.2,
      blit_of_mem h1.1 (by simp only [List.length_append]; omega),
      List.getElem?_append_left (by omega)]
  · by_cases h2 : q + a.length ≤ i ∧ i < q + a.length + b.length
    · rw [blit_of_mem h2.1 h2.2,
        blit_of_mem (by omega) (by simp only [List.length_append]; omega),
        List.getElem?_append_right (by omega)]
      congr 1
      omega
    · rw [blit_of_not (by omega), blit_of_not (by omega),
        blit_of_not (by simp only [List.length_append]; omega)]

lemma blit_singleton (m : ℤ → Option α) (q : ℤ) (x : α) :
    blit m q [x] = Function.update m q (some x) := by
  funext i
  by_cases h : i = q
  · subst h
    simp [blit]
  · rw [blit_of_not (by simp only [List.length_singleton]; omega), Function.update_of_ne h]

lemma blit_cons_below (m : ℤ → Option α) (q : ℤ) (t : List α) (x : α) :
    blit (Function.update m (q + t.length) (some x)) q t = blit m q (t ++ [x]) := by
  rw [← blit_append, blit_singleton]
  funext i
  by_cases h : i = q + t.length
  · subst h
    rw [blit_of_not (by omega), Function.update_self, Function.update_self]
  · rw [Function.update_of_ne h]
    by_cases h1 : q ≤ i ∧ i < q + t.length
    · rw [blit_of_mem h1.1 h1.2, blit_of_mem h1.1 h1.2]
    · rw [blit_of_not (by omega), blit_of_not (by omega), Function.update_of_ne h]

end Klibc.Lib.Blit
