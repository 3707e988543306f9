import Mathlib.Data.List.Basic
import Mathlib.Data.Int.Notation

/-! # Parts of an array

Reading and overwriting a part of an array of fixed length. Positions and lengths are integers, as
in the code that computes them; there is no result if the part does not lie in the array. -/

namespace Klibc.Lib.Slice

open List

variable {α : Type*}

/-- The elements `l[i], …, l[i + n - 1]`. -/
def slice (l : List α) (i n : ℤ) : Option (List α) :=
  if 0 ≤ i ∧ 0 ≤ n ∧ i + n ≤ l.length then some ((l.drop i.toNat).take n.toNat) else none

/-- The array with `t` written from position `i` on. -/
def overwrite (l : List α) (i : ℤ) (t : List α) : Option (List α) :=
  if 0 ≤ i ∧ i + t.length ≤ l.length then
    some (l.take i.toNat ++ t ++ l.drop (i.toNat + t.length))
  else none

lemma slice_eq {l : List α} {i n : ℕ} (h : i + n ≤ l.length) :
    slice l i n = some ((l.drop i).take n) := by
  unfold slice
  rw [if_pos (by omega)]
  rfl

lemma take_drop_split (l : List α) (i : ℕ) {m n : ℕ} (h : m ≤ n) :
    (l.drop i).take m ++ (l.drop (i + m)).take (n - m) = (l.drop i).take n := by
  rw [← drop_drop, ← take_add, Nat.add_sub_cancel' h]

section
variable {l t : List α} {i : ℕ} (h : i + t.length ≤ l.length)
include h

lemma overwrite_eq : overwrite l i t = some (l.take i ++ t ++ l.drop (i + t.length)) := by
  unfold overwrite
  rw [if_pos (by omega)]
  rfl

lemma length_overwritten : (l.take i ++ t ++ l.drop (i + t.length)).length = l.length := by
  simp only [length_append, length_take, length_drop]
  omega

lemma take_overwritten :
    (l.take i ++ t ++ l.drop (i + t.length)).take (i + t.length) = l.take i ++ t := by
  have hlen : (l.take i ++ t).length = i + t.length := by
    simp only [length_append, length_take]
    omega
  exact take_left' hlen

lemma drop_overwritten :
    (l.take i ++ t ++ l.drop (i + t.length)).drop i = t ++ l.drop (i + t.length) := by
  have hlen : (l.take i).length = i := by
    simp only [length_take]
    omega
  rw [append_assoc]
  exact drop_left' hlen

end

end Klibc.Lib.Slice
