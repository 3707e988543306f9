import Mathlib.Data.Nat.ModEq
import Mathlib.Tactic.Ring

/-! # One's complement sums

Addition with end-around carry on numbers of `w` bits: the carry out of the sum is added to it
again. It keeps the value modulo `2 ^ w - 1`, and a sum of numbers is 0 only if all of them are. A
program that adds in a wider word and folds the carries in at the end gets the same sum
(`fold_fold_eq_sum`). -/

namespace Klibc.Lib.OnesComplement

variable {w a b s : ℕ} {l : List ℕ}

/-- The carries of a sum, added to its low bits. -/
def fold (w s : ℕ) : ℕ := s % 2 ^ w + s / 2 ^ w

def add (w a b : ℕ) : ℕ := fold w (a + b)

/-- **The one's complement sum.** -/
def sum (w : ℕ) (l : List ℕ) : ℕ := l.foldl (add w) 0

/-! ### Folding -/

lemma fold_modEq (w s : ℕ) : fold w s ≡ s [MOD 2 ^ w - 1] := by
  have hpow : 1 ≤ 2 ^ w := Nat.one_le_two_pow
  have hone : 2 ^ w ≡ 1 [MOD 2 ^ w - 1] := ((Nat.modEq_iff_dvd' hpow).2 dvd_rfl).symm
  calc fold w s = s % 2 ^ w + 1 * (s / 2 ^ w) := by rw [fold, one_mul]
    _ ≡ s % 2 ^ w + 2 ^ w * (s / 2 ^ w) [MOD 2 ^ w - 1] := (hone.symm.mul_right _).add_left _
    _ = s := Nat.mod_add_div s (2 ^ w)

lemma fold_eq_zero_iff : fold w s = 0 ↔ s = 0 := by
  constructor
  · intro h
    obtain ⟨hmod, hdiv⟩ := Nat.add_eq_zero_iff.1 h
    rw [← Nat.mod_add_div s (2 ^ w), hmod, hdiv, mul_zero, add_zero]
  · rintro rfl
    simp [fold]

lemma fold_lt (h : s ≤ 2 * (2 ^ w - 1)) : fold w s < 2 ^ w := by
  have hpow : 0 < 2 ^ w := Nat.two_pow_pos w
  have hsplit := Nat.mod_add_div s (2 ^ w)
  have hmod := Nat.mod_lt s hpow
  have hcarry : s / 2 ^ w < 2 := Nat.div_lt_of_lt_mul (by omega)
  unfold fold
  obtain hdiv | hdiv := Nat.le_one_iff_eq_zero_or_eq_one.1 (Nat.lt_succ_iff.1 hcarry)
  · rw [hdiv]
    omega
  · rw [hdiv] at hsplit ⊢
    omega

lemma add_lt (ha : a < 2 ^ w) (hb : b < 2 ^ w) : add w a b < 2 ^ w := fold_lt (by omega)

/-- **Two folds suffice** for a sum of twice the width. -/
theorem fold_fold_lt (h : s < 2 ^ (2 * w)) : fold w (fold w s) < 2 ^ w := by
  have hmod := Nat.mod_lt s (Nat.two_pow_pos w)
  have hdiv : s / 2 ^ w < 2 ^ w := by
    refine Nat.div_lt_of_lt_mul ?_
    rwa [← pow_add, ← two_mul]
  refine fold_lt ?_
  unfold fold
  omega

lemma eq_of_modEq (ha : a < 2 ^ w) (hb : b < 2 ^ w) (h : a ≡ b [MOD 2 ^ w - 1])
    (hzero : a = 0 ↔ b = 0) : a = b := by
  by_cases ha0 : a = 0
  · rw [ha0, hzero.1 ha0]
  have hb0 : b ≠ 0 := fun hb0 => ha0 (hzero.2 hb0)
  -- Below, the residues are told apart.
  have hshift : a - 1 ≡ b - 1 [MOD 2 ^ w - 1] := by
    refine Nat.ModEq.add_right_cancel' 1 ?_
    rwa [Nat.sub_add_cancel (by omega), Nat.sub_add_cancel (by omega)]
  have := Nat.ModEq.eq_of_lt_of_lt hshift (by omega) (by omega)
  omega

/-! ### Sums -/

lemma foldl_add (l : List ℕ) : ∀ a < 2 ^ w, (∀ x ∈ l, x < 2 ^ w) →
    l.foldl (add w) a < 2 ^ w ∧ l.foldl (add w) a ≡ a + l.sum [MOD 2 ^ w - 1] ∧
      (l.foldl (add w) a = 0 ↔ a + l.sum = 0) := by
  induction l with
  | nil =>
    intro a ha _
    exact ⟨ha, Nat.ModEq.rfl, Iff.rfl⟩
  | cons x l ih =>
    intro a ha hl
    have hx := hl x List.mem_cons_self
    obtain ⟨hlt, hmod, hzero⟩ :=
      ih (add w a x) (add_lt ha hx) fun y hy => hl y (List.mem_cons_of_mem x hy)
    refine ⟨hlt, ?_, ?_⟩
    · rw [List.sum_cons, ← add_assoc]
      exact hmod.trans ((fold_modEq w (a + x)).add_right _)
    · have hfold : add w a x = 0 ↔ a + x = 0 := fold_eq_zero_iff
      rw [List.foldl_cons, hzero, List.sum_cons]
      omega

variable (hl : ∀ x ∈ l, x < 2 ^ w)
include hl

lemma sum_lt : sum w l < 2 ^ w := (foldl_add l 0 (Nat.two_pow_pos w) hl).1

lemma sum_modEq : sum w l ≡ l.sum [MOD 2 ^ w - 1] := by
  simpa [sum] using (foldl_add l 0 (Nat.two_pow_pos w) hl).2.1

lemma sum_eq_zero_iff : sum w l = 0 ↔ l.sum = 0 := by
  simpa [sum] using (foldl_add l 0 (Nat.two_pow_pos w) hl).2.2

/-- **Folding at the end** gives the one's complement sum. -/
theorem fold_fold_eq_sum (h : l.sum < 2 ^ (2 * w)) : fold w (fold w l.sum) = sum w l := by
  refine eq_of_modEq (fold_fold_lt h) (sum_lt hl) ?_ ?_
  · exact ((fold_modEq w _).trans (fold_modEq w _)).trans (sum_modEq hl).symm
  · rw [fold_eq_zero_iff, fold_eq_zero_iff, sum_eq_zero_iff hl]

/-- **A sum of all ones**: not every number is 0, and the residue is. -/
theorem sum_eq_ones_iff (hw : 0 < w) :
    sum w l = 2 ^ w - 1 ↔ l.sum ≠ 0 ∧ l.sum ≡ 0 [MOD 2 ^ w - 1] := by
  have hpow : 2 ≤ 2 ^ w := Nat.le_self_pow hw.ne' 2
  have hones : 2 ^ w - 1 ≡ 0 [MOD 2 ^ w - 1] := (Nat.modEq_zero_iff_dvd).2 dvd_rfl
  constructor
  · intro h
    refine ⟨fun h0 => ?_, ?_⟩
    · rw [(sum_eq_zero_iff hl).2 h0] at h
      omega
    · have hmod := sum_modEq hl
      rw [h] at hmod
      exact hmod.symm.trans hones
  · rintro ⟨h0, hmod⟩
    refine eq_of_modEq (sum_lt hl) (by omega) ?_ ?_
    · exact ((sum_modEq hl).trans hmod).trans hones.symm
    · rw [sum_eq_zero_iff hl]
      exact ⟨fun h => absurd h h0, fun h => by omega⟩

end Klibc.Lib.OnesComplement
