import Klibc.Stdio.FormatInt
import Mathlib.Data.Nat.Digits.Lemmas

/-! # The digits of `format_int`

Without tick marks, `format_int` writes the digits of the magnitude in its base, with zeros in front
of them up to `ndigits` (`digitText_eq`). -/

namespace Klibc.Stdio.Digits

open Vsnprintf FormatInt List

/-- The digits of `v`, the most significant one first, with `k` zeros in front. -/
def numeral (base k v : ℕ) : List ℕ := List.replicate k 0 ++ (Nat.digits base v).reverse

def horner (base : ℕ) (ds : List ℕ) : ℕ := ds.foldl (fun m d => m * base + d) 0

lemma horner_numeral (base k v : ℕ) : horner base (numeral base k v) = v := by
  have hzeros : (List.replicate k 0).foldl (fun m d => m * base + d) 0 = 0 := by
    induction k with
    | zero => rfl
    | succ k ih => rwa [replicate_succ, foldl_cons, Nat.zero_mul]
  rw [horner, numeral, foldl_append, hzeros, foldl_reverse]
  refine Eq.trans ?_ (Nat.ofDigits_digits base v)
  rw [Nat.ofDigits_eq_foldr]
  congr 1
  funext d m
  rw [Nat.cast_id, Nat.mul_comm, Nat.add_comm]

lemma numeral_lt_base {base : ℕ} (hb : 1 < base) (k v : ℕ) : ∀ d ∈ numeral base k v, d < base := by
  intro d hd
  rcases mem_append.1 hd with hd | hd
  · rw [eq_of_mem_replicate hd]
    omega
  · exact Nat.digits_lt_base hb (mem_reverse.1 hd)

/-! ### The value -/

def argument (p : IntSpec) : ℤ := if p.flags.signed then p.val.toInt else p.val.toNat

lemma minus_iff (p : IntSpec) : p.minus ↔ argument p < 0 := by
  unfold IntSpec.minus argument
  cases p.flags.signed with
  | true => simp [BitVec.msb_eq_toInt]
  | false => simp

lemma magnitude_eq (p : IntSpec) : p.magnitude = (argument p).natAbs := by
  have hval := p.val.isLt
  have hcond := BitVec.toInt_eq_toNat_cond p.val
  have hminus := minus_iff p
  unfold IntSpec.magnitude
  unfold argument at hminus ⊢
  cases hsigned : p.flags.signed with
  | true =>
    simp only [hsigned, if_true] at hminus ⊢
    split_ifs with hneg
    · have := hminus.1 hneg
      rw [BitVec.toNat_neg]
      split_ifs at hcond <;> omega
    · have := mt hminus.2 hneg
      split_ifs at hcond <;> omega
  | false =>
    simp only [hsigned, Bool.false_eq_true, if_false] at hminus ⊢
    rw [if_neg fun hneg => absurd (hminus.1 hneg) (by omega), Int.natAbs_natCast]

/-! ### The digits -/

section
variable {base : ℕ} (hb : 1 < base)
include hb

lemma digits_of_ne_zero {v : ℕ} (hv : v ≠ 0) :
    Nat.digits base v = v % base :: Nat.digits base (v / base) :=
  Nat.digits_def' hb (Nat.pos_of_ne_zero hv)

lemma countDigits_eq : ∀ (fuel v : ℕ), v < base ^ fuel →
    countDigits base fuel v = (Nat.digits base v).length
  | 0, v, hv => by
    obtain rfl : v = 0 := by simpa using hv
    simp [countDigits]
  | fuel + 1, v, hv => by
    by_cases h0 : v = 0
    · simp [countDigits, h0]
    · have hdiv : v / base < base ^ fuel := Nat.div_lt_of_lt_mul (by rwa [pow_succ'] at hv)
      rw [countDigits, if_neg h0, countDigits_eq fuel _ hdiv, digits_of_ne_zero hb h0, length_cons]
      push_cast
      rfl

end

section
variable {p : IntSpec}

lemma revDigits_eq (hb : 1 < p.base) : ∀ (k b v : ℕ), k ≤ b →
    (Nat.digits p.base v).length ≤ k → revDigits p k b v =
      (Nat.digits p.base v ++ List.replicate (k - (Nat.digits p.base v).length) 0).map
        (digitChar p.flags.upper)
  | 0, b, v, _, hlen => by
    have hnil : Nat.digits p.base v = [] := eq_nil_of_length_eq_zero (by omega)
    simp [revDigits, hnil]
  | k + 1, b, v, hkb, hlen => by
    obtain ⟨b, rfl⟩ : ∃ c, b = c + 1 := ⟨b - 1, by omega⟩
    rw [revDigits]
    by_cases h0 : v = 0
    · subst h0
      rw [Nat.zero_mod, Nat.zero_div, revDigits_eq hb k b 0 (by omega) (by simp)]
      simp [replicate_succ]
    · rw [digits_of_ne_zero hb h0] at hlen ⊢
      rw [length_cons] at hlen
      rw [revDigits_eq hb k b _ (by omega) (by omega), cons_append, map_cons,
        length_cons, Nat.add_sub_add_right]

lemma magnitude_lt (p : IntSpec) : p.magnitude < 2 ^ 64 := by
  unfold IntSpec.magnitude
  split_ifs <;> exact BitVec.isLt _

lemma magnitude_lt_pow (hb : 1 < p.base) : p.magnitude < p.base ^ 64 :=
  lt_of_lt_of_le (magnitude_lt p) (Nat.pow_le_pow_left hb 64)

lemma length_digits_le_ndigits (hb : 1 < p.base) :
    (Nat.digits p.base p.magnitude).length ≤ p.ndigits := by
  unfold IntSpec.ndigits
  rw [countDigits_eq hb 64 _ (magnitude_lt_pow hb)]
  dsimp only
  split_ifs with _ _ h0 _ h0
  all_goals first | omega | simp [h0]

/-- **The digits that are written**, if there are no tick marks. -/
theorem digitText_eq (hb : 1 < p.base) (htick : p.flags.tick = false) :
    digitText p = (numeral p.base (p.ndigits.toNat - (Nat.digits p.base p.magnitude).length)
      p.magnitude).map (digitChar p.flags.upper) := by
  have hlen := length_digits_le_ndigits hb
  have hskip : p.tickskip = p.ndigits := by simp [IntSpec.tickskip, htick]
  rw [digitText, hskip, revDigits_eq hb _ _ _ le_rfl (by omega), numeral, ← map_reverse,
    reverse_append, reverse_replicate]

end

end Klibc.Stdio.Digits
