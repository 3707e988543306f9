import Mathlib.Tactic.Common

/-! # Shifts of 64 bits on machines of 32

`__ashldi3`, `__lshrdi3` and `__ashrdi3` shift the two halves of a number and carry the bits from
one to the other with the complementary count. C leaves a shift by the width of a word undefined,
and the complementary count of 0 is such a shift. -/

namespace Klibc.Libgcc.Shifts

open BitVec

/-! ### The code -/

/-- `v << c` for a `uint32_t`; `none` where C leaves it undefined. -/
def shl (v c : BitVec 32) : Option (BitVec 32) :=
  if c.toNat < 32 then some (v <<< c.toNat) else none

/-- `v >> c` for a `uint32_t`. -/
def shr (v c : BitVec 32) : Option (BitVec 32) :=
  if c.toNat < 32 then some (v >>> c.toNat) else none

/-- `(int32_t) v >> c`. -/
def sar (v c : BitVec 32) : Option (BitVec 32) :=
  if c.toNat < 32 then some (v.sshiftRight c.toNat) else none

/-- `(uint32_t) v`. -/
def low (v : BitVec 64) : BitVec 32 := v.setWidth 32

/-- `(uint32_t) (v >> 32)`. -/
def high (v : BitVec 64) : BitVec 32 := (v >>> 32).setWidth 32

/-- `((uint64_t) vh << 32) + vl`. -/
def combine (vh vl : BitVec 32) : BitVec 64 := (vh.setWidth 64 <<< 32) + vl.setWidth 64

/-- `__ashldi3`. -/
def ashldi3 (v : BitVec 64) (cnt : BitVec 32) : Option (BitVec 64) := do
  let c := cnt &&& 31
  let vl := low v
  let vh := high v
  if cnt &&& 32 ≠ 0 then
    let vh ← shl vl c
    return combine vh 0
  else
    let up ← shl vh c
    let carry ← shr vl (32 - c)
    let vl ← shl vl c
    return combine (up + carry) vl

/-- `__lshrdi3`. -/
def lshrdi3 (v : BitVec 64) (cnt : BitVec 32) : Option (BitVec 64) := do
  let c := cnt &&& 31
  let vl := low v
  let vh := high v
  if cnt &&& 32 ≠ 0 then
    let vl ← shr vh c
    return combine 0 vl
  else
    let down ← shr vl c
    let carry ← shl vh (32 - c)
    let vh ← shr vh c
    return combine vh (down + carry)

/-- `__ashrdi3`. -/
def ashrdi3 (v : BitVec 64) (cnt : BitVec 32) : Option (BitVec 64) := do
  let c := cnt &&& 31
  let vl := low v
  let vh := high v
  if cnt &&& 32 ≠ 0 then
    let vl ← sar vh c
    let vh ← sar vh 31
    return combine vh vl
  else
    let down ← shr vl c
    let carry ← shl vh (32 - c)
    let vh ← sar vh c
    return combine vh (down + carry)

/-! ### The halves -/

lemma getLsbD_low (v : BitVec 64) (i : ℕ) :
    (low v).getLsbD i = (decide (i < 32) && v.getLsbD i) := by
  rw [low, getLsbD_setWidth]

lemma getLsbD_high (v : BitVec 64) (i : ℕ) :
    (high v).getLsbD i = (decide (i < 32) && v.getLsbD (32 + i)) := by
  rw [high, getLsbD_setWidth, getLsbD_ushiftRight]

lemma msb_high (v : BitVec 64) : (high v).msb = v.msb := by
  rw [msb_eq_getLsbD_last, msb_eq_getLsbD_last, getLsbD_high]
  rfl

lemma getLsbD_combine (vh vl : BitVec 32) (i : ℕ) :
    (combine vh vl).getLsbD i = if i < 32 then vl.getLsbD i else vh.getLsbD (i - 32) := by
  have hvl : ∀ j, 32 ≤ j → vl.getLsbD j = false := fun j hj => getLsbD_of_ge vl j hj
  have hvh : ∀ j, 32 ≤ j → vh.getLsbD j = false := fun j hj => getLsbD_of_ge vh j hj
  have hdisjoint : vh.setWidth 64 <<< 32 &&& vl.setWidth 64 = 0#64 := by
    refine eq_of_getLsbD_eq fun j hj => ?_
    by_cases hlow : j < 32
    · simp [hlow]
    · simp [hvl j (by omega)]
  rw [combine, add_eq_or_of_and_eq_zero _ _ hdisjoint]
  by_cases hi : i < 32
  · simp [hi, show i < 64 by omega]
  by_cases htop : i < 64
  · simp [hi, htop, hvl i (by omega)]
  · simp [hi, htop, hvh (i - 32) (by omega)]

lemma getLsbD_add_of_disjoint {a b : BitVec 32} (h : ∀ i, (a.getLsbD i && b.getLsbD i) = false)
    (i : ℕ) : (a + b).getLsbD i = (a.getLsbD i || b.getLsbD i) := by
  have hand : a &&& b = 0#32 := eq_of_getLsbD_eq fun j _ => by rw [getLsbD_and, h j, getLsbD_zero]
  rw [add_eq_or_of_and_eq_zero _ _ hand, getLsbD_or]

/-! ### The counts -/

section
variable {cnt : BitVec 32}

lemma toNat_and_31 (cnt : BitVec 32) : (cnt &&& 31).toNat = cnt.toNat % 32 := by
  rw [toNat_and]
  exact Nat.and_two_pow_sub_one_eq_mod cnt.toNat 5

lemma toNat_complement (cnt : BitVec 32) : (32 - (cnt &&& 31)).toNat = 32 - cnt.toNat % 32 := by
  have hc := toNat_and_31 cnt
  have hlt : cnt.toNat % 32 < 32 := Nat.mod_lt _ (by decide)
  rw [toNat_sub_of_le, hc]
  · rfl
  · rw [le_def, hc]
    exact Nat.le_of_lt hlt

lemma and_32_ne_zero_iff (h : cnt.toNat < 64) : cnt &&& 32 ≠ 0 ↔ 32 ≤ cnt.toNat := by
  have hall : ∀ n < 64, n &&& 32 ≠ 0 ↔ 32 ≤ n := by decide
  rw [← hall cnt.toNat h, ne_eq, ne_eq, ← toNat_inj, toNat_and]
  rfl

end

/-! ### The shifts -/

section
variable {n : ℕ}

section
variable (v : BitVec 64)
include v

lemma combine_shl_of_le (hn : 32 ≤ n) : combine (low v <<< (n - 32)) 0 = v <<< n := by
  refine eq_of_getLsbD_eq fun i hi => ?_
  rw [getLsbD_combine, getLsbD_shiftLeft, getLsbD_shiftLeft, getLsbD_low]
  by_cases hlow : i < 32
  · simp [hlow, show i < n by omega]
  by_cases hin : i < n
  · simp [hlow, hin, show i - 32 < n - 32 by omega]
  · have hsub : i - 32 - (n - 32) = i - n := by omega
    simp [hlow, hin, hi, hsub, show i - 32 < 32 by omega, show ¬i - 32 < n - 32 by omega,
      show i - n < 32 by omega]

lemma combine_shl_of_lt (hn : n < 32) :
    combine (high v <<< n + low v >>> (32 - n)) (low v <<< n) = v <<< n := by
  have hdisjoint : ∀ i, ((high v <<< n).getLsbD i && (low v >>> (32 - n)).getLsbD i) = false := by
    intro i
    rw [getLsbD_shiftLeft, getLsbD_ushiftRight, getLsbD_low]
    by_cases hin : i < n
    · simp [hin]
    · simp [show ¬32 - n + i < 32 by omega]
  refine eq_of_getLsbD_eq fun i hi => ?_
  rw [getLsbD_combine, getLsbD_add_of_disjoint hdisjoint]
  simp only [getLsbD_shiftLeft, getLsbD_ushiftRight, getLsbD_low, getLsbD_high]
  by_cases hlow : i < 32
  · simp [hlow, hi, show i - n < 32 by omega]
  by_cases hin : i - 32 < n
  · have hsub : 32 - n + (i - 32) = i - n := by omega
    simp [hlow, hin, hi, hsub, show ¬i < n by omega, show i - n < 32 by omega]
  · have hsub : 32 + (i - 32 - n) = i - n := by omega
    simp [hlow, hin, hi, hsub, show ¬i < n by omega, show i - 32 < 32 by omega,
      show i - 32 - n < 32 by omega, show ¬32 - n + (i - 32) < 32 by omega]

lemma getLsbD_carry_down (hn : n < 32) {i : ℕ} (hi : i < 32) :
    (low v >>> n + high v <<< (32 - n)).getLsbD i = v.getLsbD (n + i) := by
  have hdisjoint : ∀ j, ((low v >>> n).getLsbD j && (high v <<< (32 - n)).getLsbD j) = false := by
    intro j
    rw [getLsbD_ushiftRight, getLsbD_shiftLeft, getLsbD_low]
    by_cases hj : n + j < 32
    · simp [show j < 32 - n by omega]
    · simp [hj]
  rw [getLsbD_add_of_disjoint hdisjoint]
  simp only [getLsbD_shiftLeft, getLsbD_ushiftRight, getLsbD_low, getLsbD_high]
  by_cases hlow : n + i < 32
  · simp [hlow, show i < 32 - n by omega]
  · have hsub : 32 + (i - (32 - n)) = n + i := by omega
    simp [hlow, hi, hsub, show ¬i < 32 - n by omega, show i - (32 - n) < 32 by omega]

lemma combine_shr_of_le (hn : 32 ≤ n) : combine 0 (high v >>> (n - 32)) = v >>> n := by
  refine eq_of_getLsbD_eq fun i hi => ?_
  have hsub : 32 + (n - 32 + i) = n + i := by omega
  rw [getLsbD_combine, getLsbD_ushiftRight, getLsbD_ushiftRight, getLsbD_high, hsub]
  by_cases hlow : n + i < 64
  · simp [show i < 32 by omega, show n - 32 + i < 32 by omega]
  · simp [getLsbD_of_ge v (n + i) (by omega)]

lemma combine_shr_of_lt (hn : n < 32) :
    combine (high v >>> n) (low v >>> n + high v <<< (32 - n)) = v >>> n := by
  refine eq_of_getLsbD_eq fun i hi => ?_
  rw [getLsbD_combine, getLsbD_ushiftRight, getLsbD_ushiftRight, getLsbD_high]
  by_cases hlow : i < 32
  · rw [if_pos hlow, getLsbD_carry_down v hn hlow]
  have hsub : 32 + (n + (i - 32)) = n + i := by omega
  rw [if_neg hlow, hsub]
  by_cases hin : n + (i - 32) < 32
  · simp [hin]
  · simp [getLsbD_of_ge v (n + i) (by omega)]

end

lemma getLsbD_sar_of_lt {w i : ℕ} (v : BitVec w) (hi : i < w) :
    (v.sshiftRight n).getLsbD i = if n + i < w then v.getLsbD (n + i) else v.msb := by
  rw [getLsbD_sshiftRight, decide_eq_false (Nat.not_le.2 hi), Bool.not_false, Bool.true_and]

lemma combine_sar_of_le (v : BitVec 64) (hn : 32 ≤ n) :
    combine ((high v).sshiftRight 31) ((high v).sshiftRight (n - 32)) = v.sshiftRight n := by
  refine eq_of_getLsbD_eq fun i hi => ?_
  rw [getLsbD_combine, getLsbD_sar_of_lt v hi]
  by_cases hlow : i < 32
  · have hsub : 32 + (n - 32 + i) = n + i := by omega
    rw [if_pos hlow, getLsbD_sar_of_lt _ hlow, getLsbD_high, msb_high, hsub]
    by_cases hin : n + i < 64
    · rw [if_pos (by omega), if_pos hin, decide_eq_true (by omega), Bool.true_and]
    · rw [if_neg (by omega), if_neg hin]
  rw [if_neg hlow, getLsbD_sar_of_lt _ (by omega), getLsbD_high, msb_high,
    if_neg (show ¬n + i < 64 by omega)]
  by_cases hfirst : i = 32
  · rw [hfirst, msb_eq_getLsbD_last v]
    rfl
  · rw [if_neg (by omega)]

lemma combine_sar_of_lt (v : BitVec 64) (hn : n < 32) :
    combine ((high v).sshiftRight n) (low v >>> n + high v <<< (32 - n)) = v.sshiftRight n := by
  refine eq_of_getLsbD_eq fun i hi => ?_
  rw [getLsbD_combine, getLsbD_sar_of_lt v hi]
  by_cases hlow : i < 32
  · rw [if_pos hlow, getLsbD_carry_down v hn hlow, if_pos (by omega)]
  have hsub : 32 + (n + (i - 32)) = n + i := by omega
  rw [if_neg hlow, getLsbD_sar_of_lt _ (by omega), getLsbD_high, msb_high, hsub]
  by_cases hin : n + i < 64
  · rw [if_pos (by omega), if_pos hin, decide_eq_true (by omega), Bool.true_and]
  · rw [if_neg (by omega), if_neg hin]

end

section
variable {cnt : BitVec 32}

section
variable (v : BitVec 32) {c : BitVec 32} (h : c.toNat < 32)
include v h

lemma shl_of_lt : shl v c = some (v <<< c.toNat) := if_pos h

lemma shr_of_lt : shr v c = some (v >>> c.toNat) := if_pos h

lemma sar_of_lt : sar v c = some (v.sshiftRight c.toNat) := if_pos h

end

lemma count_cases (hcnt : cnt.toNat < 64) :
    (32 ≤ cnt.toNat ∧ cnt &&& 32 ≠ 0 ∧ (cnt &&& 31).toNat = cnt.toNat - 32) ∨
      (cnt.toNat < 32 ∧ ¬cnt &&& 32 ≠ 0 ∧ (cnt &&& 31).toNat = cnt.toNat ∧
        (32 - (cnt &&& 31)).toNat = 32 - cnt.toNat) := by
  have hc := toNat_and_31 cnt
  have hcomp := toNat_complement cnt
  rcases Nat.lt_or_ge cnt.toNat 32 with hlt | hge
  · rw [Nat.mod_eq_of_lt hlt] at hc hcomp
    exact .inr ⟨hlt, fun h => absurd ((and_32_ne_zero_iff hcnt).1 h) (by omega), hc, hcomp⟩
  · exact .inl ⟨hge, (and_32_ne_zero_iff hcnt).2 hge, by omega⟩

section
variable (v : BitVec 64) (hcnt : cnt.toNat < 64) (hpos : cnt.toNat ≠ 0)
include v hcnt hpos

lemma ashldi3_eq : ashldi3 v cnt = some (v <<< cnt.toNat) := by
  rw [ashldi3]
  rcases count_cases hcnt with ⟨hge, hbit, hc⟩ | ⟨hlt, hbit, hc, hcomp⟩
  · rw [if_pos hbit, shl_of_lt _ (by omega), hc]
    exact congrArg some (combine_shl_of_le v hge)
  · rw [if_neg hbit, shl_of_lt _ (by omega), shr_of_lt _ (by omega), shl_of_lt _ (by omega), hcomp,
      hc]
    exact congrArg some (combine_shl_of_lt v hlt)

lemma lshrdi3_eq : lshrdi3 v cnt = some (v >>> cnt.toNat) := by
  rw [lshrdi3]
  rcases count_cases hcnt with ⟨hge, hbit, hc⟩ | ⟨hlt, hbit, hc, hcomp⟩
  · rw [if_pos hbit, shr_of_lt _ (by omega), hc]
    exact congrArg some (combine_shr_of_le v hge)
  · rw [if_neg hbit, shr_of_lt _ (by omega), shl_of_lt _ (by omega), shr_of_lt _ (by omega), hcomp,
      hc]
    exact congrArg some (combine_shr_of_lt v hlt)

lemma ashrdi3_eq : ashrdi3 v cnt = some (v.sshiftRight cnt.toNat) := by
  rw [ashrdi3]
  rcases count_cases hcnt with ⟨hge, hbit, hc⟩ | ⟨hlt, hbit, hc, hcomp⟩
  · rw [if_pos hbit, sar_of_lt _ (by omega), sar_of_lt _ (by decide), hc]
    exact congrArg some (combine_sar_of_le v hge)
  · rw [if_neg hbit, shr_of_lt _ (by omega), shl_of_lt _ (by omega), sar_of_lt _ (by omega), hcomp,
      hc]
    exact congrArg some (combine_sar_of_lt v hlt)

end

lemma undefined_at_zero (v : BitVec 64) :
    ashldi3 v 0 = none ∧ lshrdi3 v 0 = none ∧ ashrdi3 v 0 = none :=
  ⟨rfl, rfl, rfl⟩

end

/-- **The shifts** are those of 64 bits, without an undefined one, iff the count is not 0. -/
theorem shifts_iff (v : BitVec 64) (cnt : BitVec 32) (hcnt : cnt.toNat < 64) :
    (ashldi3 v cnt = some (v <<< cnt.toNat) ↔ cnt ≠ 0) ∧
      (lshrdi3 v cnt = some (v >>> cnt.toNat) ↔ cnt ≠ 0) ∧
      (ashrdi3 v cnt = some (v.sshiftRight cnt.toNat) ↔ cnt ≠ 0) := by
  by_cases hzero : cnt = 0
  · obtain ⟨hl, hr, ha⟩ := undefined_at_zero v
    rw [hzero, hl, hr, ha]
    simp
  · have hpos : cnt.toNat ≠ 0 := fun h => hzero (eq_of_toNat_eq h)
    exact ⟨iff_of_true (ashldi3_eq v hcnt hpos) hzero, iff_of_true (lshrdi3_eq v hcnt hpos) hzero,
      iff_of_true (ashrdi3_eq v hcnt hpos) hzero⟩

/-- A count of 31 on a negative number. -/
theorem shifts_iff_31 : ashrdi3 0x8000000180000000 31 = some 0xffffffff00000003 :=
  (shifts_iff 0x8000000180000000 31 (by decide)).2.2.2 (by decide)

/-- Shifting 1 by 0 shifts the low half right by 32. -/
theorem ashldi3_zero : ashldi3 1 0 = none ∧ shr (low 1) (32 - 0) = none := by decide

end Klibc.Libgcc.Shifts
