import Mathlib.Tactic.Linarith
import Mathlib.Tactic.Ring
import Klibc.Lib.Total

/-! # Division on machines without it

`__udivmoddi4` and `__udivmodsi4` are the same code for numbers of 64 and of 32 bits, here of `w`
bits. The denominator is shifted up until its highest bit is set, and then down again, bit by bit;
whenever it can be subtracted, the quotient gets the bit that went along with it.

The signed functions divide the absolute values. The remainder should have the sign of the
numerator, but gets the sign of the quotient. -/

namespace Klibc.Libgcc.Division

open Lib.Total

/-! ### The code -/

/-- The variables of `__udivmoddi4`. -/
structure Vars (w : ℕ) where
  num : BitVec w
  den : BitVec w
  quot : BitVec w
  qbit : BitVec w

section
variable {w : ℕ}

/-- `while ((int64_t) den >= 0)`, one turn. -/
def justifyTurn (_ : Unit) : StateT (Vars w) Option (Unit ⊕ Unit) := do
  let v ← get
  if 0 ≤ v.den.toInt then
    set { v with den := v.den <<< 1, qbit := v.qbit <<< 1 }
    return .inl ()
  else return .inr ()

/-- `while (qbit)`, one turn. -/
def divideTurn (_ : Unit) : StateT (Vars w) Option (Unit ⊕ Unit) := do
  let v ← get
  if v.qbit ≠ 0 then
    let v := if v.den ≤ v.num then { v with num := v.num - v.den, quot := v.quot + v.qbit } else v
    set { v with den := v.den >>> 1, qbit := v.qbit >>> 1 }
    return .inl ()
  else return .inr ()

def loops : StateT (Vars w) Option Unit := do
  Loop.run ⟨justifyTurn⟩ ()
  Loop.run ⟨divideTurn⟩ ()

/-- The quotient and `*rem_p`; `none` for the trap of `__divide_error`. -/
def udivmod (num den : BitVec w) : Option (BitVec w × BitVec w) :=
  if den = 0 then none else (loops ⟨num, den, 0, 1⟩).map fun r => (r.2.quot, r.2.num)

/-- The absolute values of both arguments, and `minus`. -/
def absolute (num den : BitVec w) : BitVec w × BitVec w × Bool :=
  let (num, minus) := if num.toInt < 0 then (-num, true) else (num, false)
  if den.toInt < 0 then (num, -den, minus ^^ true) else (num, den, minus)

def negateIf (minus : Bool) (v : BitVec w) : BitVec w := if minus then -v else v

def signedDivide (part : BitVec w × BitVec w → BitVec w) (num den : BitVec w) : Option (BitVec w) :=
  let (num, den, minus) := absolute num den
  (udivmod num den).map fun r => negateIf minus (part r)

end

def udivmoddi4 (num den : BitVec 64) := udivmod num den

def udivmodsi4 (num den : BitVec 32) := udivmod num den

def divdi3 (num den : BitVec 64) := signedDivide Prod.fst num den

def moddi3 (num den : BitVec 64) := signedDivide Prod.snd num den

def divsi3 (num den : BitVec 32) := signedDivide Prod.fst num den

def modsi3 (num den : BitVec 32) := signedDivide Prod.snd num den

/-! ### The loops -/

section
variable {w : ℕ}

lemma toNat_shiftLeft_one {x : BitVec w} (h : 2 * x.toNat < 2 ^ w) :
    (x <<< 1).toNat = 2 * x.toNat := by
  rw [BitVec.toNat_shiftLeft, Nat.shiftLeft_eq, pow_one, Nat.mul_comm, Nat.mod_eq_of_lt h]

lemma toNat_shiftRight_one (x : BitVec w) : (x >>> 1).toNat = x.toNat / 2 := by
  rw [BitVec.toNat_ushiftRight, Nat.shiftRight_eq_div_pow, pow_one]

lemma toInt_nonneg_iff (x : BitVec w) : 0 ≤ x.toInt ↔ 2 * x.toNat < 2 ^ w := by
  have hlt := x.isLt
  rw [BitVec.toInt_eq_toNat_cond]
  split_ifs with h
  · exact ⟨fun _ => h, fun _ => Int.natCast_nonneg _⟩
  · refine ⟨fun hge => ?_, fun hlow => absurd hlow h⟩
    have hcast : ((2 ^ w : ℕ) : ℤ) ≤ x.toNat := by omega
    omega

/-- **The first loop** shifts the denominator and the bit by the same number of places. -/
structure Justified (num den : BitVec w) (v : Vars w) : Prop where
  num_eq : v.num = num
  quot_eq : v.quot = 0
  shifted : ∃ k, v.den.toNat = den.toNat * 2 ^ k ∧ v.qbit.toNat = 2 ^ k

variable {den num : BitVec w} {v : Vars w}

lemma returns_justify (hden : den ≠ 0) :
    Returns (Loop.run ⟨justifyTurn⟩ ()) ⟨num, den, 0, 1⟩ fun _ v =>
      Justified num den v ∧ 2 ^ w ≤ 2 * v.den.toNat := by
  have hpos : 0 < den.toNat := Nat.pos_of_ne_zero fun h => hden (BitVec.eq_of_toNat_eq (by simpa))
  have hone : (1 : BitVec w).toNat = 2 ^ 0 := by
    have hw : w ≠ 0 := by
      rintro rfl
      exact hden (BitVec.eq_of_toNat_eq (by omega))
    simp [Nat.mod_eq_of_lt (Nat.one_lt_two_pow hw)]
  refine returns_loop_of_measure (fun _ v => Justified num den v) (fun _ v => 2 ^ w - v.den.toNat)
    ?_ ⟨rfl, rfl, 0, by simp, hone⟩
  rintro _ v hv
  obtain ⟨k, hk, hqbit⟩ := hv.shifted
  simp only [justifyTurn, returns_bind, returns_get]
  split_ifs with hge
  · rw [toInt_nonneg_iff] at hge
    have hden' := toNat_shiftLeft_one hge
    have hle : 2 ^ k ≤ v.den.toNat := hk ▸ Nat.le_mul_of_pos_left _ hpos
    have hbit : (v.qbit <<< 1).toNat = 2 * 2 ^ k := by rw [toNat_shiftLeft_one (by omega), hqbit]
    have hgrows : 0 < v.den.toNat := lt_of_lt_of_le (Nat.two_pow_pos k) hle
    simp only [returns_bind, returns_set, returns_pure]
    refine ⟨⟨hv.num_eq, hv.quot_eq, k + 1, ?_, ?_⟩, ?_⟩
    · rw [hden', hk, pow_succ]
      ring
    · rw [hbit, pow_succ']
    · rw [hden']
      omega
  · rw [toInt_nonneg_iff, not_lt] at hge
    rw [returns_pure]
    exact ⟨hv, hge⟩

/-- **What the second loop keeps**: the quotient and the remainder so far are those of the
numerator, and the remainder is small enough for the bits that are left. -/
structure Divided (num den : BitVec w) (v : Vars w) : Prop where
  sum : v.quot.toNat * den.toNat + v.num.toNat = num.toNat
  bits : (v.qbit = 0 ∧ v.num.toNat < den.toNat) ∨
    ∃ k, v.qbit.toNat = 2 ^ k ∧ v.den.toNat = den.toNat * 2 ^ k ∧
      v.num.toNat < 2 * (den.toNat * 2 ^ k)

/-- The variables after the `if` of the second loop. -/
def Vars.subtract (v : Vars w) : Vars w :=
  if v.den ≤ v.num then { v with num := v.num - v.den, quot := v.quot + v.qbit } else v

lemma subtract_den (v : Vars w) : v.subtract.den = v.den := by
  unfold Vars.subtract
  split_ifs <;> rfl

lemma subtract_qbit (v : Vars w) : v.subtract.qbit = v.qbit := by
  unfold Vars.subtract
  split_ifs <;> rfl

lemma subtract_spec {k : ℕ} (hpos : 0 < den.toNat)
    (hsum : v.quot.toNat * den.toNat + v.num.toNat = num.toNat) (hqbit : v.qbit.toNat = 2 ^ k)
    (hden : v.den.toNat = den.toNat * 2 ^ k) (hlt : v.num.toNat < 2 * (den.toNat * 2 ^ k)) :
    v.subtract.quot.toNat * den.toNat + v.subtract.num.toNat = num.toNat ∧
      v.subtract.num.toNat < den.toNat * 2 ^ k := by
  unfold Vars.subtract
  split_ifs with hle
  · have hsub : (v.num - v.den).toNat = v.num.toNat - den.toNat * 2 ^ k := by
      rw [BitVec.toNat_sub_of_le hle, hden]
    have hle' : den.toNat * 2 ^ k ≤ v.num.toNat := hden ▸ BitVec.le_def.1 hle
    -- The quotient stays below the numerator, so the sum does not overflow.
    have hproduct : (v.quot.toNat + 2 ^ k) * den.toNat ≤ num.toNat := by
      rw [Nat.add_mul, Nat.mul_comm (2 ^ k)]
      omega
    have hquot : v.quot.toNat + 2 ^ k < 2 ^ w :=
      lt_of_le_of_lt ((Nat.le_mul_of_pos_right _ hpos).trans hproduct) num.isLt
    have hadd : (v.quot + v.qbit).toNat = v.quot.toNat + 2 ^ k := by
      rw [BitVec.toNat_add, hqbit, Nat.mod_eq_of_lt hquot]
    simp only [hsub, hadd]
    refine ⟨?_, by omega⟩
    rw [Nat.add_mul, Nat.mul_comm (2 ^ k)]
    omega
  · rw [BitVec.le_def, hden, not_le] at hle
    exact ⟨hsum, hle⟩

lemma returns_divide (hpos : 0 < den.toNat) (hv : Divided num den v) :
    Returns (Loop.run ⟨divideTurn⟩ ()) v fun _ v' =>
      v'.quot.toNat * den.toNat + v'.num.toNat = num.toNat ∧ v'.num.toNat < den.toNat := by
  refine returns_loop_of_measure (fun _ v => Divided num den v) (fun _ v => v.qbit.toNat) ?_ hv
  rintro _ v ⟨hsum, hbits⟩
  simp only [divideTurn, returns_bind, returns_get]
  rcases hbits with ⟨hzero, hlt⟩ | ⟨k, hqbit, hden, hlt⟩
  · rw [if_neg (not_not.2 hzero), returns_pure]
    exact ⟨hsum, hlt⟩
  · have hne : v.qbit ≠ 0 := by
      intro h
      rw [h] at hqbit
      exact (Nat.two_pow_pos k).ne (by simpa using hqbit)
    obtain ⟨hsum', hlt'⟩ := subtract_spec hpos hsum hqbit hden hlt
    rw [if_pos hne]
    simp only [returns_bind, returns_set, returns_pure]
    change (Divided num den ⟨v.subtract.num, v.subtract.den >>> 1, v.subtract.quot,
      v.subtract.qbit >>> 1⟩) ∧ (v.subtract.qbit >>> 1).toNat < v.qbit.toNat
    rw [subtract_den, subtract_qbit, toNat_shiftRight_one, hqbit]
    refine ⟨⟨hsum', ?_⟩, Nat.div_lt_self (Nat.two_pow_pos k) (by decide)⟩
    -- The last bit is shifted out, or both are one place lower.
    cases k with
    | zero =>
      refine .inl ⟨BitVec.eq_of_toNat_eq ?_, by simpa using hlt'⟩
      rw [toNat_shiftRight_one, hqbit]
      rfl
    | succ k =>
      refine .inr ⟨k, ?_, ?_, ?_⟩
      · rw [toNat_shiftRight_one, hqbit, pow_succ, Nat.mul_div_cancel _ (by decide)]
      · rw [toNat_shiftRight_one, hden, pow_succ, ← Nat.mul_assoc, Nat.mul_div_cancel _ (by decide)]
      · rw [pow_succ] at hlt'
        change v.subtract.num.toNat < _
        linarith

/-- **Both loops end**, with the quotient and the remainder. -/
theorem udivmod_eq (num : BitVec w) (hden : den ≠ 0) :
    udivmod num den = some (num / den, num % den) := by
  have hpos : 0 < den.toNat := Nat.pos_of_ne_zero fun h => hden (BitVec.eq_of_toNat_eq (by simpa))
  have hloops : Returns loops ⟨num, den, 0, 1⟩ fun _ v =>
      v.quot.toNat * den.toNat + v.num.toNat = num.toNat ∧ v.num.toNat < den.toNat := by
    simp only [loops, returns_bind]
    refine (returns_justify hden).mono ?_
    rintro _ v ⟨hv, htop⟩
    obtain ⟨k, hk, hqbit⟩ := hv.shifted
    refine returns_divide hpos ⟨?_, .inr ⟨k, hqbit, hk, ?_⟩⟩
    · rw [hv.quot_eq, hv.num_eq]
      simp
    · rw [← hk, hv.num_eq]
      exact lt_of_lt_of_le num.isLt htop
  obtain ⟨_, v, hrun, hsum, hlt⟩ := hloops
  have hquot : v.quot = num / den := by
    refine BitVec.eq_of_toNat_eq ?_
    rw [BitVec.toNat_udiv, ← hsum, Nat.add_comm, Nat.add_mul_div_right _ _ hpos,
      Nat.div_eq_of_lt hlt, Nat.zero_add]
  have hrem : v.num = num % den := by
    refine BitVec.eq_of_toNat_eq ?_
    rw [BitVec.toNat_umod, ← hsum, Nat.add_comm, Nat.add_mul_mod_self_right, Nat.mod_eq_of_lt hlt]
  rw [udivmod, if_neg hden, hrun, Option.map_some, hquot, hrem]

end

/-- The quotient and the remainder of two numbers are returned. -/
def Divides {w : ℕ} (udivmod : BitVec w → BitVec w → Option (BitVec w × BitVec w))
    (num den : BitVec w) : Prop :=
  ∃ q r, udivmod num den = some (q, r) ∧ q.toNat = num.toNat / den.toNat ∧
    r.toNat = num.toNat % den.toNat

/-- **Unsigned division**: both functions end with the quotient and the remainder. -/
theorem udivmod_divides : (∀ num den : BitVec 64, den ≠ 0 → Divides udivmoddi4 num den) ∧
      ∀ num den : BitVec 32, den ≠ 0 → Divides udivmodsi4 num den :=
  ⟨fun num _ hden => ⟨_, _, udivmod_eq num hden, BitVec.toNat_udiv, BitVec.toNat_umod⟩,
    fun num _ hden => ⟨_, _, udivmod_eq num hden, BitVec.toNat_udiv, BitVec.toNat_umod⟩⟩

/-- A denominator with the highest bit set, and a numerator that is smaller. -/
theorem udivmod_divides_top : Divides udivmoddi4 5 0x8000000000000000 :=
  udivmod_divides.1 5 0x8000000000000000 (by decide)

/-! ### Signed division -/

section
variable {w : ℕ} {num den : BitVec w}

lemma signedDivide_fst (num : BitVec w) (hden : den ≠ 0) :
    signedDivide Prod.fst num den = some (num.sdiv den) := by
  have hneg : -den ≠ 0 := fun h => hden (BitVec.neg_eq_zero_iff.1 h)
  rw [BitVec.sdiv_eq, BitVec.msb_eq_toInt, BitVec.msb_eq_toInt, signedDivide, absolute]
  by_cases hn : num.toInt < 0 <;> by_cases hd : den.toInt < 0
  all_goals simp [hn, hd, udivmod_eq _ hden, udivmod_eq _ hneg, negateIf]

lemma signedDivide_snd (num : BitVec w) (hden : den ≠ 0) : signedDivide Prod.snd num den =
      some (if den.toInt < 0 then -(num.srem den) else num.srem den) := by
  have hneg : -den ≠ 0 := fun h => hden (BitVec.neg_eq_zero_iff.1 h)
  rw [BitVec.srem_eq, BitVec.msb_eq_toInt, BitVec.msb_eq_toInt, signedDivide, absolute]
  by_cases hn : num.toInt < 0 <;> by_cases hd : den.toInt < 0
  all_goals simp [hn, hd, udivmod_eq _ hden, udivmod_eq _ hneg, negateIf]

/-- Division as in C: it truncates toward zero, the remainder has the sign of the numerator and is
smaller than the denominator, and both together give the numerator. -/
def MatchesC (div mod : BitVec w → BitVec w → Option (BitVec w)) (num den : BitVec w) : Prop :=
  ∃ q r, div num den = some q ∧ mod num den = some r ∧ q.toInt = num.toInt.tdiv den.toInt ∧
    (r.toInt = 0 ∨ r.toInt.sign = num.toInt.sign) ∧ r.toInt.natAbs < den.toInt.natAbs ∧
    q.toInt * den.toInt + r.toInt = num.toInt

lemma natAbs_pos_of_ne (hden : den ≠ 0) : 0 < den.toInt.natAbs := by
  refine Int.natAbs_pos.2 fun h => hden ?_
  exact BitVec.eq_of_toInt_eq (by simpa using h)

lemma toInt_neg_srem (num : BitVec w) (hden : den ≠ 0) :
    (-(num.srem den)).toInt = -(num.toInt.tmod den.toInt) := by
  have hlt : (num.toInt.tmod den.toInt).natAbs < den.toInt.natAbs := by
    rw [Int.natAbs_tmod]
    exact Nat.mod_lt _ (natAbs_pos_of_ne hden)
  have hmin : num.srem den ≠ BitVec.intMin w := by
    intro h
    have hw : w ≠ 0 := by
      rintro rfl
      exact hden (Subsingleton.elim _ _)
    have htoInt := congrArg BitVec.toInt h
    rw [BitVec.toInt_srem, BitVec.toInt_intMin_of_pos (Nat.pos_of_ne_zero hw)] at htoInt
    have hlow := BitVec.le_toInt den
    have hhigh := BitVec.toInt_lt (x := den)
    omega
  rw [BitVec.toInt_neg_of_ne_intMin hmin, BitVec.toInt_srem]

lemma matchesC_iff (hden : den ≠ 0) (hmin : num ≠ BitVec.intMin w ∨ den ≠ -1#w) :
    MatchesC (signedDivide Prod.fst) (signedDivide Prod.snd) num den ↔
      0 ≤ den.toInt ∨ den.toInt ∣ num.toInt := by
  have hquot := BitVec.toInt_sdiv_of_ne_or_ne num den hmin
  have hsum := Int.tdiv_mul_add_tmod num.toInt den.toInt
  have hlt : (num.toInt.tmod den.toInt).natAbs < den.toInt.natAbs := by
    rw [Int.natAbs_tmod]
    exact Nat.mod_lt _ (natAbs_pos_of_ne hden)
  constructor
  · rintro ⟨q, r, hq, hr, -, -, -, heq⟩
    rw [signedDivide_fst num hden, Option.some.injEq] at hq
    rw [signedDivide_snd num hden, Option.some.injEq] at hr
    by_contra hcond
    rw [not_or, not_le] at hcond
    rw [← hq, ← hr, if_pos hcond.1, hquot, toInt_neg_srem num hden] at heq
    exact hcond.2 (Int.dvd_iff_tmod_eq_zero.2 (by omega))
  · intro hcond
    have hrem : (if den.toInt < 0 then -(num.srem den) else num.srem den).toInt =
        num.toInt.tmod den.toInt := by
      split_ifs with hneg
      · have hzero := Int.dvd_iff_tmod_eq_zero.1 (hcond.resolve_left (not_le.2 hneg))
        rw [toInt_neg_srem num hden, hzero, Int.neg_zero]
      · exact BitVec.toInt_srem num den
    refine ⟨_, _, signedDivide_fst num hden, signedDivide_snd num hden, hquot, ?_, ?_, ?_⟩
    · rw [hrem, Int.sign_tmod]
      split_ifs with hdvd
      · exact .inl (Int.dvd_iff_tmod_eq_zero.1 hdvd)
      · exact .inr rfl
    · rw [hrem]
      exact hlt
    · rw [hrem, hquot]
      exact hsum

end

/-- **Signed division** is that of C iff the denominator is positive or divides the numerator. -/
theorem signed_division_iff (num den : BitVec 64) (num' den' : BitVec 32) :
    (den ≠ 0 → (num ≠ BitVec.intMin 64 ∨ den ≠ -1) →
      (MatchesC divdi3 moddi3 num den ↔ 0 ≤ den.toInt ∨ den.toInt ∣ num.toInt)) ∧
    (den' ≠ 0 → (num' ≠ BitVec.intMin 32 ∨ den' ≠ -1) →
      (MatchesC divsi3 modsi3 num' den' ↔ 0 ≤ den'.toInt ∨ den'.toInt ∣ num'.toInt)) :=
  ⟨fun hden hmin => matchesC_iff hden hmin, fun hden hmin => matchesC_iff hden hmin⟩

/-- The minimum is divided as in C. -/
theorem signed_division_iff_minimum : MatchesC divdi3 moddi3 (BitVec.intMin 64) 10 :=
  ((signed_division_iff (BitVec.intMin 64) 10 7 2).1 (by decide) (.inr (by decide))).2
    (.inl (by decide))

/-- The remainder of 7 by -2 is returned as -1. -/
theorem moddi3_seven : moddi3 7 (-2) = some (-1) ∧ ¬MatchesC divdi3 moddi3 7 (-2) := by
  have hrem : moddi3 7 (-2) = some (-1) := (signedDivide_snd 7 (by decide)).trans (by decide)
  refine ⟨hrem, ?_⟩
  rintro ⟨q, r, -, hr, -, hsign, -⟩
  rw [hrem, Option.some.injEq] at hr
  rw [← hr] at hsign
  exact absurd hsign (by decide)

end Klibc.Libgcc.Division
