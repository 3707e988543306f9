import Mathlib.Data.Int.ModEq
import Mathlib.Tactic.Ring

/-! # Machine arithmetic

A `signed` value of `b` bits is the integer in `[-2^(b-1), 2^(b-1))` it stands for; results out of
that range wrap around. An unsigned one is a natural number below `2^b`. -/

namespace Klibc.Lib.Machine

/-- The signed value of `b` bits with the low bits of `x`. -/
def wrap (b : ℕ) (x : ℤ) : ℤ := Int.bmod x (2 ^ b)

/-- The unsigned value of `b` bits with the low bits of `x`. -/
def unsigned (b : ℕ) (x : ℤ) : ℕ := (x % 2 ^ b).toNat

lemma wrap_eq {b : ℕ} {x : ℤ} (hb : 0 < b) (h1 : -2 ^ (b - 1) ≤ x) (h2 : x < 2 ^ (b - 1)) :
    wrap b x = x := by
  obtain ⟨b, rfl⟩ : ∃ k, b = k + 1 := ⟨b - 1, by omega⟩
  rw [Nat.add_sub_cancel] at h1 h2
  have hpow : (2 : ℕ) ^ (b + 1) = 2 ^ b * 2 := pow_succ 2 b
  unfold wrap
  refine Int.bmod_eq_of_le ?_ ?_
  · rw [hpow]; push_cast; omega
  · rw [hpow]; push_cast; omega

lemma wrap_wrap_add (b : ℕ) (x y : ℤ) : wrap b (wrap b x + y) = wrap b (x + y) := Int.bmod_add_bmod

lemma wrap_wrap_mul (b : ℕ) (x y : ℤ) : wrap b (wrap b x * y) = wrap b (x * y) := Int.bmod_mul_bmod

lemma unsigned_eq {b : ℕ} {x : ℕ} (h : x < 2 ^ b) : unsigned b x = x := by
  unfold unsigned
  rw [Int.emod_eq_of_lt (by omega) (by exact_mod_cast h)]
  rfl

lemma coe_unsigned (b : ℕ) (x : ℤ) : (unsigned b x : ℤ) = x % 2 ^ b :=
  Int.toNat_of_nonneg (Int.emod_nonneg x (pow_ne_zero b two_ne_zero))

lemma unsigned_unsigned_add (b : ℕ) (x y : ℤ) :
    unsigned b (unsigned b x + y) = unsigned b (x + y) := by
  rw [coe_unsigned, unsigned, Int.emod_add_emod, unsigned]

lemma unsigned_neg {b x : ℕ} (h0 : 0 < x) (h : x ≤ 2 ^ b) : unsigned b (-x) = 2 ^ b - x := by
  have hpow : ((2 ^ b : ℕ) : ℤ) = 2 ^ b := by push_cast; rfl
  unfold unsigned
  rw [← Int.add_emod_right, Int.emod_eq_of_lt (by omega) (by omega)]
  omega

/-- The value of a `char`, which is signed or not. -/
def charInt (charSigned : Bool) (c : UInt8) : ℤ := if charSigned then wrap 8 c.toNat else c.toNat

lemma charInt_eq (charSigned : Bool) (c : UInt8) : charInt charSigned c =
    if charSigned = true ∧ 128 ≤ c.toNat then (c.toNat : ℤ) - 256 else c.toNat := by
  have hlt := c.toNat_lt
  cases charSigned with
  | false => rfl
  | true =>
    have hbmod : wrap 8 c.toNat =
        if (c.toNat : ℤ) % 256 < 128 then (c.toNat : ℤ) % 256 else c.toNat % 256 - 256 := rfl
    rw [charInt, if_pos rfl, hbmod]
    simp only [true_and]
    split_ifs <;> omega

end Klibc.Lib.Machine
