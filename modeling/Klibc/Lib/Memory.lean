import Mathlib.Tactic.Ring

/-! # Words in a memory of bytes

A memory gives a byte for each address.  `load m a k` reads the `k` bytes at `a` as one number,
lowest byte first, and `store m a k v` writes one there. -/

namespace Klibc.Lib.Memory

abbrev Bytes := ℕ → UInt8

/-- The number in the `k` bytes at `a`. -/
def load (m : Bytes) : ℕ → ℕ → ℕ
  | _, 0 => 0
  | a, k + 1 => (m a).toNat + 256 * load m (a + 1) k

/-- The memory with the `k` lowest bytes of `v` written at `a`. -/
def store (m : Bytes) (a k v : ℕ) : Bytes := fun x =>
  if a ≤ x ∧ x < a + k then UInt8.ofNat (v / 256 ^ (x - a)) else m x

variable {m m' : Bytes} {a b k v x : ℕ}

lemma load_congr (h : ∀ x, a ≤ x → x < a + k → m' x = m x) : load m' a k = load m a k := by
  induction k generalizing a with
  | zero => rfl
  | succ k ih =>
    rw [load, load, h a le_rfl (by omega), ih fun x hx hx' => h x (by omega) (by omega)]

lemma store_of_not (h : x < a ∨ a + k ≤ x) : store m a k v x = m x := if_neg (by omega)

lemma load_eq_mod (h : ∀ i < k, m (a + i) = UInt8.ofNat (v / 256 ^ i)) :
    load m a k = v % 256 ^ k := by
  induction k generalizing a v with
  | zero => simp [load, Nat.mod_one]
  | succ k ih =>
    have h0 : (m a).toNat = v % 256 := by
      have := h 0 (by omega)
      simp only [add_zero, pow_zero, Nat.div_one] at this
      rw [this, UInt8.toNat_ofNat']
    have hk : load m (a + 1) k = v / 256 % 256 ^ k := ih fun i hi => by
      rw [show a + 1 + i = a + (i + 1) by omega, h (i + 1) (by omega), Nat.div_div_eq_div_mul,
        pow_succ, mul_comm]
    rw [load, h0, hk, pow_succ, mul_comm (256 ^ k) 256, Nat.mod_mul]

lemma load_store (hv : v < 256 ^ k) : load (store m a k v) a k = v := by
  rw [load_eq_mod (v := v) fun i hi => ?_, Nat.mod_eq_of_lt hv]
  rw [store, if_pos (by omega), Nat.add_sub_cancel_left]

lemma load_store_of_apart {j : ℕ} (h : a + k ≤ b ∨ b + j ≤ a) :
    load (store m a k v) b j = load m b j :=
  load_congr fun _ _ _ => store_of_not (by omega)

end Klibc.Lib.Memory
