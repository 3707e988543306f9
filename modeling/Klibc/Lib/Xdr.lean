import Klibc.Lib.Total
import Mathlib.Data.List.Basic
import Mathlib.Tactic.Ring

/-! # External data representation

Words of four bytes, highest byte first, in a list of bytes, and decoders that read such words from
the front of a list. A decoder is a call whose state is what is left to read, so that
`Returns d l Q` says that `l` starts with an encoding, and `Q` of the value and of what follows. -/

namespace Klibc.Lib.Xdr

open Lib.Total List

/-! ### Words -/

/-- The word at position `i`. -/
def word (l : List UInt8) (i : ℕ) : ℕ :=
  2 ^ 24 * (l.getD i 0).toNat + 2 ^ 16 * (l.getD (i + 1) 0).toNat +
    2 ^ 8 * (l.getD (i + 2) 0).toNat + (l.getD (i + 3) 0).toNat

def be32 (n : ℕ) : List UInt8 :=
  [UInt8.ofNat (n / 2 ^ 24), UInt8.ofNat (n / 2 ^ 16), UInt8.ofNat (n / 2 ^ 8), UInt8.ofNat n]

lemma length_be32 (n : ℕ) : (be32 n).length = 4 := rfl

variable (l : List UInt8)

lemma word_lt (i : ℕ) : word l i < 2 ^ 32 := by
  have h0 := (l.getD i 0).toNat_lt
  have h1 := (l.getD (i + 1) 0).toNat_lt
  have h2 := (l.getD (i + 2) 0).toNat_lt
  have h3 := (l.getD (i + 3) 0).toNat_lt
  unfold word
  omega

lemma word_drop (k i : ℕ) : word (l.drop k) i = word l (k + i) := by
  simp only [word, getD_eq_getElem?_getD, getElem?_drop, Nat.add_assoc]

lemma word_drop_zero (k : ℕ) : word (l.drop k) 0 = word l k := by rw [word_drop, Nat.add_zero]

lemma word_append_right (a b : List UInt8) (i : ℕ) : word (a ++ b) (a.length + i) = word b i := by
  rw [← word_drop, drop_left]

lemma word_take {l : List UInt8} {n i : ℕ} (h : i + 4 ≤ n) : word (l.take n) i = word l i := by
  have hget : ∀ k, k < 4 → (l.take n).getD (i + k) 0 = l.getD (i + k) 0 := fun k hk => by
    rw [getD_eq_getElem?_getD, getD_eq_getElem?_getD, getElem?_take_of_lt (by omega)]
  simp only [word, hget 1 (by omega), hget 2 (by omega), hget 3 (by omega)]
  rw [← Nat.add_zero i, hget 0 (by omega)]

lemma word_append_left {a b : List UInt8} {i : ℕ} (h : i + 4 ≤ a.length) :
    word (a ++ b) i = word a i := by
  rw [← word_take h, take_left]

lemma word_overwritten {l t r : List UInt8} {i j : ℕ} (hi : i ≤ l.length)
    (hj : j + 4 ≤ t.length) : word (l.take i ++ t ++ r) (i + j) = word t j := by
  have hlen : (l.take i).length = i := length_take_of_le hi
  calc word (l.take i ++ t ++ r) (i + j)
      = word (l.take i ++ (t ++ r)) ((l.take i).length + j) := by rw [append_assoc, hlen]
    _ = word (t ++ r) j := word_append_right _ _ _
    _ = word t j := word_append_left hj

lemma word_before {l t r : List UInt8} {i j : ℕ} (hi : i ≤ l.length) (hj : j + 4 ≤ i) :
    word (l.take i ++ t ++ r) j = word l j := by
  have hlen : (l.take i).length = i := length_take_of_le hi
  rw [append_assoc, word_append_left (by omega), word_take hj]

lemma word_be32 {n : ℕ} (h : n < 2 ^ 32) : word (be32 n) 0 = n := by
  have hbyte : ∀ m : ℕ, (UInt8.ofNat m).toNat = m % 256 := fun m => UInt8.toNat_ofNat'
  simp only [word, be32, getD_cons_zero, Nat.zero_add, getD_cons_succ, hbyte]
  omega

/-! ### Decoders -/

abbrev Decoder := StateT (List UInt8) Option

/-- The next `n` bytes. -/
def raw (n : ℕ) : Decoder (List UInt8) := fun l =>
  if n ≤ l.length then some (l.take n, l.drop n) else none

def fail {α : Type} : Decoder α := fun _ => none

def uint : Decoder ℕ := do
  return word (← raw 4) 0

/-- The bytes that `n` bytes take with their padding. -/
def padded (n : ℕ) : ℕ := (n + 3) / 4 * 4

/-- Bytes with their number in front, at most `max` of them, and padding behind. -/
def counted (max : ℕ) : Decoder (List UInt8) := do
  let n ← uint
  if n ≤ max then return (← raw (padded n)).take n else fail

section
variable {l : List UInt8}

lemma returns_fail {α : Type} {Q : α → List UInt8 → Prop} : ¬ Returns fail l Q := by
  rintro ⟨x, s, h, -⟩
  cases h

lemma returns_raw {n : ℕ} {Q : List UInt8 → List UInt8 → Prop} :
    Returns (raw n) l Q ↔ n ≤ l.length ∧ Q (l.take n) (l.drop n) := by
  by_cases h : n ≤ l.length
  · have he : raw n l = some (l.take n, l.drop n) := if_pos h
    rw [returns_iff_of_eq he, and_iff_right h]
  · refine iff_of_false ?_ fun hq => h hq.1
    rintro ⟨x, s, he, -⟩
    rw [raw, if_neg h] at he
    cases he

lemma returns_uint {Q : ℕ → List UInt8 → Prop} :
    Returns uint l Q ↔ 4 ≤ l.length ∧ Q (word l 0) (l.drop 4) := by
  rw [uint, returns_bind, returns_raw, returns_pure, word_take (i := 0) le_rfl]

lemma returns_counted {max : ℕ} {Q : List UInt8 → List UInt8 → Prop} :
    Returns (counted max) l Q ↔ 4 ≤ l.length ∧ word l 0 ≤ max ∧
      4 + padded (word l 0) ≤ l.length ∧
      Q ((l.drop 4).take (word l 0)) (l.drop (4 + padded (word l 0))) := by
  have hpad : word l 0 ≤ padded (word l 0) := by
    unfold padded
    omega
  rw [counted, returns_bind, returns_uint]
  refine and_congr_right fun h4 => ?_
  by_cases h : word l 0 ≤ max
  · rw [if_pos h, returns_bind, returns_raw, returns_pure, and_iff_right h, take_take,
      Nat.min_eq_left hpad, drop_drop, length_drop]
    refine and_congr_left fun _ => ?_
    omega
  · rw [if_neg h]
    exact iff_of_false returns_fail fun hq => h hq.1

end

end Klibc.Lib.Xdr
