import Klibc.Lib.Slice
import Mathlib.Tactic.Ring

/-! # `bsearch`

The interval that is left is kept as `base`, an offset in the array, and the number `nmemb` of its
elements. The key is greater than every element in front of it and less than every one behind. -/

namespace Klibc.Stdlib.Bsearch

open Lib.Slice

variable {κ : Type*} (cmp : κ → List UInt8 → ℤ) (key : κ)

/-- The array is `mem`; there is no result if an object does not lie in it. -/
def bsearch (mem : List UInt8) (base nmemb size : ℕ) : Option (Option ℕ) :=
  if _h : nmemb = 0 then some none
  else do
    let mididx := nmemb / 2
    let midobj := base + mididx * size
    let diff := cmp key (← slice mem midobj size)
    if diff = 0 then return some midobj
    else if diff > 0 then bsearch mem (midobj + size) (nmemb - (mididx + 1)) size
    else bsearch mem base mididx size
termination_by nmemb

structure Arr where
  mem : List UInt8
  nmemb : ℕ
  size : ℕ
  length_mem : mem.length = nmemb * size

def Arr.elem (A : Arr) (i : ℕ) : List UInt8 := (A.mem.drop (i * A.size)).take A.size

/-- The key compares greater than the elements before `low`, equal to those before `high`, and
less than the others. -/
structure Partitioned extends Arr where
  low : ℕ
  high : ℕ
  low_le : low ≤ high
  high_le : high ≤ nmemb
  greater : ∀ i < low, 0 < cmp key (toArr.elem i)
  equal : ∀ i, low ≤ i → i < high → cmp key (toArr.elem i) = 0
  less : ∀ i, high ≤ i → i < nmemb → cmp key (toArr.elem i) < 0

/-- A pointer to an equal element, or `NULL` if there is none. -/
def Arr.Found (A : Arr) : Option ℕ → Prop
  | some p => ∃ i < A.nmemb, p = i * A.size ∧ cmp key (A.elem i) = 0
  | none => ∀ i < A.nmemb, cmp key (A.elem i) ≠ 0

variable {cmp key}

lemma Arr.slice_elem (A : Arr) {i : ℕ} (h : i < A.nmemb) :
    slice A.mem (i * A.size : ℕ) A.size = some (A.elem i) := by
  refine slice_eq ?_
  calc i * A.size + A.size = (i + 1) * A.size := by ring
    _ ≤ A.nmemb * A.size := Nat.mul_le_mul_right A.size h
    _ = A.mem.length := A.length_mem.symm

/-- **The search of an interval** outside which no element is equal. -/
theorem Partitioned.bsearch_interval (P : Partitioned cmp key) (n : ℕ) :
    ∀ b, b ≤ P.low → P.high ≤ b + n → b + n ≤ P.nmemb →
      ∃ r, bsearch cmp key P.mem (b * P.size) n P.size = some r ∧ P.Found cmp key r := by
  induction n using Nat.strong_induction_on with
  | _ n ih =>
    intro b hb hn hle
    have hlow := P.low_le
    unfold bsearch
    split_ifs with h0
    · refine ⟨none, rfl, fun i hi heq => ?_⟩
      rcases Nat.lt_or_ge i P.low with h | h
      · exact (P.greater i h).ne' heq
      · exact (P.less i (by omega) hi).ne heq
    have hmid : b + n / 2 < P.nmemb := by omega
    have hobj : b * P.size + n / 2 * P.size = (b + n / 2) * P.size := by ring
    have hnext : (b + n / 2) * P.size + P.size = (b + (n / 2 + 1)) * P.size := by ring
    simp only [hobj, P.slice_elem hmid, Option.bind_eq_bind, Option.bind_some, hnext]
    split_ifs with heq hpos
    · exact ⟨_, rfl, _, hmid, rfl, heq⟩
    · -- the middle element is one of those in front of the equal ones
      have hm : b + n / 2 < P.low := by
        by_contra h
        rcases Nat.lt_or_ge (b + n / 2) P.high with h' | h'
        · exact heq (P.equal _ (by omega) h')
        · exact absurd (P.less _ h' hmid) (by omega)
      exact ih _ (by omega) _ (by omega) (by omega) (by omega)
    · have hm : P.high ≤ b + n / 2 := by
        by_contra h
        rcases Nat.lt_or_ge (b + n / 2) P.low with h' | h'
        · exact hpos (P.greater _ h')
        · exact heq (P.equal _ h' (by omega))
      exact ih _ (by omega) _ hb hm (by omega)

/-- **The search returns**, reads only elements of the array, and finds an equal element if and
only if there is one. -/
theorem bsearch_finds (P : Partitioned cmp key) :
    ∃ r, bsearch cmp key P.mem 0 P.nmemb P.size = some r ∧ P.Found cmp key r := by
  have h := P.bsearch_interval P.nmemb 0 (Nat.zero_le _) (by have := P.high_le; omega) (by omega)
  rwa [Nat.zero_mul] at h

/-- Elements of one byte. -/
def compareBytes (k e : List UInt8) : ℤ := (k.headD 0).toNat - (e.headD 0).toNat

def threeBytes : Partitioned compareBytes [5] where
  mem := [2, 5, 9]
  nmemb := 3
  size := 1
  length_mem := rfl
  low := 1
  high := 2
  low_le := by decide
  high_le := by decide
  greater := by decide
  equal i h1 h2 := by
    obtain rfl : i = 1 := by omega
    decide
  less i h1 h2 := by
    obtain rfl : i = 2 := by omega
    decide

theorem bsearch_finds_threeBytes : ∃ r, bsearch compareBytes [5] [2, 5, 9] 0 3 1 = some r ∧
    threeBytes.Found compareBytes [5] r :=
  bsearch_finds threeBytes

end Klibc.Stdlib.Bsearch
