import Mathlib.Algebra.Group.Nat.Defs
import Mathlib.Data.List.Basic
import Mathlib.Order.Bounds.Basic

/-! # `memmem` and `memcmp`

The "Not So Naive" search: it looks at the second character of the needle first, and what it finds
there tells whether the next position can be left out. A buffer is the list of its bytes, and there
is no result if a byte behind it is read. -/

namespace Klibc.Mem.Memmem

open List

/-- `memcmp(s1, s2, n)`. -/
def memcmp : List UInt8 → List UInt8 → ℕ → Option ℤ
  | _, _, 0 => some 0
  | c1 :: s1, c2 :: s2, n + 1 =>
    let d := (c1.toNat : ℤ) - c2.toNat
    if d ≠ 0 then some d else memcmp s1 s2 n
  | _, _, _ + 1 => none

section
variable (bits : ℕ)

/-- `while (j <= n - m)`, at most `fuel` times, with `size_t` of `bits` bits: the index of the
byte that is returned a pointer to, or none for `NULL`. -/
def search (y : List UInt8) (n : ℕ) (x : List UInt8) (m k l : ℕ) : ℕ → ℕ → Option (Option ℕ)
  | 0, _ => none
  | fuel + 1, j =>
    if j ≤ n - m then do
      let x1 ← x[1]?
      let y1 ← y[(j + 1) % 2 ^ bits]?
      if x1 ≠ y1 then search y n x m k l fuel ((j + k) % 2 ^ bits)
      else do
        let d ← memcmp (x.drop 2) (y.drop (j + 2)) (m - 2)
        if d = 0 then do
          let x0 ← x[0]?
          let y0 ← y[j]?
          if x0 = y0 then some (some j) else search y n x m k l fuel ((j + l) % 2 ^ bits)
        else search y n x m k l fuel ((j + l) % 2 ^ bits)
    else some none

/-- `do { if (*y == *x) return y; y++; } while (--n);` from the byte with the index `i` on; it is
only entered with `n` positive. -/
def searchByte (x : List UInt8) : List UInt8 → ℕ → ℕ → Option (Option ℕ)
  | [], _, _ => none
  | c :: y, n, i => do
    let x0 ← x[0]?
    if c = x0 then some (some i)
    else if n - 1 ≠ 0 then searchByte x y (n - 1) (i + 1)
    else some none

/-- `memmem(haystack, n, needle, m)`, with at most `fuel` rounds of the loop. -/
def memmem (fuel : ℕ) (y : List UInt8) (n : ℕ) (x : List UInt8) (m : ℕ) : Option (Option ℕ) :=
  if m > n ∨ m = 0 ∨ n = 0 then some none
  else if 1 ≠ m then do
    let x0 ← x[0]?
    let x1 ← x[1]?
    if x0 = x1 then search bits y n x m 2 1 fuel 0 else search bits y n x m 1 2 fuel 0
  else searchByte x y n 0

end

/-! ### `memcmp` -/

lemma memcmp_eq {s1 s2 : List UInt8} (h : s1.length ≤ s2.length) :
    ∃ d, memcmp s1 s2 s1.length = some d ∧ (d = 0 ↔ s1 <+: s2) := by
  induction s1 generalizing s2 with
  | nil => exact ⟨0, by rw [length_nil, memcmp], by simp⟩
  | cons c1 s1 ih =>
    cases s2 with
    | nil => simp at h
    | cons c2 s2 =>
      obtain ⟨d, hd, hiff⟩ := ih (by simpa using h)
      rw [length_cons, memcmp, cons_prefix_cons]
      by_cases hc : c1 = c2
      · subst hc
        exact ⟨d, by simpa using hd, by simpa using hiff⟩
      · have hne : (c1.toNat : ℤ) - c2.toNat ≠ 0 := by
          intro h0
          exact hc (UInt8.toNat_inj.1 (by omega))
        exact ⟨_, if_pos hne, by simp [hc, hne]⟩

/-! ### Occurrences -/

/-- The needle is the haystack's bytes from `i` on. -/
def Occurs (x y : List UInt8) (i : ℕ) : Prop := x <+: y.drop i

structure First (x y : List UInt8) (r : Option ℕ) : Prop where
  some_iff : ∀ i, r = some i ↔ IsLeast {i | Occurs x y i} i
  none_iff : r = none ↔ ∀ i, ¬Occurs x y i

section
variable {x y : List UInt8} {j : ℕ}

lemma First.found (hj : Occurs x y j) (hbefore : ∀ i < j, ¬Occurs x y i) : First x y (some j) := by
  have hleast : IsLeast {i | Occurs x y i} j :=
    ⟨hj, fun i hi => not_lt.1 fun hij => hbefore i hij hi⟩
  refine ⟨fun i => ⟨?_, fun hi => ?_⟩, iff_of_false (by simp) fun h => h j hj⟩
  · intro h
    obtain rfl := Option.some.inj h
    exact hleast
  · rw [hleast.unique hi]

lemma First.missing (h : ∀ i, ¬Occurs x y i) : First x y none :=
  ⟨fun i => iff_of_false (by simp) fun hi => h i hi.1, iff_of_true rfl h⟩

lemma Occurs.le (h : Occurs x y j) (hx : x ≠ []) : j + x.length ≤ y.length := by
  have hlen := h.length_le
  have hpos : 0 < x.length := length_pos_iff.2 hx
  rw [length_drop] at hlen
  omega

lemma occurs_cons {a : UInt8} : Occurs (a :: x) y j ↔ y[j]? = some a ∧ Occurs x y (j + 1) := by
  rw [Occurs, Occurs]
  by_cases hj : j < y.length
  · rw [drop_eq_getElem_cons hj, cons_prefix_cons, getElem?_eq_getElem hj]
    simp [eq_comm]
  · rw [drop_eq_nil_of_le (by omega), getElem?_eq_none (by omega)]
    simp

end

/-! ### The loop -/

section
variable {bits n : ℕ} {x0 x1 : UInt8} {xs y : List UInt8} {k l : ℕ}

def Distances (x0 x1 : UInt8) (k l : ℕ) : Prop :=
  (x0 = x1 ∧ k = 2 ∧ l = 1) ∨ (x0 ≠ x1 ∧ k = 1 ∧ l = 2)

lemma search_round {fuel j : ℕ} {y0 y1 : UInt8} {d : ℤ} (hj : j ≤ n - (xs.length + 2))
    (hk : j + k < 2 ^ bits) (hl : j + l < 2 ^ bits) (h1 : j + 1 < 2 ^ bits) (hy0 : y[j]? = some y0)
    (hy1 : y[j + 1]? = some y1) (hd : memcmp xs (y.drop (j + 2)) xs.length = some d) :
    search bits y n (x0 :: x1 :: xs) (xs.length + 2) k l (fuel + 1) j =
      if x1 ≠ y1 then search bits y n (x0 :: x1 :: xs) (xs.length + 2) k l fuel (j + k)
      else if d = 0 ∧ x0 = y0 then some (some j)
      else search bits y n (x0 :: x1 :: xs) (xs.length + 2) k l fuel (j + l) := by
  rw [search, if_pos hj, Nat.mod_eq_of_lt hk, Nat.mod_eq_of_lt hl, Nat.mod_eq_of_lt h1]
  simp only [getElem?_cons_succ, getElem?_cons_zero, hy0, hy1, hd, drop_succ_cons,
    drop_zero, Nat.add_sub_cancel, Option.bind_eq_bind, Option.bind_some]
  by_cases hx1 : x1 = y1 <;> by_cases hd0 : d = 0 <;> by_cases hx0 : x0 = y0 <;>
    simp [hx1, hd0, hx0]

section
variable (hy : y.length = n) (hn : n < 2 ^ bits) (hkl : Distances x0 x1 k l)
include hy hn hkl

/-- **One round**: an occurrence is returned, or the positions that are left behind have none. -/
theorem search_step (fuel : ℕ) {j : ℕ} (hm : xs.length + 2 ≤ n) (hj : j ≤ n - (xs.length + 2)) :
    (Occurs (x0 :: x1 :: xs) y j ∧
      search bits y n (x0 :: x1 :: xs) (xs.length + 2) k l (fuel + 1) j = some (some j)) ∨
    ∃ j', j < j' ∧ j' ≤ j + 2 ∧ (∀ i, j ≤ i → i < j' → ¬Occurs (x0 :: x1 :: xs) y i) ∧
      search bits y n (x0 :: x1 :: xs) (xs.length + 2) k l (fuel + 1) j =
        search bits y n (x0 :: x1 :: xs) (xs.length + 2) k l fuel j' := by
  have hk : 1 ≤ k ∧ k ≤ 2 ∧ 1 ≤ l ∧ l ≤ 2 := by
    rcases hkl with ⟨-, rfl, rfl⟩ | ⟨-, rfl, rfl⟩ <;> simp
  obtain ⟨y0, hy0⟩ : ∃ y0, y[j]? = some y0 := ⟨_, getElem?_eq_getElem (by omega)⟩
  obtain ⟨y1, hy1⟩ : ∃ y1, y[j + 1]? = some y1 := ⟨_, getElem?_eq_getElem (by omega)⟩
  have hlen : xs.length ≤ (y.drop (j + 2)).length := by
    rw [length_drop]
    omega
  obtain ⟨d, hd, hd0⟩ := memcmp_eq hlen
  rw [search_round hj (by omega) (by omega) (by omega) hy0 hy1 hd]
  have hoccurs : Occurs (x0 :: x1 :: xs) y j ↔ y0 = x0 ∧ y1 = x1 ∧ d = 0 := by
    rw [occurs_cons, occurs_cons, hy0, hy1, hd0]
    simp [Occurs]
  have hnext : Occurs (x0 :: x1 :: xs) y (j + 1) → y1 = x0 := by
    intro h
    rw [occurs_cons, hy1] at h
    exact Option.some.inj h.1
  by_cases hx1 : x1 = y1
  · rw [if_neg (not_not.2 hx1)]
    by_cases hfound : d = 0 ∧ x0 = y0
    · exact .inl ⟨hoccurs.2 ⟨hfound.2.symm, hx1.symm, hfound.1⟩, if_pos hfound⟩
    · refine .inr ⟨j + l, by omega, by omega, fun i hi hil hocc => ?_, if_neg hfound⟩
      obtain rfl | rfl : i = j ∨ i = j + 1 := by omega
      · obtain ⟨h0, -, hd'⟩ := hoccurs.1 hocc
        exact hfound ⟨hd', h0.symm⟩
      · -- The second byte of the needle is here, and the first one is another.
        rcases hkl with ⟨-, -, rfl⟩ | ⟨hne, -, -⟩
        · omega
        · exact hne ((hnext hocc).symm.trans hx1.symm)
  · rw [if_pos hx1]
    refine .inr ⟨j + k, by omega, by omega, fun i hi hik hocc => ?_, rfl⟩
    obtain rfl | rfl : i = j ∨ i = j + 1 := by omega
    · exact hx1 (hoccurs.1 hocc).2.1.symm
    · -- The second byte of the needle is not here, and the first one is the same.
      rcases hkl with ⟨heq, -, -⟩ | ⟨-, rfl, -⟩
      · exact hx1 (heq.symm.trans (hnext hocc).symm)
      · omega

/-- **All rounds**, from a position that has no occurrence before it. -/
theorem search_first (hm : xs.length + 2 ≤ n) {fuel : ℕ} :
    ∀ {j : ℕ}, j ≤ n → n < j + fuel → (∀ i < j, ¬Occurs (x0 :: x1 :: xs) y i) →
      ∃ r, search bits y n (x0 :: x1 :: xs) (xs.length + 2) k l fuel j = some r ∧
        First (x0 :: x1 :: xs) y r := by
  induction fuel with
  | zero => intro j hjn hf; omega
  | succ fuel ih =>
    intro j hjn hf hbefore
    by_cases hj : j ≤ n - (xs.length + 2)
    · obtain ⟨hocc, hr⟩ | ⟨j', hlt, hle, hnone, hr⟩ := search_step hy hn hkl fuel hm hj
      · exact ⟨_, hr, .found hocc hbefore⟩
      · rw [hr]
        refine ih (by omega) (by omega) fun i hi => ?_
        by_cases hij : i < j
        · exact hbefore i hij
        · exact hnone i (by omega) hi
    · refine ⟨none, by rw [search, if_neg hj], .missing fun i hocc => ?_⟩
      have hle := hocc.le (by simp)
      rw [length_cons, length_cons] at hle
      exact hbefore i (by omega) hocc

end

end

lemma searchByte_first {x0 : UInt8} {y : List UInt8} {rest : List UInt8} :
    ∀ {i : ℕ}, rest ≠ [] → y.drop i = rest → (∀ j < i, ¬Occurs [x0] y j) →
      ∃ r, searchByte [x0] rest rest.length i = some r ∧ First [x0] y r := by
  induction rest with
  | nil => intro i h; exact absurd rfl h
  | cons c rest ih =>
    intro i _ hrest hbefore
    have hocc : Occurs [x0] y i ↔ c = x0 := by
      rw [Occurs, hrest, cons_prefix_cons]
      simp [eq_comm]
    rw [searchByte]
    simp only [getElem?_cons_zero, Option.bind_eq_bind, Option.bind_some, length_cons,
      Nat.add_sub_cancel]
    by_cases hc : c = x0
    · exact ⟨some i, if_pos hc, .found (hocc.2 hc) hbefore⟩
    have hbefore' : ∀ j < i + 1, ¬Occurs [x0] y j := by
      intro j hj
      obtain hlt | rfl : j < i ∨ j = i := by omega
      · exact hbefore j hlt
      · exact fun h => hc (hocc.1 h)
    have hdrop : y.drop (i + 1) = rest := by
      rw [← drop_drop, hrest]
      rfl
    rw [if_neg hc]
    by_cases hr : rest = []
    · refine ⟨none, by simp [hr], .missing fun j hj => ?_⟩
      have hle := hj.le (by simp)
      have hlen := congrArg List.length hdrop
      rw [length_drop, hr, length_nil] at hlen
      rw [length_singleton] at hle
      exact hbefore' j (by omega) hj
    · rw [if_pos (by simpa using hr)]
      exact ih hr hdrop hbefore'

/-- **`memmem` finds the first occurrence**: it returns, without a read behind the haystack or the
needle, and what it returns is the first occurrence. -/
theorem memmem_first {bits fuel n m : ℕ} {y x : List UInt8} (hn : n < 2 ^ bits) (hfuel : n < fuel)
    (hy : y.length = n) (hx : x.length = m) (hm : 1 ≤ m) : ∃ r, memmem bits fuel y n x m = some r ∧
      (∀ i, r = some i ↔ IsLeast {i | Occurs x y i} i) ∧ (r = none ↔ ∀ i, ¬Occurs x y i) := by
  suffices h : ∃ r, memmem bits fuel y n x m = some r ∧ First x y r by
    obtain ⟨r, hr, hfirst⟩ := h
    exact ⟨r, hr, hfirst.some_iff, hfirst.none_iff⟩
  have hne : x ≠ [] := by
    rintro rfl
    simp at hx
    omega
  rw [memmem]
  by_cases hnull : m > n ∨ m = 0 ∨ n = 0
  · refine ⟨none, if_pos hnull, .missing fun i hi => ?_⟩
    have hle := hi.le hne
    omega
  rw [if_neg hnull]
  obtain ⟨x0, x', rfl⟩ := exists_cons_of_ne_nil hne
  cases x' with
  | nil =>
    have hm1 : ¬1 ≠ m := by simpa using hx
    rw [if_neg hm1, ← hy]
    refine searchByte_first ?_ (drop_zero) (by simp)
    rintro rfl
    simp at hy
    omega
  | cons x1 xs =>
    obtain rfl : xs.length + 2 = m := by simpa using hx
    simp only [getElem?_cons_zero, getElem?_cons_succ, Option.bind_eq_bind, Option.bind_some]
    by_cases heq : x0 = x1
    · rw [if_pos heq]
      exact search_first hy hn (.inl ⟨heq, rfl, rfl⟩) (by omega) (by omega) (by omega) (by simp)
    · rw [if_neg heq]
      exact search_first hy hn (.inr ⟨heq, rfl, rfl⟩) (by omega) (by omega) (by omega) (by simp)

/-- A needle that overlaps itself. -/
theorem memmem_first_overlap : ∃ r, memmem 64 8 [0, 1, 0, 0, 1, 0, 0] 7 [0, 0, 1] 3 = some r ∧
      (∀ i, r = some i ↔ IsLeast {i | Occurs [0, 0, 1] [0, 1, 0, 0, 1, 0, 0] i} i) ∧
      (r = none ↔ ∀ i, ¬Occurs [0, 0, 1] [0, 1, 0, 0, 1, 0, 0] i) :=
  memmem_first (by decide) (by decide) rfl rfl (by decide)

end Klibc.Mem.Memmem
