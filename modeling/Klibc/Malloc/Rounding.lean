import Klibc.Malloc.Blocks
import Mathlib.Data.Nat.Bitwise

/-! # Rounding of sizes

The two roundings of `malloc`, up to the header unit and up to the chunk.  Both add first and then
mask, and the addition is modulo the word: a size too near to the top of `size_t` comes out as
nearly nothing. -/

namespace Klibc.Malloc.Rounding

open Arena Blocks

variable {A : Arch} {s k : ℕ}

lemma and_mask {j n x : ℕ} (hj : j ≤ n) (hx : x < 2 ^ n) :
    x &&& (2 ^ n - 2 ^ j) = x / 2 ^ j * 2 ^ j := by
  have hpos := Nat.two_pow_pos j
  have hle : 2 ^ j ≤ 2 ^ n := Nat.pow_le_pow_right (by omega) hj
  apply Nat.eq_of_testBit_eq
  intro i
  have h1 : 2 ^ n - 2 ^ j = 2 ^ n - ((2 ^ j - 1) + 1) := by omega
  rw [Nat.testBit_and, h1, Nat.testBit_two_pow_sub_succ (by omega), Nat.testBit_two_pow_sub_one,
    Nat.testBit_mul_two_pow, Nat.testBit_div_two_pow]
  by_cases hi : i < j
  · simp [hi]
  · by_cases hn : i < n
    · simp [hi, hn, Nat.not_lt.1 hi]
    · have hx0 : x.testBit i = false :=
        Nat.testBit_lt_two_pow (hx.trans_le (Nat.pow_le_pow_right (by omega) (by omega)))
      simp [hi, hx0, Nat.not_lt.1 hi]

lemma roundSize_eq (A : Arch) (s : ℕ) :
    roundSize A s = (s + (2 * A.hdr - 1)) % A.word / A.hdr * A.hdr := by
  have hpow : ∃ j, A.hdr = 2 ^ j ∧ j ≤ 8 * A.W := by
    have := W_pos A
    rcases hdr_eq A with h | h
    · exact ⟨4, h, by omega⟩
    · exact ⟨5, h, by omega⟩
  obtain ⟨j, hj, hle⟩ := hpow
  unfold roundSize
  rw [hj]
  exact and_mask hle (Nat.mod_lt _ (Nat.two_pow_pos _))

lemma roundChunk_eq (A : Arch) (k : ℕ) :
    roundChunk A k = (k + (A.chunk - 1)) % A.word / A.chunk * A.chunk := by
  have := A.chunkMax
  exact and_mask (j := A.chunkShift) (by omega) (Nat.mod_lt _ (Nat.two_pow_pos _))

lemma roundSize_lt (A : Arch) (s : ℕ) : roundSize A s < A.word :=
  Nat.and_lt_two_pow _ (Nat.sub_lt (Nat.two_pow_pos _) (by have := hdr_eq A; omega))

structure Rounded (A : Arch) (s k : ℕ) : Prop where
  dvd : A.hdr ∣ k
  room : s + A.hdr ≤ k
  near : k < s + 2 * A.hdr

lemma Rounded.min (h : Rounded A s k) (hs : 0 < s) : 2 * A.hdr ≤ k := by
  have h1 := h.room
  obtain ⟨q, rfl⟩ := h.dvd
  have h2 : 1 < q := by
    by_contra hq
    have : A.hdr * q ≤ A.hdr * 1 := Nat.mul_le_mul_left _ (by omega)
    omega
  rw [mul_comm]
  exact Nat.mul_le_mul_left _ h2

lemma roundSize_spec (h : s + (2 * A.hdr - 1) < A.word) : Rounded A s (roundSize A s) := by
  have hh := hdr_eq A
  have hr := roundSize_eq A s
  rw [Nat.mod_eq_of_lt h] at hr
  have h1 := Nat.div_add_mod (s + (2 * A.hdr - 1)) A.hdr
  have h2 := Nat.mod_lt (s + (2 * A.hdr - 1)) (show 0 < A.hdr by omega)
  rw [mul_comm, ← hr] at h1
  exact ⟨hr ▸ Nat.dvd_mul_left _ _, by omega, by omega⟩

lemma roundSize_wrap (hs : s < A.word) (h : A.word ≤ s + (2 * A.hdr - 1)) :
    roundSize A s = if s + A.hdr ≤ A.word then 0 else A.hdr := by
  have hh := hdr_eq A
  have hw := word_ge A
  have hmod : (s + (2 * A.hdr - 1)) % A.word = s + (2 * A.hdr - 1) - A.word := by
    rw [Nat.mod_eq_sub_mod h, Nat.mod_eq_of_lt (by omega)]
  rw [roundSize_eq, hmod]
  split_ifs with hc
  · rw [Nat.div_eq_of_lt (by omega), Nat.zero_mul]
  · rw [Nat.div_eq_of_lt_le (k := 1) (by omega) (by omega), Nat.one_mul]

/-- What rounding to the chunk gives: nothing if the addition wraps, and otherwise a multiple of the
chunk that holds the request. -/
theorem roundChunk_spec (hk : k < A.word) : (A.word ≤ k + (A.chunk - 1) ∧ roundChunk A k = 0) ∨
      (k + (A.chunk - 1) < A.word ∧ A.chunk ∣ roundChunk A k ∧ k ≤ roundChunk A k) := by
  have hc := chunk_pos A
  have hw := chunk_le_word A
  rcases Nat.lt_or_ge (k + (A.chunk - 1)) A.word with h | h
  · have hr := roundChunk_eq A k
    rw [Nat.mod_eq_of_lt h] at hr
    have h1 := Nat.div_add_mod (k + (A.chunk - 1)) A.chunk
    have h2 := Nat.mod_lt (k + (A.chunk - 1)) hc
    rw [mul_comm, ← hr] at h1
    exact .inr ⟨h, hr ▸ Nat.dvd_mul_left _ _, by omega⟩
  · have hmod : (k + (A.chunk - 1)) % A.word = k + (A.chunk - 1) - A.word := by
      rw [Nat.mod_eq_sub_mod h, Nat.mod_eq_of_lt (by omega)]
    refine .inl ⟨h, ?_⟩
    rw [roundChunk_eq, hmod, Nat.div_eq_of_lt (by omega), Nat.zero_mul]

lemma roundChunk_pos (hk : k < A.word) (h : 0 < roundChunk A k) :
    A.chunk ∣ roundChunk A k ∧ k ≤ roundChunk A k := by
  rcases roundChunk_spec hk with ⟨-, h0⟩ | ⟨-, hd, hle⟩
  · omega
  · exact ⟨hd, hle⟩

end Klibc.Malloc.Rounding
