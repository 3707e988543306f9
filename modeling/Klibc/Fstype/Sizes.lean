import Klibc.Fstype.Superblocks

/-! # The sizes that superblocks give

Five functions compute the size of a filesystem as a number of blocks shifted by a field of the
superblock. Nothing bounds that field, so bits can be lost, and a shift by 64 bits or more is
undefined. The functions for ext add 10 to their field in 32 bits, so that a huge field leads to a
small shift. -/

namespace Klibc.Fstype.Sizes

open Superblocks Lib.Endian

inductive Probe
  | minix
  | ext2
  | ext3
  | baseExt4
  | jfs
  deriving DecidableEq

/-- What a function returns, and `*bytes` after it. -/
def Probe.run (host : ByteOrder) : Probe → Identify
  | .minix => minixImage host
  | .ext2 => ext2Image host
  | .ext3 => ext3Image host
  | .baseExt4 => fun buf bytes =>
    ((baseExt4Image host buf bytes).1, (baseExt4Image host buf bytes).2.1)
  | .jfs => jfsImage host

def Probe.count (host : ByteOrder) (buf : Block) : Probe → ℕ
  | .minix => load host buf 2 2
  | .jfs => le host 8 (load host buf 8 8)
  | _ => le host 4 (load host buf 4 4)

def Probe.log (host : ByteOrder) (buf : Block) : Probe → ℕ
  | .minix => load host buf 10 2 + 10
  | .jfs => le host 2 (load host buf 28 2)
  | _ => 10 + le host 4 (load host buf 24 4)

/-- The mark that the function looks for: the magic number and, for ext3 and ext4, a feature. -/
def Probe.marked (host : ByteOrder) (buf : Block) : Probe → Bool
  | .minix => load host buf 16 2 == 0x137F || load host buf 16 2 == 0x138F
  | .ext2 => hasExtMagic host buf
  | .ext3 => hasExtMagic host buf && anyFlag host buf 92 4
  | .baseExt4 => isExt4 host buf
  | .jfs => has buf 0 "JFS1"

def Exact (host : ByteOrder) (p : Probe) (buf : Block) (bytes : Size) : Prop :=
  (p.run host buf bytes).1 = true →
    (p.run host buf bytes).2 = some (p.count host buf * 2 ^ p.log host buf)

variable (host : ByteOrder) (p : Probe) (buf : Block)

/-- The fields of minix and jfs are too small to wrap. -/
lemma log_lt_of_small {p : Probe} (h : p = .minix ∨ p = .jfs) : p.log host buf < 2 ^ 32 := by
  have hjfs := word_lt .little (contents buf) 28 2
  rcases h with rfl | rfl
  · have hminix : load host buf 10 2 < 256 ^ 2 := word_lt host (contents buf) 10 2
    simp only [Probe.log]
    omega
  · rw [Probe.log, le_load]
    omega

/-- The sum for ext wraps for the ten largest fields. -/
lemma log_lt : p.log host buf < 2 ^ 32 + 10 := by
  by_cases h : p = .minix ∨ p = .jfs
  · exact (log_lt_of_small host buf h).trans (by decide)
  · have hext := word_lt .little (contents buf) 24 4
    rw [← le_load host] at hext
    cases p <;> simp_all only [Probe.log, reduceCtorEq, or_self, not_true, true_or, or_true] <;>
      omega

/-- **What is stored** if the mark is there: the number of blocks, shifted. -/
theorem run_eq (bytes : Size) : p.run host buf bytes = if p.marked host buf then
      (true, shl (p.count host buf) (p.log host buf % 2 ^ 32)) else (false, bytes) := by
  cases p with
  | minix =>
    rw [Nat.mod_eq_of_lt (log_lt_of_small host buf (.inl rfl))]
    rfl
  | ext2 => rfl
  | ext3 => rfl
  | baseExt4 =>
    simp only [Probe.run, baseExt4Image_eq]
    by_cases h : isExt4 host buf = true
    · rw [if_pos h]
      exact (if_pos h).symm
    · rw [if_neg h]
      exact (if_neg h).symm
  | jfs =>
    rw [Nat.mod_eq_of_lt (log_lt_of_small host buf (.inr rfl))]
    rfl

lemma mul_two_pow_lt_iff {v n : ℕ} (hn : n < 64) : v * 2 ^ n < 2 ^ 64 ↔ v < 2 ^ (64 - n) := by
  have hsplit : 2 ^ 64 = 2 ^ (64 - n) * 2 ^ n := by rw [← Nat.pow_add, Nat.sub_add_cancel hn.le]
  rw [hsplit, Nat.mul_lt_mul_right (Nat.two_pow_pos n)]

lemma shl_mod_eq_some_iff {v n : ℕ} (hn : n < 2 ^ 32 + 10) :
    shl v (n % 2 ^ 32) = some (v * 2 ^ n) ↔
      n < 64 ∧ v < 2 ^ (64 - n) ∨ v = 0 ∧ 2 ^ 32 ≤ n := by
  unfold shl
  by_cases hsmall : n < 64
  · rw [Nat.mod_eq_of_lt (a := n) (by omega), if_pos hsmall, Nat.shiftLeft_eq, Option.some.injEq,
      ← mul_two_pow_lt_iff hsmall, Nat.mod_eq_iff_lt (by decide)]
    omega
  · by_cases hwrap : 2 ^ 32 ≤ n
    · -- the exact product is below `2 ^ 64` only if it is 0
      rw [if_pos (by omega), Option.some.injEq]
      refine ⟨fun h => .inr ⟨?_, hwrap⟩, ?_⟩
      · have hlt := h ▸ Nat.mod_lt (v <<< (n % 2 ^ 32)) (show 2 ^ 64 > 0 by decide)
        have hpow : 2 ^ 64 ≤ 2 ^ n := Nat.pow_le_pow_right (by decide) (by omega)
        by_contra hv
        have hmul : 2 ^ n ≤ v * 2 ^ n := Nat.le_mul_of_pos_left _ (Nat.pos_of_ne_zero hv)
        omega
      · rintro (h | ⟨rfl, -⟩)
        · exact absurd h.1 hsmall
        · simp
    · rw [if_neg (by omega)]
      exact iff_of_false (by simp) (by omega)

/-- **A size is exact** iff the mark is missing, or the logarithm is below 64 and the number of
blocks has the bits that are left, or there is no block and the sum for ext wraps. -/
theorem exact_size_iff (host : ByteOrder) (p : Probe) (buf : Block) (bytes : Size) :
    Exact host p buf bytes ↔ (p.marked host buf = true →
      p.log host buf < 64 ∧ p.count host buf < 2 ^ (64 - p.log host buf) ∨
        p.count host buf = 0 ∧ 2 ^ 32 ≤ p.log host buf) := by
  rw [Exact, run_eq, ← shl_mod_eq_some_iff (log_lt host p buf)]
  by_cases h : p.marked host buf = true <;> simp [h]

/-- An ext2 superblock of two blocks with the field 53, whose size is stored as 0, and a minix
superblock of one zone with the field 54, for which the shift is undefined. -/
theorem exact_size_fails : let zeros : Block := Vector.replicate BLOCK_SIZE 0
    let ext2 : Block := (((zeros.set 4 2 (by decide)).set 24 53 (by decide)).set 56 0x53
      (by decide)).set 57 0xEF (by decide)
    let minix : Block := (((zeros.set 2 1 (by decide)).set 10 54 (by decide)).set 16 0x7F
      (by decide)).set 17 0x13 (by decide)
    Probe.run .little .ext2 ext2 (some 0) = (true, some 0) ∧ ¬ Exact .little .ext2 ext2 (some 0) ∧
      Probe.run .little .minix minix (some 0) = (true, none) ∧
      ¬ Exact .little .minix minix (some 0) := by
  unfold Exact
  decide +kernel

end Klibc.Fstype.Sizes
