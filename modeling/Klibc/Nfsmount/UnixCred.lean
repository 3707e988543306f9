import Klibc.Nfsmount.PmapBounds

/-! # The credential of a request

`check_unix_cred` on a credential of any length, wherever it lies. Lengths are rounded up to words
by adding 3 in 32 bits, and the length of a name that wraps is taken for 0. -/

namespace Klibc.Nfsmount.UnixCred

open Lib.Xdr DummyPmap PmapBounds

/-- A credential: the length it announces and the words of its body. -/
structure AuthUnix where
  len : ℕ
  body : ℕ → ℕ
  len_lt : len < 2 ^ 32
  body_lt : ∀ i, body i < 2 ^ 32

/-- `check_unix_cred`. Addresses have 64 bits: the sums of pointers at dummypmap.c:110 do not wrap
here, as they do with 32 bits. -/
def checkUnixCred (cred : AuthUnix) : ℤ :=
  let quadLen := quads cred.len
  if quadLen < 6 then -1
  else
    let quadNameLen := quads (cred.body 1)
    if 2 + quadNameLen + 3 > quadLen then -1
    else if cred.body (2 + quadNameLen) ≠ 0 then -1
    else if cred.body (2 + quadNameLen + 1) ≠ 0 then -1
    else 0

def authUnixAt (d : List UInt8) (cred : ℕ) : AuthUnix where
  len := word d (cred + 4)
  body i := word d (cred + 8 + 4 * i)
  len_lt := word_lt d (cred + 4)
  body_lt _ := word_lt d _

lemma checkUnixCred_eq_zero_iff (cred : AuthUnix) : checkUnixCred cred = 0 ↔
    6 ≤ quads cred.len ∧ 2 + quads (cred.body 1) + 3 ≤ quads cred.len ∧
      cred.body (2 + quads (cred.body 1)) = 0 ∧ cred.body (2 + quads (cred.body 1) + 1) = 0 := by
  simp only [checkUnixCred]
  split_ifs <;> grind

lemma unixCred_iff (d : List UInt8) (cred : ℕ) :
    UnixCred d cred ↔ checkUnixCred (authUnixAt d cred) = 0 := by
  have hname : cred + 8 + 4 * 1 = cred + 12 := by omega
  have huid : ∀ q, cred + 8 + 4 * (2 + q) = cred + 16 + 4 * q := fun q => by omega
  have hgid : ∀ q, cred + 8 + 4 * (2 + q + 1) = cred + 20 + 4 * q := fun q => by omega
  simp only [checkUnixCred_eq_zero_iff, UnixCred, authUnixAt, hname, huid, hgid]
  exact and_congr_right fun _ => and_congr (by omega) Iff.rfl

/-! ### The format -/

/-- The words that `n` bytes take. -/
def words (n : ℕ) : ℕ := (n + 3) / 4

/-- The body decodes as a time stamp, the name of a machine, user, group and the number of groups,
all within its words, and both user and group are 0. -/
def Decodes (cred : AuthUnix) : Prop :=
  2 + words (cred.body 1) + 3 ≤ words cred.len ∧ cred.body (2 + words (cred.body 1)) = 0 ∧
    cred.body (2 + words (cred.body 1) + 1) = 0

instance (cred : AuthUnix) : Decidable (Decodes cred) := inferInstanceAs (Decidable (_ ∧ _))

/-- A name whose length is taken for 0, in a body that looks like one with an empty name. -/
def Wraps (cred : AuthUnix) : Prop :=
  2 ^ 32 - 3 ≤ cred.body 1 ∧ 21 ≤ cred.len ∧ cred.len < 2 ^ 32 - 3 ∧ cred.body 2 = 0 ∧
    cred.body 3 = 0

lemma quads_of_lt {n : ℕ} (h : n < 2 ^ 32 - 3) : quads n = words n := by
  unfold quads words
  omega

lemma quads_of_ge {n : ℕ} (h : 2 ^ 32 - 3 ≤ n) (hn : n < 2 ^ 32) : quads n = 0 := by
  unfold quads
  omega

/-- **A credential** is accepted only if it decodes, and if it does and is not too long, iff the
length of its name does not wrap. -/
theorem check_unix_cred_iff (cred : AuthUnix) : ((checkUnixCred cred = 0 → Decodes cred) ∧
      (Decodes cred ∧ 6 ≤ words cred.len ∧ cred.len < 2 ^ 31 → checkUnixCred cred = 0)) ↔
      ¬Wraps cred := by
  have hlen := cred.len_lt
  have hname := cred.body_lt 1
  have hwords : words cred.len ≤ 2 ^ 30 := by
    unfold words
    omega
  rw [checkUnixCred_eq_zero_iff]
  by_cases hwrap : 2 ^ 32 - 3 ≤ cred.body 1
  · have hlong : ¬Decodes cred := fun h => by
      have hfit := h.1
      unfold words at hfit
      omega
    rw [quads_of_ge hwrap hname]
    constructor
    · rintro ⟨haccept, -⟩ ⟨-, hge, hlt, huid, hgid⟩
      have hsix : 6 ≤ quads cred.len := by
        unfold quads
        omega
      exact hlong (haccept ⟨hsix, by omega, huid, hgid⟩)
    · refine fun hno => ⟨fun ⟨hsix, _, huid, hgid⟩ => absurd ?_ hno, fun h => absurd h.1 hlong⟩
      unfold quads at hsix
      exact ⟨hwrap, by omega, by omega, huid, hgid⟩
  · rw [not_le] at hwrap
    rw [quads_of_lt hwrap]
    refine iff_of_true ⟨?_, ?_⟩ fun h => absurd h.1 (by omega)
    · rintro ⟨hsix, hfit, huid, hgid⟩
      have hle : quads cred.len ≤ words cred.len := by
        unfold quads words
        omega
      exact ⟨hfit.trans hle, huid, hgid⟩
    · rintro ⟨⟨hfit, huid, hgid⟩, hsix, hshort⟩
      rw [quads_of_lt (by omega)]
      exact ⟨hsix, hfit, huid, hgid⟩

/-- A body of six words with the length 2^32 - 1 for its name. -/
def hugeName : AuthUnix where
  len := 24
  body i := if i = 1 then 2 ^ 32 - 1 else 0
  len_lt := by decide
  body_lt i := by split_ifs <;> decide

/-- It is accepted, although the name does not fit. -/
theorem hugeName_accepted : checkUnixCred hugeName = 0 ∧ ¬Decodes hugeName := by
  refine ⟨by decide, fun h => absurd h.1 (by decide)⟩

end Klibc.Nfsmount.UnixCred
