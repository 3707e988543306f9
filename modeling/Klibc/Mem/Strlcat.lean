import Mathlib.Algebra.Order.Group.Nat
import Mathlib.Data.List.TakeWhile
import Mathlib.Tactic.NthRewrite

/-! # `strlcpy` and `strlcat`

Both count in `bytes` how long the whole string would be, and store a character only where one more
byte is left for the NUL. The counter is the value that is returned. -/

namespace Klibc.Mem.Strlcat

open List

/-! ### The code -/

structure State where
  dst : List UInt8
  q : ℕ
  bytes : ℕ

/-- `*q = ch`; there is no result if `q` does not point into `dst`. -/
def State.store (s : State) (ch : UInt8) : Option (List UInt8) :=
  if s.q < s.dst.length then some (s.dst.set s.q ch) else none

section
variable (bits size : ℕ)

/-- The body of the loop over `src`, which both functions have. -/
def State.copy (s : State) (ch : UInt8) : Option State :=
  let bytes := (s.bytes + 1) % 2 ^ bits
  if bytes < size then (s.store ch).map fun dst => ⟨dst, s.q + 1, bytes⟩
  else some { s with bytes }

/-- The loop, with the memory from `p` on. -/
def copyLoop : List UInt8 → State → Option State
  | [], _ => none
  | ch :: p, s => if ch = 0 then some s else (s.copy bits size ch).bind (copyLoop p)

def strlcpy (dst src : List UInt8) : Option (ℕ × List UInt8) := do
  let s ← copyLoop bits size src ⟨dst, 0, 0⟩
  let dst ← if size ≠ 0 then s.store 0 else some s.dst
  return (s.bytes, dst)

/-- The loop over `dst`, with the memory from `q` on. -/
def skipLoop : List UInt8 → ℕ → Option ℕ
  | q, bytes =>
    if bytes < size then
      match q with
      | [] => none
      | c :: q => if c ≠ 0 then skipLoop q ((bytes + 1) % 2 ^ bits) else some bytes
    else some bytes

def strlen : List UInt8 → Option ℕ
  | [] => none
  | ch :: p => if ch = 0 then some 0 else (strlen p).map fun n => (n + 1) % 2 ^ bits

def strlcat (dst src : List UInt8) : Option (ℕ × List UInt8) := do
  let bytes ← skipLoop bits size dst 0
  if bytes = size then return ((bytes + (← strlen bits src)) % 2 ^ bits, dst)
  else
    let s ← copyLoop bits size src ⟨dst, bytes, bytes⟩
    return (s.bytes, ← s.store 0)

end

/-! ### What is asked of it -/

/-- The array `dst` of `size` bytes, and the string `src` in another object. -/
structure Call where
  bits : ℕ
  dst : List UInt8
  src : List UInt8
  nul_notMem : 0 ∉ src
  behind : List UInt8
  fits : dst.length + src.length < 2 ^ bits

namespace Call
variable (C : Call)

def size : ℕ := C.dst.length

def memory : List UInt8 := C.src ++ 0 :: C.behind

/-- The string in `dst`, up to its NUL or to the end of the array. -/
def old : List UInt8 := C.dst.takeWhile (· ≠ 0)

/-- The array with the string `t`, cut to `size - 1` bytes, and a NUL. -/
def terminated (t : List UInt8) : List UInt8 :=
  let t := t.take (C.size - 1)
  t ++ 0 :: C.dst.drop (t.length + 1)

/-! ### The loops -/

/-- The variables when the string `t` was copied, as far as there is room. -/
def copied (t : List UInt8) : State :=
  let u := t.take (C.size - 1)
  ⟨u ++ C.dst.drop u.length, u.length, t.length⟩

variable {C}

lemma store_copied (t : List UInt8) (c : UInt8) (h : C.size ≠ 0) :
    (C.copied t).store c = some (t.take (C.size - 1) ++
      c :: C.dst.drop ((t.take (C.size - 1)).length + 1)) := by
  have hlen : (t.take (C.size - 1)).length < C.dst.length := by
    have : C.dst.length = C.size := rfl
    rw [length_take]
    omega
  have hq : (C.copied t).q < (C.copied t).dst.length := by
    simp only [copied, length_append, length_drop]
    omega
  rw [State.store, if_pos hq]
  simp only [copied]
  rw [set_append_right _ _ (Nat.le_refl _), Nat.sub_self, drop_eq_getElem_cons hlen, set_cons_zero]

lemma copy_copied {t : List UInt8} (c : UInt8) (h : t.length + 1 < 2 ^ C.bits) :
    (C.copied t).copy C.bits C.size c = some (C.copied (t ++ [c])) := by
  have hbytes : ((C.copied t).bytes + 1) % 2 ^ C.bits = t.length + 1 := Nat.mod_eq_of_lt h
  simp only [State.copy, hbytes]
  split_ifs with hlt
  · have ht : t.take (C.size - 1) = t := take_of_length_le (by omega)
    have htc : (t ++ [c]).take (C.size - 1) = t ++ [c] := take_of_length_le (by simp; omega)
    rw [store_copied t c (by omega)]
    simp [copied, ht, htc]
  · have ht : (t ++ [c]).take (C.size - 1) = t.take (C.size - 1) :=
      take_append_of_le_length (by omega)
    simp [copied, ht]

/-- **The copying loop** stores what there is room for, and counts all of it. -/
theorem copyLoop_copied (r m : List UInt8) (h0 : 0 ∉ r) : ∀ t, t.length + r.length < 2 ^ C.bits →
      copyLoop C.bits C.size (r ++ 0 :: m) (C.copied t) = some (C.copied (t ++ r)) := by
  induction r with
  | nil => intro t _; simp [copyLoop]
  | cons c r ih =>
    intro t hlt
    rw [mem_cons, not_or] at h0
    rw [length_cons] at hlt
    rw [cons_append, copyLoop, if_neg (Ne.symm h0.1), copy_copied c (by omega), Option.bind_some,
      ih h0.2 (t ++ [c]) (by simp; omega), append_assoc, singleton_append]

end Call

lemma strlen_eq (r m : List UInt8) (h0 : 0 ∉ r) {bits : ℕ} (h : r.length < 2 ^ bits) :
    strlen bits (r ++ 0 :: m) = some r.length := by
  induction r with
  | nil => simp [strlen]
  | cons c r ih =>
    rw [mem_cons, not_or] at h0
    rw [length_cons] at h
    rw [cons_append, strlen, if_neg (Ne.symm h0.1), ih h0.2 (by omega), Option.map_some,
      Nat.mod_eq_of_lt h, length_cons]

/-- **The first loop of `strlcat`** stops at the NUL or at the end of the array. -/
theorem skipLoop_eq {bits size : ℕ} (hs : size < 2 ^ bits) (d : List UInt8) :
    ∀ n, n + d.length = size →
      skipLoop bits size d n = some (n + (d.takeWhile (· ≠ 0)).length) := by
  induction d with
  | nil => intro n hn; simp [skipLoop, ← hn]
  | cons c d ih =>
    intro n hn
    rw [length_cons] at hn
    rw [skipLoop, if_pos (by omega)]
    split_ifs with hc
    · rw [Nat.mod_eq_of_lt (by omega), ih (n + 1) (by omega),
        takeWhile_cons_of_pos (by simpa using hc), length_cons, Nat.add_assoc, Nat.add_comm 1]
    · rw [takeWhile_cons_of_neg (by simpa using hc)]
      rfl

namespace Call
variable (C : Call)

lemma copied_nil : C.copied [] = ⟨C.dst, 0, 0⟩ := by simp [copied]

lemma old_of_notMem (h : 0 ∉ C.dst) : C.old = C.dst :=
  takeWhile_eq_self_iff.2 fun c hc => by simpa using ne_of_mem_of_not_mem hc h

lemma length_old_lt (h : 0 ∈ C.dst) : C.old.length < C.size := by
  have hpre : C.old <+: C.dst := List.takeWhile_prefix _
  refine Nat.lt_of_le_of_ne hpre.length_le fun heq => ?_
  have hall := takeWhile_eq_self_iff.1 (hpre.eq_of_length heq) 0 h
  simp at hall

/-- The string that is in the array stands where it would be copied to. -/
theorem copied_old (h : 0 ∈ C.dst) : C.copied C.old = ⟨C.dst, C.old.length, C.old.length⟩ := by
  have hlt := C.length_old_lt h
  have ht : C.old.take (C.size - 1) = C.old := take_of_length_le (by omega)
  have hpre : C.old = C.dst.take C.old.length := prefix_iff_eq_take.1 (List.takeWhile_prefix _)
  have hd : C.old ++ C.dst.drop C.old.length = C.dst := by
    nth_rewrite 1 [hpre]
    exact take_append_drop _ _
  simp [copied, ht, hd]

end Call

/-- **Both functions store what there is room for** and return the length of the whole string;
`strlcat` leaves an array without a NUL as it is, and `strlcpy` an empty one. -/
theorem strlcat_strlcpy_eq (C : Call) :
    strlcat C.bits C.size C.dst C.memory = some (min C.size C.old.length + C.src.length,
      if 0 ∈ C.dst then C.terminated (C.old ++ C.src) else C.dst) ∧
    strlcpy C.bits C.size C.dst C.memory = some (C.src.length,
      if 0 < C.size then C.terminated C.src else C.dst) := by
  have hfits : C.size + C.src.length < 2 ^ C.bits := C.fits
  have hskip : skipLoop C.bits C.size C.dst 0 = some C.old.length := by
    have hsize : C.size < 2 ^ C.bits := by omega
    have h := skipLoop_eq hsize C.dst 0 (Nat.zero_add _)
    rwa [Nat.zero_add] at h
  constructor
  · simp only [strlcat, hskip, Option.bind_eq_bind, Option.bind_some]
    by_cases h : 0 ∈ C.dst
    · have hlt := C.length_old_lt h
      have hloop := Call.copyLoop_copied (C := C) C.src C.behind C.nul_notMem C.old (by omega)
      rw [C.copied_old h] at hloop
      rw [if_neg hlt.ne, if_pos h, Call.memory, hloop, Option.bind_some,
        Call.store_copied _ _ (by omega), Nat.min_eq_right hlt.le]
      simp [Call.copied, Call.terminated]
    · rw [C.old_of_notMem h, if_pos (by rfl), if_neg h, Call.memory,
        strlen_eq _ _ C.nul_notMem (by omega)]
      simp [Nat.mod_eq_of_lt C.fits, Call.size]
  · have hloop := Call.copyLoop_copied (C := C) C.src C.behind C.nul_notMem [] (by simp; omega)
    rw [C.copied_nil, nil_append] at hloop
    simp only [strlcpy, Call.memory, hloop, Option.bind_eq_bind, Option.bind_some]
    split_ifs with h0 h
    · rw [Call.store_copied _ _ h0]
      rfl
    · omega
    · omega
    · have hnil : C.dst = [] := by simpa [Call.size] using h0
      simp [Call.copied, Call.size, hnil]

/-- `cde`, and an array of four bytes that holds `a`. -/
def shortArray : Call where
  bits := 32
  dst := [97, 0, 7, 7]
  src := [99, 100, 101]
  nul_notMem := by decide
  behind := []
  fits := by decide

theorem strlcat_strlcpy_eq_shortArray :
    strlcat 32 4 [97, 0, 7, 7] [99, 100, 101, 0] = some (4, [97, 99, 100, 0]) ∧
      strlcpy 32 4 [97, 0, 7, 7] [99, 100, 101, 0] = some (3, [99, 100, 101, 0]) :=
  strlcat_strlcpy_eq shortArray

end Klibc.Mem.Strlcat
