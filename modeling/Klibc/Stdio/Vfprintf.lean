import Klibc.Stdio.Output
import Klibc.Stdio.Plain

/-! # `vfprintf`

`vfprintf` formats into a buffer of its own and hands that to `_fwrite`. A text that is longer than
the buffer loses its end there. -/

namespace Klibc.Stdio.Vfprintf

open Lib.Machine Lib.Total Vsnprintf Truncation List Iso Plain Stdio.Stream Output

def BUFFER_SIZE : ℕ := 32768

/-- `k` bytes of a buffer from the index `i` on. -/
def bytesAt (buf : ℤ → Option UInt8) (i : ℤ) : ℕ → Option (List UInt8)
  | 0 => some []
  | k + 1 => do
    let b ← buf i
    let rest ← bytesAt buf (i + 1) k
    some (b :: rest)

/-- What `vfprintf` hands to `_fwrite`, or the negative value that it returns instead. -/
def vfprintfText (arch : Arch) (format : List UInt8) (ap : List (Arg arch.bits)) :
    Option (Except ℤ (List UInt8)) := do
  let r ← vsnprintf arch BUFFER_SIZE format ap
  if r.ret < 0 then some (.error r.ret)
  else
    let rv := if r.ret > BUFFER_SIZE - 1 then (BUFFER_SIZE : ℤ) - 1 else r.ret
    let buffer ← bytesAt r.buf 0 rv.toNat
    some (.ok buffer)

/-- `vfprintf` and `fprintf`. -/
def fprintf (C : Config) (format : List UInt8) (ap : List (Arg C.bits)) : Call ℤ := do
  match ← access (vfprintfText C.toArch format ap) with
  | .error rv => return rv
  | .ok buffer => return wrap 32 (← fwrite C buffer)

lemma bytesAt_eq {buf : ℤ → Option UInt8} : ∀ {F : List UInt8} {j : ℤ} (k : ℕ),
    (∀ i : ℕ, i < k → buf (j + i) = F[i]?) → k ≤ F.length → bytesAt buf j k = some (F.take k)
  | F, j, 0, _, _ => rfl
  | [], j, k + 1, _, hk => absurd hk (Nat.not_succ_le_zero k)
  | b :: F, j, k + 1, htext, hk => by
    have hb : buf j = some b := by simpa using htext 0 (Nat.succ_pos _)
    have hrest : bytesAt buf (j + 1) k = some (F.take k) := by
      refine bytesAt_eq k (fun i hi => ?_) (Nat.le_of_succ_le_succ hk)
      have := htext (i + 1) (Nat.succ_lt_succ hi)
      rwa [getElem?_cons_succ, Nat.cast_add, Nat.cast_one, add_comm (i : ℤ), ← add_assoc] at this
    rw [bytesAt, hb, hrest]
    rfl

lemma vfprintfText_eq {arch : Arch} {format F : List UInt8} {ap : List (Arg arch.bits)}
    {r : Result} (hr : vsnprintf arch BUFFER_SIZE format ap = some r) (hret : r.ret = F.length)
    (htrunc : Truncated BUFFER_SIZE F r.buf) :
    vfprintfText arch format ap = some (.ok (F.take (BUFFER_SIZE - 1))) := by
  have hsize : BUFFER_SIZE = 32768 := rfl
  have hrv : (if r.ret > BUFFER_SIZE - 1 then (BUFFER_SIZE : ℤ) - 1 else r.ret).toNat =
      min F.length (BUFFER_SIZE - 1) := by
    rw [hret]
    split_ifs <;> omega
  have hbuf : bytesAt r.buf 0 (min F.length (BUFFER_SIZE - 1)) =
      some (F.take (min F.length (BUFFER_SIZE - 1))) := by
    refine bytesAt_eq _ (fun i hi => ?_) (Nat.min_le_left _ _)
    rw [zero_add]
    exact htrunc.text (by decide) i hi
  have hpos : ¬ r.ret < 0 := by omega
  simp only [vfprintfText, hr, Option.bind_eq_bind, Option.bind_some, if_neg hpos, hrv, hbuf]
  rw [min_comm, ← take_take, take_length]

/-- **The text of a plain format**, as much of it as fits into the buffer. -/
theorem vfprintfText_plain (arch : Arch) (ps : List Piece)
    (hlen : (ps.flatMap Piece.text).length ≤ INT_MAX) :
    vfprintfText arch (formatOf (items arch.bits ps)) (argsOf (items arch.bits ps)) =
      some (.ok ((ps.flatMap Piece.text).take (BUFFER_SIZE - 1))) := by
  obtain ⟨r, hr, hret, htrunc⟩ := vsnprintf_plain arch ps hlen BUFFER_SIZE
  exact vfprintfText_eq hr hret htrunc

/-! ### What arrives in the stream -/

section
variable {C : Config} {s : Sys}

lemma returns_fprintf (h : Writable C s) {format F : List UInt8} {ap : List (Arg C.bits)}
    (htext : vfprintfText C.toArch format ap = some (.ok (F.take (BUFFER_SIZE - 1)))) :
    Returns (fprintf C format ap) s fun rv s' =>
      rv = (F.take (BUFFER_SIZE - 1)).length ∧ total s' = total s ++ F.take (BUFFER_SIZE - 1) := by
  simp only [fprintf, htext, returns_bind, returns_access]
  refine (returns_fwrite h _).mono ?_
  rintro k s' ⟨rfl, hpassed, -⟩
  have hle := length_take_le (BUFFER_SIZE - 1) F
  have hsize : BUFFER_SIZE = 32768 := rfl
  rw [returns_pure]
  exact ⟨wrap_eq (by decide) (by omega) (by omega), hpassed.total⟩

end

/-- A call on a stream without write errors, with arguments that match the format. -/
structure Printing where
  C : Config
  s : Sys
  format : List UInt8
  ap : List (Arg C.bits)
  t : Text
  writable : Writable C s
  matching : Truncation.text format ap = some t
  length_le : t.text.length ≤ INT_MAX

/-- **`vfprintf`** appends the text and returns its length iff it fits into the buffer. -/
theorem vfprintf_iff (x : Printing) : Returns (fprintf x.C x.format x.ap) x.s (fun rv s' =>
      rv = x.t.text.length ∧ total s' = total x.s ++ x.t.text) ↔
    x.t.text.length < BUFFER_SIZE := by
  obtain ⟨s, hrun, hfollows⟩ := Truncation.run_follows x.C.toArch BUFFER_SIZE x.matching
  obtain ⟨hagree, -⟩ := hfollows x.length_le
  have htext := vfprintfText_eq (Truncation.vsnprintf_of_run hrun)
    (by dsimp only; exact Truncation.ret_of_agree hagree x.length_le)
    (Truncation.truncated_of_agree hagree)
  obtain ⟨rv, s', hcall, hrv, htotal⟩ := returns_fprintf x.writable htext
  have hsize : BUFFER_SIZE = 32768 := rfl
  rw [returns_iff_of_eq hcall, hrv, htotal]
  constructor
  · rintro ⟨hlen, -⟩
    rw [length_take] at hlen
    omega
  · intro h
    rw [take_of_length_le (by omega)]
    exact ⟨rfl, rfl⟩

/-- `fprintf(stdout, "%d", -5)`. -/
def minusFive : Printing where
  C := config64
  s := slowStdout
  format := [chr '%', chr 'd']
  ap := [.int (-5)]
  t := ⟨[chr '-', chr '5'], []⟩
  writable := writable_of_opened slowStdout_opened slowStdout_obliging
  matching := by decide +kernel
  length_le := by decide

theorem vfprintf_iff_minusFive :
    Returns (fprintf config64 [chr '%', chr 'd'] [.int (-5)]) slowStdout fun rv s' =>
      rv = 2 ∧ total s' = [chr '-', chr '5'] :=
  (vfprintf_iff minusFive).2 (by decide)

theorem fprintf_long : Returns (fprintf config64 [chr '%', chr 's']
      [.str (some (List.replicate 32768 (chr 'a') ++ [0]))]) slowStdout fun rv s' =>
    rv = 32767 ∧ total s' = List.replicate 32767 (chr 'a') := by
  have hnul : 0 ∉ List.replicate 32768 (chr 'a') := by
    rw [mem_replicate]
    exact fun h => absurd h.2 (by decide)
  have htext := vfprintfText_plain config64.toArch [.str (List.replicate 32768 (chr 'a')) hnul]
    (by rw [flatMap_singleton, Piece.text, length_replicate]; decide)
  refine (returns_fprintf (writable_of_opened slowStdout_opened slowStdout_obliging) htext).mono ?_
  rintro rv s' ⟨hrv, htotal⟩
  have htake : ([Piece.str (List.replicate 32768 (chr 'a')) hnul].flatMap Piece.text).take
      (BUFFER_SIZE - 1) = List.replicate 32767 (chr 'a') := by
    rw [flatMap_singleton, Piece.text, take_replicate]
    rfl
  rw [htake] at hrv htotal
  rw [length_replicate] at hrv
  exact ⟨hrv, htotal⟩

end Klibc.Stdio.Vfprintf
