import Mathlib.Tactic.Linarith
import Klibc.Lib.Machine

/-! # `xpread` and `xpwrite`

Both functions repeat a system call until everything is transferred, and both count the result of
every call: a failure with `EINTR` is the result -1, so the next transfer starts one byte too early.
They are one loop here, over a list of results of `pread` or `pwrite`; there is no outcome for a
list that the system calls cannot return.

An interruption is hidden only by luck (`hides_interruptions_iff`): every transfer has to start in
the buffer, and no byte may be missing from the count in the end. -/

namespace Klibc.Kinit.Xpio

open Lib.Machine

/-! ### The code -/

/-- `pread` or `pwrite`. -/
inductive Op
  | pread
  | pwrite
  deriving DecidableEq

/-- The result of a system call: some bytes, where none means the end of the file; a failure with
`EINTR`; any other failure. -/
inductive Result
  | moved (n : ℕ)
  | eintr
  | error
  deriving DecidableEq

/-- The memory, the file and the parts of the memory that were read or written: their addresses and
lengths. -/
structure Sys where
  mem : ℕ → UInt8
  file : ℤ → UInt8
  size : ℤ
  touched : List (ℕ × ℕ)

/-- The arguments of a call, on a machine with addresses of `bits` bits. The buffer is an object in
memory. -/
structure Request where
  bits : ℕ
  buf : ℕ
  count : ℕ
  offset : ℤ
  bits_ok : 0 < bits ∧ bits ≤ 64
  buf_ok : buf < 2 ^ bits ∧ buf + count ≤ 2 ^ bits
  count_ok : count < 2 ^ (bits - 1)
  offset_ok : -2 ^ 63 ≤ offset ∧ offset < 2 ^ 63

structure Vars where
  bp : ℕ
  count : ℕ
  offset : ℤ
  ctr : ℤ
  rv : ℤ

/-- `bp += rv; count -= rv; offset += rv; ctr += rv;`. -/
def Vars.advance (bits : ℕ) (v : Vars) (rv : ℤ) : Vars where
  bp := unsigned bits (v.bp + rv)
  count := unsigned bits (v.count - rv)
  offset := wrap 64 (v.offset + rv)
  ctr := wrap bits (v.ctr + rv)
  rv := rv

/-- Whether the system call can move `n` bytes: they lie in the file, or at least at offsets that a
file can have, and in the memory. -/
def movable (op : Op) (bits : ℕ) (v : Vars) (s : Sys) (n : ℕ) : Bool :=
  n ≤ v.count && 0 ≤ v.offset && v.bp + n ≤ 2 ^ bits &&
    match op with
    | .pread => if n = 0 then s.size ≤ v.offset else v.offset + n ≤ s.size
    | .pwrite => v.offset + n < 2 ^ 63

def transfer (op : Op) (v : Vars) (n : ℕ) (s : Sys) : Sys :=
  match op with
  | .pread => { s with
      mem := fun a => if v.bp ≤ a ∧ a < v.bp + n then s.file (v.offset + (a - v.bp : ℕ))
        else s.mem a
      touched := s.touched ++ [(v.bp, n)] }
  | .pwrite => { s with
      file := fun p => if v.offset ≤ p ∧ p < v.offset + n then s.mem (v.bp + (p - v.offset).toNat)
        else s.file p
      size := max s.size (v.offset + n)
      touched := s.touched ++ [(v.bp, n)] }

def loop (op : Op) (bits : ℕ) : List Result → Vars → Sys → Option (Vars × Sys)
  | [], v, s => if v.count = 0 then some (v, s) else none
  | r :: rs, v, s =>
    if v.count = 0 then none
    else
      match r with
      | .moved 0 => if movable op bits v s 0 ∧ rs = [] then some ({ v with rv := 0 }, s) else none
      | .moved (n + 1) =>
        if movable op bits v s (n + 1) then
          loop op bits rs (v.advance bits (n + 1)) (transfer op v (n + 1) s)
        else none
      | .eintr => loop op bits rs (v.advance bits (-1)) s
      | .error => if rs = [] then some ({ v with rv := -1 }, s) else none

def Request.start (q : Request) : Vars := ⟨q.buf, q.count, q.offset, 0, 0⟩

/-- `xpread` or `xpwrite`: what it returns, what its last system call returned, and the system after
it. -/
def xpio (op : Op) (q : Request) (rs : List Result) (s : Sys) : Option (ℤ × ℤ × Sys) :=
  (loop op q.bits rs q.start { s with touched := [] }).map fun (v, s) =>
    (if v.ctr ≠ 0 then v.ctr else v.rv, v.rv, s)

/-! ### What the functions are for -/

def Sys.Touched (s : Sys) (a : ℕ) : Prop := ∃ r ∈ s.touched, r.1 ≤ a ∧ a < r.1 + r.2

/-- The first `m` bytes were copied, and nothing else changed. -/
def Copied (op : Op) (q : Request) (m : ℕ) (s s' : Sys) : Prop :=
  match op with
  | .pread => s'.file = s.file ∧ s'.size = s.size ∧ s'.mem = fun a =>
      if q.buf ≤ a ∧ a < q.buf + m then s.file (q.offset + (a - q.buf : ℕ)) else s.mem a
  | .pwrite => s'.mem = s.mem ∧ (s'.size = if m = 0 then s.size else max s.size (q.offset + m)) ∧
      s'.file = fun p =>
        if q.offset ≤ p ∧ p < q.offset + m then s.mem (q.buf + (p - q.offset).toNat) else s.file p

/-- **Interruptions are hidden**: the first bytes of the buffer and only they take part, they are
copied, and their number is returned, or the last result if there are none. -/
def HidesInterruptions (op : Op) (q : Request) (s : Sys) (out : ℤ × ℤ × Sys) : Prop :=
  ∃ m ≤ q.count, (∀ a, out.2.2.Touched a ↔ q.buf ≤ a ∧ a < q.buf + m) ∧ Copied op q m s out.2.2 ∧
    out.1 = if m ≠ 0 then (m : ℤ) else out.2.1

/-! ### The position -/

def Result.step : Result → ℤ
  | .moved n => n
  | .eintr => -1
  | .error => 0

/-- How far some results advance the variables. -/
def position (rs : List Result) : ℤ := (rs.map Result.step).sum

@[simp] lemma position_nil : position [] = 0 := rfl

@[simp] lemma position_cons (r : Result) (rs : List Result) :
    position (r :: rs) = r.step + position rs := by simp [position]

section
variable (q : Request)

def Request.at (pos rv : ℤ) : Vars where
  bp := unsigned q.bits (q.buf + pos)
  count := unsigned q.bits (q.count - pos)
  offset := wrap 64 (q.offset + pos)
  ctr := wrap q.bits pos
  rv := rv

def Request.Running (pos : ℤ) : Prop := (q.count : ℤ) - 2 ^ q.bits < pos ∧ pos < q.count

/-- The positions where it stops, either because everything was transferred or because `count` went
all the way round. -/
def Request.Stopped (pos : ℤ) : Prop := pos = q.count ∨ pos = q.count - 2 ^ q.bits

lemma two_pow_bits : (2 : ℤ) ^ q.bits = 2 * 2 ^ (q.bits - 1) := by
  conv_lhs => rw [← Nat.sub_add_cancel q.bits_ok.1, pow_succ]
  ring

lemma start_eq : q.start = q.at 0 0 := by
  have hpow := two_pow_bits q
  have hcount : (q.count : ℤ) < 2 ^ (q.bits - 1) := by exact_mod_cast q.count_ok
  have hbuf := unsigned_eq q.buf_ok.1
  have hlen : unsigned q.bits q.count = q.count := by
    refine unsigned_eq ?_
    zify
    omega
  have hoff : wrap 64 q.offset = q.offset := wrap_eq (by decide) q.offset_ok.1 q.offset_ok.2
  have hctr : wrap q.bits 0 = 0 := wrap_eq q.bits_ok.1 (by simp) (by simp)
  simp [Request.start, Request.at, hbuf, hlen, hoff, hctr]

lemma advance_at (pos rv d : ℤ) : (q.at pos rv).advance q.bits d = q.at (pos + d) d := by
  have hsub (x : ℤ) : unsigned q.bits ((unsigned q.bits x : ℤ) - d) = unsigned q.bits (x - d) := by
    rw [Int.sub_eq_add_neg, unsigned_unsigned_add, ← Int.sub_eq_add_neg]
  simp only [Vars.advance, Request.at, unsigned_unsigned_add, hsub, wrap_wrap_add, Int.add_assoc,
    Int.sub_sub]

lemma count_at {pos : ℤ} (rv : ℤ) (h : q.Running pos) :
    ((q.at pos rv).count : ℤ) = q.count - pos := by
  rw [Request.at, coe_unsigned]
  exact Int.emod_eq_of_lt (by linarith [h.2]) (by linarith [h.1])

lemma count_at_eq_zero {pos : ℤ} (rv : ℤ) (h : q.Stopped pos) : (q.at pos rv).count = 0 := by
  have hzero : ((q.count : ℤ) - pos) % 2 ^ q.bits = 0 := by obtain rfl | rfl := h <;> simp
  zify
  rw [Request.at, coe_unsigned, hzero]

def Request.Reachable (pos : ℤ) : Prop := q.Running pos ∨ q.Stopped pos

variable {q} in
lemma running_of_count {pos rv : ℤ} (h : q.Reachable pos) (hcount : (q.at pos rv).count ≠ 0) :
    q.Running pos :=
  h.resolve_right fun hstop => hcount (count_at_eq_zero q rv hstop)

end

/-! ### Runs -/

/-- **A run of the loop** over some results, from one position to another. -/
inductive Run (op : Op) (q : Request) : ℤ → ℤ → Sys → List Result → ℤ → ℤ → Sys → Prop
  | complete {pos rv : ℤ} {s : Sys} (stopped : q.Stopped pos) : Run op q pos rv s [] pos rv s
  | eof {pos rv : ℤ} {s : Sys} (running : q.Running pos) : Run op q pos rv s [.moved 0] pos 0 s
  | error {pos rv : ℤ} {s : Sys} (running : q.Running pos) : Run op q pos rv s [.error] pos (-1) s
  | moved {pos rv : ℤ} {s : Sys} (running : q.Running pos) {n : ℕ} (nonzero : 0 < n)
      (movable : movable op q.bits (q.at pos rv) s n = true) {rs : List Result} {pos' rv' : ℤ}
      {s' : Sys} (rest : Run op q (pos + n) n (transfer op (q.at pos rv) n s) rs pos' rv' s') :
      Run op q pos rv s (.moved n :: rs) pos' rv' s'
  | eintr {pos rv : ℤ} {s : Sys} (running : q.Running pos) {rs : List Result} {pos' rv' : ℤ}
      {s' : Sys} (rest : Run op q (pos - 1) (-1) s rs pos' rv' s') :
      Run op q pos rv s (.eintr :: rs) pos' rv' s'

section
variable {op : Op} {q : Request} {rs : List Result} {pos rv pos' rv' : ℤ} {s s' : Sys}

lemma reachable_moved {n : ℕ} (h : q.Running pos)
    (hmove : movable op q.bits (q.at pos rv) s n = true) : q.Reachable (pos + n) := by
  have hle : n ≤ (q.at pos rv).count := by
    simp only [movable, Bool.and_eq_true, decide_eq_true_eq] at hmove
    exact hmove.1.1.1
  have hcount := count_at q rv h
  obtain ⟨hlow, hhigh⟩ := h
  unfold Request.Reachable Request.Running Request.Stopped
  omega

lemma reachable_eintr (h : q.Running pos) : q.Reachable (pos - 1) := by
  obtain ⟨hlow, hhigh⟩ := h
  unfold Request.Reachable Request.Running Request.Stopped
  omega

/-- **The loop makes a run.** -/
theorem run_of_loop : ∀ {rs : List Result} {pos rv : ℤ} {s : Sys} {v' : Vars} {s' : Sys},
    q.Reachable pos → loop op q.bits rs (q.at pos rv) s = some (v', s') →
    ∃ pos', v' = q.at pos' v'.rv ∧ Run op q pos rv s rs pos' v'.rv s' := by
  intro rs
  induction rs with
  | nil =>
    intro pos rv s v' s' hreach h
    rw [loop] at h
    split_ifs at h with hcount
    obtain ⟨rfl, rfl⟩ := Prod.mk.inj (Option.some.inj h)
    refine ⟨pos, rfl, .complete (hreach.resolve_left fun hrun => ?_)⟩
    have := count_at q rv hrun
    have := hrun.2
    omega
  | cons r rs ih =>
    intro pos rv s v' s' hreach h
    rcases r with (_ | n) | _ | _
    · simp only [loop] at h
      split_ifs at h with hcount hend
      obtain ⟨rfl, rfl⟩ := Prod.mk.inj (Option.some.inj h)
      obtain rfl := hend.2
      exact ⟨pos, rfl, .eof (running_of_count hreach hcount)⟩
    · simp only [loop] at h
      split_ifs at h with hcount hmove
      have hrun := running_of_count hreach hcount
      have hcast : ((n : ℤ) + 1) = ((n + 1 : ℕ) : ℤ) := by push_cast; rfl
      rw [hcast, advance_at] at h
      obtain ⟨pos', hv, hrest⟩ := ih (reachable_moved hrun hmove) h
      exact ⟨pos', hv, .moved hrun n.succ_pos hmove hrest⟩
    · simp only [loop] at h
      split_ifs at h with hcount
      have hrun := running_of_count hreach hcount
      rw [advance_at] at h
      obtain ⟨pos', hv, hrest⟩ := ih (reachable_eintr hrun) h
      exact ⟨pos', hv, .eintr hrun hrest⟩
    · simp only [loop] at h
      split_ifs at h with hcount hend
      obtain ⟨rfl, rfl⟩ := Prod.mk.inj (Option.some.inj h)
      subst hend
      exact ⟨pos, rfl, .error (running_of_count hreach hcount)⟩

lemma Run.position_eq (h : Run op q pos rv s rs pos' rv' s') : pos' = pos + position rs := by
  induction h with
  | complete => simp
  | eof => simp [Result.step]
  | error => simp [Result.step]
  | moved _ _ _ _ ih =>
    rw [ih, position_cons, Result.step]
    omega
  | eintr _ _ ih =>
    rw [ih, position_cons, Result.step]
    omega

/-! ### What a transfer touches -/

lemma movable_bounds {v : Vars} {n bits : ℕ} (h : movable op bits v s n = true) :
    n ≤ v.count ∧ 0 ≤ v.offset := by
  simp only [movable, Bool.and_eq_true, decide_eq_true_eq] at h
  exact h.1.1

lemma bp_at (rv : ℤ) (h : q.Running pos) (h0 : 0 ≤ pos) : ((q.at pos rv).bp : ℤ) = q.buf + pos := by
  have hbuf : ((q.buf + q.count : ℕ) : ℤ) ≤ 2 ^ q.bits := by exact_mod_cast q.buf_ok.2
  have hhigh := h.2
  rw [Request.at, coe_unsigned]
  exact Int.emod_eq_of_lt (by omega) (by omega)

lemma bp_at_of_neg (rv : ℤ) (h : q.Running pos) (h0 : pos < 0) :
    (q.at pos rv).bp < q.buf ∨ q.buf + q.count ≤ (q.at pos rv).bp := by
  have hbuf : (q.buf : ℤ) < 2 ^ q.bits := by exact_mod_cast q.buf_ok.1
  have hlow := h.1
  zify
  rw [Request.at, coe_unsigned]
  by_cases hneg : (q.buf : ℤ) + pos < 0
  · rw [← Int.add_emod_right, Int.emod_eq_of_lt (by omega) (by omega)]
    omega
  · rw [Int.emod_eq_of_lt (by omega) (by omega)]
    omega

lemma offset_at (rv : ℤ) (h : q.Running pos) (h0 : 0 ≤ pos)
    (hoff : 0 ≤ (q.at pos rv).offset) : (q.at pos rv).offset = q.offset + pos := by
  have hcount : q.count < 2 ^ 63 :=
    lt_of_lt_of_le q.count_ok (Nat.pow_le_pow_right (by decide) (by have := q.bits_ok.2; omega))
  have hhigh := h.2
  obtain ⟨hofflow, hoffhigh⟩ := q.offset_ok
  rw [Request.at] at hoff ⊢
  simp only [wrap, Int.bmod] at hoff ⊢
  split_ifs at hoff ⊢ <;> omega

lemma transfer_touched (v : Vars) (n : ℕ) (s : Sys) (a : ℕ) :
    (transfer op v n s).Touched a ↔ s.Touched a ∨ v.bp ≤ a ∧ a < v.bp + n := by
  cases op <;> simp [transfer, Sys.Touched, or_and_right, exists_or]

lemma Run.touched (h : Run op q pos rv s rs pos' rv' s') {a : ℕ} (ha : s.Touched a) :
    s'.Touched a := by
  induction h with
  | complete => exact ha
  | eof => exact ha
  | error => exact ha
  | moved _ _ _ _ ih => exact ih ((transfer_touched _ _ _ a).2 (.inl ha))
  | eintr _ _ ih => exact ih ha

/-! ### Transfers that start in the buffer -/

/-- From position `pos` on, every transfer starts in the buffer. -/
def StartsInside (pos : ℤ) (rs : List Result) : Prop :=
  ∀ pre n post, rs = pre ++ .moved n :: post → 0 < n → 0 ≤ pos + position pre

lemma startsInside_nil (pos : ℤ) : StartsInside pos [] := by
  intro pre n post h
  simp at h

lemma startsInside_cons (pos : ℤ) (r : Result) (rs : List Result) : StartsInside pos (r :: rs) ↔
      (∀ n, r = .moved n → 0 < n → 0 ≤ pos) ∧ StartsInside (pos + r.step) rs := by
  constructor
  · intro h
    refine ⟨fun n hr hn => ?_, fun pre n post hrs hn => ?_⟩
    · simpa using h [] n rs (by rw [hr]; rfl) hn
    · have := h (r :: pre) n post (by rw [hrs]; rfl) hn
      rw [position_cons] at this
      omega
  · rintro ⟨hhead, htail⟩ pre n post hrs hn
    cases pre with
    | nil =>
      obtain ⟨rfl, -⟩ := List.cons.inj hrs
      simpa using hhead n rfl hn
    | cons r' pre =>
      obtain ⟨rfl, hrest⟩ := List.cons.inj hrs
      have := htail pre n post hrest hn
      rw [position_cons]
      omega

lemma Run.outside (h : Run op q pos rv s rs pos' rv' s') (hout : ¬StartsInside pos rs) :
    ∃ a, s'.Touched a ∧ ¬(q.buf ≤ a ∧ a < q.buf + q.count) := by
  induction h with
  | complete => exact absurd (startsInside_nil _) hout
  | eof =>
    refine absurd ((startsInside_cons _ _ _).2 ⟨fun n hn hpos => ?_, startsInside_nil _⟩) hout
    cases hn
    omega
  | error =>
    refine absurd ((startsInside_cons _ _ _).2 ⟨fun n hn => ?_, startsInside_nil _⟩) hout
    cases hn
  | @moved pos rv s running n nonzero movable rs pos' rv' s' rest ih =>
    by_cases h0 : 0 ≤ pos
    · refine ih fun hin => hout ((startsInside_cons _ _ _).2 ⟨fun _ _ _ => h0, hin⟩)
    · have hbp := bp_at_of_neg rv running (not_le.1 h0)
      refine ⟨(q.at pos rv).bp, rest.touched ((transfer_touched _ _ _ _).2 (.inr ?_)), ?_⟩
      · omega
      · omega
  | eintr _ _ ih =>
    refine ih fun hin => hout ((startsInside_cons _ _ _).2 ⟨fun n hn => ?_, hin⟩)
    cases hn

/-! ### What is copied -/

def peak : ℤ → List Result → ℤ
  | pos, [] => pos
  | pos, r :: rs => max pos (peak (pos + r.step) rs)

lemma le_peak (pos : ℤ) (rs : List Result) : pos ≤ peak pos rs := by
  cases rs with
  | nil => exact le_rfl
  | cons r rs => exact le_max_left _ _

lemma peak_le_iff {b : ℤ} : ∀ {rs : List Result} {pos : ℤ},
    peak pos rs ≤ b ↔ ∀ pre, pre <+: rs → pos + position pre ≤ b := by
  intro rs
  induction rs with
  | nil =>
    intro pos
    simp [peak]
  | cons r rs ih =>
    intro pos
    rw [peak, max_le_iff, ih]
    constructor
    · rintro ⟨hpos, hrest⟩ pre hpre
      rcases List.prefix_cons_iff.1 hpre with rfl | ⟨pre', rfl, hpre'⟩
      · simpa using hpos
      · have := hrest pre' hpre'
        rw [position_cons]
        omega
    · intro h
      refine ⟨by simpa using h [] (List.nil_prefix), fun pre hpre => ?_⟩
      have := h (r :: pre) ((List.prefix_cons_inj r).2 hpre)
      rw [position_cons] at this
      omega

/-- The first `m` bytes of the buffer were transferred since `s₀`, and no others. -/
structure Covers (op : Op) (q : Request) (s₀ : Sys) (m : ℕ) (s : Sys) : Prop where
  touched : ∀ a, s.Touched a ↔ q.buf ≤ a ∧ a < q.buf + m
  copied : Copied op q m s₀ s

/-- **A transfer** that starts among the bytes that are there already. -/
theorem Covers.transfer {s₀ : Sys} {m n : ℕ} (h : Covers op q s₀ m s) (hrun : q.Running pos)
    (h0 : 0 ≤ pos) (hpos : pos ≤ m) (hn : 0 < n)
    (hmove : movable op q.bits (q.at pos rv) s n = true) :
    Covers op q s₀ (max m (pos.toNat + n)) (transfer op (q.at pos rv) n s) := by
  obtain ⟨-, hoff⟩ := movable_bounds hmove
  have hoffset := offset_at rv hrun h0 hoff
  obtain ⟨k, rfl⟩ := Int.eq_ofNat_of_zero_le h0
  have hbp : (q.at k rv).bp = q.buf + k := by
    have := bp_at rv hrun h0
    omega
  rw [Int.toNat_natCast]
  constructor
  · intro a
    rw [transfer_touched, h.touched a, hbp]
    omega
  · have hcopied := h.copied
    cases op with
    | pread =>
      obtain ⟨hfile, hsize, hmem⟩ := hcopied
      refine ⟨hfile, hsize, funext fun a => ?_⟩
      simp only [Xpio.transfer, hbp, hoffset, hfile, hmem]
      by_cases hnew : q.buf + k ≤ a ∧ a < q.buf + k + n
      · rw [if_pos hnew, if_pos (by omega)]
        congr 1
        omega
      · rw [if_neg hnew]
        by_cases hold : q.buf ≤ a ∧ a < q.buf + m
        · rw [if_pos hold, if_pos (by omega)]
        · rw [if_neg hold, if_neg (by omega)]
    | pwrite =>
      obtain ⟨hmem, hsize, hfile⟩ := hcopied
      refine ⟨hmem, ?_, funext fun p => ?_⟩
      · simp only [Xpio.transfer, hoffset, hsize]
        split_ifs <;> omega
      · simp only [Xpio.transfer, hbp, hoffset, hmem, hfile]
        by_cases hnew : q.offset + k ≤ p ∧ p < q.offset + k + n
        · rw [if_pos hnew, if_pos (by omega)]
          congr 1
          omega
        · rw [if_neg hnew]
          by_cases hold : q.offset ≤ p ∧ p < q.offset + m
          · rw [if_pos hold, if_pos (by omega)]
          · rw [if_neg hold, if_neg (by omega)]

/-- **A run whose transfers start in the buffer** copies up to its highest position. -/
theorem Run.covers {s₀ : Sys} (h : Run op q pos rv s rs pos' rv' s') :
    ∀ {m : ℕ}, Covers op q s₀ m s → pos ≤ m → StartsInside pos rs →
      Covers op q s₀ (max m (peak pos rs).toNat) s' := by
  induction h with
  | complete =>
    intro m hm hpos _
    rwa [peak, max_eq_left (by omega)]
  | eof =>
    intro m hm hpos _
    simp only [peak, Result.step]
    rwa [max_eq_left (by omega)]
  | error =>
    intro m hm hpos _
    simp only [peak, Result.step]
    rwa [max_eq_left (by omega)]
  | @moved pos rv s running n nonzero movable rs pos' rv' s' rest ih =>
    intro m hm hpos hin
    obtain ⟨hstart, hrest⟩ := (startsInside_cons _ _ _).1 hin
    have h0 := hstart n rfl nonzero
    have hpeak := le_peak (pos + n) rs
    have := ih (hm.transfer running h0 hpos nonzero movable) (by omega) hrest
    rwa [show max (max m (pos.toNat + n)) (peak (pos + n) rs).toNat =
      max m (peak pos (.moved n :: rs)).toNat by rw [peak, Result.step]; omega] at this
  | @eintr pos rv s running rs pos' rv' s' rest ih =>
    intro m hm hpos hin
    have := ih hm (by omega) ((startsInside_cons _ _ _).1 hin).2
    rwa [show max m (peak (pos - 1) rs).toNat = max m (peak pos (.eintr :: rs)).toNat by
      rw [peak, Result.step, ← Int.sub_eq_add_neg]; omega] at this

/-! ### What is returned -/

section
variable (h : Run op q pos rv s rs pos' rv' s')
include h

lemma Run.ends : q.Stopped pos' ∨ q.Running pos' ∧ (rv' = 0 ∨ rv' = -1) := by
  induction h with
  | complete stopped => exact .inl stopped
  | eof running => exact .inr ⟨running, .inl rfl⟩
  | error running => exact .inr ⟨running, .inr rfl⟩
  | moved _ _ _ _ ih => exact ih
  | eintr _ _ ih => exact ih

lemma Run.rv_nonpos (hrv : pos < 0 → rv ≤ 0)
    (hin : StartsInside pos rs) (hneg : pos' < 0) : rv' ≤ 0 := by
  induction h with
  | complete => exact hrv hneg
  | eof => decide
  | error => decide
  | moved _ nonzero _ _ ih =>
    obtain ⟨hstart, hrest⟩ := (startsInside_cons _ _ _).1 hin
    have h0 := hstart _ rfl nonzero
    exact ih (by omega) hrest hneg
  | eintr _ _ ih => exact ih (by omega) ((startsInside_cons _ _ _).1 hin).2 hneg

lemma Run.le_of_neg (hin : StartsInside pos rs) (hneg : pos < 0) : pos' ≤ pos := by
  induction h with
  | complete => exact le_rfl
  | eof => exact le_rfl
  | error => exact le_rfl
  | moved _ nonzero _ _ _ =>
    have := ((startsInside_cons _ _ _).1 hin).1 _ rfl nonzero
    omega
  | eintr _ _ ih =>
    have := ih ((startsInside_cons _ _ _).1 hin).2 (by omega)
    omega

lemma Run.peak_le : peak pos rs ≤ q.count ∧ (peak pos rs = q.count → pos' = q.count) := by
  have hpow : (0 : ℤ) < 2 ^ q.bits := by positivity
  induction h with
  | complete stopped =>
    unfold Request.Stopped at stopped
    rw [peak]
    omega
  | eof running =>
    have := running.2
    simp only [peak, Result.step]
    omega
  | error running =>
    have := running.2
    simp only [peak, Result.step]
    omega
  | moved running _ _ _ ih =>
    have := running.2
    rw [peak, Result.step]
    omega
  | eintr running _ ih =>
    have := running.2
    rw [peak, Result.step, ← Int.sub_eq_add_neg]
    omega

end

variable (q) in
lemma ctr_at (rv : ℤ) (h : q.Reachable pos) : (-2 ^ (q.bits - 1) ≤ pos → (q.at pos rv).ctr = pos) ∧
      (pos < -2 ^ (q.bits - 1) → q.count ≤ (q.at pos rv).ctr) := by
  have hpow := two_pow_bits q
  have hcount : (q.count : ℤ) < 2 ^ (q.bits - 1) := by exact_mod_cast q.count_ok
  have hle : (q.count : ℤ) - 2 ^ q.bits ≤ pos ∧ pos ≤ q.count := by
    unfold Request.Reachable Request.Running Request.Stopped at h
    omega
  refine ⟨fun hnear => wrap_eq q.bits_ok.1 hnear (by omega), fun hfar => ?_⟩
  have hturn : wrap q.bits pos = wrap q.bits (pos + 2 ^ q.bits) := by
    have := @Int.add_bmod_right pos (2 ^ q.bits)
    push_cast at this
    exact this.symm
  have hround : (q.at pos rv).ctr = pos + 2 ^ q.bits :=
    hturn.trans (wrap_eq q.bits_ok.1 (by omega) (by omega))
  omega

lemma Run.count_pos (h : Run op q pos rv s rs pos' rv' s') (hne : pos' ≠ pos) : pos < q.count := by
  cases h with
  | complete => exact absurd rfl hne
  | eof running => exact running.2
  | error running => exact running.2
  | moved running => exact running.2
  | eintr running => exact running.2

lemma Run.eq_of_neg_one (h : Run op q 0 0 s rs (-1) (-1) s') (hend : ¬q.Stopped (-1))
    (hin : StartsInside 0 rs) (hpeak : peak 0 rs ≤ 0) : rs = [.eintr, .error] := by
  cases h with
  | @moved _ _ _ running n nonzero _ rs _ _ _ rest =>
    have := le_peak (0 + n) rs
    rw [peak, Result.step] at hpeak
    omega
  | eintr _ rest =>
    have hin := ((startsInside_cons _ _ _).1 hin).2
    cases rest with
    | complete stopped => exact absurd stopped hend
    | error => rfl
    | moved _ nonzero _ _ =>
      have := ((startsInside_cons _ _ _).1 hin).1 _ rfl nonzero
      simp [Result.step] at this
    | eintr _ rest =>
      have hle := rest.le_of_neg ((startsInside_cons _ _ _).1 hin).2 (by decide)
      omega

/-- **What is returned** is the highest position, or the last result if that is 0. -/
theorem Run.returned_iff (h : Run op q 0 0 s rs pos' rv' s') (hreach : q.Reachable pos')
    (hin : StartsInside 0 rs) : (if (q.at pos' rv').ctr ≠ 0 then (q.at pos' rv').ctr else rv') =
        (if peak 0 rs ≠ 0 then peak 0 rs else rv') ↔
      peak 0 rs ≤ pos' ∨ rs = [.eintr, .error] := by
  have hpow := two_pow_bits q
  have hcount : (q.count : ℤ) < 2 ^ (q.bits - 1) := by exact_mod_cast q.count_ok
  have hpeak0 : 0 ≤ peak 0 rs := le_peak 0 rs
  have hle : pos' ≤ peak 0 rs := by
    rw [h.position_eq]
    exact peak_le_iff.1 le_rfl rs List.prefix_rfl
  obtain ⟨hpeak, htop⟩ := h.peak_le
  obtain ⟨hnear, hfar⟩ := ctr_at q rv' hreach
  constructor
  · intro hret
    by_cases hneg : pos' < 0
    · have hstep := h.count_pos hneg.ne
      have hrv := h.rv_nonpos (by decide) hin hneg
      by_cases hlow : -2 ^ (q.bits - 1) ≤ pos'
      · -- The count is negative, so it has to be the last result.
        have hstop : ¬q.Stopped pos' := by
          unfold Request.Stopped
          omega
        obtain ⟨-, hlast⟩ := h.ends.resolve_left hstop
        rw [hnear hlow, if_pos (by omega)] at hret
        obtain ⟨hzero, rfl, rfl⟩ : peak 0 rs ≤ 0 ∧ pos' = -1 ∧ rv' = -1 := by
          split_ifs at hret <;> omega
        exact .inr (h.eq_of_neg_one hstop hin hzero)
      · have := hfar (not_le.1 hlow)
        split_ifs at hret <;> omega
    · rw [hnear (by omega)] at hret
      have hends := h.ends
      unfold Request.Stopped at hends
      left
      split_ifs at hret <;> omega
  · rintro (hhigh | rfl)
    · rw [hnear (by omega), show peak 0 rs = pos' by omega]
    · have hminus : pos' = -1 := h.position_eq
      have hlast : rv' = -1 := by
        cases h with
        | eintr _ rest => cases rest; rfl
      rw [hnear (by omega), hminus, hlast]
      rfl

/-- **A call is a run** from the start of the buffer. -/
theorem run_of_xpio {out : ℤ × ℤ × Sys} (h : xpio op q rs s = some out) :
    Run op q 0 0 { s with touched := [] } rs (position rs) out.2.1 out.2.2 ∧
      q.Reachable (position rs) ∧
      out.1 = if (q.at (position rs) out.2.1).ctr ≠ 0 then (q.at (position rs) out.2.1).ctr
        else out.2.1 := by
  have hstart : q.Reachable 0 := by
    unfold Request.Reachable Request.Running Request.Stopped
    have := two_pow_bits q
    have hcount : (q.count : ℤ) < 2 ^ (q.bits - 1) := by exact_mod_cast q.count_ok
    omega
  obtain ⟨⟨v, s'⟩, hloop, rfl⟩ := Option.map_eq_some_iff.1 h
  rw [start_eq] at hloop
  obtain ⟨pos', hv, hrun⟩ := run_of_loop hstart hloop
  have hpos := hrun.position_eq
  rw [Int.zero_add] at hpos
  subst hpos
  refine ⟨hrun, ?_, ?_⟩
  · exact hrun.ends.elim .inr fun hend => .inl hend.1
  · rw [← hv]

lemma covers_start (op : Op) (q : Request) (s : Sys) :
    Covers op q s 0 { s with touched := [] } := by
  constructor
  · intro a
    simp [Sys.Touched]
  · cases op with
    | pread => exact ⟨rfl, rfl, funext fun a => (if_neg (by omega)).symm⟩
    | pwrite => exact ⟨rfl, rfl, funext fun p => (if_neg (by omega)).symm⟩

/-- **Everything at once**: the bytes are copied, and their number is returned. -/
theorem xpio_whole (op : Op) (q : Request) (s : Sys) (hpos : 0 < q.count) (h0 : 0 ≤ q.offset)
    (hlimit : q.offset + q.count < 2 ^ 63) (hsize : op = .pread → q.offset + q.count ≤ s.size) :
    ∃ rv s', xpio op q [.moved q.count] s = some ((q.count : ℤ), rv, s') ∧
      Copied op q q.count s s' := by
  obtain ⟨n, hn⟩ : ∃ n, q.count = n + 1 := ⟨q.count - 1, by omega⟩
  have hcast : ((n : ℤ) + 1) = q.count := by
    rw [hn]
    push_cast
    rfl
  have hmove : movable op q.bits q.start { s with touched := [] } (n + 1) = true := by
    have hbp : q.start.bp + (n + 1) ≤ 2 ^ q.bits := hn ▸ q.buf_ok.2
    have hoffset : q.start.offset = q.offset := rfl
    simp only [movable, Bool.and_eq_true, decide_eq_true_eq]
    refine ⟨⟨⟨hn.ge, h0⟩, hbp⟩, ?_⟩
    cases op with
    | pread =>
      have := hsize rfl
      simp only [if_neg n.succ_ne_zero, decide_eq_true_eq, hoffset]
      omega
    | pwrite =>
      simp only [decide_eq_true_eq, hoffset]
      omega
  have hlow : (0 : ℤ) < 2 ^ (q.bits - 1) := by positivity
  have hstop : (q.at q.count q.count).count = 0 := count_at_eq_zero q _ (.inl rfl)
  have hctr : (q.at q.count q.count).ctr = q.count := (ctr_at q _ (.inr (.inl rfl))).1 (by omega)
  have hadvance : q.start.advance q.bits (n + 1) = q.at q.count q.count := by
    rw [start_eq, advance_at, hcast, Int.zero_add]
  refine ⟨q.count, transfer op q.start q.count { s with touched := [] }, ?_, ?_⟩
  · have hloop : loop op q.bits [.moved (n + 1)] q.start { s with touched := [] } =
        some (q.at q.count q.count, transfer op q.start (n + 1) { s with touched := [] }) := by
      have hrun : q.start.count ≠ 0 := hpos.ne'
      rw [loop, if_neg hrun, if_pos hmove, hadvance, loop, if_pos hstop]
    have hsome : (q.count : ℤ) ≠ 0 := by omega
    rw [xpio, hn, hloop, ← hn]
    simp only [Option.map_some, hctr, if_pos hsome]
    rfl
  · cases op with
    | pread => exact ⟨rfl, rfl, rfl⟩
    | pwrite => exact ⟨rfl, (if_neg hpos.ne').symm, rfl⟩

/-- **When interruptions are hidden**: every transfer starts in the buffer, and at no moment was the
position further than in the end; or there was one interruption, and then an error. -/
theorem hides_interruptions_iff (op : Op) (q : Request) (rs : List Result) (s : Sys)
    (out : ℤ × ℤ × Sys) (h : xpio op q rs s = some out) : HidesInterruptions op q s out ↔
      (∀ pre n post, rs = pre ++ .moved n :: post → 0 < n → 0 ≤ position pre) ∧
      ((∀ pre, pre <+: rs → position pre ≤ position rs) ∨ rs = [.eintr, .error]) := by
  obtain ⟨hrun, hreach, hret⟩ := run_of_xpio h
  have hinside : (∀ pre n post, rs = pre ++ .moved n :: post → 0 < n → 0 ≤ position pre) ↔
      StartsInside 0 rs := by simp [StartsInside]
  have hhighest : (∀ pre, pre <+: rs → position pre ≤ position rs) ↔ peak 0 rs ≤ position rs := by
    simp [peak_le_iff]
  have hpos : 0 ≤ peak 0 rs := le_peak 0 rs
  have hpeak := hrun.peak_le.1
  have hcovers := hrun.covers (covers_start op q s) le_rfl
  rw [Nat.zero_max] at hcovers
  rw [hinside, hhighest]
  constructor
  · rintro ⟨m, hm, htouched, -, hm'⟩
    have hin : StartsInside 0 rs := by
      by_contra hout
      obtain ⟨a, ha, hbad⟩ := hrun.outside hout
      have := (htouched a).1 ha
      omega
    have hwhole : (m : ℤ) = peak 0 rs := by
      have htop := (htouched (q.buf + m)).symm.trans ((hcovers hin).touched (q.buf + m))
      have htop' := (htouched (q.buf + (peak 0 rs).toNat)).symm.trans
        ((hcovers hin).touched (q.buf + (peak 0 rs).toNat))
      omega
    refine ⟨hin, (hrun.returned_iff hreach hin).1 ?_⟩
    rw [← hret, hm', ← hwhole]
    simp
  · rintro ⟨hin, hend⟩
    have hwhole : ((peak 0 rs).toNat : ℤ) = peak 0 rs := Int.toNat_of_nonneg hpos
    refine ⟨(peak 0 rs).toNat, by omega, (hcovers hin).touched, (hcovers hin).copied, ?_⟩
    have hsome : (peak 0 rs).toNat ≠ 0 ↔ peak 0 rs ≠ 0 := by omega
    rw [hret, (hrun.returned_iff hreach hin).2 hend, hwhole]
    simp only [hsome]

def twoBytes : Request where
  bits := 64
  buf := 100
  count := 2
  offset := 1
  bits_ok := by decide
  buf_ok := by decide
  count_ok := by decide
  offset_ok := by decide

def threeBytes : Sys := ⟨fun _ => 0, fun p => if p = 0 then 7 else if p = 1 then 8 else 9, 3, []⟩

/-- **An interruption before the first byte**: three bytes are read for the two that were asked
for, the first of them to the address before the buffer. -/
theorem xpread_overruns : ∃ out, xpio .pread twoBytes [.eintr, .moved 3] threeBytes = some out ∧
    out.1 = 2 ∧ out.2.2.mem 99 = 7 ∧ ¬HidesInterruptions .pread twoBytes threeBytes out := by
  refine ⟨_, rfl, by decide +kernel, by decide +kernel, ?_⟩
  rintro ⟨m, -, htouched, -⟩
  have hbefore := (htouched 99).1 ⟨(99, 3), by decide +kernel, by decide, by decide⟩
  exact absurd hbefore.1 (by decide)

/-- An interruption that costs only a byte read twice. -/
theorem hides_interruptions_iff_twice :
    ∃ out, xpio .pread twoBytes [.moved 1, .eintr, .moved 2] threeBytes = some out ∧
      HidesInterruptions .pread twoBytes threeBytes out := by
  obtain ⟨out, hout⟩ : ∃ out, xpio .pread twoBytes [.moved 1, .eintr, .moved 2] threeBytes =
    some out := ⟨_, rfl⟩
  refine ⟨out, hout, (hides_interruptions_iff _ _ _ _ _ hout).2 ⟨?_, .inl ?_⟩⟩
  · have hin : StartsInside 0 [.moved 1, .eintr, .moved 2] := by
      simp [startsInside_cons, startsInside_nil, Result.step]
    simpa [StartsInside] using hin
  · have hpeak : peak 0 [.moved 1, .eintr, .moved 2] ≤ position [.moved 1, .eintr, .moved 2] := by
      decide
    simpa only [Int.zero_add] using peak_le_iff.1 hpeak

end

end Klibc.Kinit.Xpio
