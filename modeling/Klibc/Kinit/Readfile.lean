import Mathlib.Tactic.Positivity
import Klibc.Stdio.LastError

/-! # Reading a whole file

`freadfile` reads a stream to its end into memory that it doubles whenever it is full. Three numbers
describe the memory: `bs` is its size, `bu` the bytes used and `bf` the bytes free; the end of the
file is known from free bytes that `_fread` did not fill. -/

namespace Klibc.Kinit.Readfile

open Lib.Machine Lib.Slice Lib.Total List Stdio.Stream Stdio.Input Stdio.LastError
open Stdio.Vsnprintf (INT_MAX)

/-! ### The code -/

/-- The answer to each request for memory: a null pointer, or what the memory held before. -/
structure Heap where
  answers : ℕ → ℕ → Option (ℕ → UInt8)

/-- `malloc(n)`, as request `k`. -/
def Heap.malloc (H : Heap) (k n : ℕ) : Option (List UInt8) :=
  (H.answers k n).map fun junk => (List.range n).map junk

/-- `realloc(ptr, n)`, as request `k`. -/
def Heap.realloc (H : Heap) (k n : ℕ) (ptr : List UInt8) : Option (List UInt8) :=
  if n = 0 then none
  else (H.answers k n).map fun junk => (List.range n).map fun i => ptr.getD i (junk i)

/-- The local variables of `freadfile`, and the number of requests for memory so far. -/
structure Vars where
  buffer : List UInt8
  bs : ℕ
  bf : ℕ
  bu : ℕ
  requests : ℕ

def store (o : Option (List UInt8)) : ProcCall (List UInt8) := fun t => o.map fun x => (x, t)

section
variable (C : Config) (H : Heap)

/-- `while (bf && (rv = _fread(buffer + bu, bf, f)))`, one turn. -/
def fillTurn (v : Vars) : ProcCall (Vars ⊕ Vars) := do
  if v.bf = 0 then return .inr v
  else
    let data ← freadErrno C v.bf
    let buffer ← store (overwrite v.buffer v.bu data)
    if data = [] then return .inr { v with buffer := buffer }
    else
      return .inl { v with
        buffer := buffer
        bu := unsigned C.bits (v.bu + data.length)
        bf := unsigned C.bits (v.bf - data.length) }

/-- `errno && errno != EINTR && errno != EAGAIN`. -/
def isHard (errno : Option Errno) : Bool := errno.any fun e => !e.again

/-- One turn of the `for` of `freadfile`: the next one, or what is returned. None is -1. -/
def growTurn (oldErrno : Option Errno) (v : Vars) :
    ProcCall (Vars ⊕ Option (ℤ × List UInt8)) := do
  setErrno none
  let v ← Loop.run ⟨fillTurn C⟩ v
  let errno ← getErrno
  if isHard errno then return .inr none
  else if v.bf ≠ 0 then
    let nb := H.realloc v.requests (unsigned C.bits (v.bu + 1)) v.buffer
    let buffer ← store (overwrite (nb.getD v.buffer) v.bu [0])
    setErrno oldErrno
    return .inr (some (wrap C.bits v.bu, buffer))
  else
    let bs := unsigned C.bits (v.bs + v.bs)
    match H.realloc v.requests bs v.buffer with
    | none => return .inr none
    | some buffer => return .inl ⟨buffer, bs, unsigned C.bits (v.bf + v.bs), v.bu, v.requests + 1⟩

/-- `freadfile(f, pp)`: what it returns and stores, where none is -1. -/
def freadfile : ProcCall (Option (ℤ × List UInt8)) := do
  let oldErrno ← getErrno
  match H.malloc 0 C.BUFSIZ with
  | none => return none
  | some buffer => Loop.run ⟨growTurn C H oldErrno⟩ ⟨buffer, C.BUFSIZ, C.BUFSIZ, 0, 1⟩

end

/-! ### The memory -/

section
variable {H : Heap} {ptr : List UInt8} {k n : ℕ}

def Heap.Grants (H : Heap) : Prop := ∀ k n, n ≠ 0 → (H.answers k n).isSome = true

lemma exists_malloc (h : H.Grants) (hn : n ≠ 0) (k : ℕ) :
    ∃ b, H.malloc k n = some b ∧ b.length = n := by
  obtain ⟨junk, hjunk⟩ := Option.isSome_iff_exists.1 (h k n hn)
  exact ⟨_, by rw [Heap.malloc, hjunk]; rfl, by simp⟩

lemma exists_realloc (h : H.Grants) (hn : n ≠ 0) (k : ℕ) (ptr : List UInt8) :
    ∃ b, H.realloc k n ptr = some b ∧ b.length = n ∧
      ∀ m ≤ n, m ≤ ptr.length → b.take m = ptr.take m := by
  obtain ⟨junk, hjunk⟩ := Option.isSome_iff_exists.1 (h k n hn)
  refine ⟨_, by rw [Heap.realloc, if_neg hn, hjunk]; rfl, by simp, fun m hm hptr => ?_⟩
  refine ext_getElem (by simp [hm, hptr]) fun i hi hi' => ?_
  have him : i < m := lt_of_lt_of_le hi' (length_take_le _ _)
  simp [getD_eq_getElem?_getD, getElem?_eq_getElem (show i < ptr.length by omega)]

@[simp]
lemma returns_store {b : List UInt8} {t : Proc} {Q : List UInt8 → Proc → Prop} :
    Returns (store (some b)) t Q ↔ Q b t :=
  returns_iff_of_eq rfl

end

/-! ### The loops -/

section
variable {C : Config} {H : Heap} {t : Proc} {v : Vars} {contents : List UInt8}

/-- **What the loops keep**: the three numbers describe the memory, and what was read and what is
left of the file are its contents. -/
structure Filled (C : Config) (contents : List UInt8) (v : Vars) (t : Proc) : Prop where
  readable : Readable C t.sys
  soft : Soft t
  size : v.buffer.length = v.bs
  sum : v.bu + v.bf = v.bs
  fits : v.bs < 2 ^ C.bits
  contents : v.buffer.take v.bu ++ rest t.sys = contents

variable {data b : List UInt8} {t' : Proc}

lemma rest_eq_nil {count : ℕ} (hsoft : Soft t)
    (hd : Delivered C t.sys count data t'.sys) (hlt : data.length < count) : rest t'.sys = [] := by
  rcases hd.short hlt with hend | ⟨-, i, e, he, hi, -⟩
  · exact hend.1
  · exact absurd (hsoft.answers i e hi) he

lemma Filled.read (h : Filled C contents v t) (hd : Delivered C t.sys v.bf data t'.sys)
    (hsoft : Soft t') : ∃ b, overwrite v.buffer v.bu data = some b ∧
      Filled C contents ⟨b, v.bs, v.bf - data.length, v.bu + data.length, v.requests⟩ t' := by
  have hle := hd.le
  have hsum := h.sum
  have hsize := h.size
  have hin : v.bu + data.length ≤ v.buffer.length := by omega
  refine ⟨_, overwrite_eq hin, hd.readable, hsoft, ?_, ?_, h.fits, ?_⟩
  · rw [length_overwritten hin, hsize]
  · change v.bu + data.length + (v.bf - data.length) = v.bs
    omega
  · rw [← h.contents, hd.took.rest, take_overwritten hin, append_assoc]

lemma returns_fill (h : Filled C contents v t) :
    Returns (Loop.run ⟨fillTurn C⟩ v) t fun v' t' => Filled C contents v' t' ∧
      (v'.bf ≠ 0 → rest t'.sys = []) ∧ v'.bs = v.bs ∧ v'.requests = v.requests := by
  refine returns_loop_of_measure
    (fun w u => Filled C contents w u ∧ w.bs = v.bs ∧ w.requests = v.requests) (fun w _ => w.bf)
    (fun w u hw => ?_) ⟨h, rfl, rfl⟩
  obtain ⟨hfill, hbs, hreq⟩ := hw
  rw [fillTurn]
  by_cases hbf : w.bf = 0
  · rw [if_pos hbf, returns_pure]
    exact ⟨hfill, fun hne => absurd hbf hne, hbs, hreq⟩
  rw [if_neg hbf, returns_bind]
  refine (returns_freadErrno hfill.readable w.bf).mono ?_
  rintro data u' ⟨hd, hsoft⟩
  obtain ⟨b, hwrite, hread⟩ := hfill.read hd (hsoft hfill.soft)
  have hle := hd.le
  have hfits := hfill.fits
  have hsum := hfill.sum
  rw [hwrite, returns_bind, returns_store]
  by_cases hnil : data = []
  · subst hnil
    rw [if_pos rfl, returns_pure]
    exact ⟨hread, fun _ => rest_eq_nil hfill.soft hd (Nat.pos_of_ne_zero hbf), hbs, hreq⟩
  · have hpos := length_pos_iff.2 hnil
    have hbu : unsigned C.bits (w.bu + data.length) = w.bu + data.length :=
      unsigned_eq (x := w.bu + data.length) (by omega)
    have hbf' : unsigned C.bits (w.bf - data.length) = w.bf - data.length := by
      rw [← Nat.cast_sub hle]
      exact unsigned_eq (by omega)
    rw [if_neg hnil, returns_pure, hbu, hbf']
    refine ⟨⟨hread, hbs, hreq⟩, ?_⟩
    change w.bf - data.length < w.bf
    omega

lemma overwrite_nul {n : ℕ} (hlen : b.length = n + 1) :
    overwrite b n [0] = some (b.take n ++ [0]) := by
  have hin : n + [(0 : UInt8)].length ≤ b.length := hlen.ge
  have hdrop : b.drop (n + [(0 : UInt8)].length) = [] := drop_of_length_le hlen.le
  rw [overwrite_eq hin, hdrop, append_nil]

lemma Filled.length (h : Filled C contents v t) : v.bu + (rest t.sys).length = contents.length := by
  have hsum := h.sum
  have hsize := h.size
  rw [← h.contents, length_append, length_take]
  omega

lemma Filled.finished (h : Filled C contents v t) (hend : rest t.sys = []) :
    v.buffer.take v.bu = contents ∧ v.bu = contents.length := by
  have hlength := h.length
  rw [hend, length_nil, Nat.add_zero] at hlength
  exact ⟨by rw [← h.contents, hend, append_nil], hlength⟩

lemma Filled.doubled (h : Filled C contents v t) (hfull : v.bf = 0)
    (hfits : v.bs + v.bs < 2 ^ C.bits) (hlen : b.length = v.bs + v.bs)
    (htake : b.take v.bu = v.buffer.take v.bu) (requests : ℕ) :
    Filled C contents ⟨b, v.bs + v.bs, v.bs, v.bu, requests⟩ { t with errno := none } where
  readable := h.readable
  soft := ⟨h.soft.answers, fun e he => by cases he⟩
  size := hlen
  sum := by
    have hsum := h.sum
    change v.bu + v.bs = v.bs + v.bs
    omega
  fits := hfits
  contents := by
    change b.take v.bu ++ rest t.sys = contents
    rw [htake, h.contents]

lemma not_isHard (h : Soft t) : isHard t.errno = false := by
  cases he : t.errno with
  | none => rfl
  | some e => simp [isHard, h.errno e he]

variable (C) in
lemma two_pow_bits : 2 ^ C.bits = 2 * 2 ^ (C.bits - 1) := by
  rcases C.bits_eq with h | h <;> rw [h] <;> rfl

section
variable (hheap : H.Grants) (hlen : contents.length < 2 ^ (C.bits - 1)) (oldErrno : Option Errno)
  (h : Filled C contents v { t with errno := none }) (hbf : v.bf ≠ 0)
include hheap hlen oldErrno h hbf

/-- **One turn of the doubling loop**: everything is there, or less is left to read. -/
theorem returns_growTurn : Returns (growTurn C H oldErrno v) t fun r t' =>
      Sum.elim
        (fun v' => (Filled C contents v' { t' with errno := none } ∧ v'.bf ≠ 0) ∧
          (rest t'.sys).length < (rest t.sys).length)
        (fun out => out = some ((contents.length : ℤ), contents ++ [0]) ∧ t'.errno = oldErrno)
        r := by
  have hpow := two_pow_bits C
  rw [growTurn, returns_bind, returns_setErrno, returns_bind]
  refine (returns_fill h).mono ?_
  rintro v' t' ⟨hfill, hend, hbs, hreq⟩
  have hsum := hfill.sum
  have hfits := hfill.fits
  have hsize := hfill.size
  have htotal := hfill.length
  rw [returns_bind, returns_getErrno, if_neg (by simp [not_isHard hfill.soft])]
  by_cases hfree : v'.bf ≠ 0
  · obtain ⟨hall, hbu⟩ := hfill.finished (hend hfree)
    have hshrink : unsigned C.bits ((v'.bu : ℤ) + 1) = v'.bu + 1 :=
      unsigned_eq (x := v'.bu + 1) (by omega)
    have hret : wrap C.bits v'.bu = v'.bu := by
      have hhigh : (v'.bu : ℤ) < 2 ^ (C.bits - 1) := by exact_mod_cast hbu ▸ hlen
      exact wrap_eq (by rcases C.bits_eq with h | h <;> omega) (by omega) hhigh
    obtain ⟨b, hb, hblen, htake⟩ := exists_realloc hheap (n := v'.bu + 1) (by omega)
      v'.requests v'.buffer
    rw [if_pos hfree, hshrink]
    simp only [hb, Option.getD_some, overwrite_nul hblen, returns_bind, returns_store,
      returns_setErrno, returns_pure, hret, htake v'.bu (by omega) (by omega), hall]
    exact ⟨by rw [hbu], trivial⟩
  · -- The memory is full, so it is not larger than the file.
    have hold := h.length
    have holdsum := h.sum
    have hdouble : unsigned C.bits ((v'.bs : ℤ) + v'.bs) = v'.bs + v'.bs :=
      unsigned_eq (x := v'.bs + v'.bs) (by omega)
    have hroom : unsigned C.bits ((v'.bf : ℤ) + v'.bs) = v'.bs := by
      rw [not_not.1 hfree, Nat.cast_zero, Int.zero_add]
      exact unsigned_eq hfits
    obtain ⟨b, hb, hblen, htake⟩ := exists_realloc hheap (n := v'.bs + v'.bs) (by omega)
      v'.requests v'.buffer
    rw [if_neg hfree, hdouble]
    simp only [hb, hroom, returns_pure, Sum.elim_inl]
    refine ⟨⟨hfill.doubled (not_not.1 hfree) (by omega) hblen
      (htake v'.bu (by omega) (by omega)) _, ?_⟩, ?_⟩
    · omega
    · change v.bu + (rest t.sys).length = contents.length at hold
      omega

/-- **The doubling loop** reads everything. -/
theorem returns_grow : Returns (Loop.run ⟨growTurn C H oldErrno⟩ v) t fun out t' =>
      out = some ((contents.length : ℤ), contents ++ [0]) ∧ t'.errno = oldErrno :=
  returns_loop_of_measure
    (fun v t => Filled C contents v { t with errno := none } ∧ v.bf ≠ 0)
    (fun _ t => (rest t.sys).length)
    (fun _ _ hv => returns_growTurn hheap hlen oldErrno hv.1 hv.2) ⟨h, hbf⟩

end

end

/-- **`freadfile` reads whole files**, however the reads are split and interrupted: if all requests
for memory are granted and the length is one that can be returned, it returns the length, and the
memory holds the contents and a NUL. -/
theorem freadfile_reads (C : Config) (H : Heap) (t : Proc) (pos : ℤ) (contents : List UInt8)
    (hopened : Opened C pos t.sys.f) (hcontents : t.sys.fd.contents = contents)
    (hstart : t.sys.fd.offset = 0) (hlive : Live t.sys.fd.answers)
    (hsoft : ∀ i e, t.sys.fd.answers i = .fail e → e.again = true) (hheap : H.Grants)
    (hlen : contents.length < 2 ^ (C.bits - 1)) : Returns (freadfile C H) t fun out t' =>
      out = some ((contents.length : ℤ), contents ++ [0]) ∧ t'.errno = t.errno := by
  have hreadable : Readable C t.sys := readable_of_opened hopened hlive
  have hrest : rest t.sys = contents := by rw [rest_of_opened hopened, hcontents, hstart, drop_zero]
  have hsize : C.BUFSIZ < 2 ^ C.bits := by
    have hfits := C.fits
    unfold INT_MAX IO_UNGET_SLOP at hfits
    rcases C.bits_eq with h | h <;> rw [h] <;> omega
  obtain ⟨b, hb, hblen⟩ := exists_malloc hheap C.pos.ne' 0
  rw [freadfile, returns_bind, returns_getErrno]
  simp only [hb]
  refine returns_grow hheap hlen t.errno ⟨hreadable, ⟨hsoft, fun e he => by cases he⟩, hblen,
    Nat.zero_add _, hsize, ?_⟩ C.pos.ne'
  exact hrest

/-- A file of two bytes, read one byte at a time after an interruption. -/
def twoBytes : Proc :=
  ⟨⟨fxopen config64 (List.replicate 16416 0) 0 false,
    ⟨fun i => if i = 0 then .fail .EINTR else .move 1, [], [7, 8], 0⟩⟩, none⟩

theorem freadfile_reads_two :
    Returns (freadfile config64 ⟨fun _ _ => some fun _ => 255⟩) twoBytes fun out t' =>
      out = some (2, [7, 8, 0]) ∧ t'.errno = none := by
  refine freadfile_reads config64 _ twoBytes 0 [7, 8] (.fxopen false ?_) rfl rfl ?_ ?_ ?_ ?_
  · rw [length_replicate]
    rfl
  · refine ⟨fun i => ?_, fun i => ⟨i + 1, by omega, fun e he => ?_⟩⟩
    · change (if i = 0 then Answer.fail .EINTR else .move 1) ≠ .move 0
      split <;> simp
    · change (if i + 1 = 0 then Answer.fail .EINTR else .move 1) = .fail e at he
      simp at he
  · intro i e he
    change (if i = 0 then Answer.fail .EINTR else .move 1) = .fail e at he
    split at he
    · obtain rfl := Answer.fail.inj he
      rfl
    · simp at he
  · exact fun _ _ _ => rfl
  · decide

end Klibc.Kinit.Readfile
