import Klibc.Stdio.Stream
import Mathlib.Data.List.Induction

/-! # Output streams

A stream that is only written to loses, repeats and reorders nothing. `total s` is what the
descriptor has received followed by what waits in the buffer; `fflush` does not change it, and
`fwrite_noflush` appends its data to it. `output_stream` is the result for any sequence of calls.

The kernel may cut every write short, and interrupt it any number of times in a row, but not
forever (`Obliging`). -/

namespace Klibc.Stdio.Output

open Lib.Machine Lib.Slice Lib.Total List Vsnprintf Stdio.Stream

/-- Every write takes between one byte and all of them, or fails with `EINTR` or `EAGAIN`; it does
not fail forever. -/
structure Obliging (answers : ℕ → Answer) : Prop where
  valid : ∀ i, (∃ k, answers i = .move (k + 1)) ∨ ∃ e : Errno, e.again ∧ answers i = .fail e
  finite : ∀ i, ∃ j ≥ i, ∃ k, answers j = .move (k + 1)

lemma Obliging.next {fd : OpenFile} (h : Obliging fd.answers) : Obliging fd.next.answers where
  valid i := h.valid (i + 1)
  finite i := by
    obtain ⟨j, hj, hm⟩ := h.finite (i + 1)
    refine ⟨j - 1, by omega, ?_⟩
    have : j - 1 + 1 = j := by omega
    simpa only [OpenFile.next, this] using hm

/-! ### `fflush` -/

def flushed (f : FILE) : FILE :=
  { f with bytes := 0, offset := IO_UNGET_SLOP, flags.write := false }

section
variable {s : Sys} {p n : ℕ} {Q : ℤ → Sys → Prop}

lemma returns_drain_empty (hb : s.f.bytes = 0) :
    Returns (drain p) s Q ↔ Q 0 { s with f := flushed s.f } := by
  rw [drain, returns_loop]
  simp only [drainTurn, returns_bind, returns_file, hb, if_true, returns_setFile, returns_pure,
    flushed, Sum.elim_inr]

lemma returns_drain_again {e : Errno} (hb : s.f.bytes = n) (hn : n ≠ 0)
    (hp : p + n ≤ s.f.buf.length) (he : e.again) (h0 : s.fd.answers 0 = .fail e) :
    Returns (drain p) s Q ↔ Returns (drain p) { s with fd := s.fd.next } Q := by
  have hn' : (n : ℤ) ≠ 0 := by exact_mod_cast hn
  conv_lhs => rw [drain, returns_loop]
  simp only [drainTurn, returns_bind, returns_file, hb, if_neg hn', slice_eq hp, returns_access,
    returns_write_fail h0, if_pos he, returns_pure, Sum.elim_inl, drain]

lemma returns_drain_move {k : ℕ} (hb : s.f.bytes = n) (hn : n ≠ 0)
    (hp : p + n ≤ s.f.buf.length) (h0 : s.fd.answers 0 = .move (k + 1)) :
    Returns (drain p) s Q ↔ Returns (drain (p + min (k + 1) n : ℕ))
      ⟨{ s.f with bytes := (n - min (k + 1) n : ℕ) }, { s.fd.next with
        written := s.fd.written ++ (s.f.buf.drop p).take (min (k + 1) n) }⟩ Q := by
  have hn' : (n : ℤ) ≠ 0 := by exact_mod_cast hn
  have hlen : ((s.f.buf.drop p).take n).length = n := by
    simp only [length_take, length_drop]
    omega
  have hrv : ¬ min (k + 1) n = 0 := by omega
  have hcast : ((n - min (k + 1) n : ℕ) : ℤ) = n - (min (k + 1) n : ℕ) := by omega
  conv_lhs => rw [drain, returns_loop]
  simp only [drainTurn, returns_bind, returns_file, hb, if_neg hn', slice_eq hp, returns_access,
    returns_write_move h0, hlen, if_neg hrv, returns_setFile, take_take, hcast,
    Nat.cast_add, returns_pure, Sum.elim_inl, drain]

end

/-- What the loop of `fflush` returns if it delivers the `n` bytes from `p` on. -/
def Drained (s : Sys) (p n : ℕ) (rv : ℤ) (s' : Sys) : Prop :=
  rv = 0 ∧ ∃ a, Obliging a ∧ s' = ⟨flushed s.f, { s.fd with
    answers := a, written := s.fd.written ++ (s.f.buf.drop p).take n }⟩

/-- The loop of `fflush` delivers its bytes: every turn delivers some of them or comes closer to the
next answer `j` that does. -/
theorem returns_drain (n : ℕ) : ∀ (j : ℕ) {s : Sys} {p : ℕ}, Obliging s.fd.answers →
    (∃ k, s.fd.answers j = .move (k + 1)) → s.f.bytes = n → p + n ≤ s.f.buf.length →
    Returns (drain p) s (Drained s p n) := by
  induction n using Nat.strong_induction_on with
  | _ n ihn =>
    by_cases hn : n = 0
    · intro j s p ho _ hb hp
      subst hn
      rw [returns_drain_empty hb]
      exact ⟨rfl, s.fd.answers, ho, by simp⟩
    have hmove : ∀ {s : Sys} {p k : ℕ}, Obliging s.fd.answers → s.fd.answers 0 = .move (k + 1) →
        s.f.bytes = n → p + n ≤ s.f.buf.length → Returns (drain p) s (Drained s p n) := by
      intro s p k ho h0 hb hp
      obtain ⟨i, -, hi⟩ := ho.next.finite 0
      rw [returns_drain_move hb hn hp h0]
      refine (ihn _ (by omega) i ho.next hi rfl ?_).mono ?_
      · show p + min (k + 1) n + (n - min (k + 1) n) ≤ s.f.buf.length
        omega
      · rintro rv s' ⟨hrv, a, ha, rfl⟩
        refine ⟨hrv, a, ha, ?_⟩
        simp [flushed, OpenFile.next, take_drop_split _ _ (Nat.min_le_right (k + 1) n)]
    intro j
    induction j with
    | zero =>
      rintro s p ho ⟨k, h0⟩ hb hp
      exact hmove ho h0 hb hp
    | succ j ihj =>
      intro s p ho hj hb hp
      rcases ho.valid 0 with ⟨k, h0⟩ | ⟨e, he, h0⟩
      · exact hmove ho h0 hb hp
      · rw [returns_drain_again hb hn hp he h0]
        exact ihj ho.next hj hb hp

/-! ### The invariant -/

section
variable {C : Config} {s : Sys}

/-- What the calls keep: the size of the buffer, and the mark on a stream with bytes to write. -/
structure Writable (C : Config) (s : Sys) : Prop where
  size : s.f.buf.length = C.BUFSIZ + IO_UNGET_SLOP
  bufsiz : s.f.bufsiz = C.BUFSIZ
  nonneg : 0 ≤ s.f.bytes
  le : s.f.bytes ≤ s.f.bufsiz
  marked : s.f.bytes ≠ 0 → s.f.flags.write
  obliging : Obliging s.fd.answers

def pending (s : Sys) : List UInt8 := s.f.buf.take s.f.bytes.toNat

def total (s : Sys) : List UInt8 := s.fd.written ++ s.f.buf.take s.f.bytes.toNat

lemma writable_of_opened {pos : ℤ} (h : Opened C pos s.f) (ho : Obliging s.fd.answers) :
    Writable C s := by
  obtain ⟨hsize, hbufsiz, -, hb, -, -⟩ := h.fields
  exact ⟨hsize, hbufsiz, by omega, by omega, fun hne => absurd hb hne, ho⟩

/-- What a call does that is passed `data`: it takes nothing back and leaves the mode alone. -/
structure Passed (C : Config) (s : Sys) (data : List UInt8) (s' : Sys) : Prop where
  writable : Writable C s'
  total : total s' = total s ++ data
  grows : s.fd.written <+: s'.fd.written
  unbuf : s'.f.flags.unbuf = s.f.flags.unbuf
  lineBuf : s'.f.flags.lineBuf = s.f.flags.lineBuf

lemma Writable.passed (h : Writable C s) : Passed C s [] s :=
  ⟨h, (append_nil _).symm, prefix_rfl, rfl, rfl⟩

lemma Passed.trans {s1 s2 : Sys} {data data' : List UInt8} (h : Passed C s data s1)
    (h' : Passed C s1 data' s2) : Passed C s (data ++ data') s2 where
  writable := h'.writable
  total := by rw [h'.total, h.total, append_assoc]
  grows := h.grows.trans h'.grows
  unbuf := h'.unbuf.trans h.unbuf
  lineBuf := h'.lineBuf.trans h.lineBuf

lemma Passed.pending {s' : Sys} {data : List UInt8} (h : Passed C s data s') :
    pending s' <:+ pending s ++ data := by
  obtain ⟨w, hw⟩ := h.grows
  have htotal := h.total
  rw [Output.total, Output.total, ← hw, append_assoc, append_assoc, append_cancel_left_eq] at htotal
  exact ⟨w, htotal⟩

/-- **A flush delivers everything that waits.** -/
theorem returns_fflush (h : Writable C s) :
    Returns fflush s fun rv s' => rv = 0 ∧ Passed C s [] s' ∧ s'.f.bytes = 0 := by
  obtain ⟨n, hn⟩ := Int.eq_ofNat_of_zero_le h.nonneg
  have hle := h.le
  have hbufsiz := h.bufsiz
  have hsize := h.size
  have hslop : IO_UNGET_SLOP = 32 := rfl
  by_cases hw : s.f.flags.write
  · obtain ⟨j, -, hj⟩ := h.obliging.finite 0
    simp only [fflush, returns_bind, returns_file, if_neg (not_not_intro hw)]
    refine (returns_drain n j h.obliging hj hn (p := 0) (by omega)).mono ?_
    rintro rv s' ⟨hrv, a, ha, rfl⟩
    refine ⟨hrv, ⟨⟨hsize, hbufsiz, le_rfl, ?_, fun hne => absurd rfl hne, ha⟩, ?_,
      prefix_append _ _, rfl, rfl⟩, rfl⟩
    · show (0 : ℤ) ≤ s.f.bufsiz
      omega
    · simp [total, flushed, hn]
  · have hb : s.f.bytes = 0 := by
      by_contra hne
      exact hw (h.marked hne)
    rw [returns_fflush_unmarked hw]
    exact ⟨rfl, h.passed, hb⟩

/-! ### `_fwrite` -/

def room (s : Sys) : ℕ := (s.f.bufsiz - s.f.bytes).toNat

lemma Writable.unsigned_room (h : Writable C s) :
    unsigned C.bits (s.f.bufsiz - s.f.bytes) = room s := by
  have hle := h.le
  have hnonneg := h.nonneg
  have hbufsiz := h.bufsiz
  have hfits := C.fits
  unfold IO_UNGET_SLOP INT_MAX at hfits
  have hroom : s.f.bufsiz - s.f.bytes = (room s : ℤ) := by unfold room; omega
  rw [hroom]
  refine unsigned_eq ?_
  have : room s < 2 ^ 32 := by unfold room; omega
  rcases C.bits_eq with hb | hb
  · rwa [hb]
  · rw [hb]; omega

lemma returns_fill (h : Writable C s) (p : List UInt8) :
    Returns (fill C p) s fun nb s' => nb = min p.length (room s) ∧ Passed C s (p.take nb) s' ∧
      s'.f.bytes = s.f.bytes + nb := by
  obtain ⟨n, hn⟩ := Int.eq_ofNat_of_zero_le h.nonneg
  have hle := h.le
  have hbufsiz := h.bufsiz
  have hsize := h.size
  have hslop : IO_UNGET_SLOP = 32 := rfl
  have hroom : room s = C.BUFSIZ - n := by unfold room; omega
  have hmin : (if p.length < room s then p.length else room s) = min p.length (room s) := by
    split_ifs <;> omega
  simp only [fill, returns_bind, returns_file, h.unsigned_room, hmin]
  by_cases h0 : min p.length (room s) = 0
  · simp only [h0, ne_eq, not_true_eq_false, if_false, returns_pure]
    exact ⟨trivial, h.passed, by simp⟩
  · have htake : (p.take (min p.length (room s))).length = min p.length (room s) := by
      rw [length_take]; omega
    have hover : n + (p.take (min p.length (room s))).length ≤ s.f.buf.length := by omega
    simp only [ne_eq, h0, not_false_eq_true, if_true, returns_bind, hn, overwrite_eq hover,
      returns_access, returns_setFile, returns_pure]
    have hto : ((n : ℤ) + (min p.length (room s) : ℕ)).toNat =
        n + (p.take (min p.length (room s))).length := by omega
    refine ⟨trivial, ⟨⟨?_, hbufsiz, ?_, ?_, fun _ => rfl, h.obliging⟩, ?_,
      prefix_rfl, rfl, rfl⟩, trivial⟩
    · rw [length_overwritten hover, hsize]
    · show (0 : ℤ) ≤ n + (min p.length (room s) : ℕ)
      omega
    · show (n : ℤ) + (min p.length (room s) : ℕ) ≤ s.f.bufsiz
      omega
    · simp only [total, hto, hn, Int.toNat_natCast]
      rw [take_overwritten hover, append_assoc]

lemma returns_fwriteNoflush (m : ℕ) : ∀ {s : Sys} (p : List UInt8) (bytes : ℕ), Writable C s →
    p.length + (if room s = 0 then 1 else 0) = m → Returns (fwriteNoflush C p bytes) s fun n s' =>
      n = bytes + p.length ∧ Passed C s p s' ∧ (p ≠ [] → s'.f.bytes ≠ 0) := by
  -- a turn that does not end takes data, or starts with a full buffer and leaves an empty one
  induction m using Nat.strong_induction_on with
  | _ m ih =>
    intro s p bytes h hm
    rw [fwriteNoflush, returns_loop, writeTurn, returns_bind]
    refine (returns_fill h p).mono ?_
    rintro nb s1 ⟨rfl, h1, hb1⟩
    by_cases hdone : p.length - min p.length (room s) = 0
    · have hlen : min p.length (room s) = p.length := by omega
      rw [if_pos hdone, returns_pure]
      rw [hlen, take_length] at h1
      refine ⟨by rw [hlen], h1, fun hp => ?_⟩
      have hnonneg := h.nonneg
      have hpos := length_pos_iff.2 hp
      omega
    · rw [if_neg hdone, returns_bind]
      refine (returns_fflush h1.writable).mono ?_
      rintro rv s2 ⟨rfl, h2, hb2⟩
      have hroom2 : room s2 ≠ 0 := by
        have := C.pos
        have := h2.writable.bufsiz
        unfold room
        omega
      rw [if_neg (by simp), returns_pure]
      refine (ih _ ?_ _ _ h2.writable rfl).mono ?_
      · rw [if_neg hroom2, length_drop]
        split_ifs at hm <;> omega
      · rintro n s3 ⟨rfl, h3, hb3⟩
        have hpassed := (h1.trans h2).trans h3
        rw [append_nil, take_append_drop] at hpassed
        refine ⟨by rw [length_drop]; omega, hpassed, fun _ => hb3 ?_⟩
        rw [ne_eq, drop_eq_nil_iff]
        omega

lemma lineLen_le (p : List UInt8) : ∀ k, lineLen p k ≤ k
  | 0 => le_rfl
  | k + 1 => by
    have := lineLen_le p k
    unfold lineLen
    split_ifs <;> omega

lemma newline_notMem_drop (p : List UInt8) :
    ∀ k ≤ p.length, chr '\n' ∉ (p.take k).drop (lineLen p k) := by
  intro k
  induction k with
  | zero => simp
  | succ k ih =>
    intro hk
    unfold lineLen
    split_ifs with hne
    · have hle := lineLen_le p k
      rw [take_succ_eq_append_getElem (by omega), drop_append_of_le_length
        (by rw [length_take]; omega), mem_append, mem_singleton]
      rintro (hmem | heq)
      · exact ih (by omega) hmem
      · exact hne (by rw [heq, getElem?_eq_getElem])
    · rw [drop_of_length_le (by rw [length_take]; omega)]
      exact not_mem_nil

/-- What `_fwrite` leaves in the buffer: the last of its data if the stream is unbuffered, and no
newline if it is line buffered. -/
structure Left (s : Sys) (p : List UInt8) (s' : Sys) : Prop where
  unbuf : s.f.flags.unbuf → p ≠ [] → s'.f.bytes ≠ 0
  lineBuf : ¬ s.f.flags.unbuf → s.f.flags.lineBuf → chr '\n' ∉ pending s → chr '\n' ∉ pending s'

/-- The flushed part of the data of `_fwrite`: `pf_len`. -/
def pfLen (f : FILE) (p : List UInt8) : ℕ :=
  if f.flags.unbuf then 0 else if f.flags.lineBuf then lineLen p p.length else 0

lemma pfLen_le (f : FILE) (p : List UInt8) : pfLen f p ≤ p.length := by
  have := lineLen_le p p.length
  unfold pfLen
  split_ifs <;> omega

/-- **`_fwrite` appends its data and returns its count**, in every mode of buffering. -/
theorem returns_fwrite (h : Writable C s) (p : List UInt8) :
    Returns (fwrite C p) s fun n s' => n = p.length ∧ Passed C s p s' ∧ Left s p s' := by
  simp only [fwrite, returns_bind, returns_file]
  rw [← pfLen]
  have hle := pfLen_le s.f p
  generalize hpf : pfLen s.f p = pf at hle ⊢
  have hline : ¬ s.f.flags.unbuf → s.f.flags.lineBuf → chr '\n' ∉ p.drop pf := by
    intro hunbuf hlineBuf
    rw [pfLen, if_neg hunbuf, if_pos hlineBuf] at hpf
    have hnot := newline_notMem_drop p p.length le_rfl
    rwa [take_length, hpf] at hnot
  by_cases h0 : pf = 0
  · simp only [h0, ne_eq, not_true_eq_false, if_false, Nat.sub_zero]
    rw [h0, drop_zero] at hline
    have hleft : ∀ {s'}, Passed C s p s' → (p ≠ [] → s'.f.bytes ≠ 0) → Left s p s' := by
      refine fun h' hb => ⟨fun _ => hb, fun hunbuf hlineBuf hnot hmem => ?_⟩
      rcases mem_append.1 (h'.pending.subset hmem) with hmem | hmem
      · exact hnot hmem
      · exact hline hunbuf hlineBuf hmem
    by_cases hp : p.length = 0
    · rw [if_neg (not_not_intro hp), returns_pure]
      obtain rfl := length_eq_zero_iff.1 hp
      exact ⟨rfl, h.passed, hleft h.passed fun hne => absurd rfl hne⟩
    · rw [if_pos hp]
      refine (returns_fwriteNoflush _ p 0 h rfl).mono ?_
      rintro n s' ⟨rfl, h', hb⟩
      exact ⟨Nat.zero_add _, h', hleft h' hb⟩
  · have hunbuf : ¬ s.f.flags.unbuf := fun hu => h0 (by rw [← hpf, pfLen, if_pos hu])
    rw [if_pos h0, returns_bind]
    refine (returns_fwriteNoflush _ (p.take pf) 0 h rfl).mono ?_
    rintro n s1 ⟨rfl, h1, -⟩
    have hlen : 0 + (p.take pf).length = pf := by rw [length_take]; omega
    rw [hlen, returns_bind]
    refine (returns_fflush h1.writable).mono ?_
    rintro rv s2 ⟨rfl, h2, hb2⟩
    have hempty : pending s2 = [] := by rw [pending, hb2]; rfl
    rw [if_neg (by simp)]
    by_cases hpu : p.length - pf = 0
    · rw [if_neg (not_not_intro hpu), returns_pure]
      have hpassed := h1.trans h2
      rw [append_nil, take_of_length_le (by omega)] at hpassed
      refine ⟨by omega, hpassed, fun hu => absurd hu hunbuf, fun _ _ _ => ?_⟩
      rw [hempty]
      exact not_mem_nil
    · rw [if_pos hpu]
      refine (returns_fwriteNoflush _ (p.drop pf) pf h2.writable rfl).mono ?_
      rintro n s3 ⟨rfl, h3, -⟩
      have hpassed := (h1.trans h2).trans h3
      rw [append_nil, take_append_drop] at hpassed
      refine ⟨by rw [length_drop]; omega, hpassed, fun hu => absurd hu hunbuf,
        fun hunbuf hlineBuf _ hmem => hline hunbuf hlineBuf ?_⟩
      have hsub := h3.pending
      rw [hempty, nil_append] at hsub
      exact hsub.subset hmem

lemma returns_fputc (h : Writable C s) (c : ℤ) :
    Returns (fputc C c) s fun r s' => r = ((unsigned 8 c).toUInt8.toNat : ℤ) ∧
      Passed C s [(unsigned 8 c).toUInt8] s' ∧ Left s [(unsigned 8 c).toUInt8] s' := by
  simp only [fputc, returns_bind]
  refine (returns_fwrite h _).mono ?_
  rintro n s' ⟨rfl, h'⟩
  rw [returns_pure]
  exact ⟨rfl, h'⟩

end

/-! ### Sequences of calls -/

section
variable (C : Config)

inductive Op
  | fwrite (p : List UInt8)
  | fputc (c : ℤ)
  | fflush

def Op.exec : Op → Call ℤ
  | .fwrite p => do
    let n ← Stream.fwrite C p
    return n
  | .fputc c => Stream.fputc C c
  | .fflush => Stream.fflush

def Op.data : Op → List UInt8
  | .fwrite p => p
  | .fputc c => [(unsigned 8 c).toUInt8]
  | .fflush => []

/-- What a call returns if it succeeds: its count, its byte, or zero. -/
def Op.success : Op → ℤ
  | .fwrite p => p.length
  | .fputc c => (unsigned 8 c).toUInt8.toNat
  | .fflush => 0

def run : List Op → Call (List ℤ)
  | [] => return []
  | op :: ops => do
    let r ← op.exec C
    let rs ← run ops
    return r :: rs

variable {C} {s : Sys}

structure Done (C : Config) (s : Sys) (op : Op) (s' : Sys) : Prop where
  passed : Passed C s op.data s'
  left : Left s op.data s'
  fflush : op = .fflush → s'.f.bytes = 0

lemma returns_exec (h : Writable C s) (op : Op) :
    Returns (op.exec C) s fun r s' => r = op.success ∧ Done C s op s' := by
  cases op with
  | fwrite p =>
    simp only [Op.exec, returns_bind, returns_pure]
    refine (returns_fwrite h p).mono ?_
    rintro n s' ⟨rfl, h', hleft⟩
    exact ⟨rfl, h', hleft, Op.noConfusion⟩
  | fputc c =>
    refine (returns_fputc h c).mono ?_
    rintro r s' ⟨rfl, h', hleft⟩
    exact ⟨rfl, h', hleft, Op.noConfusion⟩
  | fflush =>
    refine (returns_fflush h).mono ?_
    rintro r s' ⟨rfl, h', hb⟩
    refine ⟨rfl, h', ⟨fun _ hne => absurd rfl hne, fun _ _ _ => ?_⟩, fun _ => hb⟩
    rw [pending, hb]
    exact not_mem_nil

lemma run_concat (ops : List Op) (op : Op) : run C (ops ++ [op]) = do
    let rs ← run C ops
    let r ← op.exec C
    return rs ++ [r] := by
  induction ops with
  | nil => simp [run]
  | cons op' ops ih => simp [run, ih]

lemma returns_run (h : Writable C s) {I : List Op → Sys → Prop} (hstart : I [] s)
    (hstep : ∀ ops op s1 s2, Passed C s (ops.flatMap Op.data) s1 → I ops s1 → Done C s1 op s2 →
      I (ops ++ [op]) s2) (ops : List Op) :
    Returns (run C ops) s fun rs s' => rs = ops.map Op.success ∧
      Passed C s (ops.flatMap Op.data) s' ∧ I ops s' := by
  induction ops using List.reverseRecOn with
  | nil =>
    simp only [run, returns_pure]
    exact ⟨rfl, h.passed, hstart⟩
  | append_singleton ops op ih =>
    rw [run_concat, returns_bind]
    refine ih.mono ?_
    rintro rs s1 ⟨rfl, h1, hinv⟩
    rw [returns_bind]
    refine (returns_exec h1.writable op).mono ?_
    rintro r s2 ⟨rfl, h2⟩
    rw [returns_pure]
    refine ⟨by simp, ?_, hstep ops op s1 s2 h1 hinv h2⟩
    rw [flatMap_append, flatMap_singleton]
    exact h1.trans h2.passed

/-- **Output streams lose, duplicate and reorder nothing.**  Whatever the calls on a newly opened
stream and however the kernel cuts and interrupts the writes: the calls return, each with success;
after them what the descriptor has received, followed by the bytes in the buffer, is all data passed
so far; the number of these bytes is in range; and if the last call was `fflush`, everything has
been delivered. -/
theorem output_stream (C : Config) {pos : ℤ} (s : Sys) (h : Opened C pos s.f)
    (ho : Obliging s.fd.answers) (ops : List Op) :
    Returns (run C ops) s fun rs s' => rs = ops.map Op.success ∧
      s'.fd.written ++ s'.f.buf.take s'.f.bytes.toNat = s.fd.written ++ ops.flatMap Op.data ∧
      0 ≤ s'.f.bytes ∧ s'.f.bytes ≤ s'.f.bufsiz ∧
      (ops.getLast? = some .fflush → s'.fd.written = s.fd.written ++ ops.flatMap Op.data) := by
  have hrun := returns_run (writable_of_opened h ho)
    (I := fun ops s' => ops.getLast? = some .fflush → s'.f.bytes = 0)
    (fun hlast => absurd hlast (by simp)) ?_ ops
  swap
  · intro ops op s1 s2 _ _ hdone hlast
    rw [getLast?_concat, Option.some.injEq] at hlast
    exact hdone.fflush hlast
  refine hrun.mono ?_
  rintro rs s' ⟨hrs, h', hb⟩
  have htotal := h'.total
  have hstart : total s = s.fd.written := by simp [total, h.fields.2.2.2.1]
  rw [hstart] at htotal
  refine ⟨hrs, htotal, h'.writable.nonneg, h'.writable.le, fun hlast => ?_⟩
  simpa [total, hb hlast] using htotal

end

/-! ### One run -/

/-- `stdout` at the start, on a descriptor that takes one byte in every second write. -/
def slowStdout : Sys where
  f := { fxopen config64 (List.replicate 16416 0) (-1) true with
    flags := { FileFlags.none with lineBuf := true } }
  fd := ⟨fun i => if i % 2 = 0 then .fail .EINTR else .move 1, [], [], 0⟩

lemma slowStdout_opened : Opened config64 (-1) slowStdout.f :=
  .lineBuf (.fxopen true (by rw [length_replicate]; rfl))

lemma slowStdout_obliging : Obliging slowStdout.fd.answers where
  valid i := by
    by_cases hi : i % 2 = 0
    · exact Or.inr ⟨.EINTR, rfl, if_pos hi⟩
    · exact Or.inl ⟨0, if_neg hi⟩
  finite i := ⟨2 * i + 1, by omega, 0, if_neg (by omega)⟩

/-- A line that is written in two calls arrives with the flush. -/
theorem output_stream_slow :
    Returns (run config64 [.fwrite [104], .fputc 105, .fflush]) slowStdout fun rs s' =>
      rs = [1, 105, 0] ∧ s'.fd.written = [104, 105] :=
  (output_stream config64 slowStdout slowStdout_opened slowStdout_obliging _).mono
    fun _ _ ⟨hrs, _, _, _, hlast⟩ => ⟨hrs, hlast rfl⟩

end Klibc.Stdio.Output
