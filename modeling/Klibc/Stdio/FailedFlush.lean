import Klibc.Stdio.Output

/-! # Flushes that fail

An `fflush` that fails and one that is called after it. The loop of `fflush` counts `f->bytes` down
as bytes are delivered, but the next call starts at the beginning of the buffer again. So after `k`
of `n` bytes the second call delivers the first `n - k` bytes of the buffer, where the last ones
would be due (`failed_flush_iff`). -/

namespace Klibc.Stdio.FailedFlush

open Lib.Machine Lib.Slice Lib.Total List Vsnprintf Stdio.Stream Output

/-! ### How the kernel answers -/

def later (a : ℕ → Answer) (i : ℕ) : Answer := a (i + 1)

/-- `Fails a n k b`: asked to write `n` bytes, the kernel delivers `k` of them and fails then. After
that its answers are `b`. -/
inductive Fails : (ℕ → Answer) → ℕ → ℕ → (ℕ → Answer) → Prop
  | hard {a : ℕ → Answer} {n : ℕ} {e : Errno} (hn : n ≠ 0) (he : ¬ e.again) (h : a 0 = .fail e) :
      Fails a n 0 (later a)
  | eof {a : ℕ → Answer} {n : ℕ} (hn : n ≠ 0) (h : a 0 = .move 0) : Fails a n 0 (later a)
  | again {a b : ℕ → Answer} {n k : ℕ} {e : Errno} (he : e.again) (h : a 0 = .fail e) :
      Fails (later a) n k b → Fails a n k b
  | move {a b : ℕ → Answer} {n m k : ℕ} (h : a 0 = .move (m + 1)) (hlt : m + 1 < n) :
      Fails (later a) (n - (m + 1)) k b → Fails a n (m + 1 + k) b

/-- `Delivers a n b`: asked to write `n` bytes, the kernel delivers all of them. -/
inductive Delivers : (ℕ → Answer) → ℕ → (ℕ → Answer) → Prop
  | done {a : ℕ → Answer} : Delivers a 0 a
  | again {a b : ℕ → Answer} {n : ℕ} {e : Errno} (hn : n ≠ 0) (he : e.again) (h : a 0 = .fail e) :
      Delivers (later a) n b → Delivers a n b
  | move {a b : ℕ → Answer} {n m : ℕ} (hn : n ≠ 0) (h : a 0 = .move (m + 1)) :
      Delivers (later a) (n - min (m + 1) n) b → Delivers a n b

lemma Fails.lt {a b : ℕ → Answer} {n k : ℕ} (h : Fails a n k b) : k < n := by
  induction h with
  | hard hn => omega
  | eof hn => omega
  | again _ _ _ ih => exact ih
  | move _ hlt _ ih => omega

/-! ### What `fflush` does then -/

section
variable {s : Sys} {p n : ℕ} {Q : ℤ → Sys → Prop}

lemma returns_drain_hard {e : Errno} (hb : s.f.bytes = n) (hn : n ≠ 0)
    (hp : p + n ≤ s.f.buf.length) (he : ¬ e.again) (h0 : s.fd.answers 0 = .fail e) :
    Returns (drain p) s Q ↔ Q EOF ⟨{ s.f with flags.err := true }, s.fd.next⟩ := by
  have hn' : (n : ℤ) ≠ 0 := by exact_mod_cast hn
  rw [drain, returns_loop]
  simp only [drainTurn, returns_bind, returns_file, hb, if_neg hn', slice_eq hp, returns_access,
    returns_write_fail h0, if_neg he, returns_setFile, returns_pure, Sum.elim_inr]

lemma returns_drain_eof (hb : s.f.bytes = n) (hn : n ≠ 0) (hp : p + n ≤ s.f.buf.length)
    (h0 : s.fd.answers 0 = .move 0) :
    Returns (drain p) s Q ↔ Q EOF ⟨{ s.f with flags.eof := true }, s.fd.next⟩ := by
  have hn' : (n : ℤ) ≠ 0 := by exact_mod_cast hn
  rw [drain, returns_loop]
  simp only [drainTurn, returns_bind, returns_file, hb, if_neg hn', slice_eq hp, returns_access,
    returns_write_move h0, Nat.zero_min, if_true, returns_setFile, returns_pure, Sum.elim_inr,
    take_zero, append_nil]
  rfl

/-- The stream after `k` of its `n` bytes: they are counted off, but the buffer is as it was. -/
structure Stuck (s : Sys) (p n k : ℕ) (b : ℕ → Answer) (s' : Sys) : Prop where
  answers : s'.fd.answers = b
  written : s'.fd.written = s.fd.written ++ (s.f.buf.drop p).take k
  buf : s'.f.buf = s.f.buf
  bytes : s'.f.bytes = (n - k : ℕ)
  marked : s'.f.flags.write = s.f.flags.write

/-- **A loop that fails.** -/
theorem returns_drain_fails {a b : ℕ → Answer} {k : ℕ} (h : Fails a n k b) :
    ∀ {s : Sys} {p : ℕ}, s.fd.answers = a → s.f.bytes = n → p + n ≤ s.f.buf.length →
      Returns (drain p) s fun rv s' => rv = EOF ∧ Stuck s p n k b s' := by
  induction h with
  | hard hn he h0 =>
    rintro s p rfl hb hp
    rw [returns_drain_hard hb hn hp he h0]
    exact ⟨rfl, rfl, by simp [OpenFile.next], rfl, hb, rfl⟩
  | eof hn h0 =>
    rintro s p rfl hb hp
    rw [returns_drain_eof hb hn hp h0]
    exact ⟨rfl, rfl, by simp [OpenFile.next], rfl, hb, rfl⟩
  | again he h0 hrest ih =>
    rintro s p rfl hb hp
    have hk := hrest.lt
    rw [returns_drain_again hb (by omega) hp he h0]
    refine (ih (s := { s with fd := s.fd.next }) rfl hb hp).mono ?_
    rintro rv s' ⟨hrv, hs'⟩
    exact ⟨hrv, hs'.answers, hs'.written, hs'.buf, hs'.bytes, hs'.marked⟩
  | @move a b n m k h0 hlt hrest ih =>
    rintro s p rfl hb hp
    rw [returns_drain_move hb (by omega) hp h0, Nat.min_eq_left hlt.le]
    refine (ih (s := ⟨{ s.f with bytes := (n - (m + 1) : ℕ) }, { s.fd.next with
      written := s.fd.written ++ (s.f.buf.drop p).take (m + 1) }⟩) rfl rfl ?_).mono ?_
    · show p + (m + 1) + (n - (m + 1)) ≤ s.f.buf.length
      omega
    · rintro rv s' ⟨hrv, hs'⟩
      refine ⟨hrv, hs'.answers, ?_, hs'.buf, ?_, hs'.marked⟩
      · rw [hs'.written, append_assoc]
        congr 1
        have hsplit := take_drop_split s.f.buf p (Nat.le_add_right (m + 1) k)
        rw [Nat.add_sub_cancel_left] at hsplit
        exact hsplit
      · rw [hs'.bytes]
        congr 1
        omega

/-- **A loop that delivers everything.** -/
theorem returns_drain_delivers {a b : ℕ → Answer} (h : Delivers a n b) :
    ∀ {s : Sys} {p : ℕ}, s.fd.answers = a → s.f.bytes = n → p + n ≤ s.f.buf.length →
      Returns (drain p) s fun rv s' => rv = 0 ∧ s'.f = flushed s.f ∧
        s'.fd.written = s.fd.written ++ (s.f.buf.drop p).take n := by
  induction h with
  | done =>
    rintro s p - hb hp
    rw [returns_drain_empty hb]
    exact ⟨rfl, rfl, by simp⟩
  | again hn he h0 _ ih =>
    rintro s p rfl hb hp
    rw [returns_drain_again hb hn hp he h0]
    exact ih (s := { s with fd := s.fd.next }) rfl hb hp
  | @move a b n m hn h0 _ ih =>
    rintro s p rfl hb hp
    rw [returns_drain_move hb hn hp h0]
    refine (ih (s := ⟨{ s.f with bytes := (n - min (m + 1) n : ℕ) }, { s.fd.next with
      written := s.fd.written ++ (s.f.buf.drop p).take (min (m + 1) n) }⟩) rfl rfl ?_).mono ?_
    · show p + min (m + 1) n + (n - min (m + 1) n) ≤ s.f.buf.length
      omega
    · rintro rv s' ⟨hrv, hf, hwritten⟩
      refine ⟨hrv, hf, ?_⟩
      rw [hwritten, append_assoc, take_drop_split _ _ (Nat.min_le_right (m + 1) n)]

end

/-! ### Two calls -/

section
variable {C : Config} {s u : Sys} {n k : ℕ} {a b : ℕ → Answer}

lemma returns_fflush_marked (hw : s.f.flags.write = true) {Q : ℤ → Sys → Prop} :
    Returns fflush s Q ↔ Returns (drain (0 : ℕ)) s Q := by
  simp only [fflush, returns_bind, returns_file, if_neg (not_not_intro hw)]
  rfl

/-- `fwrite_noflush` with the data `p` calls `fflush` on the stream `u`, after it has copied `m`
bytes. -/
inductive Comes (C : Config) : List UInt8 → Sys → ℕ → Sys → Prop
  | full {p : List UInt8} {s u : Sys} {nb : ℕ} (hfill : fill C p s = some (nb, u))
      (hlt : nb < p.length) : Comes C p s nb u
  | flushed {p : List UInt8} {s s' s'' u : Sys} {nb m : ℕ} (hfill : fill C p s = some (nb, s'))
      (hlt : nb < p.length) (hflush : fflush s' = some (0, s'')) :
      Comes C (p.drop nb) s'' m u → Comes C p s (nb + m) u

variable {p : List UInt8} {s₁ : Sys} {m : ℕ}

/-- **`fwrite_noflush` gives up with a flush that fails**, and leaves the stream as that did. -/
theorem Comes.fails (h : Comes C p s m u) (hfail : fflush u = some (EOF, s₁)) :
    ∀ bytes, fwriteNoflush C p bytes s = some (bytes + m, s₁) := by
  have hret : ∀ bytes, Returns (fwriteNoflush C p bytes) s fun r s' =>
      r = bytes + m ∧ s' = s₁ := by
    induction h with
    | full hfill hlt =>
      intro bytes
      rw [fwriteNoflush, returns_loop, writeTurn, returns_bind, returns_iff_of_eq hfill,
        if_neg (by omega), returns_bind, returns_iff_of_eq hfail, if_pos (by decide), returns_pure]
      exact ⟨rfl, rfl⟩
    | @flushed p s s' s'' u nb m hfill hlt hflush _ ih =>
      intro bytes
      rw [fwriteNoflush, returns_loop, writeTurn, returns_bind, returns_iff_of_eq hfill,
        if_neg (by omega), returns_bind, returns_iff_of_eq hflush, if_neg (by decide), returns_pure]
      refine (ih hfail (bytes + nb)).mono fun r t ht => ?_
      rw [Nat.add_assoc] at ht
      exact ht
  intro bytes
  obtain ⟨r, s', hrun, rfl, rfl⟩ := hret bytes
  exact hrun

/-- `_fwrite` with the data `p` calls `fflush` on the stream `u`: in `fwrite_noflush` for the part
that is flushed, after it, or in `fwrite_noflush` for the rest. -/
inductive Calls (C : Config) (p : List UInt8) (s u : Sys) : Prop
  | first {m : ℕ} (hpf : pfLen s.f p ≠ 0) (h : Comes C (p.take (pfLen s.f p)) s m u)
  | between {bytes : ℕ} (hpf : pfLen s.f p ≠ 0)
      (h : fwriteNoflush C (p.take (pfLen s.f p)) 0 s = some (bytes, u))
  | rest {s' s'' : Sys} {m : ℕ} (hpf : pfLen s.f p ≠ 0)
      (h : fwriteNoflush C (p.take (pfLen s.f p)) 0 s = some (pfLen s.f p, s'))
      (hflush : fflush s' = some (0, s'')) (hrest : Comes C (p.drop (pfLen s.f p)) s'' m u)
  | only {m : ℕ} (hpf : pfLen s.f p = 0) (h : Comes C p s m u)

lemma Comes.lt (h : Comes C p s m u) : m < p.length := by
  induction h with
  | full _ hlt => exact hlt
  | flushed _ _ _ _ ih => rw [length_drop] at ih; omega

/-- `_fwrite` ends with a flush that fails, or makes one more. -/
def Ends (C : Config) (p : List UInt8) (s s₁ : Sys) : Prop :=
  ∃ bytes, fwrite C p s = some (bytes, s₁) ∨
    ∀ rv s₂, fflush s₁ = some (rv, s₂) → fwrite C p s = some (bytes, s₂)

/-- **`_fwrite` with a flush that fails.** -/
theorem Calls.ends (h : Calls C p s u) (hfail : fflush u = some (EOF, s₁)) : Ends C p s s₁ := by
  have hfwrite : ∀ {n s'}, Returns (fwrite C p) s (fun r t => r = n ∧ t = s') →
      fwrite C p s = some (n, s') := by
    rintro n s' ⟨r, t, hrun, rfl, rfl⟩
    exact hrun
  cases h with
  | @first m hpf h =>
    refine ⟨m, Or.inr fun rv s₂ hagain => hfwrite ?_⟩
    have hrun := h.fails hfail 0
    have hlt := h.lt
    rw [length_take] at hlt
    rw [Nat.zero_add] at hrun
    simp only [fwrite, returns_bind, returns_file]
    rw [← pfLen, if_pos hpf, returns_bind, returns_iff_of_eq hrun, returns_bind,
      returns_iff_of_eq hagain, if_pos (Or.inr (by omega)), returns_pure]
    exact ⟨rfl, rfl⟩
  | @between bytes hpf h =>
    refine ⟨bytes, Or.inl (hfwrite ?_)⟩
    simp only [fwrite, returns_bind, returns_file]
    rw [← pfLen, if_pos hpf, returns_bind, returns_iff_of_eq h, returns_bind,
      returns_iff_of_eq hfail, if_pos (Or.inl (by decide)), returns_pure]
    exact ⟨rfl, rfl⟩
  | @rest s' s'' m hpf h hflush hrest =>
    have hlt := hrest.lt
    rw [length_drop] at hlt
    refine ⟨pfLen s.f p + m, Or.inl (hfwrite ?_)⟩
    simp only [fwrite, returns_bind, returns_file]
    rw [← pfLen, if_pos hpf, returns_bind, returns_iff_of_eq h, returns_bind,
      returns_iff_of_eq hflush, if_neg (by simp), if_pos (by omega),
      returns_iff_of_eq (hrest.fails hfail _)]
    exact ⟨rfl, rfl⟩
  | @only m hpf h =>
    have hlt := h.lt
    refine ⟨0 + m, Or.inl (hfwrite ?_)⟩
    simp only [fwrite, returns_bind, returns_file]
    rw [← pfLen, if_neg (not_not_intro hpf), if_pos (by omega), returns_iff_of_eq (h.fails hfail 0)]
    exact ⟨rfl, rfl⟩

end

/-- **Flushes that fail.**  For every stream with `n` bytes to write and however the kernel answers:
if it delivers `k` of them and fails then, `fflush` returns `EOF`, whether it is called directly or
by `_fwrite`, which returns then or calls it once more. A later `fflush` for which the kernel
delivers all that is asked returns zero, and the two have delivered the bytes of the buffer if and
only if its last `n - k` bytes are the same as its first ones. -/
theorem failed_flush_iff (C : Config) {u : Sys} {n k : ℕ} {b b' : ℕ → Answer}
    (hw : u.f.flags.write = true) (hbytes : u.f.bytes = n) (hn : n ≤ u.f.buf.length)
    (hfail : Fails u.fd.answers n k b) (hdelivers : Delivers b (n - k) b') :
    ∃ s₁, fflush u = some (EOF, s₁) ∧ (∀ p s, Calls C p s u → Ends C p s s₁) ∧
      Returns fflush s₁ fun rv s₂ => rv = 0 ∧ (s₂.fd.written = u.fd.written ++ u.f.buf.take n ↔
          (u.f.buf.take n).drop k = (u.f.buf.take n).take (n - k)) := by
  have hk := hfail.lt
  have hfirst := returns_drain_fails hfail (s := u) (p := 0) rfl hbytes (by omega)
  rw [← returns_fflush_marked hw] at hfirst
  obtain ⟨rv, s₁, hrun, rfl, hs1⟩ := hfirst
  refine ⟨s₁, hrun, fun p s h => h.ends hrun, ?_⟩
  have hlen : 0 + (n - k) ≤ s₁.f.buf.length := by rw [hs1.buf]; omega
  have hsecond := returns_drain_delivers hdelivers (p := 0) hs1.answers hs1.bytes hlen
  rw [← returns_fflush_marked (hs1.marked.trans hw)] at hsecond
  refine hsecond.mono ?_
  rintro rv s₂ ⟨hrv, -, hwritten⟩
  refine ⟨hrv, ?_⟩
  -- what is delivered in the end, in terms of the buffer
  rw [hwritten, hs1.written, hs1.buf, drop_zero, append_assoc, append_cancel_left_eq,
    take_take, Nat.min_eq_left (Nat.sub_le n k)]
  have hsplit : u.f.buf.take k ++ (u.f.buf.take n).drop k = u.f.buf.take n := by
    have := take_append_drop k (u.f.buf.take n)
    rwa [take_take, Nat.min_eq_left hk.le] at this
  constructor
  · intro h
    exact (append_cancel_left (h.trans hsplit.symm)).symm
  · intro h
    rw [← h, hsplit]

/-! ### A stream with two bytes -/

/-- The bytes `ab` in the buffer; `k` bytes are delivered before an error, and after it everything
is. -/
def twoBytes (k : ℕ) : Sys where
  f := { fxopen config64 (97 :: 98 :: List.replicate 16414 0) (-1) false with
    bytes := 2, flags := { FileFlags.none with write := true } }
  fd := ⟨fun i => if i < k then .move 1 else if i = k then .fail (.other 5) else .move 2, [], [], 0⟩

lemma twoBytes_length (k : ℕ) : 2 ≤ (twoBytes k).f.buf.length :=
  Nat.le_add_left 2 (List.replicate 16414 (0 : UInt8)).length

/-- An error before anything is delivered does no harm. -/
theorem failed_flush_iff_none : ∃ s₁, fflush (twoBytes 0) = some (EOF, s₁) ∧
    Returns fflush s₁ fun rv s₂ => rv = 0 ∧ s₂.fd.written = [97, 98] := by
  have hfail : Fails (twoBytes 0).fd.answers 2 0 (later (twoBytes 0).fd.answers) :=
    .hard (e := .other 5) (by decide) (by decide) rfl
  have hdelivers : Delivers (later (twoBytes 0).fd.answers) (2 - 0) _ :=
    .move (m := 1) (by decide) rfl .done
  obtain ⟨s₁, hrun, -, hagain⟩ := failed_flush_iff config64 (u := twoBytes 0) rfl rfl
    (twoBytes_length 0) hfail hdelivers
  refine ⟨s₁, hrun, hagain.mono ?_⟩
  rintro rv s₂ ⟨hrv, hiff⟩
  exact ⟨hrv, hiff.2 rfl⟩

/-- **A byte that is delivered before the error is delivered again**, in place of the next one. -/
theorem delivered_again : ∃ s₁, fflush (twoBytes 1) = some (EOF, s₁) ∧
    Returns fflush s₁ fun rv s₂ => rv = 0 ∧ s₂.fd.written = [97, 97] := by
  have hfail : Fails (twoBytes 1).fd.answers 2 1 (later (later (twoBytes 1).fd.answers)) :=
    .move (m := 0) rfl (by decide) (.hard (e := .other 5) (by decide) (by decide) rfl)
  have hdelivers : Delivers (later (later (twoBytes 1).fd.answers)) 1 _ :=
    .move (m := 1) (by decide) rfl .done
  have hlen := twoBytes_length 1
  have hfirst := returns_drain_fails hfail (s := twoBytes 1) (p := 0) rfl rfl (by omega)
  obtain ⟨rv, s₁, hrun, rfl, hs1⟩ := hfirst
  have hsecond := returns_drain_delivers hdelivers (s := s₁) (p := 0) hs1.answers hs1.bytes
    (by rw [hs1.buf]; omega)
  rw [← returns_fflush_marked hs1.marked] at hsecond
  refine ⟨s₁, hrun, hsecond.mono ?_⟩
  rintro rv s₂ ⟨hrv, -, hwritten⟩
  refine ⟨hrv, ?_⟩
  rw [hwritten, hs1.written, hs1.buf]
  rfl

end Klibc.Stdio.FailedFlush
