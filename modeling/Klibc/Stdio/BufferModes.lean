import Klibc.Stdio.Output

/-! # Modes of buffering

What has been delivered after each call on an unbuffered or a line buffered stream. `_fwrite`
divides its data into a part that is flushed and one that is not. For a line buffered stream the
first one ends with the last newline. For an unbuffered stream it is empty, as for one with full
buffering, so that data stays in the buffer after every call that passes any
(`buffer_modes_iff`). -/

namespace Klibc.Stdio.BufferModes

open Lib.Machine Lib.Total List Vsnprintf Stdio.Stream Output

/-- What the mode of a stream promises after calls that were passed `data`: without buffering all of
it has been delivered, and with line buffering every line of it. -/
structure Honoured (s : Sys) (data : List UInt8) (s' : Sys) : Prop where
  unbuf : s.f.flags.unbuf → s'.fd.written = s.fd.written ++ data
  lineBuf : s.f.flags.lineBuf → ∀ line rest, data = line ++ chr '\n' :: rest →
    s.fd.written ++ (line ++ [chr '\n']) <+: s'.fd.written

section
variable {C : Config} {pos : ℤ} {s s' : Sys} {data : List UInt8}

lemma not_unbuf_of_lineBuf {f : FILE} (h : Opened C pos f) (hline : f.flags.lineBuf) :
    ¬ f.flags.unbuf := by
  cases h with
  | fxopen isatty h => exact Bool.false_ne_true
  | lineBuf _ => exact Bool.false_ne_true
  | unbuf _ => exact absurd hline Bool.false_ne_true

lemma pending_of_opened (h : Opened C pos s.f) : pending s = [] := by
  rw [pending, h.fields.2.2.2.1]
  rfl

lemma pending_eq_nil_iff (h : Writable C s) : pending s = [] ↔ s.f.bytes = 0 := by
  have hnonneg := h.nonneg
  have hle := h.le
  have hbufsiz := h.bufsiz
  have hsize := h.size
  have hslop : IO_UNGET_SLOP = 32 := rfl
  rw [pending, take_eq_nil_iff, ← length_eq_zero_iff]
  omega

section
variable (h : Passed C s data s') (hstart : pending s = [])
include h hstart

lemma written_append : s'.fd.written ++ pending s' = s.fd.written ++ data := by
  have htotal := h.total
  rwa [total, total, ← pending, ← pending, hstart, append_nil] at htotal

lemma delivered_iff : s'.fd.written = s.fd.written ++ data ↔ s'.f.bytes = 0 := by
  rw [← written_append h hstart, ← pending_eq_nil_iff h.writable]
  exact self_eq_append_right

lemma prefix_of_notMem (hnot : chr '\n' ∉ pending s') {line rest : List UInt8}
    (hdata : data = line ++ chr '\n' :: rest) :
    s.fd.written ++ (line ++ [chr '\n']) <+: s'.fd.written := by
  have hsplit : s'.fd.written ++ pending s' = (s.fd.written ++ (line ++ [chr '\n'])) ++ rest := by
    rw [written_append h hstart, hdata]
    simp
  rcases append_eq_append_iff.1 hsplit with ⟨w, hw, hpending⟩ | ⟨w, hw, -⟩
  · -- the newline is in what was delivered, or the rest of the line waits
    rcases w.eq_nil_or_concat with rfl | ⟨w, x, rfl⟩
    · rw [append_nil] at hw
      exact ⟨[], (append_nil _).trans hw⟩
    · rw [← append_assoc, concat_eq_append, ← append_assoc] at hw
      obtain ⟨-, hx⟩ := append_inj' hw rfl
      refine absurd ?_ hnot
      rw [hpending, concat_eq_append, ← hx]
      simp
  · exact ⟨w, hw.symm⟩

end

def Kept (s : Sys) (ops : List Op) (s' : Sys) : Prop :=
  (¬ s.f.flags.unbuf → s.f.flags.lineBuf → chr '\n' ∉ pending s') ∧
    (s.f.flags.unbuf → ∀ op, ops.getLast? = some op → op.data ≠ [] → s'.f.bytes ≠ 0)

lemma returns_run_kept (h : Writable C s) (hstart : pending s = []) (ops : List Op) :
    Returns (run C ops) s fun rs s' => rs = ops.map Op.success ∧
      Passed C s (ops.flatMap Op.data) s' ∧ Kept s ops s' := by
  refine returns_run h (I := Kept s)
    ⟨fun _ _ => ?_, fun _ op hlast => absurd hlast (by simp)⟩ ?_ ops
  · rw [hstart]
    exact not_mem_nil
  · intro ops op s1 s2 h1 hkept hdone
    refine ⟨fun hunbuf hline => ?_, fun hunbuf last hlast hdata => ?_⟩
    · refine hdone.left.lineBuf ?_ ?_ (hkept.1 hunbuf hline)
      · rwa [h1.unbuf]
      · rwa [h1.lineBuf]
    · rw [getLast?_concat, Option.some.injEq] at hlast
      subst hlast
      refine hdone.left.unbuf ?_ hdata
      rwa [h1.unbuf]

end

/-- **Modes of buffering.**  Whatever the calls on a newly opened stream and however the kernel cuts
and interrupts the writes: each call succeeds, and the mode is honoured after each of them, if and
only if the stream is not unbuffered or no call passes any data. -/
theorem buffer_modes_iff (C : Config) {pos : ℤ} (s : Sys) (h : Opened C pos s.f)
    (ho : Obliging s.fd.answers) (ops : List Op) :
    (∀ pre, pre <+: ops → Returns (run C pre) s fun rs s' =>
      rs = pre.map Op.success ∧ Honoured s (pre.flatMap Op.data) s') ↔
      (s.f.flags.unbuf → ∀ op ∈ ops, op.data = []) := by
  have hstart := pending_of_opened h
  have hrun := returns_run_kept (writable_of_opened h ho) hstart
  constructor
  · intro hall hunbuf op hop
    by_contra hdata
    -- the calls up to the first that passes data
    obtain ⟨pre, post, rfl⟩ := append_of_mem hop
    have hhonoured := hall (pre ++ [op]) ⟨post, by simp⟩
    obtain ⟨rs, s', he, -, hpassed, hkept⟩ := hrun (pre ++ [op])
    obtain ⟨-, hhonoured⟩ := hhonoured.elim he
    refine hkept.2 hunbuf op getLast?_concat hdata ?_
    exact (delivered_iff hpassed hstart).1 (hhonoured.unbuf hunbuf)
  · intro hnone pre hpre
    refine (hrun pre).mono ?_
    rintro rs s' ⟨hrs, hpassed, hkept⟩
    refine ⟨hrs, fun hunbuf => ?_, fun hline lines rest hdata => ?_⟩
    · have hempty : pre.flatMap Op.data = [] :=
        flatMap_eq_nil_iff.2 fun op hop => hnone hunbuf op (hpre.subset hop)
      rw [hempty] at hpassed ⊢
      have hpending := hpassed.pending
      rw [hstart, append_nil, suffix_nil] at hpending
      have hwritten := written_append hpassed hstart
      rwa [hpending, append_nil] at hwritten
    · exact prefix_of_notMem hpassed hstart (hkept.1 (not_unbuf_of_lineBuf h hline) hline) hdata

/-- A line on the standard output is delivered, and what follows it waits. -/
theorem buffer_modes_iff_line :
    Returns (run config64 [.fwrite [104, 10, 105], .fputc 10]) slowStdout fun rs s' =>
      rs = [3, 10] ∧ Honoured slowStdout [104, 10, 105, 10] s' :=
  (buffer_modes_iff config64 slowStdout slowStdout_opened slowStdout_obliging _).2
    (fun hunbuf => absurd hunbuf Bool.false_ne_true) _ (prefix_refl _)

/-- `stderr` at the start. -/
def stderrStart : Sys where
  f := { slowStdout.f with flags := { FileFlags.none with unbuf := true } }
  fd := slowStdout.fd

/-- **A byte that is written to `stderr` is not delivered.** -/
theorem stderr_waits : Returns (run config64 [.fputc 120]) stderrStart fun rs s' =>
    rs = [120] ∧ s'.fd.written ≠ [120] := by
  have hopened : Opened config64 (-1) stderrStart.f := .unbuf slowStdout_opened
  have hstart := pending_of_opened (s := stderrStart) hopened
  refine (returns_run_kept (writable_of_opened hopened slowStdout_obliging) hstart _).mono ?_
  rintro rs s' ⟨hrs, hpassed, hkept⟩
  refine ⟨hrs, fun hwritten => ?_⟩
  refine hkept.2 rfl (.fputc 120) rfl (cons_ne_nil _ _) ?_
  exact (delivered_iff hpassed hstart).1 hwritten

end Klibc.Stdio.BufferModes
