import Klibc.Stdio.Input

/-! # The position of an input stream

The kernel's offset runs ahead of a stream by the bytes in its buffer. With `pushed` of these bytes
pushed back, the next byte of the file that the stream delivers is the one at `next s pushed`
(`Tracks`). `ftell` should be that offset less the bytes pushed back, and a seek from the current
position should start from `ftell`.

Reading and seeking to an absolute position keep the law; `ungetc` moves the stream back but not
`filepos`, and a seek from the current position is handed to the kernel as it is, which starts from
its own offset. `position_law_iff` says which runs keep the law. -/

namespace Klibc.Stdio.Position

open Lib.Slice Lib.Total Stdio.Stream Input List

def next (s : Sys) (pushed : ℕ) : ℤ := s.fd.offset - (s.f.bytes - pushed)

/-- The stream delivers `pushed` bytes that were pushed back, and then the file from `next` on. -/
def Tracks (s : Sys) (pushed : ℕ) : Prop :=
  0 ≤ next s pushed ∧ ∃ back, back.length = pushed ∧
    rest s = back ++ s.fd.contents.drop (next s pushed).toNat

/-- **The position law** in one state. -/
def TellsNext (s : Sys) (pushed : ℕ) : Prop := Tracks s pushed ∧ ftell s.f = next s pushed - pushed

/-! ### The calls -/

inductive Op
  | input (op : Input.Op)
  | fseek (d : ℤ) (whence : Whence)

def Op.exec (C : Config) : Op → Call Ret
  | .input op => op.exec C
  | .fseek d whence => do
    let r ← Stream.fseek d whence
    return .int r

def taken : Input.Op → Ret → ℕ
  | .fread _, .data d => d.length
  | .fgetc, .int r => if r = EOF then 0 else 1
  | _, _ => 0

def pushedAfter (s : Sys) (pushed : ℕ) : Op → Ret → ℕ
  | .input (.ungetc _), _ => if 0 < s.f.offset then pushed + 1 else pushed
  | .input op, r => pushed - taken op r
  | .fseek _ _, .int r => if r = 0 then 0 else pushed
  | .fseek _ _, _ => pushed

/-- The law for a seek from the current position: the stream goes on at `ftell` plus `d`. -/
def SeeksFromTell (s : Sys) : Op → Ret → Sys → Prop
  | .fseek d .SEEK_CUR, .int r, s' => r = 0 → next s' 0 = ftell s.f + d
  | _, _, _ => True

/-- The law along a run: in every state, and for every seek from the current position. -/
def Law (C : Config) : ℕ → Sys → List Op → Prop
  | pushed, s, [] => TellsNext s pushed
  | pushed, s, op :: ops => TellsNext s pushed ∧ Returns (op.exec C) s fun r s' =>
      SeeksFromTell s op r s' ∧ Law C (pushedAfter s pushed op r) s' ops

/-- The calls after which the law cannot hold: an `ungetc` that has room, and a seek from the
current position over bytes in the buffer. -/
def Harmless (s : Sys) : Op → Prop
  | .input (.ungetc _) => s.f.offset ≤ 0
  | .fseek d .SEEK_CUR => Granted s.fd d .SEEK_CUR → s.f.bytes = 0
  | _ => True

def AllHarmless (C : Config) : Sys → List Op → Prop
  | _, [] => True
  | s, op :: ops => Harmless s op ∧ Returns (op.exec C) s fun _ s' => AllHarmless C s' ops

/-! ### What each call does -/

section
variable {C : Config} {s s' : Sys} {pushed : ℕ}

lemma Tracks.of_took (h : Tracks s pushed) {data : List UInt8} (ht : Took s data s') :
    Tracks s' (pushed - data.length) := by
  obtain ⟨hnonneg, back, hback, hrest⟩ := h
  have hahead := ht.ahead
  have hnext : next s' (pushed - data.length) = next s pushed + (data.length - pushed : ℕ) := by
    unfold next
    omega
  refine ⟨by omega, back.drop data.length, by rw [length_drop, hback], ?_⟩
  have hto : (next s' (pushed - data.length)).toNat =
      (next s pushed).toNat + (data.length - pushed) := by omega
  calc rest s' = (data ++ rest s').drop data.length := drop_left.symm
    _ = (back ++ s.fd.contents.drop (next s pushed).toNat).drop data.length := by
      rw [← ht.rest, hrest]
    _ = _ := by rw [drop_append, hback, drop_drop, ht.contents, hto]

/-- The stream after a seek to `t`. -/
def sought (s : Sys) (t : ℤ) : Sys where
  f := { s.f with filepos := t, bytes := 0, flags.read := false }
  fd := { s.fd.next with offset := t.toNat }

lemma next_sought {t : ℤ} (ht : 0 ≤ t) : next (sought s t) 0 = t := by
  simp only [next, sought]
  omega

lemma tracks_sought {t : ℤ} (ht : 0 ≤ t) : Tracks (sought s t) 0 :=
  ⟨by rwa [next_sought ht], [], rfl, by rw [next_sought ht]; rfl⟩

lemma returns_fseek (h : Readable C s) (d : ℤ) (whence : Whence) :
    Returns (Stream.fseek d whence) s fun r s' => Readable C s' ∧
      (Granted s.fd d whence ∧ r = 0 ∧ s' = sought s (s.fd.target d whence) ∨
        ¬ Granted s.fd d whence ∧ r = -1 ∧ Took s [] s') := by
  simp only [Stream.fseek, returns_bind, returns_fflush_unmarked h.unmarked]
  by_cases hg : Granted s.fd d whence
  · have ht := hg.2
    have hne : s.fd.target d whence ≠ -1 := by omega
    simp only [returns_lseek_granted hg, if_pos hne, returns_bind, returns_file, returns_setFile,
      returns_pure]
    refine ⟨⟨h.size, ⟨h.range.offset, le_rfl, ?_⟩, h.unmarked, h.live.next⟩,
      Or.inl ⟨hg, trivial, rfl⟩⟩
    have hle := h.range.le
    have hb := h.range.bytes
    show s.f.offset + 0 ≤ C.BUFSIZ + IO_UNGET_SLOP
    omega
  · simp only [returns_lseek_refused hg, ne_eq, not_true_eq_false, if_false, returns_pure]
    exact ⟨h.next, Or.inr ⟨hg, trivial, took_next s⟩⟩

lemma TellsNext.of_took (h : TellsNext s pushed) {data : List UInt8} (ht : Took s data s') :
    TellsNext s' (pushed - data.length) := by
  refine ⟨h.1.of_took ht, ?_⟩
  have htell : s.f.filepos = next s pushed - pushed := h.2
  have hahead := ht.ahead
  have hfilepos := ht.filepos
  simp only [ftell, next] at htell ⊢
  omega

lemma returns_step (h : Readable C s) (ht : TellsNext s pushed) (op : Op) :
    Returns (op.exec C) s fun r s' => Readable C s' ∧
      (SeeksFromTell s op r s' ∧ TellsNext s' (pushedAfter s pushed op r) ↔ Harmless s op) := by
  cases op with
  | input op =>
    cases op with
    | fread count =>
      simp only [Op.exec, Input.Op.exec, returns_bind, returns_pure]
      refine (returns_fread h count).mono ?_
      rintro d s' hd
      exact ⟨hd.readable, fun _ => trivial, fun _ => ⟨trivial, ht.of_took hd.took⟩⟩
    | fgetc =>
      simp only [Op.exec, Input.Op.exec, returns_bind, returns_pure]
      refine (returns_fgetc h).mono ?_
      rintro r s' ⟨d, hd, ⟨rfl, rfl⟩ | ⟨ch, rfl, rfl⟩⟩
      · refine ⟨hd.readable, fun _ => trivial, fun _ => ⟨trivial, ?_⟩⟩
        simpa only [pushedAfter, taken, if_true, length_nil] using ht.of_took hd.took
      · have hch : (ch.toNat : ℤ) ≠ EOF := by unfold EOF; omega
        refine ⟨hd.readable, fun _ => trivial, fun _ => ⟨trivial, ?_⟩⟩
        simpa only [pushedAfter, taken, if_neg hch, length_singleton] using ht.of_took hd.took
    | ungetc c =>
      simp only [Op.exec, Input.Op.exec, returns_bind, returns_pure]
      by_cases ho : s.f.offset ≤ 0
      · rw [returns_ungetc_full ho]
        refine ⟨h, fun _ => ho, fun _ => ⟨trivial, ?_⟩⟩
        simpa only [pushedAfter, if_neg (not_lt.2 ho)] using ht
      · refine (returns_ungetc h c (by omega)).mono ?_
        rintro r s' ⟨rfl, -, h', hfd, hbytes, hfilepos⟩
        refine ⟨h', fun hlaw => ?_, fun hno => absurd hno ho⟩
        -- the stream has moved back by a byte, and `filepos` has not
        have htell : ftell s.f = next s pushed - pushed := ht.2
        have htell' := hlaw.2.2
        simp only [pushedAfter, if_pos (not_le.1 ho), ftell, next, hfd, hbytes, hfilepos]
          at htell htell'
        omega
  | fseek d whence =>
    simp only [Op.exec, returns_bind, returns_pure]
    refine (returns_fseek h d whence).mono ?_
    rintro r s' ⟨h', ⟨hg, rfl, rfl⟩ | ⟨hg, rfl, htook⟩⟩
    · have hlaw : TellsNext (sought s (s.fd.target d whence)) 0 :=
        ⟨tracks_sought hg.2, by rw [next_sought hg.2]; simp [ftell, sought]⟩
      refine ⟨h', ?_⟩
      simp only [pushedAfter, if_true, hlaw, and_true]
      cases whence with
      | SEEK_SET => exact ⟨fun _ => trivial, fun _ => trivial⟩
      | SEEK_END => exact ⟨fun _ => trivial, fun _ => trivial⟩
      | SEEK_CUR =>
        have htell : ftell s.f = next s pushed - pushed := ht.2
        have hahead : ftell s.f + s.f.bytes = s.fd.offset := by
          unfold next at htell
          omega
        have htarget : s.fd.target d .SEEK_CUR = s.fd.offset + d := rfl
        simp only [SeeksFromTell, Harmless, next_sought hg.2, hg, true_imp_iff]
        omega
    · have hlaw := ht.of_took htook
      rw [length_nil, Nat.sub_zero] at hlaw
      refine ⟨h', fun _ => ?_, fun _ => ⟨?_, hlaw⟩⟩
      · cases whence with
        | SEEK_SET => trivial
        | SEEK_END => trivial
        | SEEK_CUR => exact fun hg' => absurd hg' hg
      · cases whence with
        | SEEK_SET => trivial
        | SEEK_END => trivial
        | SEEK_CUR => exact fun hr => absurd hr (by decide)

lemma law_iff_allHarmless (ops : List Op) : ∀ {s : Sys} {pushed : ℕ}, Readable C s →
    TellsNext s pushed → (Law C pushed s ops ↔ AllHarmless C s ops) := by
  induction ops with
  | nil => exact fun _ ht => ⟨fun _ => trivial, fun _ => ht⟩
  | cons op ops ih =>
    intro s pushed h ht
    obtain ⟨r, s', he, h', hstep⟩ := returns_step h ht op
    simp only [Law, AllHarmless, returns_iff_of_eq he]
    constructor
    · rintro ⟨-, hseek, hlaw⟩
      have ht' : TellsNext s' (pushedAfter s pushed op r) := by
        cases ops with
        | nil => exact hlaw
        | cons op' ops => exact hlaw.1
      exact ⟨hstep.1 ⟨hseek, ht'⟩, (ih h' ht').1 hlaw⟩
    · rintro ⟨hop, hops⟩
      obtain ⟨hseek, ht'⟩ := hstep.2 hop
      exact ⟨ht, hseek, (ih h' ht').2 hops⟩

lemma allHarmless_of_forall (ops : List Op)
    (hops : ∀ op ∈ ops, (∀ c, op ≠ .input (.ungetc c)) ∧ ∀ d, op ≠ .fseek d .SEEK_CUR) :
    ∀ {s : Sys} {pushed : ℕ}, Readable C s → TellsNext s pushed → AllHarmless C s ops := by
  induction ops with
  | nil => exact fun _ _ => trivial
  | cons op ops ih =>
    intro s pushed h ht
    have hop : Harmless s op := by
      have hne := hops op mem_cons_self
      match op with
      | .input (.fread _) => trivial
      | .input .fgetc => trivial
      | .input (.ungetc c) => exact absurd rfl (hne.1 c)
      | .fseek _ .SEEK_SET => trivial
      | .fseek d .SEEK_CUR => exact absurd rfl (hne.2 d)
      | .fseek _ .SEEK_END => trivial
    refine ⟨hop, (returns_step h ht op).mono fun r s' ⟨h', hstep⟩ => ?_⟩
    exact ih (fun op' hop' => hops op' (mem_cons_of_mem op hop')) h' (hstep.2 hop).2

lemma tellsNext_of_opened (hs : Opened C s.fd.offset s.f) : TellsNext s 0 := by
  obtain ⟨-, -, -, hb, hpos, -⟩ := hs.fields
  have hnext : next s 0 = s.fd.offset := by
    unfold next
    omega
  refine ⟨⟨by omega, [], rfl, ?_⟩, ?_⟩
  · rw [hnext, rest_of_opened hs]
    rfl
  · rw [hnext, ftell, hpos]
    simp

end

/-- **When the position law holds.**  Along a run on a newly opened seekable stream `ftell` is
always the offset of the next byte that is read less the bytes pushed back, and every successful
seek from the current position starts from it, if and only if no `ungetc` finds room to push a byte
back and no successful seek from the current position is made with bytes in the buffer. -/
theorem position_law_iff (C : Config) (s : Sys) (hs : Opened C s.fd.offset s.f)
    (hl : Live s.fd.answers) (ops : List Op) : Law C 0 s ops ↔ AllHarmless C s ops :=
  law_iff_allHarmless ops (readable_of_opened hs hl) (tellsNext_of_opened hs)

/-! ### Two runs -/

/-- A stream on a file of three bytes, which a read returns at once. -/
def threeBytes : Sys where
  f := fxopen config64 (List.replicate 16416 0) 0 false
  fd := ⟨fun _ => .move 4, [], [65, 66, 67], 0⟩

lemma threeBytes_opened : Opened config64 threeBytes.fd.offset threeBytes.f :=
  .fxopen false (by rw [length_replicate]; rfl)

lemma threeBytes_live : Live threeBytes.fd.answers := ⟨fun _ => nofun, fun i => ⟨i, le_rfl, nofun⟩⟩

/-- The stream after the buffer `buf` was filled, with `n` bytes of it read. -/
def threeBytesAfter (buf : List UInt8) (n : ℕ) : Sys where
  f := { fxopen config64 buf n false with
    offset := 32 + n, bytes := 3 - n, flags.read := true }
  fd := ⟨fun _ => .move 4, [], [65, 66, 67], 3⟩

-- the contents of the buffer stay a variable here, or the terms would grow to its size
lemma fgetc_buffer {buf buf' : List UInt8} (hwrite : overwrite buf 32 [65, 66, 67] = some buf')
    (hslice : slice buf' 32 1 = some [65]) :
    Returns (fgetc config64) ⟨fxopen config64 buf 0 false, threeBytes.fd⟩ fun r s' =>
      r = 65 ∧ s' = threeBytesAfter buf' 1 := by
  have h1 : Stream.empty config64 1 ⟨fxopen config64 buf 0 false, threeBytes.fd⟩ =
      some ([], ⟨fxopen config64 buf 0 false, threeBytes.fd⟩) := rfl
  have h2 : refill config64 ⟨fxopen config64 buf 0 false, threeBytes.fd⟩ =
      some (true, threeBytesAfter buf' 0) := by
    show Option.bind ((overwrite buf 32 [65, 66, 67]).map _) _ = _
    rw [hwrite]
    rfl
  have h3 : Stream.empty config64 1 (threeBytesAfter buf' 0) =
      some ([65], threeBytesAfter buf' 1) := by
    show Option.bind ((slice buf' 32 1).map _) _ = _
    rw [hslice]
    rfl
  simp only [fgetc, returns_bind]
  rw [fread, returns_loop, readTurn, returns_bind, returns_iff_of_eq h1, if_neg (by decide),
    returns_bind, returns_iff_of_eq h2, if_pos rfl, returns_pure, Sum.elim_inl, returns_loop,
    readTurn, returns_bind]
  refine (returns_iff_of_eq h3).2 ?_
  rw [if_pos (by decide), returns_pure, Sum.elim_inr, returns_pure]
  exact ⟨rfl, rfl⟩

lemma fgetc_threeBytes : Returns (fgetc config64) threeBytes fun _ s' =>
    ∃ buf, s' = threeBytesAfter buf 1 := by
  have hfits : 32 + [(65 : UInt8), 66, 67].length ≤ (List.replicate 16416 (0 : UInt8)).length := by
    rw [length_replicate]
    decide
  have hread := drop_overwritten hfits
  have hlen := length_overwritten hfits
  have hwrite := overwrite_eq hfits
  generalize List.take 32 _ ++ _ ++ _ = buf' at hread hlen hwrite
  refine (fgetc_buffer hwrite ?_).mono fun _ _ h => ⟨buf', h.2⟩
  rw [length_replicate] at hlen
  have hslice := slice_eq (l := buf') (i := 32) (n := 1) (by omega)
  rw [hread] at hslice
  exact hslice

/-- A byte is read, then another after a seek to the start. -/
theorem position_law_iff_rewind :
    Law config64 0 threeBytes [.input .fgetc, .fseek 0 .SEEK_SET, .input (.fread 2)] := by
  refine (position_law_iff config64 threeBytes threeBytes_opened threeBytes_live _).2 ?_
  exact allHarmless_of_forall _ (by simp) (readable_of_opened threeBytes_opened threeBytes_live)
    (tellsNext_of_opened threeBytes_opened)

/-- After `ungetc` the position is wrong; and a seek by nothing from the current position, after one
byte of three was read, skips the other two. -/
theorem ungetc_and_seek_cur_break : ¬ Law config64 0 threeBytes [.input (.ungetc 65)] ∧
    ¬ Law config64 0 threeBytes [.input .fgetc, .fseek 0 .SEEK_CUR] := by
  have hr := readable_of_opened threeBytes_opened threeBytes_live
  have ht := tellsNext_of_opened threeBytes_opened
  rw [law_iff_allHarmless _ hr ht, law_iff_allHarmless _ hr ht]
  constructor
  · rintro ⟨hroom, -⟩
    have hroom' : threeBytes.f.offset ≤ 0 := hroom
    exact absurd hroom' (by decide)
  · rintro ⟨-, hnext⟩
    simp only [Op.exec, Input.Op.exec, returns_bind, returns_pure] at hnext
    obtain ⟨r, s', he, buf, rfl⟩ := fgetc_threeBytes
    have hbytes : (threeBytesAfter buf 1).f.bytes = 0 := (hnext.elim he).1
      ⟨⟨4, rfl⟩, Int.le_of_lt (show (0 : ℤ) < 3 by decide)⟩
    exact absurd (show (2 : ℤ) = 0 from hbytes) (by decide)

end Klibc.Stdio.Position
