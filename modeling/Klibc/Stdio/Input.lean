import Klibc.Stdio.Stream

/-! # Input streams

What a stream has still to deliver is `rest s`: the bytes in its buffer, pushed back or read ahead,
and then what is left of the file. A read takes its bytes from the front of it (`returns_fread`) and
`ungetc` puts one there (`returns_ungetc`), without ever leaving the buffer. `input_stream_iff` says
when that is what the results of the calls promise: `ungetc(EOF, f)` returns `EOF` like a call that
failed, but pushes a byte back. -/

namespace Klibc.Stdio.Input

open Lib.Machine Lib.Slice Lib.Total List Vsnprintf Stdio.Stream

/-- A read moves a byte if there is one, or fails; it does not fail with `EINTR` or `EAGAIN`
forever. -/
structure Live (answers : ℕ → Answer) : Prop where
  moves : ∀ i, answers i ≠ .move 0
  finite : ∀ i, ∃ j ≥ i, ∀ e : Errno, answers j = .fail e → ¬ e.again

lemma Live.next {fd : OpenFile} (h : Live fd.answers) : Live fd.next.answers where
  moves i := h.moves (i + 1)
  finite i := by
    obtain ⟨j, hj, hm⟩ := h.finite (i + 1)
    refine ⟨j - 1, by omega, ?_⟩
    have : j - 1 + 1 = j := by omega
    simpa only [OpenFile.next, this] using hm

def rest (s : Sys) : List UInt8 :=
  (s.f.buf.drop s.f.offset.toNat).take s.f.bytes.toNat ++ s.fd.contents.drop s.fd.offset

structure InRange (C : Config) (f : FILE) : Prop where
  offset : 0 ≤ f.offset
  bytes : 0 ≤ f.bytes
  le : f.offset + f.bytes ≤ C.BUFSIZ + IO_UNGET_SLOP

structure Readable (C : Config) (s : Sys) : Prop where
  size : s.f.buf.length = C.BUFSIZ + IO_UNGET_SLOP
  range : InRange C s.f
  unmarked : ¬ s.f.flags.write
  live : Live s.fd.answers

lemma readable_of_opened {C : Config} {pos : ℤ} {s : Sys} (h : Opened C pos s.f)
    (hl : Live s.fd.answers) : Readable C s := by
  obtain ⟨hsize, -, ho, hb, -, hw⟩ := h.fields
  exact ⟨hsize, ⟨by rw [ho]; decide, by omega, by omega⟩, hw, hl⟩

/-! ### What was taken from the stream -/

/-- From `s` to `s'` the stream delivered `data`, and answers were used up. -/
structure Took (s : Sys) (data : List UInt8) (s' : Sys) : Prop where
  rest : rest s = data ++ rest s'
  contents : s'.fd.contents = s.fd.contents
  filepos : s'.f.filepos = s.f.filepos + data.length
  ahead : (s'.fd.offset : ℤ) - s'.f.bytes = s.fd.offset - s.f.bytes + data.length
  answers : ∃ i, ∀ j, s'.fd.answers j = s.fd.answers (i + j)

lemma Took.refl (s : Sys) : Took s [] s :=
  ⟨rfl, rfl, by simp, by simp, 0, fun j => by rw [Nat.zero_add]⟩

lemma Took.trans {s s1 s2 : Sys} {a b : List UInt8} (h₁ : Took s a s1) (h₂ : Took s1 b s2) :
    Took s (a ++ b) s2 := by
  obtain ⟨i, hi⟩ := h₁.answers
  obtain ⟨j, hj⟩ := h₂.answers
  refine ⟨?_, h₂.contents.trans h₁.contents, ?_, ?_, i + j, fun k => ?_⟩
  · rw [h₁.rest, h₂.rest, append_assoc]
  · rw [h₂.filepos, h₁.filepos, length_append]; push_cast; ring
  · rw [h₂.ahead, h₁.ahead, length_append]; push_cast; ring
  · rw [hj, hi, Nat.add_assoc]

/-! ### `_fread` -/

section
variable {C : Config} {s : Sys}

lemma Readable.unsigned_bytes (h : Readable C s) : unsigned C.bits s.f.bytes = s.f.bytes.toNat := by
  have hrange := h.range
  have hfits := C.fits
  have hle := hrange.le
  have h0 := hrange.offset
  have hb := hrange.bytes
  unfold IO_UNGET_SLOP INT_MAX at hfits
  unfold IO_UNGET_SLOP at hle
  obtain ⟨n, hn⟩ := Int.eq_ofNat_of_zero_le hb
  rw [hn, Int.toNat_natCast]
  refine unsigned_eq ?_
  have : n < 2 ^ 32 := by omega
  rcases C.bits_eq with hb | hb
  · rwa [hb]
  · rw [hb]; omega

lemma returns_empty (h : Readable C s) (count : ℕ) :
    Returns (empty C count) s fun data s' => data.length = min count s.f.bytes.toNat ∧
      Took s data s' ∧ Readable C s' ∧ s'.fd = s.fd ∧
      s'.f.bytes = s.f.bytes - data.length := by
  obtain ⟨o, ho⟩ := Int.eq_ofNat_of_zero_le h.range.offset
  obtain ⟨n, hn⟩ := Int.eq_ofNat_of_zero_le h.range.bytes
  have hle := h.range.le
  have hsize := h.size
  have hmin : (if count < n then count else n) = min count n := by split_ifs <;> omega
  have hu : unsigned C.bits n = n := by rw [← hn, h.unsigned_bytes, hn, Int.toNat_natCast]
  simp only [empty, returns_bind, returns_file, hn, hu, Int.toNat_natCast, hmin]
  by_cases h0 : min count n = 0
  · simp only [h0, ne_eq, not_true_eq_false, if_false, returns_pure]
    exact ⟨rfl, Took.refl s, h, trivial, by simp [hn]⟩
  · have hfit : o + min count n ≤ s.f.buf.length := by omega
    have hlen : ((s.f.buf.drop o).take (min count n)).length = min count n := by
      simp only [length_take, length_drop]
      omega
    simp only [ne_eq, h0, not_false_eq_true, if_true, returns_bind, ho, slice_eq hfit,
      returns_access, returns_setFile, returns_pure, hlen, true_and]
    refine ⟨⟨?_, rfl, by rw [hlen], ?_, 0, fun j => by rw [Nat.zero_add]⟩,
      ⟨hsize, ⟨?_, ?_, ?_⟩, h.unmarked, h.live⟩, trivial⟩
    · -- the bytes of the buffer, split where the new offset is
      have hoff : ((o : ℤ) + (min count n : ℕ)).toNat = o + min count n := by omega
      have hbytes : ((n : ℤ) - (min count n : ℕ)).toNat = n - min count n := by omega
      simp only [rest, ho, hn, Int.toNat_natCast, hoff, hbytes]
      rw [← append_assoc, take_drop_split _ _ (by omega)]
    · simp only [hn, hlen]
      ring
    · show (0 : ℤ) ≤ o + (min count n : ℕ)
      omega
    · show (0 : ℤ) ≤ n - (min count n : ℕ)
      omega
    · show (o : ℤ) + (min count n : ℕ) + (n - (min count n : ℕ)) ≤ C.BUFSIZ + IO_UNGET_SLOP
      omega

def rewound (s : Sys) : Sys := { s with f := { s.f with offset := IO_UNGET_SLOP } }

lemma Readable.rewound (h : Readable C s) (hb : s.f.bytes = 0) : Readable C (rewound s) := by
  have hslop : 0 ≤ IO_UNGET_SLOP := by decide
  refine ⟨h.size, ⟨hslop, h.range.bytes, ?_⟩, h.unmarked, h.live⟩
  show IO_UNGET_SLOP + s.f.bytes ≤ C.BUFSIZ + IO_UNGET_SLOP
  omega

lemma took_rewound (hb : s.f.bytes = 0) : Took s [] (rewound s) :=
  ⟨by simp [Input.rest, rewound, hb], rfl, by simp [rewound], by simp [rewound], 0,
    fun j => by rw [Nat.zero_add]; rfl⟩

lemma Readable.next (h : Readable C s) : Readable C { s with fd := s.fd.next } :=
  ⟨h.size, h.range, h.unmarked, h.live.next⟩

lemma took_next (s : Sys) : Took s [] { s with fd := s.fd.next } :=
  ⟨rfl, rfl, by simp, by simp [OpenFile.next], 1, fun j => by rw [Nat.add_comm]; rfl⟩

def marked (s : Sys) (fl : FileFlags) : Sys := { s with f := { s.f with flags := fl } }

lemma Readable.marked (h : Readable C s) {fl : FileFlags} (hfl : ¬ fl.write) :
    Readable C (marked s fl) :=
  ⟨h.size, ⟨h.range.offset, h.range.bytes, h.range.le⟩, hfl, h.live⟩

lemma took_marked (s : Sys) (fl : FileFlags) : Took s [] (marked s fl) :=
  ⟨rfl, rfl, by simp [marked], by simp [marked], 0, fun j => by rw [Nat.zero_add]; rfl⟩

/-- The stream after its buffer was filled with at most `n` bytes. -/
def refilled (s : Sys) (n : ℕ) : Sys where
  f := { s.f with
    buf := s.f.buf.take 32 ++ s.fd.upcoming n ++ s.f.buf.drop (32 + (s.fd.upcoming n).length)
    bytes := (s.fd.upcoming n).length
    flags.read := true }
  fd := { s.fd.next with offset := s.fd.offset + (s.fd.upcoming n).length }

lemma upcoming_fits (h : Readable C s) {n : ℕ} (hn : n ≤ C.BUFSIZ) :
    32 + (s.fd.upcoming n).length ≤ s.f.buf.length := by
  have hsize := h.size
  have hlen : (s.fd.upcoming n).length ≤ n := length_take_le _ _
  unfold IO_UNGET_SLOP at hsize
  omega

lemma Readable.refilled (h : Readable C s) (ho : s.f.offset = IO_UNGET_SLOP) {n : ℕ}
    (hn : n ≤ C.BUFSIZ) : Readable C (refilled s n) := by
  have hfits := upcoming_fits h hn
  have hlen : (s.fd.upcoming n).length ≤ n := length_take_le _ _
  refine ⟨?_, ⟨h.range.offset, Int.natCast_nonneg _, ?_⟩, h.unmarked, h.live.next⟩
  · rw [← h.size]
    exact congrArg Nat.cast (length_overwritten hfits)
  · show s.f.offset + ((s.fd.upcoming n).length : ℤ) ≤ C.BUFSIZ + IO_UNGET_SLOP
    omega

lemma took_refilled (h : Readable C s) (ho : s.f.offset = IO_UNGET_SLOP) (hb : s.f.bytes = 0)
    {n : ℕ} (hn : n ≤ C.BUFSIZ) : Took s [] (refilled s n) := by
  have hfits := upcoming_fits h hn
  refine ⟨?_, rfl, by simp [refilled], ?_, 1, fun j => by rw [Nat.add_comm]; rfl⟩
  · have hrest : s.fd.upcoming n ++ s.fd.contents.drop (s.fd.offset + (s.fd.upcoming n).length) =
        s.fd.contents.drop s.fd.offset := by
      rw [← drop_drop]
      exact prefix_iff_eq_append.1 (List.take_prefix _ _)
    have hslop : IO_UNGET_SLOP.toNat = 32 := rfl
    simp only [rest, refilled, ho, hb, hslop, OpenFile.next, nil_append, Int.toNat_natCast,
      Int.toNat_zero, take_zero]
    rw [drop_overwritten hfits, take_left, hrest]
  · simp only [refilled, OpenFile.next, hb, length_nil]
    push_cast
    ring

def AtEnd (s : Sys) : Prop := rest s = [] ∧ s.f.flags.eof

/-- The last answer between `s` and `s'` was an error, and the stream is marked so. -/
def Failed (s s' : Sys) : Prop :=
  s'.f.flags.err ∧ ∃ i, ∃ e : Errno, ¬ e.again ∧ s.fd.answers i = .fail e ∧
    ∀ j, s'.fd.answers j = s.fd.answers (i + 1 + j)

lemma Failed.of_took {s1 s2 : Sys} {a : List UInt8} (h₁ : Took s a s1) (h₂ : Failed s1 s2) :
    Failed s s2 := by
  obtain ⟨herr, i, e, he, hi, hj⟩ := h₂
  obtain ⟨k, hk⟩ := h₁.answers
  refine ⟨herr, k + i, e, he, by rw [← hk, hi], fun j => ?_⟩
  rw [hj, hk]
  congr 1
  omega

/-- An empty buffer is filled, or the read is to be tried again, or there is nothing to go on
with. -/
theorem returns_refill (h : Readable C s) (hb : s.f.bytes = 0) :
    Returns (refill C) s fun goOn s' => Took s [] s' ∧ Readable C s' ∧
      (goOn = true → s'.f.bytes ≠ 0 ∨
        s'.fd = s.fd.next ∧ ∃ e : Errno, e.again ∧ s.fd.answers 0 = .fail e) ∧
      (goOn = false → AtEnd s' ∨ Failed s s') := by
  have h₂ := h.rewound hb
  have htook := took_rewound hb
  have htook2 := htook.trans (took_next (rewound s))
  simp only [refill, returns_bind, returns_file, returns_setFile]
  change Returns (read C.BUFSIZ) (rewound s) _
  cases hans : (rewound s).fd.answers 0 with
  | fail e =>
    rw [returns_read_fail hans]
    by_cases he : e.again
    · simp only [if_pos he, returns_pure]
      exact ⟨htook2, h₂.next, fun _ => Or.inr ⟨rfl, e, he, hans⟩, Bool.noConfusion⟩
    · simp only [if_neg he, returns_bind, returns_setFile, returns_pure]
      refine ⟨htook2.trans (took_marked _ { s.f.flags with err := true }),
        h₂.next.marked h₂.unmarked, Bool.noConfusion,
        fun _ => Or.inr ⟨rfl, 0, e, he, hans, fun j => ?_⟩⟩
      rw [Nat.zero_add, Nat.add_comm]
      rfl
  | move k =>
    have hk : 0 < k := by
      rcases Nat.eq_zero_or_pos k with rfl | hk
      · exact absurd hans (h₂.live.moves 0)
      · exact hk
    have hmin : min k C.BUFSIZ ≤ C.BUFSIZ := Nat.min_le_right _ _
    rw [returns_read_move hans]
    by_cases hnil : (rewound s).fd.upcoming (min k C.BUFSIZ) = []
    · -- the end of the file
      have hpos := C.pos
      have hend : s.fd.contents.drop s.fd.offset = [] := by
        rcases take_eq_nil_iff.1 hnil with h0 | h0
        · omega
        · exact h0
      simp only [hnil, if_true, returns_bind, returns_setFile, returns_pure]
      refine ⟨htook2.trans (took_marked _ { s.f.flags with eof := true }),
        h₂.next.marked h₂.unmarked, Bool.noConfusion, fun _ => Or.inl ⟨?_, rfl⟩⟩
      simpa [rest, rewound, hb, OpenFile.next] using hend
    · have hover := overwrite_eq (upcoming_fits h₂ hmin)
      change overwrite s.f.buf IO_UNGET_SLOP _ = _ at hover
      have hne : ((rewound s).fd.upcoming (min k C.BUFSIZ)).length ≠ 0 :=
        fun h0 => hnil (length_eq_zero_iff.1 h0)
      simp only [if_neg hnil, returns_bind, hover, returns_access, returns_setFile, returns_pure]
      exact ⟨htook.trans (took_refilled h₂ rfl hb hmin), h₂.refilled rfl hmin,
        fun _ => Or.inl (by exact_mod_cast hne), Bool.noConfusion⟩

/-- A call of `_fread` for `count` bytes that delivered `data`. -/
structure Delivered (C : Config) (s : Sys) (count : ℕ) (data : List UInt8) (s' : Sys) : Prop where
  took : Took s data s'
  readable : Readable C s'
  le : data.length ≤ count
  short : data.length < count → AtEnd s' ∨ Failed s s'

lemma Delivered.of_took {s1 s2 : Sys} {a b : List UInt8} {count : ℕ} (h₁ : Took s a s1)
    (ha : a.length ≤ count) (h₂ : Delivered C s1 (count - a.length) b s2) :
    Delivered C s count (a ++ b) s2 := by
  have hle := h₂.le
  refine ⟨h₁.trans h₂.took, h₂.readable, ?_, fun hlt => ?_⟩
  · rw [length_append]; omega
  · rw [length_append] at hlt
    exact (h₂.short (by omega)).imp_right (Failed.of_took h₁)

/-- `_fread` of `count` bytes delivers, with `out` read before. -/
def Delivers (C : Config) (count : ℕ) (out : List UInt8) (s : Sys) : Prop :=
  Returns (fread C count out) s fun out' s' =>
    ∃ data, out' = out ++ data ∧ Delivered C s count data s'

/-- What the loop of `_fread` has before it: the bytes to deliver, and an empty buffer to fill. -/
def work (count : ℕ) (s : Sys) : ℕ := 2 * count + if s.f.bytes = 0 then 1 else 0

/-- What a turn of the loop of `_fread` does: it ends the loop, or goes on with less work left or
after `EINTR` or `EAGAIN`. -/
def Turned (C : Config) (s : Sys) (count : ℕ) (out : List UInt8) :
    ℕ × List UInt8 ⊕ List UInt8 → Sys → Prop
  | .inl (count', out'), s' => ∃ data, out' = out ++ data ∧ data.length + count' = count ∧
      Took s data s' ∧ Readable C s' ∧
      (work count' s' < work count s ∨ work count' s' ≤ work count s ∧ s'.fd = s.fd.next ∧
        ∃ e : Errno, e.again ∧ s.fd.answers 0 = .fail e)
  | .inr out', s' => ∃ data, out' = out ++ data ∧ Delivered C s count data s'

/-- **One turn of the loop.** -/
theorem returns_readTurn (h : Readable C s) (count : ℕ) (out : List UInt8) :
    Returns (readTurn C (count, out)) s (Turned C s count out) := by
  rw [readTurn, returns_bind]
  refine (returns_empty h count).mono ?_
  rintro data s1 ⟨hlen, htook, h₁, hfd, hb1⟩
  have hnonneg := h.range.bytes
  by_cases hdone : count - data.length = 0
  · rw [if_pos hdone, returns_pure]
    exact ⟨data, rfl, htook, h₁, by omega, by omega⟩
  have hb : s1.f.bytes = 0 := by omega
  have hwork : 2 * (count - data.length) < work count s := by
    unfold work
    split_ifs <;> omega
  rw [if_neg hdone, returns_bind]
  refine (returns_refill h₁ hb).mono ?_
  rintro goOn s2 ⟨htook2, h₂, hgo, hstop⟩
  have htook' := htook.trans htook2
  rw [append_nil] at htook'
  cases goOn with
  | false =>
    rw [if_neg (by simp), returns_pure]
    exact ⟨data, rfl, htook', h₂, by omega, fun _ => (hstop rfl).imp_right (Failed.of_took htook)⟩
  | true =>
    rw [if_pos rfl, returns_pure]
    refine ⟨data, rfl, by omega, htook', h₂, ?_⟩
    rcases hgo rfl with hne | ⟨hfd2, e, he, h0⟩
    · left
      rwa [work, if_neg hne, Nat.add_zero]
    · right
      rw [hfd] at hfd2 h0
      refine ⟨?_, hfd2, e, he, h0⟩
      unfold work at hwork ⊢
      split_ifs <;> omega

section
variable {τ : Type} (proj : τ → Sys) (J : τ → τ → Prop)
  {turn : ℕ × List UInt8 → StateT τ Option (ℕ × List UInt8 ⊕ List UInt8)}
  (htrans : ∀ t1 t2 t3, J t1 t2 → J t2 t3 → J t1 t3)
  (hturn : ∀ count out t, Readable C (proj t) → Returns (turn (count, out)) t fun r t' =>
    Turned C (proj t) count out r (proj t') ∧ J t t')
include htrans hturn

lemma returns_turn {t : τ} {count : ℕ} {out : List UInt8} (h : Readable C (proj t))
    (hrec : ∀ count' out' t', Readable C (proj t') →
      (work count' (proj t') < work count (proj t) ∨ work count' (proj t') ≤ work count (proj t) ∧
        (proj t').fd = (proj t).fd.next ∧ ∃ e : Errno, e.again ∧ (proj t).fd.answers 0 = .fail e) →
      Returns (Loop.run ⟨turn⟩ (count', out')) t' fun out'' t'' =>
        (∃ data, out'' = out' ++ data ∧ Delivered C (proj t') count' data (proj t'')) ∧ J t' t'') :
    Returns (Loop.run ⟨turn⟩ (count, out)) t fun out' t' =>
      (∃ data, out' = out ++ data ∧ Delivered C (proj t) count data (proj t')) ∧ J t t' := by
  rw [returns_loop]
  refine (hturn count out t h).mono ?_
  rintro (⟨count', out'⟩ | out') t' ⟨hr, hJ⟩
  · obtain ⟨data, rfl, hlen, htook, h', hwork⟩ := hr
    refine (hrec count' (out ++ data) t' h' hwork).mono ?_
    rintro out'' t'' ⟨⟨b, rfl, hb⟩, hJ'⟩
    rw [show count' = count - data.length by omega] at hb
    exact ⟨⟨data ++ b, append_assoc _ _ _, Delivered.of_took htook (by omega) hb⟩,
      htrans _ _ _ hJ hJ'⟩
  · exact ⟨hr, hJ⟩

/-- **The loop** of turns like those of `_fread`, in a state that may hold more than the stream: a
turn that goes on has less work left, or comes closer to the next answer `j` that is not `EINTR` or
`EAGAIN`. -/
theorem returns_turns (m : ℕ) : ∀ (j : ℕ) {t : τ} (count : ℕ) (out : List UInt8),
    Readable C (proj t) → (∀ e : Errno, (proj t).fd.answers j = .fail e → ¬ e.again) →
    work count (proj t) ≤ m → Returns (Loop.run ⟨turn⟩ (count, out)) t fun out' t' =>
      (∃ data, out' = out ++ data ∧ Delivered C (proj t) count data (proj t')) ∧ J t t' := by
  induction m using Nat.strong_induction_on with
  | _ m ihm =>
    have hless (count' : ℕ) (out' : List UInt8) (t' : τ) (h' : Readable C (proj t'))
        (hlt : work count' (proj t') < m) :=
      let ⟨i, _, hi⟩ := h'.live.finite 0
      ihm _ hlt i count' out' h' hi le_rfl
    intro j
    induction j with
    | zero =>
      intro t count out h hj hm
      refine returns_turn proj J htrans hturn h fun count' out' t' h' hwork => ?_
      rcases hwork with hlt | ⟨-, -, e, he, h0⟩
      · exact hless count' out' t' h' (by omega)
      · exact absurd he (hj e h0)
    | succ j ihj =>
      intro t count out h hj hm
      refine returns_turn proj J htrans hturn h fun count' out' t' h' hwork => ?_
      rcases hwork with hlt | ⟨hle, hfd, -⟩
      · exact hless count' out' t' h' (by omega)
      · exact ihj count' out' h' (by rw [hfd]; exact hj) (hle.trans hm)

end

lemma delivers (h : Readable C s) (count : ℕ) (out : List UInt8) : Delivers C count out s := by
  obtain ⟨j, -, hj⟩ := h.live.finite 0
  have hloop := returns_turns id (fun _ _ => True) (fun _ _ _ _ _ => trivial)
    (fun count out t ht => (returns_readTurn ht count out).mono fun _ _ hr => ⟨hr, trivial⟩)
    (work count s) j count out h hj le_rfl
  exact hloop.mono fun _ _ hout => hout.1

/-- **`_fread` takes its bytes from the front of what is left**, all of them unless it comes to the
end of the file or a read fails. -/
theorem returns_fread (h : Readable C s) (count : ℕ) :
    Returns (fread C count []) s (Delivered C s count) := by
  refine Returns.mono (delivers h count []) ?_
  rintro out s' ⟨data, rfl, hd⟩
  exact hd

/-! ### `fgetc` and `ungetc` -/

/-- The byte that `ungetc` stores. -/
def byteOf (c : ℤ) : UInt8 := (unsigned 8 c).toUInt8

lemma returns_fgetc (h : Readable C s) :
    Returns (fgetc C) s fun r s' => ∃ data, Delivered C s 1 data s' ∧
      (data = [] ∧ r = EOF ∨ ∃ ch : UInt8, data = [ch] ∧ r = ch.toNat) := by
  simp only [fgetc, returns_bind]
  refine (returns_fread h 1).mono ?_
  rintro data s' hd
  rw [returns_pure]
  refine ⟨data, hd, ?_⟩
  have hle := hd.le
  rcases data with _ | ⟨ch, _ | ⟨_, _⟩⟩
  · exact Or.inl ⟨rfl, rfl⟩
  · exact Or.inr ⟨ch, rfl, rfl⟩
  · simp at hle

lemma returns_ungetc_full {c : ℤ} {Q : ℤ → Sys → Prop} (ho : s.f.offset ≤ 0) :
    Returns (ungetc c) s Q ↔ Q EOF s := by
  simp [ungetc, returns_bind, returns_file, ho, returns_pure]

/-- **`ungetc` puts its byte in front of what is left.** -/
theorem returns_ungetc (h : Readable C s) (c : ℤ) (ho : 0 < s.f.offset) :
    Returns (ungetc c) s fun r s' => r = c ∧ rest s' = byteOf c :: rest s ∧ Readable C s' ∧
      s'.fd = s.fd ∧ s'.f.bytes = s.f.bytes + 1 ∧ s'.f.filepos = s.f.filepos := by
  obtain ⟨o, ho'⟩ : ∃ o : ℕ, s.f.offset = o + 1 := ⟨(s.f.offset - 1).toNat, by omega⟩
  obtain ⟨n, hn⟩ := Int.eq_ofNat_of_zero_le h.range.bytes
  have hle := h.range.le
  have hsize := h.size
  have hfits : o + [byteOf c].length ≤ s.f.buf.length := by
    rw [length_singleton]
    omega
  have hcond : ¬ (s.f.flags.write = true ∨ (o : ℤ) + 1 ≤ 0) := by
    rintro (hw | hw)
    · exact h.unmarked hw
    · omega
  have hover := overwrite_eq hfits
  have hsub : (o : ℤ) + 1 - 1 = o := by omega
  simp only [ungetc, returns_bind, returns_file, ho', if_neg hcond, hsub]
  change Returns (access (overwrite s.f.buf o [byteOf c])) s _
  simp only [hover, returns_access, returns_setFile, returns_pure, true_and, and_true]
  refine ⟨?_, ⟨?_, ⟨?_, ?_, ?_⟩, h.unmarked, h.live⟩⟩
  · have h1 : (n : ℤ) + 1 = ((n + 1 : ℕ) : ℤ) := rfl
    have h2 : s.f.offset.toNat = o + [byteOf c].length := by rw [ho']; rfl
    simp only [rest, hn, h1, h2, Int.toNat_natCast]
    rw [drop_overwritten hfits]
    rfl
  · rw [← hsize]
    exact congrArg Nat.cast (length_overwritten hfits)
  · exact Int.natCast_nonneg o
  · show (0 : ℤ) ≤ s.f.bytes + 1
    omega
  · show (o : ℤ) + (s.f.bytes + 1) ≤ C.BUFSIZ + IO_UNGET_SLOP
    omega

end

/-! ### Sequences of calls -/

inductive Op
  | fread (count : ℕ)
  | fgetc
  | ungetc (c : ℤ)

/-- What a call returns: the bytes it stored, or a number. -/
inductive Ret
  | data (d : List UInt8)
  | int (r : ℤ)

def Op.exec (C : Config) : Op → Call Ret
  | .fread count => do
    let d ← Stream.fread C count []
    return .data d
  | .fgetc => do
    let r ← Stream.fgetc C
    return .int r
  | .ungetc c => do
    let r ← Stream.ungetc c
    return .int r

/-- What the result of a call says about the logical stream: a read returns bytes from its front, a
successful `ungetc` puts one there, and no other call changes it. -/
def Logical (l : List UInt8) : Op → Ret → List UInt8 → Prop
  | .fread count, .data d, l' => d.length ≤ count ∧ l = d ++ l'
  | .fgetc, .int r, l' => r = EOF ∧ l' = l ∨ ∃ ch : UInt8, r = ch.toNat ∧ l = ch :: l'
  | .ungetc c, .int r, l' => r = EOF ∧ l' = l ∨ r ≠ EOF ∧ l' = byteOf c :: l
  | _, _, _ => False

def Short : Op → Ret → Prop
  | .fread count, .data d => d.length < count
  | .fgetc, .int r => r = EOF
  | _, _ => False

/-- The calls `ops` from `s` on deliver the logical stream `l` exactly. -/
def Exact (C : Config) : List UInt8 → Sys → List Op → Prop
  | l, s, [] => rest s = l ∧ InRange C s.f
  | l, s, op :: ops => rest s = l ∧ InRange C s.f ∧ Returns (op.exec C) s fun r s' =>
      (Short op r → AtEnd s' ∨ Failed s s') ∧ ∃ l', Logical l op r l' ∧ Exact C l' s' ops

/-- No call of `ungetc` is made with `EOF` while there is room to push a byte back. -/
def NoEof (C : Config) : Sys → List Op → Prop
  | _, [] => True
  | s, op :: ops => (∀ c, op = .ungetc c → c = EOF → s.f.offset ≤ 0) ∧
      Returns (op.exec C) s fun _ s' => NoEof C s' ops

section
variable {C : Config} {s : Sys}

/-- One call: the streams it may lead to are in order, and the logical law holds if the call was
not an `ungetc` of `EOF` with room for it. -/
theorem returns_exec (h : Readable C s) (op : Op) :
    Returns (op.exec C) s fun r s' => Readable C s' ∧ (Short op r → AtEnd s' ∨ Failed s s') ∧
      ((∃ l', Logical (rest s) op r l' ∧ rest s' = l') ↔
        ∀ c, op = .ungetc c → c = EOF → s.f.offset ≤ 0) := by
  cases op with
  | fread count =>
    simp only [Op.exec, returns_bind, returns_pure]
    refine (returns_fread h count).mono ?_
    rintro d s' hd
    exact ⟨hd.readable, hd.short, fun _ _ hop => Op.noConfusion hop,
      fun _ => ⟨rest s', ⟨hd.le, hd.took.rest⟩, rfl⟩⟩
  | fgetc =>
    simp only [Op.exec, returns_bind, returns_pure]
    refine (returns_fgetc h).mono ?_
    rintro r s' ⟨d, hd, ⟨rfl, rfl⟩ | ⟨ch, rfl, rfl⟩⟩
    · exact ⟨hd.readable, fun _ => hd.short (by simp), fun _ _ hop => Op.noConfusion hop,
        fun _ => ⟨rest s', Or.inl ⟨rfl, hd.took.rest.symm⟩, rfl⟩⟩
    · refine ⟨hd.readable, fun hr => ?_, fun _ _ hop => Op.noConfusion hop,
        fun _ => ⟨rest s', Or.inr ⟨ch, rfl, hd.took.rest⟩, rfl⟩⟩
      have hr' : (ch.toNat : ℤ) = -1 := hr
      omega
  | ungetc c =>
    simp only [Op.exec, returns_bind, returns_pure]
    by_cases ho : s.f.offset ≤ 0
    · rw [returns_ungetc_full ho]
      exact ⟨h, False.elim, fun _ _ _ _ => ho, fun _ => ⟨rest s, Or.inl ⟨rfl, rfl⟩, rfl⟩⟩
    · refine (returns_ungetc h c (by omega)).mono ?_
      rintro r s' ⟨rfl, hrest, h', -, -, -⟩
      refine ⟨h', False.elim, ?_, fun hc => ?_⟩
      · rintro ⟨l', ⟨hr, rfl⟩ | ⟨hr, -⟩, hl'⟩ c hc hEOF
        · rw [hrest] at hl'
          exact absurd hl' (cons_ne_self _ _)
        · cases hc
          exact absurd hEOF hr
      · refine ⟨rest s', Or.inr ⟨fun hr => ho (hc r rfl hr), hrest⟩, rfl⟩

lemma Exact.rest_eq {l : List UInt8} {ops : List Op} (h : Exact C l s ops) : rest s = l := by
  cases ops with
  | nil => exact h.1
  | cons op ops => exact h.1

lemma exact_iff_noEof (ops : List Op) : ∀ {s : Sys}, Readable C s →
    (Exact C (rest s) s ops ↔ NoEof C s ops) := by
  induction ops with
  | nil =>
    intro s h
    exact ⟨fun _ => trivial, fun _ => ⟨rfl, h.range⟩⟩
  | cons op ops ih =>
    intro s h
    obtain ⟨r, s', he, h', hshort, hlaw⟩ := returns_exec h op
    simp only [Exact, NoEof, returns_iff_of_eq he, true_and]
    constructor
    · rintro ⟨-, -, l', hlog, hex⟩
      have hl' := hex.rest_eq
      subst hl'
      exact ⟨hlaw.1 ⟨_, hlog, rfl⟩, (ih h').1 hex⟩
    · rintro ⟨hc, hno⟩
      obtain ⟨l', hlog, rfl⟩ := hlaw.2 hc
      exact ⟨h.range, hshort, _, hlog, (ih h').2 hno⟩

lemma noEof_of_forall (ops : List Op) (hops : ∀ op ∈ ops, op ≠ .ungetc EOF) : ∀ {s : Sys},
    Readable C s → NoEof C s ops := by
  induction ops with
  | nil => exact fun _ => trivial
  | cons op ops ih =>
    intro s h
    refine ⟨fun c hc hEOF => ?_, (returns_exec h op).mono fun r s' hr => ?_⟩
    · exact absurd (hc.trans (congrArg Op.ungetc hEOF)) (hops op mem_cons_self)
    · exact ih (fun op' hop' => hops op' (mem_cons_of_mem op hop')) hr.1

lemma rest_of_opened {pos : ℤ} (hs : Opened C pos s.f) :
    rest s = s.fd.contents.drop s.fd.offset := by
  simp [rest, hs.fields.2.2.2.1]

/-- **When input streams deliver the file exactly.**  Whatever the calls on a newly opened stream
and however the kernel cuts, interrupts and fails the reads: the calls return, and what the stream
has still to deliver is, after each of them, the logical stream in which every `ungetc` that
returned no `EOF` pushed its byte to the front, with the fields in range, if and only if no `ungetc`
was made with `EOF` while there was room. -/
theorem input_stream_iff (C : Config) {pos : ℤ} (s : Sys) (hs : Opened C pos s.f)
    (hl : Live s.fd.answers) (ops : List Op) :
    Exact C (s.fd.contents.drop s.fd.offset) s ops ↔ NoEof C s ops := by
  rw [← rest_of_opened hs]
  exact exact_iff_noEof ops (readable_of_opened hs hl)

end

/-! ### Two runs -/

def oneByte : Sys where
  f := fxopen config64 (List.replicate 16416 0) 0 false
  fd := ⟨fun _ => .move 1, [], [65], 0⟩

lemma oneByte_opened : Opened config64 0 oneByte.f := .fxopen false (by rw [length_replicate]; rfl)

lemma oneByte_live : Live oneByte.fd.answers := ⟨fun _ => nofun, fun i => ⟨i, le_rfl, nofun⟩⟩

/-- A byte is read, another one pushed back and both ends of the file are seen. -/
theorem input_stream_iff_pushback :
    Exact config64 [65] oneByte [.fgetc, .ungetc 66, .fread 2, .fgetc] :=
  (input_stream_iff config64 oneByte oneByte_opened oneByte_live _).2
    (noEof_of_forall _ (by simp [EOF]) (readable_of_opened oneByte_opened oneByte_live))

/-- `ungetc(EOF, f)` returns `EOF`, and the next byte read is 255. -/
theorem ungetc_eof_pushes : (Returns (ungetc EOF) oneByte fun r s' => r = EOF ∧
      Returns (fgetc config64) s' fun ch _ => ch = 255) ∧
    ¬ Exact config64 [65] oneByte [.ungetc EOF, .fgetc] := by
  have hr := readable_of_opened oneByte_opened oneByte_live
  constructor
  · refine (returns_ungetc hr EOF (by decide)).mono ?_
    rintro r s1 ⟨rfl, hrest, h₁, hfd, -, -⟩
    refine ⟨rfl, (returns_fgetc h₁).mono ?_⟩
    rintro ch s2 ⟨d, hd, ⟨rfl, -⟩ | ⟨b, rfl, rfl⟩⟩
    · -- nothing was read: neither at the end of the stream nor after an error
      rcases hd.short (by simp) with ⟨hend, -⟩ | ⟨-, i, e, -, hi, -⟩
      · have := hd.took.rest
        rw [hrest, hend] at this
        cases this
      · rw [hfd] at hi
        cases hi
    · have := hd.took.rest
      rw [hrest] at this
      have hb : byteOf EOF = b := (List.cons.inj this).1
      rw [← hb]
      decide
  · intro hex
    have hrest : rest oneByte = [65] := rest_of_opened oneByte_opened
    rw [← hrest, exact_iff_noEof _ hr] at hex
    have hoff : oneByte.f.offset ≤ 0 := hex.1 EOF rfl rfl
    exact absurd hoff (by decide)

end Klibc.Stdio.Input
