import Klibc.Stdio.Input

/-! # `_fread` and `errno`

A failing `read` sets `errno`, and `_fread` leaves it there when it tries again. Here is the code of
`_fread` on a state that also holds `errno`; what it does to the stream is what `fread` does. -/

namespace Klibc.Stdio.LastError

open Lib.Machine Lib.Slice Lib.Total Stdio.Stream Input

/-- A stream with its open file, and `errno`; none is 0. -/
structure Proc where
  sys : Sys
  errno : Option Errno

abbrev ProcCall := StateT Proc Option

/-- A call that does not change `errno`. -/
def onStream {α : Type} (c : Call α) : ProcCall α := fun t =>
  (c t.sys).map fun r => (r.1, { t with sys := r.2 })

def setErrno (e : Option Errno) : ProcCall Unit := fun t => some ((), { t with errno := e })

/-- The `errno` of the process. -/
def getErrno : ProcCall (Option Errno) := fun t => some (t.errno, t)

/-- `read(f->fd, p, n)`. -/
def readErrno (n : ℕ) : ProcCall (Except Errno (List UInt8)) := do
  let r ← onStream (read n)
  match r with
  | .error e =>
    setErrno (some e)
    return .error e
  | .ok bytes => return .ok bytes

section
variable (C : Config)

/-- The part of the loop of `_fread` that fills the buffer again. -/
def refillErrno : ProcCall Bool := do
  let f ← onStream file
  let f := { f with offset := IO_UNGET_SLOP }
  onStream (setFile f)
  match ← readErrno C.BUFSIZ with
  | .error e =>
    if e.again then return true
    else
      onStream (setFile { f with flags.err := true })
      return false
  | .ok bytes =>
    if bytes = [] then
      onStream (setFile { f with flags.eof := true })
      return false
    else
      let buf ← onStream (access (overwrite f.buf IO_UNGET_SLOP bytes))
      onStream (setFile { f with buf := buf, bytes := bytes.length, flags.read := true })
      return true

/-- A turn of the loop of `_fread`. -/
def readTurnErrno : ℕ × List UInt8 → ProcCall (ℕ × List UInt8 ⊕ List UInt8)
  | (count, out) => do
    let data ← onStream (empty C count)
    if count - data.length = 0 then return .inr (out ++ data)
    else
      let goOn ← refillErrno C
      if goOn then return .inl (count - data.length, out ++ data)
      else return .inr (out ++ data)

/-- `_fread` of `count` bytes. -/
def freadErrno (count : ℕ) : ProcCall (List UInt8) := Loop.run ⟨readTurnErrno C⟩ (count, [])

end

/-! ### What the calls return -/

section
variable {α : Type} {t : Proc} {C : Config}

@[simp]
lemma returns_onStream {c : Call α} {Q : α → Proc → Prop} :
    Returns (onStream c) t Q ↔ Returns c t.sys fun x s' => Q x { t with sys := s' } := by
  constructor
  · rintro ⟨x, t', he, hq⟩
    obtain ⟨⟨y, s'⟩, hc, heq⟩ := Option.map_eq_some_iff.1 he
    obtain ⟨rfl, rfl⟩ := Prod.mk.inj heq
    exact ⟨y, s', hc, hq⟩
  · rintro ⟨x, s', hc, hq⟩
    exact ⟨x, { t with sys := s' }, Option.map_eq_some_iff.2 ⟨(x, s'), hc, rfl⟩, hq⟩

@[simp]
lemma returns_setErrno {e : Option Errno} {Q : Unit → Proc → Prop} :
    Returns (setErrno e) t Q ↔ Q () { t with errno := e } :=
  returns_iff_of_eq rfl

@[simp]
lemma returns_getErrno {Q : Option Errno → Proc → Prop} : Returns getErrno t Q ↔ Q t.errno t :=
  returns_iff_of_eq rfl

/-- No system call fails with anything but `EINTR` or `EAGAIN`, now or later. -/
structure Soft (t : Proc) : Prop where
  answers : ∀ i e, t.sys.fd.answers i = .fail e → e.again = true
  errno : ∀ e, t.errno = some e → e.again = true

lemma Soft.of_answers {s' : Sys} (h : Soft t)
    (hans : ∃ i, ∀ j, s'.fd.answers j = t.sys.fd.answers (i + j)) : Soft { t with sys := s' } := by
  obtain ⟨i, hi⟩ := hans
  exact ⟨fun j e hj => h.answers (i + j) e (by rw [← hi, hj]), h.errno⟩

lemma Soft.next {t' : Proc} (h : Soft t) (hfd : t'.sys.fd.answers = t.sys.fd.next.answers)
    (he : t'.errno = t.errno ∨ ∃ e, t.sys.fd.answers 0 = .fail e ∧ t'.errno = some e) :
    Soft t' := by
  refine ⟨fun i e hi => h.answers (i + 1) e ?_, fun e hsome => ?_⟩
  · rw [← hi, hfd]
    rfl
  · rcases he with he | ⟨e', h0, he⟩
    · exact h.errno e (he ▸ hsome)
    · rw [he, Option.some.injEq] at hsome
      exact hsome ▸ h.answers 0 e' h0

lemma returns_refillErrno {Q : Bool → Sys → Prop} (h : Returns (refill C) t.sys Q) :
    Returns (refillErrno C) t fun goOn t' => Q goOn t'.sys ∧ (Soft t → Soft t') := by
  simp only [refill, returns_bind, returns_file, returns_setFile] at h
  simp only [refillErrno, readErrno, returns_bind, returns_onStream, returns_file, returns_setFile]
  change Returns (read C.BUFSIZ) (rewound t.sys) _ at h
  change Returns (read C.BUFSIZ) (rewound t.sys) _
  cases hans : (rewound t.sys).fd.answers 0 with
  | fail e =>
    rw [returns_read_fail hans] at h ⊢
    simp only [returns_bind, returns_setErrno, returns_pure] at h ⊢
    have hsoft (t' : Proc) (hfd : t'.sys.fd.answers = t.sys.fd.next.answers)
        (he : t'.errno = some e) (hs : Soft t) : Soft t' := hs.next hfd (.inr ⟨e, hans, he⟩)
    by_cases he : e.again
    · simp only [if_pos he, returns_pure] at h ⊢
      exact ⟨h, hsoft _ rfl rfl⟩
    · simp only [if_neg he, returns_bind, returns_onStream, returns_setFile, returns_pure] at h ⊢
      exact ⟨h, hsoft _ rfl rfl⟩
  | move k =>
    rw [returns_read_move hans] at h ⊢
    simp only [returns_pure] at h ⊢
    have hsoft (t' : Proc) (hfd : t'.sys.fd.answers = t.sys.fd.next.answers)
        (he : t'.errno = t.errno) (hs : Soft t) : Soft t' := hs.next hfd (.inl he)
    by_cases hnil : (rewound t.sys).fd.upcoming (min k C.BUFSIZ) = []
    · simp only [if_pos hnil, returns_bind, returns_onStream, returns_setFile, returns_pure] at h ⊢
      exact ⟨h, hsoft _ rfl rfl⟩
    · simp only [if_neg hnil, returns_bind, returns_onStream] at h ⊢
      cases hover : overwrite t.sys.f.buf IO_UNGET_SLOP
          ((rewound t.sys).fd.upcoming (min k C.BUFSIZ)) with
      | none =>
        rw [hover] at h
        exact absurd h (not_returns_of_eq_none rfl)
      | some buf =>
        rw [hover] at h
        simp only [returns_access] at h ⊢
        simp only [returns_setFile, returns_pure] at h ⊢
        exact ⟨h, hsoft _ rfl rfl⟩

lemma empty_fd {s s' : Sys} {count : ℕ} {data : List UInt8}
    (h : empty C count s = some (data, s')) : s'.fd = s.fd := by
  have hret : Returns (empty C count) s fun x t => (x, t) = (data, s') := ⟨data, s', h, rfl⟩
  simp only [empty, returns_bind, returns_file] at hret
  generalize (if count < unsigned C.bits s.f.bytes then count else unsigned C.bits s.f.bytes) = nb
    at hret
  split at hret
  · rw [returns_bind] at hret
    obtain ⟨bytes, s1, haccess, hret⟩ := hret
    obtain ⟨_, -, heq⟩ := Option.map_eq_some_iff.1 haccess
    obtain ⟨-, rfl⟩ := Prod.mk.inj heq
    rw [returns_bind, returns_setFile, returns_pure, Prod.mk.injEq] at hret
    rw [← hret.2]
  · rw [returns_pure, Prod.mk.injEq] at hret
    rw [hret.2]

/-- **A turn** does to the stream what it does without `errno`. -/
theorem returns_readTurnErrno {count : ℕ} {out : List UInt8}
    {Q : ℕ × List UInt8 ⊕ List UInt8 → Sys → Prop} (h : Returns (readTurn C (count, out)) t.sys Q) :
    Returns (readTurnErrno C (count, out)) t fun r t' => Q r t'.sys ∧ (Soft t → Soft t') := by
  simp only [readTurn, returns_bind] at h
  simp only [readTurnErrno, returns_bind, returns_onStream]
  obtain ⟨data, s1, hempty, hrest⟩ := h
  refine ⟨data, s1, hempty, ?_⟩
  have hfd : s1.fd = t.sys.fd := empty_fd hempty
  have hsoft : Soft t → Soft { t with sys := s1 } := fun hs => by
    refine hs.of_answers ⟨0, fun j => ?_⟩
    rw [hfd, Nat.zero_add]
  by_cases hdone : count - data.length = 0
  · simp only [if_pos hdone, returns_pure] at hrest ⊢
    exact ⟨hrest, hsoft⟩
  · simp only [if_neg hdone, returns_bind] at hrest ⊢
    refine (returns_refillErrno (t := { t with sys := s1 }) hrest).mono ?_
    rintro goOn t' ⟨hgo, hsoft'⟩
    cases goOn <;> simp only [Bool.false_eq_true, if_true, if_false, returns_pure] at hgo ⊢ <;>
      exact ⟨hgo, fun hs => hsoft' (hsoft hs)⟩

/-- **`_fread`** takes its bytes from the front of what is left, and `errno` stays soft. -/
theorem returns_freadErrno (h : Readable C t.sys) (count : ℕ) :
    Returns (freadErrno C count) t fun data t' =>
      Delivered C t.sys count data t'.sys ∧ (Soft t → Soft t') := by
  obtain ⟨j, -, hj⟩ := h.live.finite 0
  have hloop := returns_turns Proc.sys (fun t t' => Soft t → Soft t')
    (fun _ _ _ h1 h2 hs => h2 (h1 hs))
    (fun count out t ht => returns_readTurnErrno (returns_readTurn ht count out))
    (work count t.sys) j count [] h hj le_rfl
  refine hloop.mono ?_
  rintro out t' ⟨⟨data, rfl, hd⟩, hsoft⟩
  exact ⟨hd, hsoft⟩

end

end Klibc.Stdio.LastError
