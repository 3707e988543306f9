import Klibc.Lib.Slice
import Klibc.Lib.Total
import Klibc.Stdio.Vsnprintf

/-! # Streams

The streams of `stdio/`: `struct _IO_file`, `__fxopen` and the functions that write, flush, read,
push back and seek. A call runs on one stream and the open file behind its descriptor, and has no
result if it touches memory outside of the buffer or does not return.

How the kernel answers the system calls is a sequence chosen in advance: each answer makes the call
fail or bounds the bytes it moves. A loop of the code that calls the kernel again for as long as it
fails is a fixed point, so it returns only if it does so for the answers at hand. -/

namespace Klibc.Stdio.Stream

open Lib.Machine Lib.Slice Lib.Total Vsnprintf

/-- `_IO_UNGET_SLOP`. -/
def IO_UNGET_SLOP : ℤ := 32

def EOF : ℤ := -1

/-- The machine, and `BUFSIZ`. -/
structure Config extends Arch where
  BUFSIZ : ℕ
  pos : 0 < BUFSIZ
  fits : BUFSIZ + IO_UNGET_SLOP ≤ INT_MAX

/-- A machine of 64 bits with the `BUFSIZ` of the default configuration. -/
def config64 : Config where
  toArch := arch64
  BUFSIZ := 16384
  pos := by decide
  fits := by decide

/-! ### The open file -/

inductive Errno
  | EINTR | EAGAIN | other (e : ℕ)
  deriving DecidableEq

/-- `errno == EINTR || errno == EAGAIN`. -/
def Errno.again (e : Errno) : Bool := e = .EINTR || e = .EAGAIN

/-- An answer to a system call: an error, or how many bytes it moves at most. -/
inductive Answer
  | fail (e : Errno)
  | move (k : ℕ)
  deriving DecidableEq

/-- The open file of a descriptor: the answers to the calls to come, what was written to it, the
contents that are read from it and the offset of the next byte. -/
structure OpenFile where
  answers : ℕ → Answer
  written : List UInt8
  contents : List UInt8
  offset : ℕ

/-! ### The stream -/

/-- `enum _IO_file_flags`. -/
structure FileFlags where
  write : Bool
  read : Bool
  lineBuf : Bool
  unbuf : Bool
  eof : Bool
  err : Bool
  deriving DecidableEq

def FileFlags.none : FileFlags := ⟨false, false, false, false, false, false⟩

/-- `struct _IO_file`, without the links of the list of all streams. -/
structure FILE where
  filepos : ℤ
  buf : List UInt8
  offset : ℤ
  bytes : ℤ
  bufsiz : ℤ
  flags : FileFlags

/-- A stream and the open file behind its descriptor. -/
structure Sys where
  f : FILE
  fd : OpenFile

abbrev Call := StateT Sys Option

def file : Call FILE := fun s => some (s.f, s)

def setFile (f : FILE) : Call Unit := fun s => some ((), { s with f := f })

def access {α : Type} (o : Option α) : Call α := fun s => o.map fun x => (x, s)

def answer : Call Answer := fun s =>
  some (s.fd.answers 0, { s with fd.answers := fun i => s.fd.answers (i + 1) })

/-- `write(f->fd, p, n)` for the `n` bytes at `p`. -/
def write (p : List UInt8) : Call (Except Errno ℕ) := do
  match ← answer with
  | .fail e => return .error e
  | .move k =>
    modify fun s => { s with fd.written := s.fd.written ++ p.take k }
    return .ok (min k p.length)

/-- The next `n` bytes, or as many as there are. -/
def OpenFile.upcoming (fd : OpenFile) (n : ℕ) : List UInt8 := (fd.contents.drop fd.offset).take n

/-- `read(f->fd, p, n)`: the bytes that were read. -/
def read (n : ℕ) : Call (Except Errno (List UInt8)) := do
  match ← answer with
  | .fail e => return .error e
  | .move k =>
    let s ← get
    let data := s.fd.upcoming (min k n)
    set { s with fd.offset := s.fd.offset + data.length }
    return .ok data

inductive Whence
  | SEEK_SET | SEEK_CUR | SEEK_END
  deriving DecidableEq

def OpenFile.target (fd : OpenFile) (d : ℤ) : Whence → ℤ
  | .SEEK_SET => d
  | .SEEK_CUR => fd.offset + d
  | .SEEK_END => fd.contents.length + d

/-- `lseek(f->fd, d, whence)`: the new offset, or -1. -/
def lseek (d : ℤ) (whence : Whence) : Call ℤ := do
  match ← answer with
  | .fail _ => return -1
  | .move _ =>
    let s ← get
    let t := s.fd.target d whence
    if t < 0 then return -1
    else
      set { s with fd.offset := t.toNat }
      return t

/-! ### What the primitives return -/

section
variable {s : Sys}

def OpenFile.next (fd : OpenFile) : OpenFile := { fd with answers := fun i => fd.answers (i + 1) }

@[simp]
lemma returns_file {Q : FILE → Sys → Prop} : Returns file s Q ↔ Q s.f s := returns_iff_of_eq rfl

@[simp]
lemma returns_setFile {f : FILE} {Q : Unit → Sys → Prop} :
    Returns (setFile f) s Q ↔ Q () { s with f := f } :=
  returns_iff_of_eq rfl

@[simp]
lemma returns_access {α : Type} {x : α} {Q : α → Sys → Prop} :
    Returns (access (some x)) s Q ↔ Q x s :=
  returns_iff_of_eq rfl

@[simp]
lemma returns_answer {Q : Answer → Sys → Prop} :
    Returns answer s Q ↔ Q (s.fd.answers 0) { s with fd := s.fd.next } :=
  returns_iff_of_eq rfl

variable {Q : Except Errno (List UInt8) → Sys → Prop} {whence : Whence} {p : List UInt8} {e : Errno}
  {d : ℤ}

lemma returns_write_fail (h : s.fd.answers 0 = .fail e) {Q : Except Errno ℕ → Sys → Prop} :
    Returns (write p) s Q ↔ Q (.error e) { s with fd := s.fd.next } := by
  simp only [write, returns_bind, returns_answer, h, returns_pure]

lemma returns_write_move {k : ℕ} (h : s.fd.answers 0 = .move k) {Q : Except Errno ℕ → Sys → Prop} :
    Returns (write p) s Q ↔
      Q (.ok (min k p.length))
        { s with fd := { s.fd.next with written := s.fd.written ++ p.take k } } := by
  simp only [write, returns_bind, returns_answer, h, returns_modify, returns_pure, OpenFile.next]

lemma returns_read_fail {n : ℕ} (h : s.fd.answers 0 = .fail e) :
    Returns (read n) s Q ↔ Q (.error e) { s with fd := s.fd.next } := by
  simp only [read, returns_bind, returns_answer, h, returns_pure]

lemma returns_read_move {n k : ℕ} (h : s.fd.answers 0 = .move k) : Returns (read n) s Q ↔
      Q (.ok (s.fd.upcoming (min k n)))
        { s with fd := { s.fd.next with
          offset := s.fd.offset + (s.fd.upcoming (min k n)).length } } := by
  simp only [read, returns_bind, returns_answer, h, returns_get, returns_set, returns_pure]
  rfl

def Granted (fd : OpenFile) (d : ℤ) (whence : Whence) : Prop :=
  (∃ k, fd.answers 0 = .move k) ∧ 0 ≤ fd.target d whence

lemma returns_lseek_granted (h : Granted s.fd d whence) {Q : ℤ → Sys → Prop} :
    Returns (lseek d whence) s Q ↔ Q (s.fd.target d whence)
      { s with fd := { s.fd.next with offset := (s.fd.target d whence).toNat } } := by
  obtain ⟨⟨k, hk⟩, ht⟩ := h
  have hnext : OpenFile.target s.fd.next d whence = s.fd.target d whence := rfl
  simp only [lseek, returns_bind, returns_answer, hk, returns_get, hnext, if_neg (not_lt.2 ht),
    returns_set, returns_pure]

lemma returns_lseek_refused (h : ¬ Granted s.fd d whence) {Q : ℤ → Sys → Prop} :
    Returns (lseek d whence) s Q ↔ Q (-1) { s with fd := s.fd.next } := by
  simp only [lseek, returns_bind, returns_answer]
  cases hk : s.fd.answers 0 with
  | fail e => rw [returns_pure]
  | move k =>
    have hneg : OpenFile.target s.fd.next d whence < 0 := not_le.1 fun ht => h ⟨⟨k, hk⟩, ht⟩
    simp only [returns_bind, returns_get, if_pos hneg, returns_pure]

end

section
variable (C : Config)

/-- `__fxopen`, after the two allocations: `buf` is the memory that `malloc` returned. -/
def fxopen (buf : List UInt8) (filepos : ℤ) (isatty : Bool) : FILE where
  filepos := filepos
  buf := buf
  offset := IO_UNGET_SLOP
  bytes := 0
  bufsiz := C.BUFSIZ
  flags := { FileFlags.none with lineBuf := isatty }

/-- The streams there are: those of `fopen` and `fdopen`, and the three of `__init_stdio`. -/
inductive Opened (pos : ℤ) : FILE → Prop
  | fxopen {buf : List UInt8} (isatty : Bool) (h : buf.length = C.BUFSIZ + IO_UNGET_SLOP) :
      Opened pos (fxopen C buf pos isatty)
  | lineBuf {f : FILE} : Opened pos f →
      Opened pos { f with flags := { FileFlags.none with lineBuf := true } }
  | unbuf {f : FILE} : Opened pos f →
      Opened pos { f with flags := { FileFlags.none with unbuf := true } }

variable {C} in
lemma Opened.fields {pos : ℤ} {f : FILE} (h : Opened C pos f) :
    f.buf.length = C.BUFSIZ + IO_UNGET_SLOP ∧ f.bufsiz = C.BUFSIZ ∧ f.offset = IO_UNGET_SLOP ∧
      f.bytes = 0 ∧ f.filepos = pos ∧ ¬ f.flags.write := by
  induction h with
  | fxopen isatty h => exact ⟨h, rfl, rfl, rfl, rfl, nofun⟩
  | lineBuf _ ih => exact ⟨ih.1, ih.2.1, ih.2.2.1, ih.2.2.2.1, ih.2.2.2.2.1, nofun⟩
  | unbuf _ ih => exact ⟨ih.1, ih.2.1, ih.2.2.1, ih.2.2.2.1, ih.2.2.2.2.1, nofun⟩

/-! ### Output -/

/-- A turn of the loop of `fflush`, with what follows the loop; `p` is an offset in the buffer. -/
def drainTurn (p : ℤ) : Call (ℤ ⊕ ℤ) := do
  let f ← file
  if f.bytes = 0 then
    setFile { f with offset := IO_UNGET_SLOP, flags.write := false }
    return .inr 0
  else
    let data ← access (slice f.buf p f.bytes)
    match ← write data with
    | .error e =>
      if e.again then return .inl p
      else
        setFile { f with flags.err := true }
        return .inr EOF
    | .ok rv =>
      if rv = 0 then
        setFile { f with flags.eof := true }
        return .inr EOF
      else
        setFile { f with bytes := f.bytes - rv }
        return .inl (p + rv)

/-- The loop of `fflush`. -/
def drain (p : ℤ) : Call ℤ := Loop.run ⟨drainTurn⟩ p

/-- `fflush(f)`. -/
def fflush : Call ℤ := do
  let f ← file
  if ¬ f.flags.write then return 0 else drain 0

lemma returns_fflush_unmarked {s : Sys} (h : ¬ s.f.flags.write) {Q : ℤ → Sys → Prop} :
    Returns fflush s Q ↔ Q 0 s := by
  simp only [fflush, returns_bind, returns_file, if_pos h, returns_pure]

/-- The part of the loop of `fwrite_noflush` that fills the buffer: `nb`. -/
def fill (p : List UInt8) : Call ℕ := do
  let f ← file
  let nb := unsigned C.bits (f.bufsiz - f.bytes)
  let nb := if p.length < nb then p.length else nb
  if nb ≠ 0 then
    let buf ← access (overwrite f.buf f.bytes (p.take nb))
    setFile { f with
      buf := buf, bytes := f.bytes + nb, filepos := f.filepos + nb, flags.write := true }
  return nb

/-- A turn of the loop of `fwrite_noflush`, with `bytes` written before and those at `p` left. -/
def writeTurn : List UInt8 × ℕ → Call (List UInt8 × ℕ ⊕ ℕ)
  | (p, bytes) => do
    let nb ← fill C p
    if p.length - nb = 0 then return .inr (bytes + nb)
    else
      let err ← fflush
      if err ≠ 0 then return .inr (bytes + nb)
      else return .inl (p.drop nb, bytes + nb)

/-- `fwrite_noflush` for the bytes at `p`, with `bytes` written before. -/
def fwriteNoflush (p : List UInt8) (bytes : ℕ) : Call ℕ := Loop.run ⟨writeTurn C⟩ (p, bytes)

/-- `while (pf_len && p[pf_len-1] != '\n')`: what is left of `pf_len`. -/
def lineLen (p : List UInt8) : ℕ → ℕ
  | 0 => 0
  | pf_len + 1 => if p[pf_len]? ≠ some (chr '\n') then lineLen p pf_len else pf_len + 1

/-- `_fwrite`. -/
def fwrite (p : List UInt8) : Call ℕ := do
  let f ← file
  let pf_len := if f.flags.unbuf then 0 else if f.flags.lineBuf then lineLen p p.length else 0
  let pu_len := p.length - pf_len
  if pf_len ≠ 0 then
    let bytes ← fwriteNoflush C (p.take pf_len) 0
    let err ← fflush
    if err ≠ 0 ∨ bytes ≠ pf_len then return bytes
    else if pu_len ≠ 0 then fwriteNoflush C (p.drop bytes) bytes
    else return bytes
  else if pu_len ≠ 0 then fwriteNoflush C p 0
  else return 0

/-- `fputc`. -/
def fputc (c : ℤ) : Call ℤ := do
  let ch := (unsigned 8 c).toUInt8
  let n ← fwrite C [ch]
  return if n = 1 then ch.toNat else EOF

/-! ### Input -/

/-- The part of the loop of `_fread` that empties the buffer: the bytes it copies. -/
def empty (count : ℕ) : Call (List UInt8) := do
  let f ← file
  let nb := unsigned C.bits f.bytes
  let nb := if count < nb then count else nb
  if nb ≠ 0 then
    let data ← access (slice f.buf f.offset nb)
    setFile { f with
      offset := f.offset + nb, bytes := f.bytes - nb, filepos := f.filepos + nb,
      flags.read := if f.bytes - nb = 0 then false else f.flags.read }
    return data
  else return []

/-- The part of the loop of `_fread` that fills the buffer again: whether the loop goes on. -/
def refill : Call Bool := do
  let f ← file
  let f := { f with offset := IO_UNGET_SLOP }
  setFile f
  match ← read C.BUFSIZ with
  | .error e =>
    if e.again then return true
    else
      setFile { f with flags.err := true }
      return false
  | .ok bytes =>
    if bytes = [] then
      setFile { f with flags.eof := true }
      return false
    else
      let buf ← access (overwrite f.buf IO_UNGET_SLOP bytes)
      setFile { f with buf := buf, bytes := bytes.length, flags.read := true }
      return true

/-- A turn of the loop of `_fread`, with `out` read before and `count` bytes left. -/
def readTurn : ℕ × List UInt8 → Call (ℕ × List UInt8 ⊕ List UInt8)
  | (count, out) => do
    let data ← empty C count
    if count - data.length = 0 then return .inr (out ++ data)
    else
      let goOn ← refill C
      if goOn then return .inl (count - data.length, out ++ data)
      else return .inr (out ++ data)

/-- `_fread` of `count` bytes, with `out` read before. -/
def fread (count : ℕ) (out : List UInt8) : Call (List UInt8) := Loop.run ⟨readTurn C⟩ (count, out)

/-- `fgetc`. -/
def fgetc : Call ℤ := do
  let data ← fread C 1 []
  return match data with
    | [ch] => ch.toNat
    | _ => EOF

/-- `ungetc`. -/
def ungetc (c : ℤ) : Call ℤ := do
  let f ← file
  if f.flags.write ∨ f.offset ≤ 0 then return EOF
  else
    let buf ← access (overwrite f.buf (f.offset - 1) [(unsigned 8 c).toUInt8])
    setFile { f with
      buf := buf, offset := f.offset - 1, bytes := f.bytes + 1, flags.read := true }
    return c

/-- `fseek`. -/
def fseek (d : ℤ) (whence : Whence) : Call ℤ := do
  let _ ← fflush
  let rv ← lseek d whence
  if rv ≠ -1 then
    let f ← file
    setFile { f with filepos := rv, bytes := 0, flags.read := false }
    return 0
  else return -1

/-- `ftell`. -/
def ftell (f : FILE) : ℤ := f.filepos

end

end Klibc.Stdio.Stream
