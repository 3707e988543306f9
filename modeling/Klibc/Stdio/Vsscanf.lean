import Klibc.Stdio.Vsnprintf

/-! # `vsscanf`

`strntoumax` and the scanner of `vsscanf.c`, with the seven states of its loop. A pointer into the
buffer is the memory from its address on, and there is no result if that is read past its end. The
arguments are addresses. What is stored through them is recorded in order. `int` variables wrap at
32 bits. -/

namespace Klibc.Stdio.Vsscanf

open Lib.Machine Vsnprintf

/-! ### `strntoumax` -/

/-- `isspace`, from the table of `ctypes.c`. -/
def isspace (c : UInt8) : Bool := (8 ≤ c && c ≤ 13) || c == 32 || c == 160

def digitval (ch : UInt8) : ℤ :=
  if chr '0' ≤ ch ∧ ch ≤ chr '9' then (ch.toNat : ℤ) - 48
  else if chr 'A' ≤ ch ∧ ch ≤ chr 'Z' then (ch.toNat : ℤ) - 65 + 10
  else if chr 'a' ≤ ch ∧ ch ≤ chr 'z' then (ch.toNat : ℤ) - 97 + 10
  else -1

/-- `while (n && isspace((unsigned char)*nptr))`. -/
def skipSpaces : List UInt8 → ℕ → Option (List UInt8 × ℕ)
  | nptr, 0 => some (nptr, 0)
  | [], _ + 1 => none
  | c :: nptr, n + 1 => if isspace c then skipSpaces nptr n else some (c :: nptr, n + 1)

/-- `Single optional + or -`: `minus`, and what is left. -/
def takeSign (nptr : List UInt8) (n : ℕ) : Option (Bool × List UInt8 × ℕ) :=
  if n ≠ 0 then do
    let c ← nptr.head?
    if c = chr '-' ∨ c = chr '+' then some (c = chr '-', nptr.tail, n - 1)
    else some (false, nptr, n)
  else some (false, nptr, n)

/-- `n >= 2 && nptr[0] == '0' && (nptr[1] == 'x' || nptr[1] == 'X')`. -/
def hexPrefixed (nptr : List UInt8) (n : ℕ) : Option Bool :=
  if n ≥ 2 then do
    let c ← nptr.head?
    if c = chr '0' then do
      let c' ← nptr.tail.head?
      some (c' = chr 'x' ∨ c' = chr 'X')
    else some false
  else some false

/-- `n >= 1 && nptr[0] == '0'`. -/
def zeroPrefixed (nptr : List UInt8) (n : ℕ) : Option Bool :=
  if n ≥ 1 then nptr.head?.map (· == chr '0') else some false

def takeBase (nptr : List UInt8) (base : ℤ) (n : ℕ) : Option (ℤ × List UInt8 × ℕ) :=
  if base = 0 then do
    if ← hexPrefixed nptr n then some (16, nptr.drop 2, n - 2)
    else if ← zeroPrefixed nptr n then some (8, nptr.tail, n - 1)
    else some (10, nptr, n)
  else if base = 16 then do
    if ← hexPrefixed nptr n then some (16, nptr.drop 2, n - 2) else some (16, nptr, n)
  else some (base, nptr, n)

/-- `while (n && (d = digitval(*nptr)) >= 0 && d < base)`. -/
def takeDigits (base : ℤ) : List UInt8 → ℕ → BitVec 64 → Option (BitVec 64 × List UInt8)
  | nptr, 0, v => some (v, nptr)
  | [], _ + 1, _ => none
  | c :: nptr, n + 1, v =>
    if digitval c ≥ 0 ∧ digitval c < base then
      takeDigits base nptr n (v * BitVec.ofInt 64 base + BitVec.ofInt 64 (digitval c))
    else some (v, c :: nptr)

/-- `strntoumax`: the value and `*endptr`. -/
def strntoumax (nptr : List UInt8) (base : ℤ) (n : ℕ) : Option (BitVec 64 × List UInt8) := do
  let (nptr, n) ← skipSpaces nptr n
  let (minus, nptr, n) ← takeSign nptr n
  let (base, nptr, n) ← takeBase nptr base n
  let (v, nptr) ← takeDigits base nptr n 0
  some (if minus then -v else v, nptr)

/-! ### The variables of the loop -/

inductive Val (bits : ℕ)
  | char (v : BitVec 8)
  | short (v : BitVec 16)
  | int (v : BitVec 32)
  | long (v : BitVec bits)
  | longlong (v : BitVec 64)
  deriving DecidableEq

inductive Stored (bits : ℕ)
  | int (v : Val bits)
  | pointer (v : BitVec bits)
  | bytes (l : List UInt8)
  deriving DecidableEq

/-- The conversion of `val` to the type of the rank. -/
def Val.ofRank {bits : ℕ} (val : BitVec 64) : Rank → Val bits
  | .char => .char (val.setWidth 8)
  | .short => .short (val.setWidth 16)
  | .int => .int (val.setWidth 32)
  | .long => .long (val.setWidth bits)
  | .longlong => .longlong val

/-- `enum bail`. -/
inductive Bail
  | none | eof | err
  deriving DecidableEq

inductive St
  | normal | flags | width | modifiers | matchInit | matching | matchRange
  deriving DecidableEq

/-- `UINT_MAX`. -/
def UINT_MAX : ℕ := 2 ^ 32 - 1

structure Scan (bits : ℕ) where
  state : St
  splat : Bool
  inv : Bool
  hasWidth : Bool
  rank : ℤ
  width : ℕ
  q : List UInt8
  ap : List ℕ
  sarg : Option ℕ
  bail : Bail
  converted : ℤ
  matchmap : UInt8 → Bool
  matchinv : Bool
  rangeStart : UInt8
  stores : List (ℕ × Stored bits)

def Scan.init (bits : ℕ) (buffer : List UInt8) (ap : List ℕ) : Scan bits where
  state := .normal
  splat := false
  inv := false
  hasWidth := false
  rank := 0
  width := UINT_MAX
  q := buffer
  ap := ap
  sarg := Option.none
  bail := .none
  converted := 0
  matchmap _ := false
  matchinv := false
  rangeStart := 0
  stores := []

section
variable {bits : ℕ}

/-- `while (isspace((unsigned char)*p)) p++;`. -/
def skipspace : List UInt8 → Option (List UInt8)
  | [] => none
  | c :: p => if isspace c then skipspace p else some (c :: p)

/-- `converted++`. -/
def Scan.count (s : Scan bits) : Scan bits := { s with converted := wrap 32 (s.converted + 1) }

/-- `va_arg(ap, …)`. -/
def Scan.arg (s : Scan bits) : Option (ℕ × Scan bits) :=
  match s.ap with
  | [] => none
  | p :: ap => some (p, { s with ap := ap })

def Scan.store (s : Scan bits) (p : ℕ) (v : Stored bits) : Scan bits :=
  { s with stores := s.stores ++ [(p, v)] }

/-! ### The conversions -/

/-- `set_integer`. -/
def setInteger (conv : BitVec 64 → Stored bits) (val : BitVec 64) (s : Scan bits) :
    Option (Scan bits) :=
  if ¬ s.splat then do
    let (p, s) ← s.arg
    some (s.store p (conv val))
  else some s

/-- `scan_int`. -/
def scanInt (base : ℤ) (conv : BitVec 64 → Stored bits) (s : Scan bits) : Option (Scan bits) := do
  let q ← skipspace s.q
  let c ← q.head?
  if c = 0 then some { s with q := q, bail := .eof }
  else do
    let (val, qq) ← strntoumax q base s.width
    if qq = q then some { s with q := q, bail := .err }
    else
      let s := { s with q := qq }
      setInteger conv val (if ¬ s.splat then s.count else s)

/-- `%*c`: the loop does not move `q`. Is the end of the buffer hit? -/
def splatChars : ℕ → List UInt8 → Option Bool
  | 0, _ => some false
  | width + 1, q => do
    let c ← q.head?
    if c = 0 then some true else splatChars width q

/-- `%c`: what is stored, what is left, and whether the end of the buffer was hit. -/
def takeChars : ℕ → List UInt8 → Option (List UInt8 × List UInt8 × Bool)
  | 0, q => some ([], q, false)
  | _ + 1, [] => none
  | width + 1, c :: q =>
    if c = 0 then some ([], c :: q, true)
    else (takeChars width q).map fun (l, r) => (c :: l, r)

def scanChar (s : Scan bits) : Option (Scan bits) :=
  let width := if s.hasWidth then s.width else 1
  if s.splat then do
    let eof ← splatChars width s.q
    some (if eof then { s with bail := .eof } else s)
  else do
    let (p, s) ← s.arg
    let (l, q, eof) ← takeChars width s.q
    let s := { s.store p (.bytes l) with q := q }
    some (if eof then { s with bail := .eof } else s.count)

/-- `%s`: what is stored, what is left, and whether the end of the buffer was hit. -/
def takeWord : ℕ → List UInt8 → Option (List UInt8 × List UInt8 × Bool)
  | 0, q => some ([], q, false)
  | _ + 1, [] => none
  | width + 1, uc :: q =>
    if uc = 0 then some ([], uc :: q, true)
    else if isspace uc then some ([], uc :: q, false)
    else (takeWord width q).map fun (l, r) => (uc :: l, r)

def scanStr (s : Scan bits) : Option (Scan bits) :=
  if s.splat then do
    let (_, q, eof) ← takeWord s.width s.q
    some { s with q := q, bail := if eof then .eof else s.bail }
  else do
    let (p, s) ← s.arg
    let (l, q, eof) ← takeWord s.width s.q
    let s := if l ≠ [] then (s.store p (.bytes (l ++ [0]))).count else s
    some { s with q := q, bail := if eof then .eof else s.bail }

/-- `%[`. -/
def scanSet (s : Scan bits) : Option (Scan bits) :=
  let s := { s with state := .matchInit, matchinv := false, matchmap := fun _ => false }
  if s.splat then some { s with sarg := none }
  else do
    let (p, s) ← s.arg
    some { s with sarg := some p }

/-- `%%`. -/
def scanPercent (s : Scan bits) : Option (Scan bits) := do
  let c ← s.q.head?
  some (if c = chr '%' then { s with q := s.q.tail } else { s with bail := .err })

/-- The terminal sequences of `st_modifiers`. -/
def convert (buffer : List UInt8) (ch : UInt8) (s : Scan bits) : Option (Scan bits) :=
  let s := { s with state := .normal }
  let conv := fun val => Stored.int (Val.ofRank val (rankOf s.rank))
  if ch = chr 'P' ∨ ch = chr 'p' then scanInt 0 (fun val => .pointer (val.setWidth bits)) s
  else if ch = chr 'i' then scanInt 0 conv s
  else if ch = chr 'd' then scanInt 10 conv s
  else if ch = chr 'o' then scanInt 8 conv s
  else if ch = chr 'u' then scanInt 10 conv s
  else if ch = chr 'x' ∨ ch = chr 'X' then scanInt 16 conv s
  else if ch = chr 'n' then setInteger conv (BitVec.ofNat 64 (buffer.length - s.q.length)) s
  else if ch = chr 'c' then scanChar s
  else if ch = chr 's' then scanStr s
  else if ch = chr '[' then scanSet s
  else if ch = chr '%' then scanPercent s
  else some { s with bail := .err }

/-! ### The loop -/

/-- `st_modifiers`. -/
def stepModifiers (buffer : List UInt8) (ch : UInt8) (s : Scan bits) : Option (Scan bits) :=
  if ch = chr 'h' then some { s with rank := wrap 32 (s.rank - 1) }
  else if ch = chr 'l' then some { s with rank := wrap 32 (s.rank + 1) }
  else if ch = chr 'j' then some { s with rank := 2 }
  else if ch = chr 'z' then some { s with rank := 1 }
  else if ch = chr 't' then some { s with rank := 1 }
  else if ch = chr 'L' ∨ ch = chr 'q' then some { s with rank := 2 }
  else convert buffer ch s

/-- `st_width`. -/
def stepWidth (buffer : List UInt8) (ch : UInt8) (s : Scan bits) : Option (Scan bits) :=
  if isDigit ch then some { s with width := (s.width * 10 + (ch.toNat - 48)) % 2 ^ 32 }
  else stepModifiers buffer ch { s with state := .modifiers }

/-- `st_flags`. -/
def stepFlags (buffer : List UInt8) (ch : UInt8) (s : Scan bits) : Option (Scan bits) :=
  if ch = chr '*' then some { s with splat := true }
  else if isDigit ch then
    some { s with width := ch.toNat - 48, state := .width, hasWidth := true }
  else stepModifiers buffer ch { s with state := .modifiers }

/-- `st_normal`. -/
def stepNormal (ch : UInt8) (s : Scan bits) : Option (Scan bits) :=
  if ch = chr '%' then
    some { s with
      state := .flags
      splat := false
      inv := false
      hasWidth := false
      rank := 0
      width := UINT_MAX }
  else if isspace ch then do
    let q ← skipspace s.q
    some { s with q := q }
  else do
    let c ← s.q.head?
    some (if c = ch then { s with q := s.q.tail } else { s with bail := .err })

/-- The loop of `match_run`: what matches, what is left, and whether the end of the buffer was
hit. -/
def takeMatch (hit : UInt8 → Bool) : List UInt8 → Option (List UInt8 × List UInt8 × Bool)
  | [] => none
  | uc :: q =>
    if uc = 0 then some ([], uc :: q, true)
    else if hit uc then (takeMatch hit q).map fun (l, r) => (uc :: l, r)
    else some ([], uc :: q, false)

/-- `match_run`. It leaves `state` as it is, and does not count `width` down. -/
def matchRun (s : Scan bits) : Option (Scan bits) := do
  let (l, q, eof) ← if s.width ≠ 0 then takeMatch (fun uc => s.matchmap uc ^^ s.matchinv) s.q
    else some ([], s.q, false)
  let s' := { s with q := q }
  let s' := match s.sarg with
    | some a =>
      if l ≠ [] then { (s'.store a (.bytes (l ++ [0]))).count with sarg := some (a + l.length) }
      else { s' with bail := .err }
    | none => { s' with bail := .err }
  some (if eof then { s' with bail := .eof } else s')

def Scan.setBit (s : Scan bits) (bit : UInt8) : Scan bits :=
  { s with matchmap := Function.update s.matchmap bit true }

/-- `st_match_init`. -/
def stepMatchInit (ch : UInt8) (s : Scan bits) : Option (Scan bits) :=
  if ch = chr '^' ∧ ¬ s.inv then some { s with matchinv := true }
  else some { s.setBit ch with state := .matching }

/-- `st_match`. -/
def stepMatch (ch : UInt8) (s : Scan bits) : Option (Scan bits) :=
  if ch = chr ']' then matchRun s
  else if ch = chr '-' then some { s with rangeStart := ch, state := .matchRange }
  else some (s.setBit ch)

/-- `st_match_range`. -/
def stepMatchRange (ch : UInt8) (s : Scan bits) : Option (Scan bits) :=
  if ch = chr ']' then matchRun (s.setBit (chr '-'))
  else
    some { s with
      matchmap := fun i => s.matchmap i || (s.rangeStart ≤ i && i < ch)
      state := .matching }

/-- One character of the format. Where the code takes one back (`p--`), the next state gets it at
once. -/
def step (buffer : List UInt8) (ch : UInt8) (s : Scan bits) : Option (Scan bits) :=
  match s.state with
  | .normal => stepNormal ch s
  | .flags => stepFlags buffer ch s
  | .width => stepWidth buffer ch s
  | .modifiers => stepModifiers buffer ch s
  | .matchInit => stepMatchInit ch s
  | .matching => stepMatch ch s
  | .matchRange => stepMatchRange ch s

/-- `while ((ch = *p++) && !bail)`. -/
def loop (buffer : List UInt8) : List UInt8 → Scan bits → Option (Scan bits)
  | [], s => some s
  | ch :: format, s =>
    if ch = 0 ∨ s.bail ≠ .none then some s
    else do
      let s ← step buffer ch s
      loop buffer format s

end

structure Result (bits : ℕ) where
  ret : ℤ
  stores : List (ℕ × Stored bits)
  deriving DecidableEq

/-- `vsscanf(buffer, format, ap)`. -/
def vsscanf (arch : Arch) (buffer format : List UInt8) (ap : List ℕ) :
    Option (Result arch.bits) := do
  let s ← loop buffer format (Scan.init arch.bits buffer ap)
  some ⟨if s.bail = .eof ∧ s.converted = 0 then -1 else s.converted, s.stores⟩

end Klibc.Stdio.Vsscanf
