import Klibc.Lib.Blit
import Klibc.Lib.Machine

/-! # `vsnprintf`

The formatter of `vsnprintf.c`: `format_int`, and the loop over the format string with its five
states. Variables of type `int` are integers that wrap at 32 bits (klibc is compiled with
`-fwrapv`), a `size_t` is a natural number modulo `2^bits`, and pointers into the buffer are offsets
from its start. The buffer is what was written to it so far.

The loop touches the buffer, `q` and `o` only through `EMIT`, through the call of `format_int` and
in `%n`. It is therefore written over a `Sink` with these three operations; `vsnprintf` is the loop
over the sink of the code, `Truncation.text` the same loop over a sink that collects the whole text.

The argument list is typed, and a string argument is the memory from its address on. There is no
result if an argument has not the type its conversion takes, or if a string is read past the end of
its memory. -/

namespace Klibc.Stdio.Vsnprintf

open Lib.Machine Lib.Blit

/-- The width of `size_t`, `long` and pointers. -/
structure Arch where
  bits : ℕ
  bits_eq : bits = 32 ∨ bits = 64

def arch64 : Arch := ⟨64, Or.inr rfl⟩

def INT_MAX : ℕ := 2 ^ 31 - 1

/-! ### Arguments and conversions -/

/-- `enum flags`. -/
structure Flags where
  zero : Bool
  minus : Bool
  plus : Bool
  tick : Bool
  space : Bool
  hash : Bool
  signed : Bool
  upper : Bool
  deriving DecidableEq

def Flags.none : Flags := ⟨false, false, false, false, false, false, false, false⟩

/-- `enum ranks`. -/
inductive Rank
  | char | short | int | long | longlong
  deriving DecidableEq

/-- `Canonicalize rank`. -/
def rankOf (rank : ℤ) : Rank :=
  if rank ≤ -2 then .char
  else if rank = -1 then .short
  else if rank = 0 then .int
  else if rank = 1 then .long
  else .longlong

inductive Arg (bits : ℕ)
  | int (v : BitVec 32)
  | long (v : BitVec bits)
  | longlong (v : BitVec 64)
  | pointer (v : BitVec bits)
  | str (mem : Option (List UInt8))
  | store (p : ℕ)

/-- The arguments of `format_int` beside the buffer. -/
structure IntSpec where
  val : BitVec 64
  flags : Flags
  base : ℕ
  width : ℤ
  prec : ℤ

/-! ### The buffer -/

/-- The buffer, `q` and `o`, and the values stored by `%n`. -/
structure Out where
  buf : ℤ → Option UInt8
  q : ℤ
  o : ℕ
  stores : List (ℕ × Rank × ℕ)

/-- The bytes of the source's character constants. -/
def chr (c : Char) : UInt8 := c.toNat.toUInt8

section
variable (bits : ℕ)

/-- `EMIT(x)`. -/
def emit (n : ℕ) (x : UInt8) (s : Out) : Out :=
  let s := if s.o < n then { s with buf := Function.update s.buf s.q (some x), q := s.q + 1 } else s
  { s with o := (s.o + 1) % 2 ^ bits }

/-! ### `format_int` -/

/-- `Count the number of digits needed.` A value of 64 bits has at most 64 digits. -/
def countDigits (base : ℕ) : ℕ → ℕ → ℤ
  | 0, _ => 0
  | fuel + 1, tmpval => if tmpval = 0 then 0 else countDigits base fuel (tmpval / base) + 1

def digitChar (upper : Bool) (d : ℕ) : UInt8 :=
  if d < 10 then (48 + d).toUInt8 else if upper then (55 + d).toUInt8 else (87 + d).toUInt8

/-- The sign is a minus: `flags & FL_SIGNED && (intmax_t) val < 0`. -/
def IntSpec.minus (p : IntSpec) : Bool := p.flags.signed && p.val.msb

/-- `val` without its sign. -/
def IntSpec.magnitude (p : IntSpec) : ℕ := if p.minus then (-p.val).toNat else p.val.toNat

/-- `ndigits` before the tick marks are added. -/
def IntSpec.ndigits (p : IntSpec) : ℤ :=
  let ndigits := countDigits p.base 64 p.magnitude
  let prec := if p.flags.hash ∧ p.base = 8 ∧ p.prec < ndigits + 1 then ndigits + 1 else p.prec
  if ndigits < prec then prec else if p.magnitude = 0 then 1 else ndigits

/-- `tickskip`. -/
def IntSpec.tickskip (p : IntSpec) : ℤ :=
  if p.flags.tick then (if p.base = 16 then 4 else 3) else p.ndigits

def IntSpec.nondigits (p : IntSpec) : List UInt8 :=
  (if p.minus then [chr '-'] else if p.flags.plus then [chr '+']
    else if p.flags.space then [chr ' '] else []) ++
  (if p.flags.hash ∧ p.base = 16 then [chr '0', if p.flags.upper then chr 'X' else chr 'x'] else [])

/-- `nchars`, from `ndigits` with its tick marks. -/
def IntSpec.nchars (p : IntSpec) (ndigits : ℤ) : ℤ :=
  let nchars := if p.minus ∨ p.flags.plus ∨ p.flags.space then wrap 32 (ndigits + 1) else ndigits
  if p.flags.hash ∧ p.base = 16 then wrap 32 (nchars + 2) else nchars

structure Gen where
  buf : ℤ → Option UInt8
  qq : ℤ
  oo : ℕ
  ndigits : ℤ
  b4tick : ℤ
  val : ℕ

/-- `qq--; oo--; ndigits--; if (oo < n) *qq = x;`. -/
def Gen.put (n : ℕ) (x : UInt8) (g : Gen) : Gen :=
  let oo := unsigned bits (g.oo - 1)
  { g with
    qq := g.qq - 1
    oo := oo
    ndigits := g.ndigits - 1
    buf := if oo < n then Function.update g.buf (g.qq - 1) (some x) else g.buf }

/-- `Generate the number.  This is done from right to left.` Every turn takes at least one from
`ndigits`. -/
def generate (n : ℕ) (p : IntSpec) : ℕ → Gen → Gen
  | 0, g => g
  | fuel + 1, g =>
    if g.ndigits > 0 then
      let g := if g.b4tick = 0 then { g.put bits n (chr '_') with b4tick := p.tickskip - 1 }
        else { g with b4tick := g.b4tick - 1 }
      let g := g.put bits n (digitChar p.flags.upper (g.val % p.base))
      generate n p fuel { g with val := g.val / p.base }
    else g

/-- `format_int(q, n, …)`: the buffer after it, and `o`. -/
def formatInt (buf : ℤ → Option UInt8) (q : ℤ) (n : ℕ) (p : IntSpec) : (ℤ → Option UInt8) × ℕ :=
  let ndigits := wrap 32 (p.ndigits + (p.ndigits - 1).tdiv p.tickskip)
  let nchars := p.nchars ndigits
  -- each padding loop runs while `width > nchars`, and takes one from `width`
  let pad := (p.width - nchars).toNat
  let s : Out := ⟨buf, q, 0, []⟩
  let s := if ¬ (p.flags.minus ∨ p.flags.zero) then (emit bits n (chr ' '))^[pad] s else s
  let s := p.nondigits.foldl (fun s x => emit bits n x s) s
  let s := if (p.flags.zero ∧ ¬ p.flags.minus) ∧ p.width > ndigits then
    (emit bits n (chr '0'))^[pad] s else s
  let s := { s with q := s.q + ndigits, o := unsigned bits (s.o + ndigits) }
  let g := generate bits n p ndigits.toNat ⟨s.buf, s.q, s.o, ndigits, p.tickskip, p.magnitude⟩
  let s := { s with buf := g.buf }
  let s := if p.flags.minus then (emit bits n (chr ' '))^[pad] s else s
  (s.buf, s.o)

end

/-! ### The loop over the format string -/

structure Sink (σ : Type) where
  emit : UInt8 → σ → σ
  int : IntSpec → σ → σ
  store : ℕ → Rank → σ → σ

/-- The output of the code, into a buffer of `n` bytes. -/
def bufferSink (bits n : ℕ) : Sink Out where
  emit := Vsnprintf.emit bits n
  int p s :=
    let r := formatInt bits s.buf s.q (if s.o < n then n - s.o else 0) p
    { s with buf := r.1, q := s.q + r.2, o := (s.o + r.2) % 2 ^ bits }
  store p rank s := { s with stores := s.stores ++ [(p, rank, s.o)] }

inductive St
  | normal | flags | width | prec | modifiers
  deriving DecidableEq

/-- The variables of the loop beside the output, and the arguments left. -/
structure Parse (bits : ℕ) where
  state : St
  flags : Flags
  rank : ℤ
  width : ℤ
  prec : ℤ
  args : List (Arg bits)

/-- The cases of the `switch (ch)` in `st_modifiers`. -/
inductive ModChar
  | h | l | j | z | t | L | P | p | d | o | u | X | x | c | s | n | other
  deriving DecidableEq

def modChar (ch : UInt8) : ModChar :=
  if ch = chr 'h' then .h else if ch = chr 'l' then .l else if ch = chr 'j' then .j
  else if ch = chr 'z' then .z else if ch = chr 't' then .t
  else if ch = chr 'L' ∨ ch = chr 'q' then .L else if ch = chr 'P' then .P
  else if ch = chr 'p' then .p else if ch = chr 'd' ∨ ch = chr 'i' then .d
  else if ch = chr 'o' then .o else if ch = chr 'u' then .u else if ch = chr 'X' then .X
  else if ch = chr 'x' then .x else if ch = chr 'c' then .c else if ch = chr 's' then .s
  else if ch = chr 'n' then .n else .other

section
variable {bits : ℕ}

/-- `va_arg(ap, int)`. -/
def takeInt : List (Arg bits) → Option (BitVec 32 × List (Arg bits))
  | .int v :: ap => some (v, ap)
  | _ => none

def takeSigned (rank : Rank) (ap : List (Arg bits)) : Option (BitVec 64 × List (Arg bits)) :=
  match rank, ap with
  | .char, .int v :: ap => some ((v.setWidth 8).signExtend 64, ap)
  | .short, .int v :: ap => some ((v.setWidth 16).signExtend 64, ap)
  | .int, .int v :: ap => some (v.signExtend 64, ap)
  | .long, .long v :: ap => some (v.signExtend 64, ap)
  | .longlong, .longlong v :: ap => some (v, ap)
  | _, _ => none

def takeUnsigned (rank : Rank) (ap : List (Arg bits)) : Option (BitVec 64 × List (Arg bits)) :=
  match rank, ap with
  | .char, .int v :: ap => some ((v.setWidth 8).setWidth 64, ap)
  | .short, .int v :: ap => some ((v.setWidth 16).setWidth 64, ap)
  | .int, .int v :: ap => some (v.setWidth 64, ap)
  | .long, .long v :: ap => some (v.setWidth 64, ap)
  | .longlong, .longlong v :: ap => some (v, ap)
  | _, _ => none

/-- `va_arg(ap, void *)`. -/
def takePointer : List (Arg bits) → Option (BitVec 64 × List (Arg bits))
  | .pointer v :: ap => some (v.setWidth 64, ap)
  | _ => none

/-- `"(null)"`. -/
def nullStr : List UInt8 := [40, 110, 117, 108, 108, 41, 0]

/-- `va_arg(ap, const char *)`, with `"(null)"` for a null pointer. -/
def takeStr : List (Arg bits) → Option (List UInt8 × List (Arg bits))
  | .str mem :: ap => some (mem.getD nullStr, ap)
  | _ => none

/-- The pointer `%n` stores to. -/
def takeStore : List (Arg bits) → Option (ℕ × List (Arg bits))
  | .store p :: ap => some (p, ap)
  | _ => none

end

/-- `strlen` of the memory at an address. -/
def strlen (mem : List UInt8) : Option ℕ := mem.findIdx? (· == 0)

section
variable {bits : ℕ} {σ : Type} (K : Sink σ)

/-- `for (i = slen; i; i--) { sch = *sarg++; EMIT(sch); }`. -/
def emitStr : ℕ → List UInt8 → σ → Option σ
  | 0, _, s => some s
  | _ + 1, [], _ => none
  | k + 1, sch :: sarg, s => emitStr k sarg (K.emit sch s)

/-- `is_string`. -/
def isString (flags : Flags) (width prec : ℤ) (sarg : List UInt8) (slen : ℤ) (s : σ) : Option σ :=
  let slen := if prec ≠ -1 ∧ slen > prec then prec else slen
  let pad := (width - slen).toNat
  let s := if ¬ flags.minus then (K.emit (if flags.zero then chr '0' else chr ' '))^[pad] s else s
  -- `i` counts down from `slen` to 0 modulo `2^32`
  match emitStr K (unsigned 32 slen) sarg s with
  | none => none
  | some s => some (if flags.minus then (K.emit (chr ' '))^[pad] s else s)

/-- `is_integer`, after `val` was taken from the arguments. -/
def isInteger (p : Parse bits) (flags : Flags) (base : ℕ) (prec : ℤ)
    (v : Option (BitVec 64 × List (Arg bits))) (s : σ) : Option (Parse bits × σ) :=
  v.map fun (val, args) => ({ p with args := args }, K.int ⟨val, flags, base, p.width, prec⟩ s)

/-- The terminal sequences of `st_modifiers`. -/
def convert (ch : UInt8) (p : Parse bits) (s : σ) : Option (Parse bits × σ) :=
  let p := { p with state := .normal }
  let rank := rankOf p.rank
  let upper := { p.flags with upper := true }
  match modChar ch with
  | .P => isInteger K p { upper with hash := true } 16 ((bits + 3) / 4) (takePointer p.args) s
  | .p => isInteger K p { p.flags with hash := true } 16 ((bits + 3) / 4) (takePointer p.args) s
  | .d => isInteger K p { p.flags with signed := true } 10 p.prec (takeSigned rank p.args) s
  | .o => isInteger K p p.flags 8 p.prec (takeUnsigned rank p.args) s
  | .u => isInteger K p p.flags 10 p.prec (takeUnsigned rank p.args) s
  | .X => isInteger K p upper 16 p.prec (takeUnsigned rank p.args) s
  | .x => isInteger K p p.flags 16 p.prec (takeUnsigned rank p.args) s
  | .c => do
    let (carg, args) ← takeInt p.args
    let s ← isString K p.flags p.width p.prec [(carg.setWidth 8).toNat.toUInt8] 1 s
    some ({ p with args := args }, s)
  | .s => do
    let (sarg, args) ← takeStr p.args
    let slen ← strlen sarg
    let s ← isString K p.flags p.width p.prec sarg (wrap 32 slen) s
    some ({ p with args := args }, s)
  | .n => do
    let (ptr, args) ← takeStore p.args
    some ({ p with args := args }, K.store ptr rank s)
  | _ => some (p, K.emit ch s)

/-- `st_modifiers`. -/
def stepModifiers (ch : UInt8) (p : Parse bits) (s : σ) : Option (Parse bits × σ) :=
  match modChar ch with
  | .h => some ({ p with rank := wrap 32 (p.rank - 1) }, s)
  | .l => some ({ p with rank := wrap 32 (p.rank + 1) }, s)
  | .j => some ({ p with rank := 2 }, s)
  | .z => some ({ p with rank := 1 }, s)
  | .t => some ({ p with rank := 1 }, s)
  | .L => some ({ p with rank := wrap 32 (p.rank + 2) }, s)
  | _ => convert K ch p s

/-- `ch >= '0' && ch <= '9'`. -/
def isDigit (ch : UInt8) : Bool := chr '0' ≤ ch && ch ≤ chr '9'

/-- `st_prec`. -/
def stepPrec (ch : UInt8) (p : Parse bits) (s : σ) : Option (Parse bits × σ) :=
  if isDigit ch then some ({ p with prec := wrap 32 (p.prec * 10 + (ch.toNat - 48)) }, s)
  else if ch = chr '*' then do
    let (v, args) ← takeInt p.args
    some ({ p with prec := if v.toInt < 0 then -1 else v.toInt, args := args }, s)
  else stepModifiers K ch { p with state := .modifiers } s

/-- `st_width`. -/
def stepWidth (ch : UInt8) (p : Parse bits) (s : σ) : Option (Parse bits × σ) :=
  if isDigit ch then some ({ p with width := wrap 32 (p.width * 10 + (ch.toNat - 48)) }, s)
  else if ch = chr '*' then do
    let (v, args) ← takeInt p.args
    if v.toInt < 0 then
      some ({ p with width := wrap 32 (-v.toInt), flags.minus := true, args := args }, s)
    else some ({ p with width := v.toInt, args := args }, s)
  else if ch = chr '.' then some ({ p with prec := 0, state := .prec }, s)
  else stepModifiers K ch { p with state := .modifiers } s

/-- `st_flags`. -/
def stepFlags (ch : UInt8) (p : Parse bits) (s : σ) : Option (Parse bits × σ) :=
  if ch = chr '-' then some ({ p with flags.minus := true }, s)
  else if ch = chr '+' then some ({ p with flags.plus := true }, s)
  else if ch = chr '\'' then some ({ p with flags.tick := true }, s)
  else if ch = chr ' ' then some ({ p with flags.space := true }, s)
  else if ch = chr '#' then some ({ p with flags.hash := true }, s)
  else if ch = chr '0' then some ({ p with flags.zero := true }, s)
  else stepWidth K ch { p with state := .width } s

/-- One character of the format. Where the code takes one back (`p--`), the next state gets it at
once. -/
def step (ch : UInt8) (p : Parse bits) (s : σ) : Option (Parse bits × σ) :=
  match p.state with
  | .normal =>
    if ch = chr '%' then
      some ({ p with state := .flags, flags := .none, rank := 0, width := 0, prec := -1 }, s)
    else some (p, K.emit ch s)
  | .flags => stepFlags K ch p s
  | .width => stepWidth K ch p s
  | .prec => stepPrec K ch p s
  | .modifiers => stepModifiers K ch p s

/-- `while ((ch = *p++))`. -/
def loop : List UInt8 → Parse bits → σ → Option σ
  | [], _, s => some s
  | ch :: format, p, s =>
    if ch = 0 then some s
    else do
      let (p, s) ← step K ch p s
      loop format p s

lemma loop_cons {ch : UInt8} (hch : ch ≠ 0) (format : List UInt8) {p p' : Parse bits} {s s' : σ}
    (hstep : step K ch p s = some (p', s')) : loop K (ch :: format) p s = loop K format p' s' := by
  rw [loop, if_neg hch, hstep]
  rfl

/-- The loop from the start, over a sink in its first state. -/
def run (format : List UInt8) (args : List (Arg bits)) (s : σ) : Option σ :=
  loop K format ⟨.normal, .none, 0, 0, -1, args⟩ s

end

structure Result where
  ret : ℤ
  buf : ℤ → Option UInt8
  stores : List (ℕ × Rank × ℕ)

/-- `vsnprintf(buffer, n, format, ap)`. -/
def vsnprintf (arch : Arch) (n : ℕ) (format : List UInt8) (ap : List (Arg arch.bits)) :
    Option Result := do
  let s ← run (bufferSink arch.bits n) format ap ⟨fun _ => none, 0, 0, []⟩
  let buf := if s.o < n then Function.update s.buf s.q (some 0)
    else if n > 0 then Function.update s.buf (n - 1) (some 0) else s.buf
  some ⟨wrap 32 s.o, buf, s.stores⟩

end Klibc.Stdio.Vsnprintf
