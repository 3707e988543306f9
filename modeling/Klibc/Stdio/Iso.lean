import Klibc.Stdio.Digits

/-! # The text that ISO C prescribes

The directives of a format, with their arguments and the text that ISO C prescribes for them. What
ISO C leaves undefined cannot be built: a `#` with a conversion that has no alternative form, a `0`
with `c` or `s`, a precision with `c`, a length modifier with `c` or `s` (there are no wide
characters here), a `%%` with anything between its two characters, and a string argument that does
not have the bytes that are to be written. -/

namespace Klibc.Stdio.Iso

open Vsnprintf Digits

/-! ### The parts of a conversion specification -/

inductive Flag
  | minus | plus | space | hash | zero
  deriving DecidableEq

def Flag.char : Flag → UInt8
  | .minus => chr '-'
  | .plus => chr '+'
  | .space => chr ' '
  | .hash => chr '#'
  | .zero => chr '0'

instance neZero_ten : NeZero 10 := ⟨by decide⟩

def decimal (ds : List (Fin 10)) : ℕ := horner 10 (ds.map Fin.val)

def digitsFormat (ds : List (Fin 10)) : List UInt8 :=
  ds.map fun (d : Fin 10) => digitChar false d.val

/-- The field width: digits of which the first is not 0, possibly none, or an argument. -/
inductive Width
  | digits (ds : List (Fin 10)) (first : ds.head? ≠ some 0)
  | star (v : BitVec 32)

lemma no_digits : ([] : List (Fin 10)).head? ≠ some 0 := by simp

def Width.omitted : Width := .digits [] no_digits

def Width.format : Width → List UInt8
  | .digits ds _ => digitsFormat ds
  | .star _ => [chr '*']

def Width.value : Width → ℕ
  | .digits ds _ => decimal ds
  | .star v => v.toInt.natAbs

/-- A negative width is a `-` flag and a positive width. -/
def Width.left : Width → Bool
  | .digits _ _ => false
  | .star v => v.toInt < 0

/-- The precision: none, digits after a period, or an argument. -/
inductive Prec
  | none
  | digits (ds : List (Fin 10))
  | star (v : BitVec 32)

def Prec.format : Prec → List UInt8
  | .none => []
  | .digits ds => chr '.' :: digitsFormat ds
  | .star _ => [chr '.', chr '*']

def Prec.value : Prec → Option ℕ
  | .none => Option.none
  | .digits ds => some (decimal ds)
  | .star v => if v.toInt < 0 then Option.none else some v.toInt.toNat

inductive Modifier
  | none | hh | h | l | ll | j | z | t
  deriving DecidableEq

def Modifier.format : Modifier → List UInt8
  | .none => []
  | .hh => [chr 'h', chr 'h']
  | .h => [chr 'h']
  | .l => [chr 'l']
  | .ll => [chr 'l', chr 'l']
  | .j => [chr 'j']
  | .z => [chr 'z']
  | .t => [chr 't']

def Modifier.argWidth (bits : ℕ) : Modifier → ℕ
  | .none | .hh | .h => 32
  | .l | .z | .t => bits
  | .ll | .j => 64

def Modifier.width (bits : ℕ) : Modifier → ℕ
  | .hh => 8
  | .h => 16
  | .none => 32
  | .l | .z | .t => bits
  | .ll | .j => 64

inductive IntConv
  | d | i | o | u | x | X
  deriving DecidableEq

def IntConv.letter : IntConv → UInt8
  | .d => chr 'd'
  | .i => chr 'i'
  | .o => chr 'o'
  | .u => chr 'u'
  | .x => chr 'x'
  | .X => chr 'X'

def IntConv.signed : IntConv → Bool
  | .d | .i => true
  | _ => false

def IntConv.base : IntConv → ℕ
  | .o => 8
  | .x | .X => 16
  | _ => 10

def IntConv.upper : IntConv → Bool
  | .X => true
  | _ => false

section
variable {bits : ℕ}

def Width.args : Width → List (Arg bits)
  | .digits _ _ => []
  | .star v => [.int v]

def Prec.args : Prec → List (Arg bits)
  | .star v => [.int v]
  | _ => []

def Modifier.arg : (m : Modifier) → BitVec (m.argWidth bits) → Arg bits
  | .none, v | .hh, v | .h, v => .int v
  | .l, v | .z, v | .t, v => .long v
  | .ll, v | .j, v => .longlong v

end

/-- Padding up to the field width, in front of `head`, between `head` and `tail`, or behind. -/
def fill (left zero : Bool) (width : ℕ) (head tail : List UInt8) : List UInt8 :=
  let n := width - (head ++ tail).length
  if left then head ++ tail ++ List.replicate n (chr ' ')
  else if zero then head ++ List.replicate n (chr '0') ++ tail
  else List.replicate n (chr ' ') ++ head ++ tail

/-! ### Integers -/

lemma no_flags : Flag.hash ∉ ([] : List Flag) ∧ Flag.zero ∉ ([] : List Flag) := by simp

lemma no_hash (conv : IntConv) : Flag.hash ∈ ([] : List Flag) → conv.base ≠ 10 := by simp

/-- A directive `d`, `i`, `o`, `u`, `x` or `X`, and its argument. -/
structure IntDirective (bits : ℕ) where
  flags : List Flag
  width : Width
  prec : Prec
  modifier : Modifier
  conv : IntConv
  arg : BitVec (modifier.argWidth bits)
  defined : .hash ∈ flags → conv.base ≠ 10

section
variable {bits : ℕ} (d : IntDirective bits)

/-- The value to be written: the argument in the type of the modifier. -/
def IntDirective.value : ℤ :=
  let v := d.arg.setWidth (d.modifier.width bits)
  if d.conv.signed then v.toInt else v.toNat

def IntDirective.left : Bool := .minus ∈ d.flags ∨ d.width.left

def IntDirective.sign : List UInt8 :=
  if d.conv.signed then
    if d.value < 0 then [chr '-']
    else if .plus ∈ d.flags then [chr '+']
    else if .space ∈ d.flags then [chr ' '] else []
  else []

/-- `0x` or `0X`, for a nonzero result. -/
def IntDirective.hexMark : List UInt8 :=
  if .hash ∈ d.flags ∧ d.conv.base = 16 ∧ d.value ≠ 0 then
    [chr '0', if d.conv.upper then chr 'X' else chr 'x'] else []

/-- At least as many digits as the precision says, none for the value 0 with precision 0. The `#` of
`o` increases the precision, if and only if necessary, to force the first digit to be 0. -/
def IntDirective.digits : List ℕ :=
  let ds := Nat.digits d.conv.base d.value.natAbs
  let ds := List.replicate (d.prec.value.getD 1 - ds.length) 0 ++ ds.reverse
  if .hash ∈ d.flags ∧ d.conv.base = 8 ∧ ds.head? ≠ some 0 then 0 :: ds else ds

def IntDirective.body : List UInt8 := d.sign ++ d.hexMark ++ d.digits.map (digitChar d.conv.upper)

/-- The `0` flag is ignored with a `-` flag or a precision. -/
def IntDirective.text : List UInt8 :=
  fill d.left (.zero ∈ d.flags ∧ d.prec.value = none) d.width.value (d.sign ++ d.hexMark)
    (d.digits.map (digitChar d.conv.upper))

def IntDirective.format : List UInt8 :=
  chr '%' :: (d.flags.map Flag.char ++ d.width.format ++ d.prec.format ++ d.modifier.format ++
    [d.conv.letter])

def IntDirective.args : List (Arg bits) := d.width.args ++ d.prec.args ++ [d.modifier.arg d.arg]

end

/-! ### Characters and strings -/

/-- A directive `c`, and its argument. -/
structure CharDirective where
  flags : List Flag
  width : Width
  arg : BitVec 32
  defined : .hash ∉ flags ∧ .zero ∉ flags

/-- A directive `s`, and the array its argument points to: it has a NUL, or as many bytes as the
precision says. -/
structure StrDirective where
  flags : List Flag
  width : Width
  prec : Prec
  mem : List UInt8
  defined : .hash ∉ flags ∧ .zero ∉ flags
  enough : 0 ∈ mem ∨ ∃ p, prec.value = some p ∧ p ≤ mem.length

section
variable {bits : ℕ} (d : CharDirective)

def CharDirective.left : Bool := .minus ∈ d.flags ∨ d.width.left

def CharDirective.text : List UInt8 :=
  fill d.left false d.width.value [] [(d.arg.setWidth 8).toNat.toUInt8]

def CharDirective.format : List UInt8 :=
  chr '%' :: (d.flags.map Flag.char ++ d.width.format ++ [chr 'c'])

def CharDirective.args : List (Arg bits) := d.width.args ++ [.int d.arg]

end

section
variable {bits : ℕ} (d : StrDirective)

def StrDirective.left : Bool := .minus ∈ d.flags ∨ d.width.left

/-- The bytes up to the NUL, but not more than the precision says. -/
def StrDirective.bytes : List UInt8 :=
  match d.prec.value with
  | none => d.mem.takeWhile (· ≠ 0)
  | some p => (d.mem.take p).takeWhile (· ≠ 0)

def StrDirective.text : List UInt8 := fill d.left false d.width.value [] d.bytes

def StrDirective.format : List UInt8 :=
  chr '%' :: (d.flags.map Flag.char ++ d.width.format ++ d.prec.format ++ [chr 's'])

def StrDirective.args : List (Arg bits) := d.width.args ++ d.prec.args ++ [.str (some d.mem)]

end

/-! ### Formats -/

inductive Item (bits : ℕ)
  | ordinary (ch : UInt8) (percent : ch ≠ chr '%') (nul : ch ≠ 0)
  | int (d : IntDirective bits)
  | char (d : CharDirective)
  | str (d : StrDirective)
  | percent

section
variable {bits : ℕ}

def Item.format : Item bits → List UInt8
  | .ordinary ch _ _ => [ch]
  | .int d => d.format
  | .char d => d.format
  | .str d => d.format
  | .percent => [chr '%', chr '%']

def Item.args : Item bits → List (Arg bits)
  | .int d => d.args
  | .char d => d.args
  | .str d => d.args
  | _ => []

/-- **The text that ISO C prescribes** for a directive. -/
def Item.text : Item bits → List UInt8
  | .ordinary ch _ _ => [ch]
  | .int d => d.text
  | .char d => d.text
  | .str d => d.text
  | .percent => [chr '%']

def formatOf (items : List (Item bits)) : List UInt8 := items.flatMap Item.format

def argsOf (items : List (Item bits)) : List (Arg bits) := items.flatMap Item.args

/-- **The text that ISO C prescribes** for a format. -/
def textOf (items : List (Item bits)) : List UInt8 := items.flatMap Item.text

end

end Klibc.Stdio.Iso
