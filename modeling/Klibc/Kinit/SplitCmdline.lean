import Klibc.Lib.CString
import Klibc.Stdio.Vsscanf

/-! # `split_cmdline`

How `kinit.c` makes an argument vector of the kernel command lines and its own arguments. The
function runs twice: with a null pointer for the vector it only counts, and then it fills the vector
and cuts the command lines. Each command line is a string of its own. A store outside the vector, or
a read outside a string or outside the table of `isspace`, has no result. -/

namespace Klibc.Kinit.SplitCmdline

open Lib.CString Lib.Machine Stdio.Vsscanf

def intMax : ℤ := 2 ^ 31 - 1

/-- `isspace(c)` for a `char`: the table has an entry for -1, which is no space, and none below. -/
def isspaceChar (charSigned : Bool) (c : UInt8) : Option Bool :=
  let i : ℤ := if charSigned then wrap 8 c.toNat else c.toNat
  if i < -1 then none else if i = -1 then some false else some (isspace c)

/-- `v`, and the vector unless it is null. -/
structure Pass where
  v : ℕ
  cmdv : Option (List ℕ)
  deriving DecidableEq

/-- `if (cmdv) cmdv[i] = x`. -/
def Pass.store (s : Pass) (i x : ℕ) : Option Pass :=
  match s.cmdv with
  | none => some s
  | some cells => if i < cells.length then some { s with cmdv := some (cells.set i x) } else none

section

variable (charSigned : Bool) (vmax : ℤ)

/-- What is done with the byte `c` at `p`, and the byte that is left there. Since `v` is below
`vmax`, it does not overflow. -/
def splitByte (wasSpace space : Bool) (p : ℕ) (c : UInt8) (s : Pass) : Option (UInt8 × Pass) :=
  if (space = true ∨ c = 0) ∧ wasSpace = false then
    some (if s.cmdv.isSome then 0 else c, { s with v := s.v + 1 })
  else if wasSpace = true then (s.store s.v p).map fun s => (c, s)
  else some (c, s)

/-- A command line from the address `p` on, and what is left there. -/
def splitLine : Bool → ℕ → List UInt8 → Pass → Option (List UInt8 × Pass)
  | _, _, [], s => if s.v < vmax then none else some ([], s)
  | wasSpace, p, c :: cs, s =>
    if s.v < vmax then do
      let space ← isspaceChar charSigned c
      let (c', s) ← splitByte wasSpace space p c s
      if c = 0 then some (c' :: cs, s)
      else
        let (cs', s) ← splitLine space (p + 1) cs s
        some (c' :: cs', s)
    else some (c :: cs, s)

def splitLines : List Str → Pass → Option (List (List UInt8) × Pass)
  | [], s => some ([], s)
  | l :: cmdlines, s => do
    let (b, s) ← splitLine charSigned vmax true l.addr (l.bytes ++ [0]) s
    let (bs, s) ← splitLines cmdlines s
    some (b :: bs, s)

def addArgs : List ℕ → Pass → Option Pass
  | [], s => some s
  | arg :: args, s =>
    if s.v < vmax then do
      let s ← s.store s.v arg
      addArgs args { s with v := s.v + 1 }
    else some s

end

/-- `split_cmdline`: the command lines as they are left, the value that is returned, and the vector.
-/
def splitCmdline (charSigned : Bool) (cmdcmax : ℤ) (cmdv : Option (List ℕ)) (argv0 : ℕ)
    (cmdlines : List Str) (args : List ℕ) : Option (List (List UInt8) × Pass) := do
  let s ← Pass.store ⟨1, cmdv⟩ 0 argv0
  let (bs, s) ← splitLines charSigned cmdcmax cmdlines s
  let s ← addArgs cmdcmax args s
  let s ← s.store s.v 0
  some (bs, s)

end Klibc.Kinit.SplitCmdline
