import Klibc.Lib.CString
import Klibc.Lib.Machine
import Klibc.Lib.Total

/-! # `getopt` and `getopt_long`

The two functions of `getopt.c` and `getopt_long.c`. Pointers are addresses, with 0 for `NULL`. The
position inside an argument is a pointer that stays behind when an argument is done; it is taken to
be stale when it does not lie in the argument at hand. A read outside the strings, or outside
`argv`, has no result. -/

namespace Klibc.Options.Getopt

open Lib.CString Lib.Machine

/-- The arguments of a call: addresses have `bits` bits, `char` may be signed, `argv` points to the
strings `args`, as many as `argc`, and a null pointer behind them. The strings lie apart. -/
structure Query where
  bits : ℕ
  charSigned : Bool
  argv : ℕ
  args : List Str
  optstring : Str
  argv_ne : argv ≠ 0
  optstring_ne : optstring.addr ≠ 0
  inSpace : ∀ a ∈ args, 0 < a.addr ∧ a.last < 2 ^ bits
  apart : args.Pairwise fun a b => a.last < b.addr ∨ b.last < a.addr

/-- The variables of the library, and those that `getopt_long` stores to through its pointers;
`opterr` is not used. -/
structure State where
  optarg : ℕ
  optind : ℤ
  optopt : ℤ
  optptr : ℕ
  lastOptstring : ℕ
  lastArgv : ℕ
  longindex : ℕ
  flags : ℕ → ℤ

abbrev Call := StateT State Option

def dash : UInt8 := 45
def colon : UInt8 := 58
def equals : UInt8 := 61
def question : ℤ := 63

def access {α : Type} (x : Option α) : Call α := fun s => x.map fun v => (v, s)

/-- `argv[i]`. -/
def Query.arg (q : Query) (i : ℤ) : Option (Option Str) :=
  if 0 ≤ i then (q.args.map some ++ [none])[i.toNat]? else none

/-- The value of a `char`. -/
def Query.value (q : Query) (c : UInt8) : ℤ := if q.charSigned then wrap 8 c.toNat else c.toNat

/-- `strchr`: the offset of a byte, which may be the zero byte. -/
def strchr (a : Str) (c : UInt8) : Option ℕ :=
  let i := (a.bytes ++ [0]).idxOf c
  if i ≤ a.bytes.length then some i else none

/-! ### The parts that both functions have -/

def Query.restart (q : Query) : Call Unit := modify fun s =>
  if q.optstring.addr ≠ s.lastOptstring ∨ q.argv ≠ s.lastArgv ∨ s.optind < 1 ∨
      (q.args.length : ℤ) < s.optind then
    { s with lastOptstring := q.optstring.addr, lastArgv := q.argv, optind := 1, optptr := 0 }
  else s

def addOptind (n : ℤ) : Call Unit := modify fun s => { s with optind := s.optind + n }

/-- `*pvt.optptr`, which points into `carg`. -/
def peek (carg : Str) : Call UInt8 := do
  access (carg.at ((← get).optptr - carg.addr))

def Query.takeArgument (q : Query) (carg : Str) (opt : UInt8) : Call ℤ := do
  if (← peek carg) ≠ 0 then
    modify fun s => { s with optarg := s.optptr }
    addOptind 1
    return q.value opt
  else
    match ← access (q.arg ((← get).optind + 1)) with
    | some arg =>
      modify fun s => { s with optarg := arg.addr }
      addOptind 2
      return q.value opt
    | none =>
      addOptind 1
      return if (← access (q.optstring.at 0)) = colon then colon.toNat else question

/-- `optind` is advanced if `carg` is done. -/
def nextIfDone (carg : Str) : Call Unit := do
  if (← peek carg) = 0 then addOptind 1 else return ()

def Query.shortOption (q : Query) (carg : Str) : Call ℤ := do
  modify fun s =>
    if unsigned q.bits (s.optptr - carg.addr) > carg.bytes.length then
      { s with optptr := carg.addr + 1 }
    else s
  let opt ← peek carg
  modify fun s => { s with optptr := s.optptr + 1 }
  match if opt ≠ colon then strchr q.optstring opt else none with
  | some osptr =>
    if (← access (q.optstring.at (osptr + 1))) = colon then q.takeArgument carg opt
    else
      nextIfDone carg
      return q.value opt
  | none =>
    modify fun s => { s with optopt := q.value opt }
    nextIfDone carg
    return question

/-- `getopt`. -/
def getopt (q : Query) : Call ℤ := do
  q.restart
  match ← access (q.arg (← get).optind) with
  | none => return -1
  | some carg =>
    if (← access (carg.at 0)) ≠ dash then return -1
    else if (← access (carg.at 1)) = 0 then return -1
    else if (← access (carg.at 1)) = dash ∧ carg.at 2 = some 0 then
      addOptind 1
      return -1
    else q.shortOption carg

/-! ### Long options -/

/-- `struct option`; the flag is named by a number. -/
structure LongOption where
  name : List UInt8
  hasArg : ℤ
  flag : Option ℕ
  val : ℤ
  deriving DecidableEq

/-- `option_matches`: how much of the argument the name of an option is, up to its end or a `=`. -/
def optionMatches : List UInt8 → List UInt8 → Option ℕ
  | [], name => if name = [] then some 0 else none
  | c :: arg, name =>
    if c = equals then (if name = [] then some 0 else none)
    else match name with
      | [] => none
      | n :: name => if c = n then (optionMatches arg name).map (· + 1) else none

def findOption (arg : List UInt8) : List LongOption → Option (LongOption × ℕ × ℕ)
  | [] => none
  | lo :: los =>
    match optionMatches arg lo.name with
    | some n => some (lo, 0, n)
    | none => (findOption arg los).map fun r => (r.1, r.2.1 + 1, r.2.2)

def LongOption.finish (lo : LongOption) : Call ℤ := do
  match lo.flag with
  | some f =>
    modify fun s => { s with flags := Function.update s.flags f lo.val }
    return 0
  | none => return lo.val

/-- A long option: what `getopt_long` does with an argument that starts with `--`. -/
def Query.longOption (q : Query) (longopts : List LongOption) (longindex : Bool) (carg : Str) :
    Call ℤ := do
  match findOption (carg.bytes.drop 2) longopts with
  | none => return question
  | some (lo, i, n) =>
    modify fun s => if longindex then { s with longindex := i } else s
    if (← access (carg.at (2 + n))) = equals then
      if lo.hasArg ≠ 0 then
        modify fun s => { s with optarg := carg.addr + (2 + n) + 1 }
        lo.finish
      else return question
    else if lo.hasArg = 1 then
      match ← access (q.arg (← get).optind) with
      | none =>
        modify fun s => { s with optarg := 0 }
        return question
      | some arg =>
        modify fun s => { s with optarg := arg.addr }
        addOptind 1
        lo.finish
    else lo.finish

/-- `getopt_long`, with whether there is a pointer for the index of an option. -/
def getoptLong (q : Query) (longopts : List LongOption) (longindex : Bool) : Call ℤ := do
  q.restart
  match ← access (q.arg (← get).optind) with
  | none => return -1
  | some carg =>
    if (← access (carg.at 0)) ≠ dash then return -1
    else if (← access (carg.at 1)) = 0 then return -1
    else if (← access (carg.at 1)) = dash then
      addOptind 1
      if (← access (carg.at 2)) = 0 then return -1
      else q.longOption longopts longindex carg
    else q.shortOption carg

end Klibc.Options.Getopt
