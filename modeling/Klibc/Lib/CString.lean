import Mathlib.Data.Nat.Notation

/-! # Strings in memory

A string of C, at its address. -/

namespace Klibc.Lib.CString

/-- A string in memory; a zero byte follows it. -/
structure Str where
  addr : ℕ
  bytes : List UInt8
  nonul : 0 ∉ bytes

def Str.last (a : Str) : ℕ := a.addr + a.bytes.length

def Str.at (a : Str) (i : ℕ) : Option UInt8 := (a.bytes ++ [0])[i]?

end Klibc.Lib.CString
