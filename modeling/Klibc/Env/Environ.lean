import Klibc.Lib.Machine
import Klibc.Lib.Total
import Mathlib.Data.Int.Notation
import Mathlib.Data.List.Basic
import Mathlib.Logic.Function.Basic

/-! # The environment

`environ`, the static variables of `__put_env.c`, and the functions on them. An array is a list of
slots; a call has no result if it reads or writes outside of an array, through a null pointer, or
reads a slot that was never written. Whether an allocation succeeds is chosen in advance.

The strings of the environment are never changed in place, so a slot holds the string itself. -/

namespace Klibc.Env.Environ

open Lib.Machine (wrap)
open Lib.Total

/-! ### Strings -/

/-- The bytes of a string before its terminating NUL. -/
structure CString where
  bytes : List UInt8
  nulFree : 0 ∉ bytes
  deriving DecidableEq

/-- `'='`. -/
def equals : UInt8 := 61

/-- `s[i]`, up to the terminating NUL. -/
def CString.get (s : CString) (i : ℕ) : UInt8 := s.bytes.getD i 0

/-- `strncmp`, on the bytes before the terminating NULs. -/
def strncmp : List UInt8 → List UInt8 → ℕ → ℤ
  | _, _, 0 => 0
  | [], s2, _ + 1 => 0 - (s2.headD 0).toNat
  | ch :: s1, s2, n + 1 =>
    let d := (ch.toNat : ℤ) - (s2.headD 0).toNat
    if d ≠ 0 ∨ ch = 0 then d else strncmp s1 s2.tail n

/-- `name=val`. -/
def assignment (name val : CString) : CString where
  bytes := name.bytes ++ equals :: val.bytes
  nulFree := by
    have h1 := name.nulFree
    have h2 := val.nulFree
    simp [equals, h1, h2]

/-! ### Arrays -/

inductive Slot
  | null
  | str (s : CString)
  | junk
  deriving DecidableEq

/-- The arrays: the one the process started with, `__null_environ` and those on the heap. -/
inductive Arr
  | initial
  | nullEnviron
  | heap (id : ℕ)
  deriving DecidableEq

/-- `environ`, the arrays, `__environ_size`, `__environ_alloc` and `errno`; whether the allocations
to come succeed, and the number of the next one. -/
structure Sys where
  environ : Option Arr
  mem : Arr → List Slot
  environSize : ℕ
  environAlloc : Option Arr
  errno : ℕ
  allocs : ℕ → Bool
  fresh : ℕ

abbrev Call := StateT Sys Option

def EINVAL : ℕ := 22

def allocate : Call Bool := fun s =>
  some (s.allocs 0, { s with allocs := fun i => s.allocs (i + 1) })

def newArray (slots : List Slot) : Call Arr := fun s =>
  some (.heap s.fresh,
    { s with mem := Function.update s.mem (.heap s.fresh) slots, fresh := s.fresh + 1 })

/-- `free`. -/
def free (a : Arr) : Call Unit := modify fun s => { s with mem := Function.update s.mem a [] }

def deref (p : Option Arr) : Call Arr := fun s => p.map fun a => (a, s)

/-- `a[0], …, a[n - 1]`. -/
def load (a : Arr) (n : ℕ) : Call (List Slot) := fun s =>
  if n ≤ (s.mem a).length then some ((s.mem a).take n, s) else none

/-- `a[i] = x`. -/
def store (a : Arr) (i : ℕ) (x : Slot) : Call Unit := fun s =>
  if i < (s.mem a).length then
    some ((), { s with mem := Function.update s.mem a ((s.mem a).set i x) })
  else none

/-- `for (p = environ; (q = *p); p++)` up to the first string with `hit`: the index of the slot it
ends at, and whether that is a hit. -/
def scan (hit : CString → Bool) : List Slot → Option (ℕ × Bool)
  | .null :: _ => some (0, false)
  | .str q :: slots =>
    if hit q then some (0, true) else (scan hit slots).map fun r => (r.1 + 1, r.2)
  | _ => none

def scanArray (hit : CString → Bool) (a : Arr) : Call (ℕ × Bool) := fun s =>
  (scan hit (s.mem a)).map fun r => (r, s)

/-! ### What the primitives return -/

section
variable {s : Sys}

@[simp]
lemma returns_allocate {Q : Bool → Sys → Prop} : Returns allocate s Q ↔
    Q (s.allocs 0) { s with allocs := fun i => s.allocs (i + 1) } :=
  returns_iff_of_eq rfl

variable {Q : Arr → Sys → Prop} {a : Arr}

@[simp]
lemma returns_newArray {slots : List Slot} : Returns (newArray slots) s Q ↔ Q (.heap s.fresh)
      { s with mem := Function.update s.mem (.heap s.fresh) slots, fresh := s.fresh + 1 } :=
  returns_iff_of_eq rfl

@[simp]
lemma returns_deref : Returns (deref (some a)) s Q ↔ Q a s := returns_iff_of_eq rfl

lemma not_returns_deref : ¬ Returns (deref none) s Q := fun ⟨_, _, he, _⟩ => nomatch he

lemma returns_load {n : ℕ} (h : n ≤ (s.mem a).length) {Q : List Slot → Sys → Prop} :
    Returns (load a n) s Q ↔ Q ((s.mem a).take n) s :=
  returns_iff_of_eq (if_pos h)

variable {Q : Unit → Sys → Prop} {x : Slot} {i : ℕ}

lemma returns_store (h : i < (s.mem a).length) : Returns (store a i x) s Q ↔
      Q () { s with mem := Function.update s.mem a ((s.mem a).set i x) } :=
  returns_iff_of_eq (if_pos h)

lemma not_returns_store (h : ¬ i < (s.mem a).length) : ¬ Returns (store a i x) s Q := by
  rintro ⟨_, _, he, _⟩
  rw [store, if_neg h] at he
  cases he

lemma returns_scanArray {hit : CString → Bool} {r : ℕ × Bool} (h : scan hit (s.mem a) = some r)
    {Q : ℕ × Bool → Sys → Prop} : Returns (scanArray hit a) s Q ↔ Q r s :=
  returns_iff_of_eq (by rw [scanArray, h]; rfl)

end

/-! ### `__put_env` -/

def freeStale (environ : Arr) : Call Unit := do
  match (← get).environAlloc with
  | none => return ()
  | some a =>
    if environ ≠ a then
      free a
      modify fun s => { s with environAlloc := none }

def extend (environ : Arr) (n : ℕ) : Call (Option Arr) := do
  let s ← get
  if ← allocate then
    match s.environAlloc with
    | some a =>
      -- `realloc`
      let size := 2 * s.environSize
      let newenv ← newArray ((s.mem a ++ List.replicate size Slot.junk).take size)
      free a
      modify fun s => { s with environSize := size }
      return some newenv
    | none =>
      let old ← load environ n
      let newenv ← newArray (old ++ List.replicate 32 Slot.junk)
      modify fun s => { s with environSize := n + 32 }
      return some newenv
  else return none

/-- `__put_env`. The variable `null_environ` that `environ` is set to if it is NULL is itself a null
pointer. -/
def putEnv (str : CString) (len : ℕ) (overwrite : Bool) : Call ℤ := do
  let environ ← deref (← get).environ
  let (i, hit) ← scanArray (fun q => strncmp q.bytes str.bytes len = 0) environ
  if hit then
    if overwrite then store environ i (.str str)
    return 0
  else
    let n := i + 1
    freeStale environ
    if n < (← get).environSize then
      store environ (i + 1) .null
      store environ i (.str str)
      return 0
    else
      match ← extend environ n with
      | none => return -1
      | some newenv =>
        store newenv (n - 1) (.str str)
        store newenv n .null
        modify fun s => { s with environ := some newenv }
        return 0

/-! ### The functions -/

/-- `errno = EINVAL; return -1;`. -/
def invalid : Call ℤ := do
  modify fun s => { s with errno := EINVAL }
  return -1

/-- The checks of `setenv` and `unsetenv` on a name. -/
def validName (name : Option CString) : Option CString :=
  name.filter fun n => n.bytes ≠ [] ∧ equals ∉ n.bytes

/-- `setenv`. -/
def setenv (name : Option CString) (val : CString) (overwrite : Bool) : Call ℤ := do
  match validName name with
  | none => invalid
  | some name =>
    if ← allocate then putEnv (assignment name val) (name.bytes.length + 1) overwrite
    else return -1

/-- The string is `name=…`. -/
def isVar (name q : CString) : Bool :=
  strncmp name.bytes q.bytes name.bytes.length = 0 ∧ q.get name.bytes.length = equals

/-- `for (; (q = *p); p++) p[0] = p[1];`. -/
def shift : List Slot → Option (List Slot)
  | .null :: slots => some (.null :: slots)
  | .str _ :: x :: slots => (shift (x :: slots)).map (x :: ·)
  | _ => none

def shiftArray (a : Arr) (i : ℕ) : Call Unit := fun s =>
  (shift ((s.mem a).drop i)).map fun slots =>
    ((), { s with mem := Function.update s.mem a ((s.mem a).take i ++ slots) })

lemma returns_shiftArray {s : Sys} {a : Arr} {i : ℕ} {slots : List Slot}
    (h : shift ((s.mem a).drop i) = some slots) {Q : Unit → Sys → Prop} :
    Returns (shiftArray a i) s Q ↔
      Q () { s with mem := Function.update s.mem a ((s.mem a).take i ++ slots) } :=
  returns_iff_of_eq (by rw [shiftArray, h]; rfl)

/-- `unsetenv`. -/
def unsetenv (name : Option CString) : Call ℤ := do
  match validName name with
  | none => invalid
  | some name =>
    match (← get).environ with
    | none => return 0
    | some environ =>
      let (i, _) ← scanArray (isVar name) environ
      shiftArray environ i
      return 0

/-- `for (z = str; *z; z++) if (*z == '=') e = z;` from offset `i` on. -/
def lastEquals : List UInt8 → ℕ → Option ℕ → Option ℕ
  | [], _, e => e
  | z :: str, i, e => lastEquals str (i + 1) (if z = equals then some i else e)

/-- `putenv`. -/
def putenv (str : Option CString) : Call ℤ := do
  match str with
  | none => invalid
  | some str =>
    match lastEquals str.bytes 0 none with
    | none => invalid
    | some e => if ← allocate then putEnv str e true else return -1

/-- `clearenv`. -/
def clearenv : Call ℤ := do
  modify fun s => { s with environ := some .nullEnviron }
  return 0

/-- `len` of `getenv`, an `int`. -/
def getenvLen (name : CString) : ℤ := wrap 32 name.bytes.length

/-- What `strncmp` makes of it: a negative one is a `size_t` that no string reaches. -/
def getenvSize (name : CString) : ℕ :=
  if getenvLen name < 0 then name.bytes.length + 1 else (getenvLen name).toNat

/-- The loop of `getenv` stops: `q` is a hit, or `q[len]` is in front of the string. -/
def getenvStops (name q : CString) : Bool :=
  strncmp name.bytes q.bytes (getenvSize name) = 0 ∧
    (getenvLen name < 0 ∨ q.get (getenvSize name) = equals)

/-- `getenv`, with addresses of 64 bits. -/
def getenv (name : CString) (s : Sys) : Option (Option (List UInt8)) := do
  match s.environ with
  | none => some none
  | some environ =>
    let (i, stops) ← scan (getenvStops name) (s.mem environ)
    match stops, (s.mem environ)[i]? with
    | true, some (.str q) =>
      if getenvLen name < 0 then none else some (some (q.bytes.drop (getenvSize name + 1)))
    | _, _ => some none

end Klibc.Env.Environ
