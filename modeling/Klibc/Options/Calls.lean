import Klibc.Options.Getopt

/-! # What a scan of the arguments does

The calls of a scan, one after the other, read off the arguments: `trace` goes through the list of
arguments and their letters, without `optind` and with the position pointer only where an argument
with short options begins. -/

namespace Klibc.Options.Calls

open Lib.CString Lib.Machine Lib.Total Getopt

inductive Scanner
  | short
  | long (longopts : List LongOption) (longindex : Bool)

def call (q : Query) : Scanner → Call ℤ
  | .short => getopt q
  | .long longopts longindex => getoptLong q longopts longindex

/-! ### Kinds of arguments -/

/-- What an argument is: an operand (or a lone `-`), `--`, or options. -/
inductive Kind
  | operand | terminator | letters | long
  deriving DecidableEq

def Scanner.kind (sc : Scanner) (a : Str) : Kind :=
  match a.bytes with
  | c :: c' :: cs =>
    if c ≠ dash then .operand
    else if c' ≠ dash then .letters
    else if cs = [] then .terminator
    else match sc with
      | .short => .letters
      | .long _ _ => .long
  | _ => .operand

/-! ### Calls -/

/-- A call that finds an option: what it returns, `optarg` (0 if it is not set), and the position
pointer if it is set. -/
structure Step where
  ret : ℤ
  optarg : ℕ
  optptr : Option ℕ
  deriving DecidableEq

def declared (q : Query) (c : UInt8) : Option Bool :=
  if c = colon ∨ c ∉ q.optstring.bytes then none
  else some (q.optstring.bytes[q.optstring.bytes.idxOf c + 1]? = some colon)

def missing (q : Query) : ℤ :=
  if q.optstring.bytes.head? = some colon then colon.toNat else question

/-- The call for the letter at the address `p`, with whether the argument goes on behind it, and
whether the next argument is taken. -/
def letterStep (q : Query) (next : Option Str) (p : ℕ) (c : UInt8) (more : Bool) : Step × Bool :=
  match declared q c with
  | some true =>
    if more then (⟨q.value c, p + 1, some (p + 1)⟩, false)
    else match next with
      | some arg => (⟨q.value c, arg.addr, some (p + 1)⟩, true)
      | none => (⟨missing q, 0, some (p + 1)⟩, false)
  | some false => (⟨q.value c, 0, some (p + 1)⟩, false)
  | none => (⟨question, 0, some (p + 1)⟩, false)

/-- The calls for the letters of an argument from the address `p` on, and whether they take the next
argument. -/
def letterSteps (q : Query) (next : Option Str) : ℕ → List UInt8 → List Step × Bool
  | _, [] => ([], false)
  | p, c :: cs =>
    let r := letterStep q next p c (cs ≠ [])
    if declared q c = some true then ([r.1], r.2)
    else
      let rs := letterSteps q next (p + 1) cs
      (r.1 :: rs.1, rs.2)

def LongOption.ret (lo : LongOption) : ℤ := if lo.flag.isSome then 0 else lo.val

def longStep (longopts : List LongOption) (carg : Str) (next : Option Str) : Step × Bool :=
  match findOption (carg.bytes.drop 2) longopts with
  | none => (⟨question, 0, none⟩, false)
  | some (lo, _, n) =>
    if carg.at (2 + n) = some equals then
      (if lo.hasArg ≠ 0 then ⟨LongOption.ret lo, carg.addr + (2 + n) + 1, none⟩
        else ⟨question, 0, none⟩, false)
    else if lo.hasArg = 1 then
      match next with
      | none => (⟨question, 0, none⟩, false)
      | some arg => (⟨LongOption.ret lo, arg.addr, none⟩, true)
    else (⟨LongOption.ret lo, 0, none⟩, false)

/-- The calls of a scan, and how many arguments come before the first operand. There is no such
number if the scan comes to a call that does not return. -/
structure Trace where
  steps : List Step
  ends : Option ℕ
  deriving DecidableEq

def Trace.after (t : Trace) (ss : List Step) : Trace := ⟨ss ++ t.steps, t.ends.map (· + 1)⟩

def Step.ptr (p : ℕ) (st : Step) : ℕ := st.optptr.getD p

def endPtr (p : ℕ) (ss : List Step) : ℕ := ss.foldl Step.ptr p

def resume (q : Query) (a : Str) (p : ℕ) : ℕ :=
  if unsigned q.bits (p - a.addr) > a.bytes.length then 1 else p - a.addr

def Scanner.longopts : Scanner → List LongOption
  | .short => []
  | .long longopts _ => longopts

/-- The calls of a scan of the arguments, the first of which may have been taken already, with the
position pointer `p`. -/
def trace (q : Query) (sc : Scanner) : Bool → ℕ → List Str → Trace
  | _, _, [] => ⟨[], some 0⟩
  | true, p, _ :: rest => (trace q sc false p rest).after []
  | false, p, a :: rest =>
    match sc.kind a with
    | .operand => ⟨[], some 0⟩
    | .terminator => ⟨[], some 1⟩
    | .letters =>
      if resume q a p < a.bytes.length then
        let r := letterSteps q rest.head? (a.addr + resume q a p) (a.bytes.drop (resume q a p))
        (trace q sc r.2 (endPtr p r.1) rest).after r.1
      else ⟨[], none⟩ -- the zero byte is looked up in the option string, and the byte behind it
    | .long =>
      let r := longStep sc.longopts a rest.head?
      (trace q sc r.2 p rest).after [r.1]

section

variable {q : Query} {sc : Scanner} {p : ℕ} {a : Str} {rest : List Str}

lemma trace_operand (h : sc.kind a = .operand) : trace q sc false p (a :: rest) = ⟨[], some 0⟩ := by
  unfold trace
  rw [h]

lemma trace_terminator (h : sc.kind a = .terminator) :
    trace q sc false p (a :: rest) = ⟨[], some 1⟩ := by
  unfold trace
  rw [h]

lemma trace_letters {k : ℕ} (h : sc.kind a = .letters) (hresume : resume q a p = k)
    (hk : k < a.bytes.length) : trace q sc false p (a :: rest) =
      (trace q sc (letterSteps q rest.head? (a.addr + k) (a.bytes.drop k)).2
        (endPtr p (letterSteps q rest.head? (a.addr + k) (a.bytes.drop k)).1) rest).after
      (letterSteps q rest.head? (a.addr + k) (a.bytes.drop k)).1 := by
  subst hresume
  conv_lhs => unfold trace
  rw [h]
  exact if_pos hk

lemma trace_stuck (h : sc.kind a = .letters) (hk : a.bytes.length ≤ resume q a p) :
    trace q sc false p (a :: rest) = ⟨[], none⟩ := by
  unfold trace
  rw [h]
  exact if_neg (by omega)

lemma trace_long (h : sc.kind a = .long) :
    trace q sc false p (a :: rest) = (trace q sc (longStep sc.longopts a rest.head?).2 p rest).after
      [(longStep sc.longopts a rest.head?).1] := by
  conv_lhs => unfold trace
  rw [h]

end

/-! ### A scan -/

/-- What a caller sees of a call: its value and `optarg`. -/
abbrev Event := ℤ × ℕ

/-- One turn of a caller's loop. `optarg` is reset, so that it shows what the call stores. -/
def turn (q : Query) (sc : Scanner) (es : List Event) : Call (List Event ⊕ List Event) := do
  modify fun s => { s with optarg := 0 }
  let ret ← call q sc
  if ret = -1 then return .inr es
  else return .inl (es ++ [(ret, (← get).optarg)])

def scan (q : Query) (sc : Scanner) : Call (List Event) := Loop.run ⟨turn q sc⟩ []

def events : List Step → List Event
  | [] => []
  | st :: ss => if st.ret = -1 then [] else (st.ret, st.optarg) :: events ss

def stopPtr (p : ℕ) : List Step → ℕ
  | [] => p
  | st :: ss => if st.ret = -1 then st.ptr p else stopPtr (st.ptr p) ss

def Stops (ss : List Step) : Prop := ∃ st ∈ ss, st.ret = -1

def Trace.Completes (t : Trace) : Prop := Stops t.steps ∨ t.ends ≠ none

end Klibc.Options.Calls
