import Klibc.Stdio.Fgets

/-! # The major number of partitioned md devices

`mdp_major` looks for it in `/proc/devices`, in the lines after the one that starts the section of
the block devices. That line goes through the same test as the others, and as it has no number, the
section ends where it starts. The number is never found, whatever the file says, and the program
exits. -/

namespace Klibc.Md.Major

open Lib.Machine Lib.Total Stdio.Input Stdio.Stream Stdio.Strntoumax
open Stdio.Fgets (fgets returns_fgets)
open Stdio.Vsnprintf (chr)
open Stdio.Vsscanf (isspace digitval skipSpaces takeSign takeBase takeDigits strntoumax)

/-! ### The code -/

/-- `strcmp` finds no difference. -/
def sameString (s : List UInt8) (name : String) : Bool :=
  decide (s.takeWhile (· ≠ 0) = name.toList.map chr)

/-- A turn of the loop over the lines, with `is_blk`; the result of the loop is `found`. -/
def scanTurn (C : Config) (isBlk : Bool) : Call (Bool ⊕ ℤ) := do
  match ← fgets C 512 with
  | none => return .inr 0
  | some line =>
    if isBlk || sameString (line ++ [0]) "Block devices:\n" then
      let (v, p) ← access (strtol C.bits (line ++ [0]) 10)
      let majorNo := wrap 32 v.toInt
      if majorNo = 0 then return .inl false
      else if majorNo > 0 ∧ sameString (p.dropWhile isspace) "mdp" then return .inr majorNo
      else return .inl true
    else return .inl false

inductive Ending
  | returned (v : ℤ)
  | exited (status : ℤ)
  deriving DecidableEq

/-- `mdp_major`, with `found` as an earlier call left it, on the stream that `fopen` returns. -/
def mdpMajor (C : Config) (found : ℤ) : Call Ending := do
  if found ≠ 0 then return .returned found
  else
    let found ← Loop.run ⟨scanTurn C⟩ false
    if found = 0 then return .exited 1 else return .returned found

/-! ### The number is never found -/

section
variable {C : Config} {s : Sys}

lemma strtol_letter (bits : ℕ) (l : List UInt8) :
    strtol bits (chr 'B' :: l) 10 = some (0, chr 'B' :: l) := by
  have hnum (n : ℕ) : strntoumax (chr 'B' :: l) 10 n = some (0, chr 'B' :: l) := by
    cases n with
    | zero => simp [strntoumax, skipSpaces, takeSign, takeBase, takeDigits]
    | succ n =>
      have hspace : isspace (chr 'B') = false := by decide
      have hsign : ¬(chr 'B' = chr '-' ∨ chr 'B' = chr '+') := by decide
      have hdigit : ¬(digitval (chr 'B') ≥ 0 ∧ digitval (chr 'B') < 10) := by decide
      have htake : takeDigits 10 (chr 'B' :: l) (n + 1) 0#64 = some (0#64, chr 'B' :: l) := by
        rw [takeDigits, if_neg hdigit]
      simp [strntoumax, skipSpaces, takeSign, takeBase, hspace, hsign, htake]
  simp [strtol, strtox, hnum]

lemma sameString_header {l : List UInt8} (h : sameString l "Block devices:\n" = true) :
    ∃ l', l = chr 'B' :: l' := by
  cases l with
  | nil => exact absurd h (by decide)
  | cons c l =>
    refine ⟨l, ?_⟩
    have heq := of_decide_eq_true h
    rw [List.takeWhile_cons] at heq
    split_ifs at heq with hc
    · have hhead := congrArg List.head? heq
      simpa using hhead
    · exact absurd heq (by decide)

/-- **Outside the section**, a turn stays there. -/
theorem returns_scanTurn (h : Readable C s) : Returns (scanTurn C false) s fun r s' => Sum.elim
      (fun isBlk => (isBlk = false ∧ Readable C s') ∧ (rest s').length < (rest s).length)
      (fun found => found = 0) r := by
  simp only [scanTurn, returns_bind]
  refine (returns_fgets h (by decide)).mono ?_
  rintro (_ | line) s' hline
  · rw [returns_pure]
    rfl
  · have hreadable := hline.readable
    have hshorter := hline.shorter (by decide)
    simp only [Bool.false_or]
    split_ifs with hheader
    · obtain ⟨l', hl'⟩ := sameString_header hheader
      rw [hl', strtol_letter]
      simp only [returns_bind, returns_access]
      have hzero : wrap 32 (0 : BitVec C.bits).toInt = 0 := by simp [wrap]
      rw [if_pos hzero, returns_pure]
      exact ⟨⟨rfl, hreadable⟩, hshorter⟩
    · rw [returns_pure]
      exact ⟨⟨rfl, hreadable⟩, hshorter⟩

/-- **`mdp_major` exits**, whatever the file says. -/
theorem mdpMajor_exits (h : Readable C s) : Returns (mdpMajor C 0) s fun r _ => r = .exited 1 := by
  simp only [mdpMajor, ne_eq, not_true_eq_false, if_false, returns_bind]
  have hloop : Returns (Loop.run ⟨scanTurn C⟩ false) s fun found _ => found = 0 := by
    refine returns_loop_of_measure (fun isBlk t => isBlk = false ∧ Readable C t)
      (fun _ t => (rest t).length) ?_ ⟨rfl, h⟩
    rintro _ t ⟨rfl, ht⟩
    exact returns_scanTurn ht
  refine hloop.mono ?_
  rintro _ s' rfl
  rw [if_pos rfl, returns_pure]

end

/-! ### The search -/

/-- `/proc/devices`: lines that fit into `line`. -/
structure DevicesFile where
  lines : List (List UInt8)
  noNewline : ∀ l ∈ lines, chr '\n' ∉ l
  short : ∀ l ∈ lines, l.length + 1 < 512

def DevicesFile.text (file : DevicesFile) : List UInt8 := file.lines.flatMap (· ++ [chr '\n'])

def header : List UInt8 := "Block devices:".toList.map chr

def IsEntry (v : ℕ) (line : List UInt8) : Prop :=
  ∃ ds k, (∀ c ∈ ds, IsDigit 10 c) ∧ value 10 ds = v ∧ 0 < v ∧ 0 < k ∧
    line = ds ++ List.replicate k (chr ' ') ++ "mdp".toList.map chr

/-- A line of the section of the block devices has this number. -/
def HasEntry (file : DevicesFile) (v : ℕ) : Prop :=
  ∃ before after, file.lines = before ++ header :: after ∧ ∃ line ∈ after, IsEntry v line

structure OpenedOn (C : Config) (file : DevicesFile) (s : Sys) : Prop where
  opened : Opened C 0 s.f
  contents : s.fd.contents = file.text
  offset : s.fd.offset = 0
  live : Live s.fd.answers
  sound : ∀ i e, s.fd.answers i = .fail e → e.again = true

/-- Whichever entry the file has, its number is returned. -/
def Finds (C : Config) (file : DevicesFile) : Prop :=
  ∀ s v, OpenedOn C file s → HasEntry file v → Returns (mdpMajor C 0) s fun r _ => r = .returned v

def stream (C : Config) (file : DevicesFile) : Sys where
  f := fxopen C (List.replicate (C.BUFSIZ + 32) 0) 0 false
  fd := ⟨fun _ => .move 1, [], file.text, 0⟩

lemma openedOn_stream (C : Config) (file : DevicesFile) : OpenedOn C file (stream C file) where
  opened := .fxopen false (by rw [List.length_replicate]; rfl)
  contents := rfl
  offset := rfl
  live := ⟨fun _ h => Nat.one_ne_zero (Answer.move.inj h), fun i => ⟨i, le_rfl, fun _ h =>
    Answer.noConfusion h⟩⟩
  sound _ _ h := Answer.noConfusion h

lemma not_returned {C : Config} {file : DevicesFile} {s : Sys} (hs : OpenedOn C file s) (v : ℤ) :
    ¬Returns (mdpMajor C 0) s fun r _ => r = .returned v := by
  obtain ⟨r, s', hcall, rfl⟩ := mdpMajor_exits (readable_of_opened hs.opened hs.live)
  exact fun hreturns => Ending.noConfusion (hreturns.elim hcall)

/-- **The number is found** iff there is none: `mdp_major` returns no number that a file has. -/
theorem mdp_major_finds_iff (C : Config) (file : DevicesFile) :
    Finds C file ↔ ¬∃ v, HasEntry file v := by
  constructor
  · rintro hfinds ⟨v, hv⟩
    exact not_returned (openedOn_stream C file) v (hfinds _ v (openedOn_stream C file) hv)
  · exact fun hnone s v _ hv => absurd ⟨v, hv⟩ hnone

/-- The file with `253 mdp` as its only block device. -/
def mdpFile : DevicesFile where
  lines := ["Character devices:", "  1 mem", "", "Block devices:", "253 mdp"].map
    fun l => l.toList.map chr
  noNewline := by decide
  short := by decide

/-- The number 253 is in the file, and the program exits with the status 1. -/
theorem mdp_major_exits : HasEntry mdpFile 253 ∧
    (Returns (mdpMajor config64 0) (stream config64 mdpFile) fun r _ => r = .exited 1) ∧
    ¬Finds config64 mdpFile := by
  have hentry : HasEntry mdpFile 253 :=
    ⟨mdpFile.lines.take 3, mdpFile.lines.drop 4, by decide, "253 mdp".toList.map chr, by decide,
      "253".toList.map chr, 1, by decide +kernel, by decide +kernel, by decide, by decide,
      by decide⟩
  have hon := openedOn_stream config64 mdpFile
  exact ⟨hentry, mdpMajor_exits (readable_of_opened hon.opened hon.live),
    fun hfinds => not_returned hon 253 (hfinds _ 253 hon hentry)⟩

end Klibc.Md.Major
