import Klibc.Stdio.Strntoumax

/-! # The loop of `vsscanf`

What the loop does over a part of a format. The scanner only moves on in its buffer, and not over
the NUL (`Reads`), so that in front of every conversion there is a string to read
(`Reached.terminated`); what it has stored and counted before makes no difference, a step only adds
to it (`adds_step`). The characters from a `%` to the letter of a conversion come down to one call
of `convert` (`loop_directive`). -/

namespace Klibc.Stdio.ScanLoop

open Lib.Machine Vsscanf List
open Vsnprintf (chr isDigit)

/-! ### Reading on -/

/-- From `q` to `q'` over characters that are not NUL. -/
def Reads (q q' : List UInt8) : Prop := ∃ l, q = l ++ q' ∧ 0 ∉ l

lemma Reads.refl (q : List UInt8) : Reads q q := ⟨[], rfl, not_mem_nil⟩

lemma Reads.trans {q q' q'' : List UInt8} : Reads q q' → Reads q' q'' → Reads q q'' := by
  rintro ⟨l, rfl, hl⟩ ⟨l', rfl, hl'⟩
  exact ⟨l ++ l', (append_assoc ..).symm, by simp [hl, hl']⟩

lemma Reads.cons {c : UInt8} {q q' : List UInt8} (hc : c ≠ 0) : Reads q q' → Reads (c :: q) q' := by
  rintro ⟨l, rfl, hl⟩
  exact ⟨c :: l, rfl, by simp [hl, hc.symm]⟩

lemma Reads.terminated {q q' : List UInt8} (h : Reads q q') (hq : 0 ∈ q) : 0 ∈ q' := by
  obtain ⟨l, rfl, hl⟩ := h
  exact (mem_append.1 hq).resolve_left hl

lemma exists_string {q : List UInt8} (h : 0 ∈ q) : ∃ I r, q = I ++ 0 :: r ∧ 0 ∉ I := by
  obtain ⟨I, r, hq, hI⟩ := eq_append_cons_of_mem h
  exact ⟨I, r, hq, hI⟩

/-- The string at `q`. -/
def string (q : List UInt8) : List UInt8 := q.takeWhile (· ≠ 0)

lemma string_eq {I r : List UInt8} (h0 : 0 ∉ I) : string (I ++ 0 :: r) = I := by
  rw [string, takeWhile_append_of_pos fun c hc => by simpa using fun h : c = 0 => h0 (h ▸ hc)]
  simp

/-! ### What the loops over the buffer return -/

section

lemma skipspace_eq : ∀ {q : List UInt8}, 0 ∈ q → skipspace q = some (q.dropWhile isspace)
  | [], h => absurd h not_mem_nil
  | c :: q, h => by
    rw [skipspace]
    by_cases hc : isspace c = true
    · have hne : c ≠ 0 := by
        rintro rfl
        exact absurd hc (by decide)
      rw [if_pos hc, dropWhile_cons_of_pos hc]
      exact skipspace_eq ((mem_cons.1 h).resolve_left hne.symm)
    · rw [if_neg hc, dropWhile_cons_of_neg hc]

lemma reads_dropWhile (q : List UInt8) : Reads q (q.dropWhile isspace) :=
  ⟨_, takeWhile_append_dropWhile.symm, fun h => absurd (mem_takeWhile_imp h) (by decide)⟩

lemma skipspace_reads {q : List UInt8} (h : 0 ∈ q) : ∃ q', skipspace q = some q' ∧ Reads q q' :=
  ⟨_, skipspace_eq h, reads_dropWhile q⟩

lemma strntoumax_reads (base n : ℕ) {q : List UInt8} (h : 0 ∈ q) :
    ∃ v q', strntoumax q base n = some (v, q') ∧ Reads q q' := by
  obtain ⟨hlen, h0⟩ := Strntoumax.passes_number base (q.take n)
  refine ⟨_, _, Strntoumax.strntoumax_eq base (.inr h), q.take _, (take_append_drop _ _).symm, ?_⟩
  rwa [take_take, min_eq_left (hlen.trans (length_take_le _ _))] at h0

variable {I r : List UInt8}

lemma takeChars_eq : ∀ {I : List UInt8} (width : ℕ), 0 ∉ I → takeChars width (I ++ 0 :: r) =
      some (I.take width, I.drop width ++ 0 :: r, decide (I.length < width))
  | I, 0, _ => by simp [takeChars]
  | [], width + 1, _ => by simp [takeChars]
  | c :: I, width + 1, h => by
    obtain ⟨hc, hI⟩ := not_or.1 (mt mem_cons.2 h)
    rw [cons_append, takeChars, if_neg (Ne.symm hc), takeChars_eq width hI]
    simp

lemma splatChars_eq (width : ℕ) (h : 0 ∉ I) :
    splatChars width (I ++ 0 :: r) = some (decide (I = [] ∧ width ≠ 0)) := by
  cases I with
  | nil => cases width <;> simp [splatChars]
  | cons c I =>
    obtain ⟨hc, hI⟩ := not_or.1 (mt mem_cons.2 h)
    induction width with
    | zero => simp [splatChars]
    | succ width ih =>
      rw [splatChars, ih]
      simp [Ne.symm hc]

/-- What `%s` takes of a string: the characters up to the first space, up to the width. -/
def word (width : ℕ) (I : List UInt8) : List UInt8 := (I.take width).takeWhile fun c => !isspace c

lemma takeWord_eq : ∀ {I : List UInt8} (width : ℕ), 0 ∉ I →
    takeWord width (I ++ 0 :: r) = some (word width I, I.drop (word width I).length ++ 0 :: r,
      decide (word width I = I ∧ I.length < width))
  | I, 0, _ => by simp [takeWord, word]
  | [], width + 1, _ => by simp [takeWord, word]
  | c :: I, width + 1, h => by
    obtain ⟨hc, hI⟩ := not_or.1 (mt mem_cons.2 h)
    rw [cons_append, takeWord, if_neg (Ne.symm hc)]
    by_cases hs : isspace c = true
    · simp [hs, word]
    · rw [if_neg hs, takeWord_eq width hI]
      simp only [Option.map_some, word, take_succ_cons, takeWhile_cons, hs, Bool.not_false, if_true,
        length_cons, drop_succ_cons, List.cons.injEq, true_and, Nat.add_lt_add_iff_right]
      congr

lemma takeMatch_eq (hit : UInt8 → Bool) : ∀ {I : List UInt8}, 0 ∉ I → takeMatch hit (I ++ 0 :: r) =
      some (I.takeWhile hit, I.drop (I.takeWhile hit).length ++ 0 :: r,
        decide (I.takeWhile hit = I))
  | [], _ => by simp [takeMatch]
  | c :: I, h => by
    obtain ⟨hc, hI⟩ := not_or.1 (mt mem_cons.2 h)
    rw [cons_append, takeMatch, if_neg (Ne.symm hc)]
    by_cases hs : hit c = true
    · rw [if_pos hs, takeMatch_eq hit hI]
      simp [hs]
    · simp [hs]

end

/-! ### A step reads on -/

section
variable {bits : ℕ} {buffer : List UInt8} {s s' : Scan bits}

lemma arg_nil (hap : s.ap = []) : s.arg = none := by rw [Scan.arg, hap]

variable {ap : List ℕ}

variable {p : ℕ}

lemma arg_cons (hap : s.ap = p :: ap) :
    s.arg = some (p, { s with ap := ap }) := by rw [Scan.arg, hap]

lemma setInteger_splat (hsplat : s.splat = true) (conv : BitVec 64 → Stored bits)
    (val : BitVec 64) : setInteger conv val s = some s := by
  rw [setInteger, if_neg (not_not.2 hsplat)]

lemma setInteger_nil (hsplat : s.splat = false) (hap : s.ap = [])
    (conv : BitVec 64 → Stored bits) (val : BitVec 64) : setInteger conv val s = none := by
  rw [setInteger, if_pos (by simp [hsplat]), arg_nil hap]
  rfl

lemma setInteger_store (hsplat : s.splat = false) (hap : s.ap = p :: ap)
    (conv : BitVec 64 → Stored bits) (val : BitVec 64) :
    setInteger conv val s = some { s with ap := ap, stores := s.stores ++ [(p, conv val)] } := by
  rw [setInteger, if_pos (by simp [hsplat]), arg_cons hap]
  rfl

variable {I r : List UInt8}

/-- The width of `%c`. -/
def charWidth (s : Scan bits) : ℕ := if s.hasWidth then s.width else 1

lemma scanChar_splat (hq : s.q = I ++ 0 :: r) (h0 : 0 ∉ I) (hsplat : s.splat = true) :
    scanChar s = some
      { s with bail := if I = [] ∧ charWidth s ≠ 0 then .eof else s.bail } := by
  have hchars : splatChars (if s.hasWidth then s.width else 1) s.q =
      some (decide (I = [] ∧ charWidth s ≠ 0)) := by
    rw [hq]
    exact splatChars_eq _ h0
  simp only [scanChar, if_pos hsplat, hchars, Option.bind_eq_bind, Option.bind_some,
    decide_eq_true_eq]
  split_ifs <;> rfl

lemma scanChar_nil (hsplat : s.splat = false) (hap : s.ap = []) : scanChar s = none := by
  simp [scanChar, hsplat, arg_nil hap]

lemma scanChar_store (hq : s.q = I ++ 0 :: r) (h0 : 0 ∉ I) (hsplat : s.splat = false)
    (hap : s.ap = p :: ap) : scanChar s = some
      { s with
        ap := ap
        q := I.drop (charWidth s) ++ 0 :: r
        stores := s.stores ++ [(p, .bytes (I.take (charWidth s)))]
        bail := if I.length < charWidth s then .eof else s.bail
        converted := if I.length < charWidth s then s.converted
          else wrap 32 (s.converted + 1) } := by
  have hchars : takeChars (if s.hasWidth then s.width else 1) s.q =
      some (I.take (charWidth s), I.drop (charWidth s) ++ 0 :: r,
        decide (I.length < charWidth s)) := by
    rw [hq]
    exact takeChars_eq _ h0
  simp only [scanChar, if_neg (Bool.not_eq_true _ ▸ hsplat), arg_cons hap, hchars,
    Option.bind_eq_bind, Option.bind_some, decide_eq_true_eq]
  split_ifs <;> rfl

lemma scanStr_splat (hq : s.q = I ++ 0 :: r) (h0 : 0 ∉ I) (hsplat : s.splat = true) :
    scanStr s = some
      { s with
        q := I.drop (word s.width I).length ++ 0 :: r
        bail := if word s.width I = I ∧ I.length < s.width then .eof else s.bail } := by
  have hword := takeWord_eq (r := r) s.width h0
  rw [← hq] at hword
  simp [scanStr, if_pos hsplat, hword]

lemma scanStr_nil (hsplat : s.splat = false) (hap : s.ap = []) : scanStr s = none := by
  simp [scanStr, hsplat, arg_nil hap]

lemma scanStr_store (hq : s.q = I ++ 0 :: r) (h0 : 0 ∉ I) (hsplat : s.splat = false)
    (hap : s.ap = p :: ap) : scanStr s = some
      { s with
        ap := ap
        q := I.drop (word s.width I).length ++ 0 :: r
        bail := if word s.width I = I ∧ I.length < s.width then .eof else s.bail
        stores := if word s.width I = [] then s.stores
          else s.stores ++ [(p, .bytes (word s.width I ++ [0]))]
        converted := if word s.width I = [] then s.converted else wrap 32 (s.converted + 1) } := by
  have hword := takeWord_eq (r := r) s.width h0
  rw [← hq] at hword
  simp only [scanStr, if_neg (Bool.not_eq_true _ ▸ hsplat), arg_cons hap, hword,
    Option.bind_eq_bind, Option.bind_some, decide_eq_true_eq]
  by_cases hnil : word s.width I = []
  · simp [hnil]
  · simp only [hnil, ne_eq, not_false_eq_true, if_true, if_false]
    rfl

def hit (s : Scan bits) (uc : UInt8) : Bool := s.matchmap uc ^^ s.matchinv

/-- What `match_run` takes of a string. -/
def matched (s : Scan bits) (I : List UInt8) : List UInt8 :=
  if s.width ≠ 0 then I.takeWhile (hit s) else []

/-- Does `match_run` see the end of the string? -/
def atEnd (s : Scan bits) (I : List UInt8) : Bool := s.width ≠ 0 ∧ matched s I = I

/-- What follows the loop of `match_run`. -/
def runEnd (s : Scan bits) (l q : List UInt8) (eof : Bool) : Scan bits :=
  let s' := { s with q := q }
  let s' := match s.sarg with
    | some a =>
      if l ≠ [] then { (s'.store a (.bytes (l ++ [0]))).count with sarg := some (a + l.length) }
      else { s' with bail := .err }
    | none => { s' with bail := .err }
  if eof then { s' with bail := .eof } else s'

section
variable (hq : s.q = I ++ 0 :: r) (h0 : 0 ∉ I)
include hq h0

lemma matchRun_eq : matchRun s =
    some (runEnd s (matched s I) (I.drop (matched s I).length ++ 0 :: r) (atEnd s I)) := by
  by_cases hw : s.width ≠ 0
  · have hmatch := takeMatch_eq (r := r) (hit s) h0
    have hmatched : matched s I = I.takeWhile (hit s) := if_pos hw
    have hend : atEnd s I = decide (I.takeWhile (hit s) = I) := by simp [atEnd, hmatched, hw]
    rw [← hq, ← hend, ← hmatched] at hmatch
    unfold matchRun
    simp only [if_pos hw]
    exact congrArg (Option.bind · _) hmatch
  · have hmatched : matched s I = [] := if_neg hw
    have hend : atEnd s I = false := by simp [atEnd, hw]
    rw [hmatched, hend, length_nil, drop_zero, ← hq]
    unfold matchRun
    simp only [if_neg hw]
    rfl

lemma matchRun_none (hsarg : s.sarg = none) : matchRun s = some
      { s with
        q := I.drop (matched s I).length ++ 0 :: r
        bail := if atEnd s I then .eof else .err } := by
  rw [matchRun_eq hq h0]
  simp only [runEnd, hsarg]
  split_ifs <;> rfl

lemma matchRun_nil (hnil : matched s I = []) :
    matchRun s = some { s with bail := if atEnd s I then .eof else .err } := by
  rw [matchRun_eq hq h0, hnil, length_nil, drop_zero, ← hq]
  cases hsarg : s.sarg <;> simp only [runEnd, hsarg, ne_eq, not_true_eq_false, if_false] <;>
    split_ifs <;> rfl

lemma matchRun_store {a : ℕ} (hsarg : s.sarg = some a) (hne : matched s I ≠ []) : matchRun s = some
      { s with
        q := I.drop (matched s I).length ++ 0 :: r
        sarg := some (a + (matched s I).length)
        stores := s.stores ++ [(a, .bytes (matched s I ++ [0]))]
        converted := wrap 32 (s.converted + 1)
        bail := if atEnd s I then .eof else s.bail } := by
  rw [matchRun_eq hq h0]
  simp only [runEnd, hsarg, if_pos hne]
  split_ifs <;> rfl

end

/-! ### `scan_int`, by what stands behind the white space -/

section
variable {base : ℤ} {val : BitVec 64} {c : UInt8} {q qq : List UInt8}
  (conv : BitVec 64 → Stored bits) (hskip : skipspace s.q = some (c :: q))
include hskip

lemma scanInt_eof (hc : c = 0) :
    scanInt base conv s = some { s with q := c :: q, bail := .eof } := by
  simp [scanInt, hskip, if_pos hc]

lemma scanInt_stays (hc : c ≠ 0) (hnum : strntoumax (c :: q) base s.width = some (val, c :: q)) :
    scanInt base conv s = some { s with q := c :: q, bail := .err } := by
  simp [scanInt, hskip, if_neg hc, hnum]

lemma scanInt_moves (hc : c ≠ 0) (hnum : strntoumax (c :: q) base s.width = some (val, qq))
    (hmoved : qq ≠ c :: q) : scanInt base conv s = setInteger conv val
      (if ¬s.splat then Scan.count { s with q := qq } else { s with q := qq }) := by
  simp [scanInt, hskip, if_neg hc, hnum, if_neg hmoved]

end

variable (bits) in
/-- **`scan_int`** either gives up or has a value for `set_integer`. Which of the two, and how far
it reads, depends on the string and the width alone. -/
theorem scanInt_outcome (base width : ℕ) {q : List UInt8} (hq : 0 ∈ q) : ∃ q', Reads q q' ∧
    ((∃ b, b ≠ Bail.none ∧ ∀ (conv : BitVec 64 → Stored bits) (s : Scan bits), s.q = q →
        s.width = width → scanInt base conv s = some { s with q := q', bail := b }) ∨
      ∃ val, ∀ (conv : BitVec 64 → Stored bits) (s : Scan bits), s.q = q → s.width = width →
        scanInt base conv s = setInteger conv val
          (if ¬ s.splat then Scan.count { s with q := q' } else { s with q := q' })) := by
  obtain ⟨q1, hskip, hr⟩ := skipspace_reads hq
  obtain ⟨v, q2, hnum, hr'⟩ := strntoumax_reads base width (hr.terminated hq)
  obtain ⟨c, tail, rfl⟩ := exists_cons_of_ne_nil (ne_nil_of_mem (hr.terminated hq))
  by_cases hc : c = 0
  · refine ⟨_, hr, Or.inl ⟨.eof, by decide, fun conv s hs hw => ?_⟩⟩
    rw [← hs] at hskip
    exact scanInt_eof conv hskip hc
  · by_cases hmoved : q2 = c :: tail
    · refine ⟨_, hr, Or.inl ⟨.err, by decide, fun conv s hs hw => ?_⟩⟩
      rw [← hs] at hskip
      rw [← hw, hmoved] at hnum
      exact scanInt_stays conv hskip hc hnum
    · refine ⟨_, hr.trans hr', Or.inr ⟨v, fun conv s hs hw => ?_⟩⟩
      rw [← hs] at hskip
      rw [← hw] at hnum
      exact scanInt_moves conv hskip hc hnum hmoved

lemma reads_drop (h0 : 0 ∉ I) (n : ℕ) : Reads (I ++ 0 :: r) (I.drop n ++ 0 :: r) :=
  ⟨I.take n, by rw [← append_assoc, take_append_drop], fun hm => h0 (mem_of_mem_take hm)⟩

lemma scanSet_splat (hsplat : s.splat = true) : scanSet s = some
      { s with
        state := .matchInit
        matchinv := false
        matchmap := fun _ => false
        sarg := none } := by
  simp only [scanSet, hsplat, if_true]

lemma scanSet_store (hsplat : s.splat = false) {p : ℕ} {ap : List ℕ} (hap : s.ap = p :: ap) :
    scanSet s = some
      { s with
        state := .matchInit
        matchinv := false
        matchmap := fun _ => false
        sarg := some p
        ap := ap } := by
  simp [scanSet, hsplat, Scan.arg, hap]

lemma scanSet_nil (hsplat : s.splat = false) (hap : s.ap = []) : scanSet s = none := by
  simp [scanSet, hsplat, Scan.arg, hap]

/-! ### What a step adds -/

/-- `converted++`. -/
def counted (converted : ℤ) : ℤ := wrap 32 (converted + 1)

/-- The scanner with the assignments `stores` and the number `converted` so far. -/
def put (s : Scan bits) (stores : List (ℕ × Stored bits)) (converted : ℤ) : Scan bits :=
  { s with stores := stores, converted := converted }

/-- `f` reads on in the buffer, and what was stored and counted before makes no difference to it: it
only adds to that. -/
def Adds (f : Scan bits → Option (Scan bits)) (s : Scan bits) : Prop :=
  (∀ l n, f (put s l n) = none) ∨ ∃ u σ k, Reads s.q u.q ∧
    ∀ l n, f (put s l n) = some (put u (l ++ σ) (counted^[k] n))

variable {f g : Scan bits → Option (Scan bits)} {u : Scan bits}

lemma Adds.reads (h : Adds f s) (hf : f s = some s') : Reads s.q s'.q := by
  obtain hnone | ⟨u, σ, k, hr, hsome⟩ := h
  · cases hf.symm.trans (hnone s.stores s.converted)
  · rw [Option.some.inj (hf.symm.trans (hsome s.stores s.converted))]
    exact hr

lemma adds_of_eq (hr : Reads s.q u.q) (h : ∀ l n, f (put s l n) = some (put u l n)) : Adds f s :=
  .inr ⟨u, [], 0, hr, fun l n => by rw [h, append_nil]; rfl⟩

lemma Adds.congr (hg : Adds g u) (hr : Reads s.q u.q) (h : ∀ l n, f (put s l n) = g (put u l n)) :
    Adds f s := by
  obtain hnone | ⟨v, σ, k, hr', hsome⟩ := hg
  · exact .inl fun l n => (h l n).trans (hnone l n)
  · exact .inr ⟨v, σ, k, hr.trans hr', fun l n => (h l n).trans (hsome l n)⟩

lemma Adds.count (h : Adds f s) : Adds (fun s => f s.count) s := by
  obtain hnone | ⟨u, σ, k, hr, hsome⟩ := h
  · exact .inl fun l n => hnone l _
  · exact .inr ⟨u, σ, k + 1, hr, fun l n => hsome l _⟩

lemma adds_ite {c : Prop} [Decidable c] (hf : Adds f s) (hg : Adds g s) :
    Adds (fun s => if c then f s else g s) s := by
  split_ifs
  · exact hf
  · exact hg

lemma adds_setInteger (conv : BitVec 64 → Stored bits) (val : BitVec 64) (s : Scan bits) :
    Adds (setInteger conv val) s := by
  cases hs : s.splat with
  | true => exact adds_of_eq (.refl _) fun l n => setInteger_splat (s := put s l n) hs conv val
  | false =>
    cases hap : s.ap with
    | nil => exact .inl fun l n => setInteger_nil (s := put s l n) hs hap conv val
    | cons p ap =>
      exact .inr ⟨{ s with ap := ap }, [(p, conv val)], 0, .refl _, fun l n =>
        setInteger_store (s := put s l n) hs hap conv val⟩

section
variable (hq : 0 ∈ s.q)
include hq

lemma adds_scanInt (base : ℕ) (conv : BitVec 64 → Stored bits) : Adds (scanInt base conv) s := by
  obtain ⟨q, hr, ⟨b, -, hfail⟩ | ⟨val, hval⟩⟩ := scanInt_outcome bits base s.width hq
  · exact adds_of_eq (u := { s with q := q, bail := b }) hr fun l n =>
      hfail conv (put s l n) rfl rfl
  · have hset := adds_setInteger conv val { s with q := q }
    cases hs : s.splat with
    | true =>
      exact hset.congr hr fun l n => (hval conv (put s l n) rfl rfl).trans (by simp [put, hs])
    | false =>
      exact hset.count.congr hr fun l n => (hval conv (put s l n) rfl rfl).trans (by simp [put, hs])

lemma adds_scanChar : Adds scanChar s := by
  obtain ⟨I, r, hI, h0⟩ := exists_string hq
  cases hs : s.splat with
  | true =>
    exact adds_of_eq (u := { s with
      bail := if I = [] ∧ charWidth s ≠ 0 then .eof else s.bail }) (.refl _)
      fun l n => scanChar_splat (s := put s l n) hI h0 hs
  | false =>
    cases hap : s.ap with
    | nil => exact .inl fun l n => scanChar_nil (s := put s l n) hs hap
    | cons p ap =>
      refine .inr ⟨{ s with
        ap := ap, q := I.drop (charWidth s) ++ 0 :: r,
        bail := if I.length < charWidth s then .eof else s.bail },
        [(p, .bytes (I.take (charWidth s)))], if I.length < charWidth s then 0 else 1,
        hI ▸ reads_drop h0 _, fun l n => (scanChar_store (s := put s l n) hI h0 hs hap).trans ?_⟩
      have hw : charWidth (put s l n) = charWidth s := rfl
      rw [hw]
      by_cases h : I.length < charWidth s <;> simp [h, put, counted]

lemma adds_scanStr : Adds scanStr s := by
  obtain ⟨I, r, hI, h0⟩ := exists_string hq
  obtain ⟨u, hu⟩ : ∃ u : Scan bits, u = { s with
      q := I.drop (word s.width I).length ++ 0 :: r
      bail := if word s.width I = I ∧ I.length < s.width then .eof else s.bail } := ⟨_, rfl⟩
  have hr : Reads s.q u.q := hI ▸ hu ▸ reads_drop h0 _
  cases hs : s.splat with
  | true => exact adds_of_eq hr fun l n => hu ▸ scanStr_splat (s := put s l n) hI h0 hs
  | false =>
    cases hap : s.ap with
    | nil => exact .inl fun l n => scanStr_nil (s := put s l n) hs hap
    | cons p ap =>
      have hstore (l n) := scanStr_store (s := put s l n) hI h0 hs hap
      by_cases h : word s.width I = []
      · refine adds_of_eq (u := { u with ap := ap }) hr fun l n => ?_
        have h' : word (put s l n).width I = [] := h
        rw [hstore, if_pos h', if_pos h', hu]
        rfl
      · refine .inr ⟨{ u with ap := ap }, [(p, .bytes (word s.width I ++ [0]))], 1, hr,
          fun l n => ?_⟩
        have h' : word (put s l n).width I ≠ [] := h
        rw [hstore, if_neg h', if_neg h', hu]
        rfl

omit hq in
lemma adds_scanSet (s : Scan bits) : Adds scanSet s := by
  cases hs : s.splat with
  | true =>
    exact adds_of_eq (u := { s with
      state := .matchInit, matchinv := false, matchmap := fun _ => false, sarg := none }) (.refl _)
      fun l n => scanSet_splat (s := put s l n) hs
  | false =>
    cases hap : s.ap with
    | nil => exact .inl fun l n => scanSet_nil (s := put s l n) hs hap
    | cons p ap =>
      exact adds_of_eq (u := { s with
        state := .matchInit, matchinv := false, matchmap := fun _ => false, ap := ap,
        sarg := some p }) (.refl _) fun l n => scanSet_store (s := put s l n) hs hap

lemma adds_matchRun : Adds matchRun s := by
  obtain ⟨I, r, hI, h0⟩ := exists_string hq
  by_cases hnil : matched s I = []
  · exact adds_of_eq (u := { s with bail := if atEnd s I then .eof else .err }) (.refl _)
      fun l n => matchRun_nil (s := put s l n) hI h0 hnil
  · cases hs : s.sarg with
    | none =>
      exact adds_of_eq (u := { s with
        q := I.drop (matched s I).length ++ 0 :: r, bail := if atEnd s I then .eof else .err })
        (hI ▸ reads_drop h0 _) fun l n => matchRun_none (s := put s l n) hI h0 hs
    | some a =>
      exact .inr ⟨{ s with
        q := I.drop (matched s I).length ++ 0 :: r, bail := if atEnd s I then .eof else s.bail,
        sarg := some (a + (matched s I).length) }, [(a, .bytes (matched s I ++ [0]))], 1,
        hI ▸ reads_drop h0 _, fun l n => matchRun_store (s := put s l n) hI h0 hs hnil⟩

/-- One character is read if it is the one asked for. -/
lemma adds_head {ch : UInt8} (hch : ch ≠ 0) : Adds (fun s => do
    let c ← s.q.head?
    some (if c = ch then { s with q := s.q.tail } else { s with bail := .err })) s := by
  obtain ⟨c, q, hcq⟩ := exists_cons_of_ne_nil (ne_nil_of_mem hq)
  by_cases hc : c = ch
  · refine adds_of_eq (u := { s with q := q }) ?_ fun l n => by simp [put, hcq, hc]
    rw [hcq]
    exact (Reads.refl q).cons (hc ▸ hch)
  · exact adds_of_eq (u := { s with bail := .err }) (.refl _) fun l n => by simp [put, hcq, hc]

variable (buffer) (ch : UInt8)

lemma adds_convert : Adds (convert buffer ch) s := by
  have hnormal {f : Scan bits → Option (Scan bits)} (h : Adds f { s with state := .normal }) :
      Adds (fun s => f { s with state := .normal }) s := h.congr (.refl _) fun l n => rfl
  have hint (base : ℕ) (conv : ℤ → BitVec 64 → Stored bits) :
      Adds (fun s => scanInt base (conv s.rank) { s with state := .normal }) s :=
    (adds_scanInt (s := { s with state := .normal }) hq base (conv s.rank)).congr (.refl _)
      fun l n => rfl
  have hnum : Adds (fun s => setInteger (fun val => .int (Val.ofRank val (Vsnprintf.rankOf s.rank)))
      (BitVec.ofNat 64 (buffer.length - s.q.length)) { s with state := .normal }) s :=
    (adds_setInteger (fun val => .int (Val.ofRank val (Vsnprintf.rankOf s.rank)))
      (BitVec.ofNat 64 (buffer.length - s.q.length)) { s with state := .normal }).congr (.refl _)
      fun l n => rfl
  have hpercent : Adds scanPercent { s with state := .normal } :=
    adds_head (s := { s with state := .normal }) hq (show chr '%' ≠ 0 by decide)
  let int (r : ℤ) (val : BitVec 64) : Stored bits := .int (Val.ofRank val (Vsnprintf.rankOf r))
  unfold convert
  refine adds_ite (hint 0 fun _ val => .pointer (val.setWidth bits)) ?_
  refine adds_ite (hint 0 int) (adds_ite (hint 10 int) (adds_ite (hint 8 int) ?_))
  refine adds_ite (hint 10 int) (adds_ite (hint 16 int) (adds_ite hnum ?_))
  refine adds_ite (hnormal (adds_scanChar hq)) (adds_ite (hnormal (adds_scanStr hq)) ?_)
  refine adds_ite (hnormal (adds_scanSet _)) (adds_ite (hnormal hpercent) ?_)
  exact adds_of_eq (u := { s with state := .normal, bail := .err }) (.refl _) fun l n => rfl

lemma adds_stepModifiers : Adds (stepModifiers buffer ch) s := by
  have hrank (r : ℤ → ℤ) : Adds (fun s => some { s with rank := r s.rank }) s :=
    adds_of_eq (u := { s with rank := r s.rank }) (.refl _) fun l n => rfl
  exact adds_ite (hrank fun r => wrap 32 (r - 1)) <| adds_ite (hrank fun r => wrap 32 (r + 1)) <|
    adds_ite (hrank fun _ => 2) <| adds_ite (hrank fun _ => 1) <| adds_ite (hrank fun _ => 1) <|
    adds_ite (hrank fun _ => 2) (adds_convert buffer hq ch)

omit buffer in
lemma adds_stepNormal (hch : ch ≠ 0) : Adds (stepNormal ch) s := by
  refine adds_ite (adds_of_eq (u := { s with
    state := .flags, splat := false, inv := false, hasWidth := false, rank := 0,
    width := UINT_MAX }) (.refl _) fun l n => rfl) (adds_ite ?_ (adds_head hq hch))
  obtain ⟨q', hskip, hr⟩ := skipspace_reads hq
  exact adds_of_eq (u := { s with q := q' }) hr fun l n => by simp [put, hskip]

/-- **A step** reads on, and adds to what was stored and counted. -/
theorem adds_step (hch : ch ≠ 0) : Adds (step buffer ch) s := by
  have hmod : Adds (fun s => stepModifiers buffer ch { s with state := .modifiers }) s :=
    (adds_stepModifiers (s := { s with state := .modifiers }) buffer hq ch).congr (.refl _)
      fun l n => rfl
  cases hs : s.state with
  | normal =>
    exact (adds_stepNormal hq ch hch).congr (.refl _) fun l n => by simp [step, put, hs]
  | flags =>
    refine Adds.congr (g := stepFlags buffer ch) (u := s) ?_ (.refl _) fun l n => by
      simp [step, put, hs]
    exact adds_ite (adds_of_eq (u := { s with splat := true }) (.refl _) fun l n => rfl)
      (adds_ite (adds_of_eq (u := { s with
        width := ch.toNat - 48, state := .width, hasWidth := true }) (.refl _) fun l n => rfl) hmod)
  | width =>
    refine Adds.congr (g := stepWidth buffer ch) (u := s) ?_ (.refl _) fun l n => by
      simp [step, put, hs]
    exact adds_ite (adds_of_eq (u := { s with
      width := (s.width * 10 + (ch.toNat - 48)) % 2 ^ 32 }) (.refl _) fun l n => rfl) hmod
  | modifiers =>
    exact (adds_stepModifiers buffer hq ch).congr (.refl _) fun l n => by simp [step, put, hs]
  | matchInit =>
    by_cases h : ch = chr '^' ∧ ¬ s.inv
    · exact adds_of_eq (u := { s with matchinv := true }) (.refl _) fun l n => by
        simp only [step, stepMatchInit, put, hs]
        exact if_pos h
    · exact adds_of_eq (u := { s.setBit ch with state := .matching }) (.refl _) fun l n => by
        simp only [step, stepMatchInit, put, hs]
        exact if_neg h
  | matching =>
    refine Adds.congr (g := stepMatch ch) (u := s) ?_ (.refl _) fun l n => by simp [step, put, hs]
    exact adds_ite (adds_matchRun hq) (adds_ite
      (adds_of_eq (u := { s with rangeStart := ch, state := .matchRange }) (.refl _) fun l n => rfl)
      (adds_of_eq (u := s.setBit ch) (.refl _) fun l n => rfl))
  | matchRange =>
    refine Adds.congr (g := stepMatchRange ch) (u := s) ?_ (.refl _) fun l n => by
      simp [step, put, hs]
    exact adds_ite ((adds_matchRun (s := s.setBit (chr '-')) hq).congr (.refl _) fun l n => rfl)
      (adds_of_eq (u := { s with
        matchmap := fun i => s.matchmap i || (s.rangeStart ≤ i && i < ch)
        state := .matching }) (.refl _) fun l n => rfl)

end

end

/-! ### The loop over a part of the format -/

section
variable {bits : ℕ} {buffer : List UInt8} {s s' : Scan bits}

lemma loop_bail (hbail : s.bail ≠ .none) (format : List UInt8) : loop buffer format s = some s := by
  cases format with
  | nil => rfl
  | cons ch format => rw [loop, if_pos (Or.inr hbail)]

section
variable {ch : UInt8} (hch : ch ≠ 0) (hbail : s.bail = .none) (format : List UInt8)
include hch hbail format

lemma loop_cons : loop buffer (ch :: format) s = step buffer ch s >>= loop buffer format := by
  rw [loop, if_neg (by simp [hch, hbail])]

lemma loop_cons_of_step (hstep : step buffer ch s = some s') :
    loop buffer (ch :: format) s = loop buffer format s' := by
  rw [loop_cons hch hbail, hstep]
  rfl

omit format in
lemma loop_singleton : loop buffer [ch] s = step buffer ch s := by
  rw [loop_cons hch hbail]
  cases step buffer ch s <;> rfl

end

lemma loop_append : ∀ {a : List UInt8} (b : List UInt8) (s : Scan bits), 0 ∉ a →
    loop buffer (a ++ b) s = loop buffer a s >>= loop buffer b
  | [], b, s, _ => rfl
  | ch :: a, b, s, h => by
    obtain ⟨hch, ha⟩ := not_or.1 (mt mem_cons.2 h)
    by_cases hbail : s.bail = .none
    · rw [cons_append, loop_cons (Ne.symm hch) hbail, loop_cons (Ne.symm hch) hbail]
      cases step buffer ch s with
      | none => rfl
      | some s' => exact loop_append b s' ha
    · rw [loop_bail hbail, loop_bail hbail]
      exact (loop_bail hbail b).symm

variable (buffer) in
/-- **The loop** reads on, and adds to what was stored and counted. -/
theorem adds_loop : ∀ (format : List UInt8) {s : Scan bits}, 0 ∈ s.q → Adds (loop buffer format) s
  | [], s, _ => adds_of_eq (u := s) (.refl _) fun l n => rfl
  | ch :: format, s, hq => by
    by_cases hend : ch = 0 ∨ s.bail ≠ .none
    · exact adds_of_eq (u := s) (.refl _) fun l n => if_pos hend
    have hloop (l n) : loop buffer (ch :: format) (put s l n) =
      step buffer ch (put s l n) >>= loop buffer format := if_neg hend
    obtain hnone | ⟨u, σ, k, hr, hstep⟩ := adds_step buffer hq ch fun h0 => hend (.inl h0)
    · exact .inl fun l n => by rw [hloop, hnone]; rfl
    obtain hnone | ⟨v, τ, j, hr', hrest⟩ := adds_loop format (s := u) (hr.terminated hq)
    · exact .inl fun l n => by rw [hloop, hstep]; exact hnone _ _
    · refine .inr ⟨v, σ ++ τ, j + k, hr.trans hr', fun l n => ?_⟩
      rw [hloop, hstep, ← append_assoc, Function.iterate_add_apply]
      exact hrest _ _

/-- The scanner is in front of the next directive, behind the part `format` of the format. -/
structure Reached (buffer format : List UInt8) (ap : List ℕ) (s : Scan bits) : Prop where
  run : loop buffer format (Scan.init bits buffer ap) = some s
  normal : s.state = .normal
  goesOn : s.bail = .none

lemma Reached.terminated {format : List UInt8} {ap : List ℕ} (h : Reached buffer format ap s)
    (hbuffer : 0 ∈ buffer) : 0 ∈ s.q :=
  ((adds_loop buffer format hbuffer).reads h.run).terminated hbuffer

end

/-! ### Directives -/

section

def isModifier (ch : UInt8) : Bool :=
  ch = chr 'h' || ch = chr 'l' || ch = chr 'j' || ch = chr 'z' || ch = chr 't' || ch = chr 'L' ||
    ch = chr 'q'

/-- A directive: the digits of its width, if there is one, its length modifiers and its letter. -/
structure Directive where
  digits : List UInt8
  modifiers : List UInt8
  letter : UInt8
  digits_ok : ∀ ch ∈ digits, isDigit ch = true
  modifiers_ok : ∀ ch ∈ modifiers, isModifier ch = true
  letter_ok : isDigit letter = false ∧ isModifier letter = false ∧ letter ≠ chr '*' ∧ letter ≠ 0

/-- The text of a directive, with or without a `*`. -/
def Directive.text (D : Directive) (splat : Bool) : List UInt8 :=
  chr '%' :: ((if splat then [chr '*'] else []) ++ (D.digits ++ (D.modifiers ++ [D.letter])))

def digitStep (n : ℕ) (ch : UInt8) : ℕ := n * 10 + (ch.toNat - 48)

def value (digits : List UInt8) : ℕ := digits.foldl digitStep 0

/-- `width` behind the digits. -/
def Directive.width (D : Directive) : ℕ :=
  if D.digits = [] then UINT_MAX else value D.digits % 2 ^ 32

/-- `rank` behind a length modifier. -/
def rankStep (rank : ℤ) (ch : UInt8) : ℤ :=
  if ch = chr 'h' then wrap 32 (rank - 1)
  else if ch = chr 'l' then wrap 32 (rank + 1)
  else if ch = chr 'j' then 2
  else if ch = chr 'z' then 1
  else if ch = chr 't' then 1
  else 2

def Directive.apply {bits : ℕ} (D : Directive) (splat : Bool) (s : Scan bits) : Scan bits :=
  { s with
    state := .modifiers
    splat := splat
    inv := false
    hasWidth := D.digits ≠ []
    rank := D.modifiers.foldl rankStep 0
    width := D.width }

variable {bits : ℕ} {buffer : List UInt8} {s : Scan bits}

variable {ch : UInt8}

lemma stepModifiers_modifier (h : isModifier ch = true) :
    stepModifiers buffer ch s = some { s with rank := rankStep s.rank ch } := by
  unfold stepModifiers rankStep
  split_ifs with h1 h2 h3 h4 h5 h6
  iterate 6 rfl
  simp only [isModifier, Bool.or_eq_true, decide_eq_true_eq] at h
  tauto

lemma stepModifiers_letter (h : isModifier ch = false) :
    stepModifiers buffer ch s = convert buffer ch s := by
  simp only [isModifier, Bool.or_eq_false_iff, decide_eq_false_iff_not] at h
  obtain ⟨⟨⟨⟨⟨⟨h1, h2⟩, h3⟩, h4⟩, h5⟩, h6⟩, h7⟩ := h
  simp only [stepModifiers, if_neg h1, if_neg h2, if_neg h3, if_neg h4, if_neg h5,
    if_neg (not_or.2 ⟨h6, h7⟩)]

def BeforeLetter (s : Scan bits) : Prop :=
  s.state = .flags ∨ s.state = .width ∨ s.state = .modifiers

lemma step_beforeLetter (hs : BeforeLetter s) (hdigit : isDigit ch = false) (hstar : ch ≠ chr '*') :
    step buffer ch s = stepModifiers buffer ch { s with state := .modifiers } := by
  have hd : ¬ isDigit ch = true := by simp [hdigit]
  rcases hs with hs | hs | hs
  · simp only [step, hs, stepFlags, if_neg hstar, if_neg hd]
  · simp only [step, hs, stepWidth, if_neg hd]
  · simp only [step, hs]
    rw [← hs]

lemma modifier_ne (h : isModifier ch = true) : isDigit ch = false ∧ ch ≠ chr '*' ∧ ch ≠ 0 := by
  simp only [isModifier, Bool.or_eq_true, decide_eq_true_eq] at h
  rcases h with (((((rfl | rfl) | rfl) | rfl) | rfl) | rfl) | rfl <;> decide

lemma digit_ne (h : isDigit ch = true) : ch ≠ chr '*' ∧ ch ≠ 0 := by
  constructor
  · rintro rfl
    exact absurd h (by decide)
  · rintro rfl
    exact absurd h (by decide)

variable (D : Directive)

variable (splat : Bool)

lemma zero_notMem_text : 0 ∉ D.text splat := by
  have hdigits : 0 ∉ D.digits := fun h => (digit_ne (D.digits_ok 0 h)).2 rfl
  have hmodifiers : 0 ∉ D.modifiers := fun h => (modifier_ne (D.modifiers_ok 0 h)).2.2 rfl
  have hletter : 0 ≠ D.letter := D.letter_ok.2.2.2.symm
  have hpercent : (0 : UInt8) ≠ chr '%' := by decide
  have hstar : (0 : UInt8) ∉ (if splat then [chr '*'] else []) := by cases splat <;> decide
  simp only [Directive.text, mem_cons, mem_append, not_mem_nil, or_false, not_or]
  exact ⟨hpercent, hstar, hdigits, hmodifiers, hletter⟩

lemma loop_modifiers {letter : UInt8} (hletter : isDigit letter = false ∧
    isModifier letter = false ∧ letter ≠ chr '*' ∧ letter ≠ 0) (rest : List UInt8) :
    ∀ (modifiers : List UInt8) (s : Scan bits), (∀ ch ∈ modifiers, isModifier ch = true) →
      BeforeLetter s → s.bail = .none →
      loop buffer (modifiers ++ letter :: rest) s = convert buffer letter
          { s with state := .modifiers, rank := modifiers.foldl rankStep s.rank } >>=
          loop buffer rest
  | [], s, _, hs, hbail => by
    rw [nil_append, loop_cons hletter.2.2.2 hbail,
      step_beforeLetter hs hletter.1 hletter.2.2.1, stepModifiers_letter hletter.2.1]
    rfl
  | ch :: modifiers, s, hm, hs, hbail => by
    obtain ⟨hdigit, hstar, hnul⟩ := modifier_ne (hm ch mem_cons_self)
    have hstep : step buffer ch s = some
        { s with state := .modifiers, rank := rankStep s.rank ch } := by
      rw [step_beforeLetter hs hdigit hstar, stepModifiers_modifier (hm ch mem_cons_self)]
    rw [cons_append, loop_cons_of_step hnul hbail _ hstep]
    exact loop_modifiers hletter rest modifiers _ (fun c hc => hm c (mem_cons_of_mem _ hc))
      (Or.inr (Or.inr rfl)) hbail

lemma loop_digits (rest : List UInt8) : ∀ (digits : List UInt8) (s : Scan bits) (n : ℕ),
    (∀ ch ∈ digits, isDigit ch = true) → s.state = .width → s.bail = .none →
      s.width = n % 2 ^ 32 →
      loop buffer (digits ++ rest) s = loop buffer rest
        { s with width := digits.foldl digitStep n % 2 ^ 32 }
  | [], s, n, _, _, _, hn => by rw [nil_append, foldl_nil, ← hn]
  | ch :: digits, s, n, hd, hs, hbail, hn => by
    have hstep : step buffer ch s = some
        { s with width := (s.width * 10 + (ch.toNat - 48)) % 2 ^ 32 } := by
      simp only [step, hs, stepWidth, if_pos (hd ch mem_cons_self)]
    have hn' : (s.width * 10 + (ch.toNat - 48)) % 2 ^ 32 = digitStep n ch % 2 ^ 32 := by
      rw [hn, digitStep, Nat.add_mod, Nat.mod_mul_mod, ← Nat.add_mod]
    rw [cons_append, loop_cons_of_step (digit_ne (hd ch mem_cons_self)).2 hbail _ hstep]
    exact loop_digits rest digits _ (digitStep n ch)
      (fun c hc => hd c (mem_cons_of_mem _ hc)) hs hbail hn'

/-- The variables behind a `%` and, with `splat`, a `*`. -/
def afterPercent (splat : Bool) (s : Scan bits) : Scan bits :=
  { s with
    state := .flags
    splat := splat
    inv := false
    hasWidth := false
    rank := 0
    width := UINT_MAX }

lemma loop_percent (rest : List UInt8) (hs : s.state = .normal) (hbail : s.bail = .none) :
    loop buffer (chr '%' :: ((if splat then [chr '*'] else []) ++ rest)) s =
      loop buffer rest (afterPercent splat s) := by
  have hpercent : step buffer (chr '%') s = some (afterPercent false s) := by
    simp only [step, hs, stepNormal, if_true, afterPercent]
  rw [loop_cons_of_step (by decide) hbail _ hpercent]
  cases splat with
  | false => rfl
  | true =>
    have hbail0 : (afterPercent false s).bail = .none := hbail
    exact loop_cons_of_step (show chr '*' ≠ 0 by decide) hbail0 _ rfl

/-- **A directive** is one call of `convert`, with the flags, the width and the rank that its text
gives. -/
theorem loop_directive (rest : List UInt8) (hs : s.state = .normal) (hbail : s.bail = .none) :
    loop buffer (D.text splat ++ rest) s =
      convert buffer D.letter (D.apply splat s) >>= loop buffer rest := by
  have htext : D.text splat ++ rest = chr '%' :: ((if splat then [chr '*'] else []) ++
      (D.digits ++ (D.modifiers ++ D.letter :: rest))) := by
    simp [Directive.text]
  rw [htext, loop_percent splat _ hs hbail]
  cases hd : D.digits with
  | nil =>
    rw [nil_append, loop_modifiers D.letter_ok rest D.modifiers (afterPercent splat s)
      D.modifiers_ok (Or.inl rfl) hbail]
    simp [Directive.apply, Directive.width, hd, afterPercent]
  | cons d digits =>
    have hok : ∀ ch ∈ d :: digits, isDigit ch = true := fun ch h => D.digits_ok ch (hd ▸ h)
    have hdigit := hok d mem_cons_self
    have hlt : d.toNat - 48 < 2 ^ 32 := by
      have := d.toNat_lt
      omega
    -- the first digit leaves the state of the flags
    obtain ⟨s1, hs1⟩ : ∃ s1, s1 = { afterPercent splat s with
      state := .width, hasWidth := true, width := d.toNat - 48 } := ⟨_, rfl⟩
    have hstep : step buffer d (afterPercent splat s) = some s1 := by
      rw [hs1]
      simp only [step, afterPercent, stepFlags, if_neg (digit_ne hdigit).1, if_pos hdigit]
    have hbail1 : s1.bail = .none := by rw [hs1]; exact hbail
    have hbail0 : (afterPercent splat s).bail = .none := hbail
    rw [cons_append, loop_cons_of_step (digit_ne hdigit).2 hbail0 _ hstep,
      loop_digits _ digits s1 (d.toNat - 48) (fun ch h => hok ch (mem_cons_of_mem _ h))
        (by rw [hs1]) hbail1 (by rw [hs1, Nat.mod_eq_of_lt hlt])]
    obtain ⟨s2, hs2⟩ : ∃ s2, s2 = { s1 with
      width := digits.foldl digitStep (d.toNat - 48) % 2 ^ 32 } := ⟨_, rfl⟩
    have hstate2 : s2.state = .width := by rw [hs2, hs1]
    have hbail2 : s2.bail = .none := by rw [hs2]; exact hbail1
    rw [← hs2, loop_modifiers D.letter_ok rest D.modifiers s2 D.modifiers_ok
      (Or.inr (Or.inl hstate2)) hbail2]
    simp [hs2, hs1, Directive.apply, Directive.width, hd, value, foldl_cons, digitStep,
      afterPercent]

lemma loop_letter (hs : s.state = .normal) (hbail : s.bail = .none) :
    loop buffer (D.text splat) s = convert buffer D.letter (D.apply splat s) := by
  have h : loop buffer (D.text splat ++ []) s = _ := loop_directive D splat [] hs hbail
  rw [append_nil] at h
  rw [h]
  cases convert buffer D.letter (D.apply splat s) <;> rfl

def Directive.ready (D : Directive) (splat : Bool) (s : Scan bits) : Scan bits :=
  { D.apply splat s with state := .normal }

variable (s : Scan bits)

lemma convert_char : convert buffer (chr 'c') (D.apply splat s) = scanChar (D.ready splat s) := rfl

lemma convert_str : convert buffer (chr 's') (D.apply splat s) = scanStr (D.ready splat s) := rfl

lemma convert_set : convert buffer (chr '[') (D.apply splat s) = scanSet (D.ready splat s) := rfl

/-- The width of `%c`, which is one by default. -/
def Directive.charWidth (D : Directive) : ℕ := if D.digits = [] then 1 else D.width

lemma charWidth_ready : ScanLoop.charWidth (D.ready splat s) = D.charWidth := by
  by_cases hD : D.digits = []
  · rw [Directive.charWidth, if_pos hD]
    exact if_neg (by simp [Directive.ready, Directive.apply, hD])
  · rw [Directive.charWidth, if_neg hD]
    exact if_pos (by simp [Directive.ready, Directive.apply, hD])

lemma digits_nil : ∀ ch ∈ ([] : List UInt8), isDigit ch = true := forall_mem_nil _

lemma modifiers_nil : ∀ ch ∈ ([] : List UInt8), isModifier ch = true := forall_mem_nil _

/-- `%[`, with the digits of a width or none. -/
def Directive.set (digits : List UInt8) (h : ∀ ch ∈ digits, isDigit ch = true) : Directive where
  digits := digits
  modifiers := []
  letter := chr '['
  digits_ok := h
  modifiers_ok := modifiers_nil
  letter_ok := by decide

/-- The variables behind `%[`, with the argument `p` or none, and the arguments left. -/
def Directive.begun (D : Directive) (splat : Bool) (p : Option ℕ) (ap : List ℕ) (s : Scan bits) :
    Scan bits :=
  { D.apply splat s with
    state := .matchInit
    matchinv := false
    matchmap := fun _ => false
    sarg := p
    ap := ap }

lemma convert_set_splat :
    convert buffer (chr '[') (D.apply true s) = some (D.begun true none s.ap s) := by
  rfl

variable {s} in
lemma convert_set_store {p : ℕ} {ap : List ℕ} (hap : s.ap = p :: ap) :
    convert buffer (chr '[') (D.apply false s) = some (D.begun false (some p) ap s) := by
  have hap' : (D.ready false s).ap = p :: ap := hap
  rw [convert_set, scanSet_store rfl hap']
  rfl

end

end Klibc.Stdio.ScanLoop
