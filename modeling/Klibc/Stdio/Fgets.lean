import Mathlib.Data.List.DropRight
import Klibc.Stdio.Input
import Klibc.Stdio.Strntoumax

/-! # `fgets`

`fgets` returns `NULL` when it comes to the end of the file, also if it has stored characters of a
last line before. A program that reads lines until then does not see that line. -/

namespace Klibc.Stdio.Fgets

open Lib.Total Input Stdio.Stream List
open Vsnprintf (chr)

/-- A turn of the loop of `fgets`, with the characters stored before. -/
def fgetsTurn (C : Config) : ℕ × List UInt8 → Call (ℕ × List UInt8 ⊕ Option (List UInt8))
  | (n, p) =>
    if n > 1 then do
      let ch ← fgetc C
      if ch = EOF then return .inr none
      else if byteOf ch = chr '\n' then return .inr (some (p ++ [byteOf ch]))
      else return .inl (n - 1, p ++ [byteOf ch])
    else return .inr (some p)

/-- `fgets`: the characters of the line, or `none` for `NULL`. -/
def fgets (C : Config) (n : ℕ) : Call (Option (List UInt8)) := Loop.run ⟨fgetsTurn C⟩ (n, [])

/-- The strings that `fgets` returns until it returns `NULL`. -/
def readLines (C : Config) (n : ℕ) : Call (List (List UInt8)) :=
  Loop.run ⟨fun lines => do
    match ← fgets C n with
    | none => return .inr lines
    | some line => return .inl (lines ++ [line.takeWhile (· ≠ 0)])⟩ []

/-! ### One call -/

/-- What a call may return: a line, or as much of it as there is room for. -/
structure Piece (n : ℕ) (t : List UInt8) : Prop where
  length_le : t.length ≤ n - 1
  newline : chr '\n' ∉ t.dropLast
  full : t.length = n - 1 ∨ t.getLast? = some (chr '\n')

section
variable {C : Config} {s : Sys} {n : ℕ}

def Calm (answers : ℕ → Answer) : Prop := ∀ i, ∀ e : Errno, answers i = .fail e → e.again

/-- What a call takes: what it returns or, if that is `NULL`, what it has stored in vain. -/
structure Taken (C : Config) (n : ℕ) (s : Sys) (line : Option (List UInt8)) (s' : Sys) : Prop where
  readable : Readable C s'
  calm : Calm s.fd.answers → Calm s'.fd.answers
  text : ∃ t, rest s = t ++ rest s' ∧ (line = some t ∧ Piece n t ∨
    line = none ∧ t.length < n - 1 ∧ chr '\n' ∉ t ∧ (Calm s.fd.answers → rest s' = []))

lemma Piece.length_pos {t : List UInt8} (h : Piece n t) (hn : 2 ≤ n) : 0 < t.length := by
  rcases h.full with hfull | hlast
  · omega
  · exact length_pos_of_mem (mem_of_getLast? hlast)

lemma Taken.shorter {s' : Sys} {line : List UInt8} (h : Taken C n s (some line) s') (hn : 2 ≤ n) :
    (rest s').length < (rest s).length := by
  obtain ⟨t, ht, ⟨-, hpiece⟩ | ⟨hnone, -⟩⟩ := h.text
  · have hpos := hpiece.length_pos hn
    rw [ht, length_append]
    omega
  · exact absurd hnone (Option.some_ne_none _)

lemma byteOf_toNat (ch : UInt8) : byteOf ch.toNat = ch :=
  Strntoumax.forall_byte (P := fun ch => byteOf ch.toNat = ch) (by decide +kernel) ch

lemma Calm.took {t : Sys} {data : List UInt8} (h : Calm s.fd.answers) (ht : Took s data t) :
    Calm t.fd.answers := by
  obtain ⟨i, hi⟩ := ht.answers
  intro j e hj
  rw [hi] at hj
  exact h _ e hj

lemma Calm.not_failed {t : Sys} (h : Calm s.fd.answers) : ¬Failed s t := by
  rintro ⟨-, i, e, he, hi, -⟩
  exact he (h i e hi)

/-- **A call of `fgets`.** -/
theorem returns_fgets (h : Readable C s) (hn : 2 ≤ n) : Returns (fgets C n) s (Taken C n s) := by
  -- The characters before the turn have no newline, and the counter has room for the others.
  refine returns_loop_of_measure (fun a t => Readable C t ∧
    (Calm s.fd.answers → Calm t.fd.answers) ∧ rest s = a.2 ++ rest t ∧ a.1 + a.2.length = n ∧
    1 ≤ a.1 ∧ chr '\n' ∉ a.2) (fun a _ => a.1) ?_ ⟨h, id, rfl, rfl, by omega, not_mem_nil⟩
  rintro ⟨k, p⟩ t ⟨ht, hc, hrest, hk, hpos, hp⟩
  simp only at hrest hk hpos hp
  rw [fgetsTurn]
  split_ifs with hmore
  · simp only [returns_bind]
    refine (returns_fgetc ht).mono ?_
    rintro r t' ⟨data, hd, hr⟩
    have hc' (hcalm) := (hc hcalm).took hd.took
    rw [hd.took.rest] at hrest
    rcases hr with ⟨rfl, rfl⟩ | ⟨ch, rfl, rfl⟩
    · rw [if_pos rfl, returns_pure]
      have hend (hcalm) := (hd.short (by simp)).resolve_right (hc hcalm).not_failed
      exact ⟨hd.readable, hc', p, hrest, .inr ⟨rfl, by omega, hp, fun hcalm => (hend hcalm).1⟩⟩
    · have hch : ((ch.toNat : ℕ) : ℤ) ≠ EOF := by
        unfold EOF
        omega
      rw [← append_assoc] at hrest
      rw [if_neg hch, byteOf_toNat]
      split_ifs with hnl
      · rw [returns_pure]
        refine ⟨hd.readable, hc', p ++ [ch], hrest, .inl ⟨rfl, ?_, ?_, .inr ?_⟩⟩
        · rw [length_append, length_singleton]
          omega
        · rwa [dropLast_concat]
        · rw [getLast?_concat, hnl]
      · rw [returns_pure]
        refine ⟨⟨hd.readable, hc', hrest, ?_, ?_, ?_⟩, Nat.sub_lt (by omega) (by decide)⟩
        · rw [length_append, length_singleton]
          omega
        · omega
        · simp [hp, Ne.symm hnl]
  · rw [returns_pure]
    exact ⟨ht, hc, p, hrest, .inl ⟨rfl, by omega, fun h => hp (dropLast_subset _ h),
      .inl (by omega)⟩⟩

end

/-! ### All calls -/

def lastLine (l : List UInt8) : List UInt8 := l.rtakeWhile (· ≠ chr '\n')

section
variable {n : ℕ} {t l : List UInt8} {lines : List (List UInt8)}

lemma lastLine_of_notMem (h : chr '\n' ∉ l) : lastLine (t ++ l) = lastLine t ++ l := by
  have hall : ∀ c ∈ l.reverse, decide (c ≠ chr '\n') = true := by
    intro c hc
    simpa using fun he : c = chr '\n' => h (he ▸ mem_reverse.1 hc)
  rw [lastLine, lastLine, List.rtakeWhile, List.rtakeWhile, reverse_append,
    takeWhile_append_of_pos hall, reverse_append, reverse_reverse]

lemma lastLine_of_mem (h : chr '\n' ∈ l) : lastLine (t ++ l) = lastLine l := by
  obtain ⟨a, b, hab, hb⟩ := eq_append_cons_of_mem (mem_reverse.2 h)
  have hall : ∀ c ∈ a, decide (c ≠ chr '\n') = true := by
    intro c hc
    simpa using fun he : c = chr '\n' => hb (he ▸ hc)
  rw [lastLine, lastLine, List.rtakeWhile, List.rtakeWhile, reverse_append, hab,
    append_assoc, takeWhile_append_of_pos hall, takeWhile_append_of_pos hall,
    cons_append, takeWhile_cons_of_neg (by simp), takeWhile_cons_of_neg (by simp)]

lemma lastLine_eq (h : chr '\n' ∉ l) : lastLine l = l := by
  simpa [lastLine] using lastLine_of_notMem (t := []) h

/-- A piece is a line or does not change what is left of the last line. -/
theorem Piece.lastLine (h : Piece n t) :
    (lastLine (t ++ l)).length % (n - 1) = (lastLine l).length % (n - 1) := by
  by_cases hl : chr '\n' ∈ l
  · rw [lastLine_of_mem hl]
  · rw [lastLine_of_notMem hl, lastLine_eq hl, length_append]
    rcases eq_nil_or_concat' t with rfl | ⟨p, c, rfl⟩
    · simp [Fgets.lastLine]
    · have hp := h.newline
      rw [dropLast_concat] at hp
      by_cases hc : c = chr '\n'
      · rw [Fgets.lastLine, rtakeWhile_concat_neg _ _ _ (by simp [hc]), length_nil, Nat.zero_add]
      · have hlen := h.full.resolve_right (by simp [hc])
        rw [lastLine_eq (by simp [hp, Ne.symm hc]), hlen, Nat.add_mod_left]

lemma lastLine_pieces (h : ∀ t ∈ lines, Piece n t) :
    (lastLine (lines.flatten ++ l)).length % (n - 1) = (lastLine l).length % (n - 1) := by
  induction lines with
  | nil => rfl
  | cons t lines ih =>
    rw [forall_mem_cons] at h
    rw [flatten_cons, append_assoc, h.1.lastLine, ih h.2]

/-- How reading ends: what was stored when the end of the file came is lost. -/
structure Ends (n : ℕ) (text lost : List UInt8) (lines : List (List UInt8)) : Prop where
  text : text = lines.flatten ++ lost
  pieces : ∀ t ∈ lines, Piece n t
  short : lost.length < n - 1
  newline : chr '\n' ∉ lost

lemma Ends.lost_iff {text lost : List UInt8} (h : Ends n text lost lines) :
    lost = [] ↔ n - 1 ∣ (lastLine text).length := by
  rw [Nat.dvd_iff_mod_eq_zero, h.text, lastLine_pieces h.pieces, lastLine_eq h.newline,
    Nat.mod_eq_of_lt h.short, length_eq_zero_iff]

end

/-- A stream that was opened on a text, and the room for a line and a NUL. -/
structure Reading where
  C : Config
  n : ℕ
  s : Sys
  pos : ℤ
  two_le : 2 ≤ n
  opened : Opened C pos s.f
  live : Live s.fd.answers
  calm : Calm s.fd.answers
  nul : 0 ∉ s.fd.contents

def Reading.text (x : Reading) : List UInt8 := x.s.fd.contents.drop x.s.fd.offset

/-- The strings are the text, in pieces that end with a line, with the room or with the text. -/
def Complete (n : ℕ) (text : List UInt8) (lines : List (List UInt8)) : Prop :=
  lines.flatten = text ∧ (∀ t ∈ lines, t.length ≤ n - 1 ∧ chr '\n' ∉ t.dropLast) ∧
    ∀ a t b, lines = a ++ t :: b → t.length < n - 1 →
      t.getLast? = some (chr '\n') ∨ (a ++ [t]).flatten = text

section
variable (x : Reading)

lemma returns_readLines :
    Returns (readLines x.C x.n) x.s fun lines _ => ∃ lost, Ends x.n x.text lost lines := by
  have hn := x.two_le
  have htext : rest x.s = x.text := rest_of_opened x.opened
  refine returns_loop_of_measure (fun lines t => Readable x.C t ∧ Calm t.fd.answers ∧
    x.text = lines.flatten ++ rest t ∧ ∀ l ∈ lines, Piece x.n l) (fun _ t => (rest t).length) ?_
    ⟨readable_of_opened x.opened x.live, x.calm, htext.symm, by simp⟩
  rintro lines t ⟨ht, hcalm, hlines, hpieces⟩
  simp only [returns_bind]
  refine (returns_fgets ht hn).mono ?_
  rintro line t' ⟨ht', hcalm', p, hp, ⟨rfl, hpiece⟩ | ⟨rfl, hshort, hnl, hend⟩⟩
  · have hnul : ∀ c ∈ p, decide (c ≠ 0) = true := by
      intro c hc
      have hmem : c ∈ x.text := by
        rw [hlines, hp]
        simp [hc]
      simpa using fun h0 : c = 0 => x.nul (mem_of_mem_drop (h0 ▸ hmem))
    have hpos := hpiece.length_pos hn
    rw [returns_pure, takeWhile_eq_self_iff.2 hnul]
    refine ⟨⟨ht', hcalm' hcalm, by simp [hlines, hp], ?_⟩, ?_⟩
    · simpa [or_imp, forall_and] using ⟨hpieces, hpiece⟩
    · rw [hp, length_append]
      omega
  · rw [returns_pure]
    rw [hend hcalm, append_nil] at hp
    exact ⟨p, by rw [hlines, hp], hpieces, hshort, hnl⟩

/-- **Reading a text line by line** yields all of it iff the room divides the length of what stands
behind the last newline. -/
theorem fgets_lines_iff :
    Returns (readLines x.C x.n) x.s (fun lines _ => Complete x.n x.text lines) ↔
      x.n - 1 ∣ (lastLine x.text).length := by
  obtain ⟨lines, s', hread, lost, hends⟩ := returns_readLines x
  rw [returns_iff_of_eq hread, ← hends.lost_iff]
  constructor
  · intro h
    have htext := hends.text
    rw [h.1] at htext
    exact append_right_eq_self.1 htext.symm
  · rintro rfl
    refine ⟨by rw [hends.text, append_nil], fun t ht =>
      ⟨(hends.pieces t ht).length_le, (hends.pieces t ht).newline⟩, ?_⟩
    rintro a t b rfl hlt
    exact .inl ((hends.pieces t (by simp)).full.resolve_left hlt.ne)

end

def noNewline : Reading where
  C := config64
  n := 512
  s := oneByte
  pos := 0
  two_le := by decide
  opened := oneByte_opened
  live := oneByte_live
  calm := fun _ _ h => nomatch h
  nul := by decide

/-- No string is returned for it. -/
theorem readLines_noNewline : Returns (readLines config64 512) oneByte (fun lines _ => lines = []) ∧
    ¬Returns (readLines config64 512) oneByte (fun lines _ => Complete 512 [65] lines) := by
  have hread := returns_readLines noNewline
  have hnil : Returns (readLines config64 512) oneByte (fun lines _ => lines = []) := by
    refine hread.mono ?_
    rintro lines - ⟨lost, hends⟩
    cases lines with
    | nil => rfl
    | cons t lines =>
      have htext : [65] = t ++ lines.flatten ++ lost := hends.text
      have hn : noNewline.n = 512 := rfl
      rcases (hends.pieces t mem_cons_self).full with h | h
      · have hlen := congrArg List.length htext
        simp only [length_append, length_singleton] at hlen
        omega
      · have hmem : chr '\n' ∈ [65] := by
          rw [htext]
          simp [mem_of_getLast? h]
        exact absurd hmem (by decide)
  refine ⟨hnil, fun h => ?_⟩
  obtain ⟨lines, s', heq, rfl⟩ := hnil
  exact absurd (h.elim heq).1 (by decide)

end Klibc.Stdio.Fgets
