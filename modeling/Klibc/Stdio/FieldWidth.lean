import Klibc.Stdio.ScanLoop

/-! # Field widths

What a conversion `%Nc`, `%Ns` or `%N[` reads and stores. A conversion lasts until the scanner is in
its ground state again. `%c` and `%s` are over with their letter and count the width down. The loop
of `match_run` only asks whether the width is zero, so that a scan set reads what its set takes of
the input (`setPrefix`), and is within its width only if that is (`fieldWidth_iff`). -/

namespace Klibc.Stdio.FieldWidth

open Lib.Machine Vsscanf ScanLoop List
open Vsnprintf (chr isDigit)

variable {bits : ℕ} {buffer : List UInt8} {s : Scan bits}

/-! ### A conversion -/

def untilNormal (buffer : List UInt8) : List UInt8 → Scan bits → Option (Scan bits × List UInt8)
  | [], s => some (s, [])
  | ch :: format, s =>
    if ch = 0 ∨ s.bail ≠ .none ∨ s.state = .normal then some (s, ch :: format)
    else step buffer ch s >>= untilNormal buffer format

/-- A conversion of the format: its directive, and the part of what follows that still belongs to
it. -/
def conversion (buffer : List UInt8) (D : Directive) (splat : Bool) (rest : List UInt8)
    (s : Scan bits) : Option (Scan bits × List UInt8) :=
  loop buffer (D.text splat) s >>= untilNormal buffer rest

lemma conversion_eq (D : Directive) (splat : Bool) (rest : List UInt8) (hs : s.state = .normal)
    (hbail : s.bail = .none) : conversion buffer D splat rest s =
      convert buffer D.letter (D.apply splat s) >>= untilNormal buffer rest := by
  have hdirective : loop buffer (D.text splat ++ []) s = _ := loop_directive D splat [] hs hbail
  rw [append_nil] at hdirective
  rw [conversion, hdirective]
  cases convert buffer D.letter (D.apply splat s) with
  | none => rfl
  | some s' => rfl

lemma untilNormal_normal (hs : s.state = .normal) (rest : List UInt8) :
    untilNormal buffer rest s = some (s, rest) := by
  cases rest with
  | nil => rfl
  | cons ch rest => rw [untilNormal, if_pos (Or.inr (Or.inr hs))]

/-! ### What a scan set reads -/

/-- The sets that the text behind a `[` describes to the scanner, one for each `]`: behind it, the
scanner takes what follows for more members. A range begins with its `-`. -/
def sets : List UInt8 → St → Bool → (UInt8 → Bool) → List (UInt8 → Bool)
  | [], _, _, _ => []
  | ch :: text, st, inv, m =>
    if ch = 0 then [] else match st with
    | .matchInit =>
      if ch = chr '^' then sets text .matchInit true m
      else sets text .matching inv (Function.update m ch true)
    | .matching =>
      if ch = chr ']' then (fun c => m c ^^ inv) :: sets text .matching inv m
      else if ch = chr '-' then sets text .matchRange inv m
      else sets text .matching inv (Function.update m ch true)
    | .matchRange =>
      if ch = chr ']' then
        (fun c => Function.update m (chr '-') true c ^^ inv) ::
          sets text .matchRange inv (Function.update m (chr '-') true)
      else sets text .matching inv fun c => m c || (chr '-' ≤ c && c < ch)
    | _ => []

/-- **The prefix of a string that sets take**, one after the other, until one finds nothing or takes
all that is left. A suppressed conversion ends with its first set. -/
def prefixTaken (once : Bool) : List (UInt8 → Bool) → List UInt8 → List UInt8
  | [], _ => []
  | S :: Ss, I =>
    if once ∨ I.takeWhile S = [] ∨ I.takeWhile S = I then I.takeWhile S
    else I.takeWhile S ++ prefixTaken once Ss (I.drop (I.takeWhile S).length)

section

def InSet (s : Scan bits) : Prop :=
  s.state = .matchInit ∨ s.state = .matching ∨ s.state = .matchRange

/-- What a scan set has done since it was begun with the variables `s₀` and the argument `p`: it has
read `l`, and what it has stored is no more than that and a NUL. -/
structure Taken (s₀ : Scan bits) (p : Option ℕ) (l : List UInt8) (s : Scan bits) : Prop where
  inSet : InSet s
  inv : s.inv = false
  range : s.state = .matchRange → s.rangeStart = chr '-'
  read : s₀.q = l ++ s.q
  nonul : 0 ∉ l
  sarg : s.sarg = p.map (· + l.length)
  stored : ∃ σ, s.stores = s₀.stores ++ σ ∧ ∀ x ∈ σ, ∃ a b, p = some a ∧ x.2 = .bytes b ∧
    a ≤ x.1 ∧ x.1 + b.length ≤ a + l.length + 1

/-- What the sets `Ss` take from now on. -/
def later (once : Bool) (Ss : List (UInt8 → Bool)) (s : Scan bits) : List UInt8 :=
  if s.width ≠ 0 ∧ s.bail = .none then prefixTaken once Ss (string s.q) else []

def setsFrom (format : List UInt8) (s : Scan bits) : List (UInt8 → Bool) :=
  sets format s.state s.matchinv s.matchmap

lemma later_of_bail (once : Bool) (Ss : List (UInt8 → Bool)) (h : s.bail ≠ .none) :
    later once Ss s = [] :=
  if_neg fun hgo => h hgo.2

variable {s₀ : Scan bits} {p : Option ℕ} {l : List UInt8}

section
variable (h : Taken s₀ p l s) (h0 : 0 ∈ s₀.q) (hbail : s.bail = .none)
include h h0 hbail

lemma Taken.matchRun : ∃ s' l', matchRun s = some s' ∧ Taken s₀ p (l ++ l') s' ∧
      ∀ format, later p.isNone (hit s :: setsFrom format s) s =
        l' ++ later p.isNone (setsFrom format s') s' := by
  obtain ⟨I, r, hI, hnul⟩ := exists_string (Reads.terminated ⟨l, h.read, h.nonul⟩ h0)
  obtain ⟨σ, hσ, hbound⟩ := h.stored
  have hstring : string s.q = I := by rw [hI, string_eq hnul]
  have hprefix : matched s I <+: I := by
    unfold matched
    split_ifs
    · exact List.takeWhile_prefix _
    · exact nil_prefix
  have hdrop : string (I.drop (matched s I).length ++ 0 :: r) = I.drop (matched s I).length :=
    string_eq fun hm => hnul (mem_of_mem_drop hm)
  have hread : s₀.q = l ++ matched s I ++ (I.drop (matched s I).length ++ 0 :: r) := by
    rw [h.read, hI, append_assoc, ← append_assoc (matched s I), prefix_iff_eq_append.1 hprefix]
  have hnul' : 0 ∉ l ++ matched s I := by
    refine fun hm => (mem_append.1 hm).elim h.nonul fun hm => hnul ?_
    exact hprefix.subset hm
  have hlater : ∀ Ss, later p.isNone (hit s :: Ss) s =
      if p.isNone ∨ matched s I = [] ∨ matched s I = I then matched s I
      else matched s I ++ prefixTaken p.isNone Ss (I.drop (matched s I).length) := by
    intro Ss
    by_cases hw : s.width ≠ 0
    · have hmatched : matched s I = I.takeWhile (hit s) := if_pos hw
      rw [later, if_pos ⟨hw, hbail⟩, prefixTaken, hstring, hmatched]
    · have hmatched : matched s I = [] := if_neg hw
      rw [later, if_neg fun hgo => hw hgo.1, hmatched, if_pos (.inr (.inl rfl))]
  by_cases hnil : matched s I = []
  · refine ⟨_, [], matchRun_nil hI hnul hnil, ?_, fun format => ?_⟩
    · rw [append_nil]
      exact ⟨h.inSet, h.inv, h.range, h.read, h.nonul, h.sarg, σ, hσ, hbound⟩
    · rw [hlater, if_pos (.inr (.inl hnil)), hnil, nil_append, later_of_bail]
      cases atEnd s I <;> simp
  · cases p with
    | none =>
      refine ⟨_, matched s I, matchRun_none hI hnul h.sarg, ?_, fun format => ?_⟩
      · refine ⟨h.inSet, h.inv, h.range, hread, hnul', h.sarg, σ, hσ, fun x hx => ?_⟩
        obtain ⟨a, b, ha, -⟩ := hbound x hx
        exact absurd ha (by simp)
      · rw [hlater, if_pos (.inl rfl), later_of_bail, append_nil]
        cases atEnd s I <;> simp
    | some a =>
      refine ⟨_, matched s I, matchRun_store hI hnul h.sarg hnil, ?_, fun format => ?_⟩
      · refine ⟨h.inSet, h.inv, h.range, hread, hnul', ?_,
          σ ++ [(a + l.length, .bytes (matched s I ++ [0]))], ?_, fun x hx => ?_⟩
        · simp only [Option.map_some, length_append, Nat.add_assoc]
        · rw [← append_assoc, ← hσ]
        · rw [length_append]
          rcases mem_append.1 hx with hx | hx
          · obtain ⟨a', b, ha', hb, hle, hlen⟩ := hbound x hx
            exact ⟨a', b, ha', hb, hle, by omega⟩
          · rw [mem_singleton] at hx
            refine ⟨a, matched s I ++ [0], rfl, by rw [hx], by rw [hx]; omega, ?_⟩
            rw [hx, length_append, length_singleton]
            omega
      · have hw : s.width ≠ 0 := fun hw => hnil (if_neg (not_not.2 hw))
        rw [hlater]
        by_cases hall : matched s I = I
        · rw [if_pos (.inr (.inr hall)), later_of_bail, append_nil]
          simp [atEnd, hw, hall]
        · have hend : atEnd s I = false := by simp [atEnd, hall]
          rw [if_neg (by simp [hnil, hall]), later, if_pos ⟨hw, by simp [hend, hbail]⟩, hdrop]
          rfl

/-- **A step of a scan set** reads and stores as `match_run` does, or not at all. -/
theorem Taken.step (buffer : List UInt8) {ch : UInt8} (hch : ch ≠ 0) :
    ∃ s' l', step buffer ch s = some s' ∧ Taken s₀ p (l ++ l') s' ∧
      ∀ format, later p.isNone (setsFrom (ch :: format) s) s =
        l' ++ later p.isNone (setsFrom format s') s' := by
  obtain ⟨hset, hinv, hrange, hread, hnul, hsarg, hstored⟩ := h
  have hquiet : ∀ {s' : Scan bits}, Taken s₀ p l s' → Taken s₀ p (l ++ []) s' := fun h' => by
    rwa [append_nil]
  rcases hset with h | h | h
  · simp only [Vsscanf.step, h, stepMatchInit, setsFrom, sets, if_neg hch]
    by_cases hc : ch = chr '^'
    · refine ⟨_, [], if_pos ⟨hc, by simp [hinv]⟩, hquiet ⟨Or.inl rfl, hinv, (by rintro ⟨⟩), hread,
        hnul, hsarg, hstored⟩, fun format => ?_⟩
      rw [if_pos hc]
      rfl
    · refine ⟨_, [], if_neg fun hc' => hc hc'.1, hquiet ⟨Or.inr (Or.inl rfl), hinv,
        (by rintro ⟨⟩), hread, hnul, hsarg, hstored⟩, fun format => ?_⟩
      rw [if_neg hc]
      rfl
  · simp only [Vsscanf.step, h, stepMatch, setsFrom, sets, if_neg hch]
    by_cases hclose : ch = chr ']'
    · simp only [if_pos hclose]
      obtain ⟨s', l', hrun, ht, hlater⟩ := Taken.matchRun
        ⟨Or.inr (Or.inl h), hinv, hrange, hread, hnul, hsarg, hstored⟩ h0 hbail
      refine ⟨s', l', hrun, ht, fun format => Eq.trans ?_ (hlater format)⟩
      rw [← h]
      rfl
    · simp only [if_neg hclose]
      by_cases hdash : ch = chr '-'
      · refine ⟨_, [], if_pos hdash, hquiet ⟨Or.inr (Or.inr rfl), hinv, fun _ => hdash, hread, hnul,
          hsarg, hstored⟩, fun format => ?_⟩
        rw [if_pos hdash]
        rfl
      · refine ⟨_, [], if_neg hdash, hquiet ⟨Or.inr (Or.inl h), hinv, hrange, hread, hnul, hsarg,
          hstored⟩, fun format => ?_⟩
        rw [if_neg hdash, ← h]
        rfl
  · simp only [Vsscanf.step, h, stepMatchRange, setsFrom, sets, if_neg hch]
    by_cases hclose : ch = chr ']'
    · simp only [if_pos hclose]
      obtain ⟨s', l', hrun, ht, hlater⟩ := Taken.matchRun (s := s.setBit (chr '-'))
        ⟨Or.inr (Or.inr h), hinv, hrange, hread, hnul, hsarg, hstored⟩ h0 hbail
      refine ⟨s', l', hrun, ht, fun format => Eq.trans ?_ (hlater format)⟩
      rw [← h]
      rfl
    · refine ⟨_, [], if_neg hclose, hquiet ⟨Or.inr (Or.inl rfl), hinv, (by rintro ⟨⟩), hread, hnul,
        hsarg, hstored⟩, fun format => ?_⟩
      rw [if_neg hclose, ← hrange h]
      rfl

end

/-- **The run of a scan set** to the end of the format: the scanner does not come back to its ground
state. -/
theorem Taken.run (h0 : 0 ∈ s₀.q) (buffer : List UInt8) : ∀ (format : List UInt8) {s : Scan bits}
    {l : List UInt8}, Taken s₀ p l s → ∃ t left, untilNormal buffer format s = some (t, left) ∧
      Taken s₀ p (l ++ later p.isNone (setsFrom format s) s) t
  | [], s, l, h => by
    refine ⟨s, [], rfl, ?_⟩
    have hnil : later p.isNone (setsFrom [] s) s = [] := ite_self _
    rwa [hnil, append_nil]
  | ch :: format, s, l, h => by
    by_cases hend : ch = 0 ∨ s.bail ≠ .none ∨ s.state = .normal
    · refine ⟨s, ch :: format, by rw [untilNormal, if_pos hend], ?_⟩
      have hnil : later p.isNone (setsFrom (ch :: format) s) s = [] := by
        rcases hend with h | h | h
        · simp [later, setsFrom, sets, prefixTaken, h]
        · exact later_of_bail _ _ h
        · simp [later, setsFrom, sets, prefixTaken, h]
      rwa [hnil, append_nil]
    · obtain ⟨hch, hbail, -⟩ : ch ≠ 0 ∧ s.bail = .none ∧ _ := by
        simpa only [not_or, not_not, ne_eq] using hend
      obtain ⟨s', l', hstep, h', hlater⟩ := h.step h0 hbail buffer hch
      obtain ⟨t, left, hrun, ht⟩ := Taken.run h0 buffer format h'
      refine ⟨t, left, ?_, by rwa [hlater, ← append_assoc]⟩
      rw [untilNormal, if_neg hend, hstep]
      exact hrun

end

/-! ### The bound -/

/-- A conversion reads at most `N` characters, and stores only bytes, into the first `room` cells
from its argument on. -/
structure Bounded (N room : ℕ) (s t : Scan bits) : Prop where
  read : ∃ l, s.q = l ++ t.q ∧ l.length ≤ N
  stored : ∃ σ, t.stores = s.stores ++ σ ∧ ∀ x ∈ σ, ∃ p b, s.ap.head? = some p ∧
    x.2 = .bytes b ∧ p ≤ x.1 ∧ x.1 + b.length ≤ p + room

/-- The cells that `%Nc`, `%Ns` and `%N[` may use: all but `%c` store a NUL, too. -/
def room (letter : UInt8) (N : ℕ) : ℕ := if letter = chr 'c' then N else N + 1

lemma Taken.bounded_iff {p : Option ℕ} {l : List UInt8} {t : Scan bits} (h : Taken s p l t)
    (hp : ∀ a, p = some a → s.ap.head? = some a) (N : ℕ) :
    Bounded N (N + 1) s t ↔ l.length ≤ N := by
  constructor
  · rintro ⟨⟨l', hl', hle⟩, -⟩
    rw [append_cancel_right (hl'.symm.trans h.read)] at hle
    exact hle
  · intro hle
    obtain ⟨σ, hσ, hbound⟩ := h.stored
    refine ⟨⟨l, h.read, hle⟩, σ, hσ, fun x hx => ?_⟩
    obtain ⟨a, b, ha, hb, hfrom, hto⟩ := hbound x hx
    exact ⟨a, b, hp a ha, hb, hfrom, by omega⟩

lemma width_le (D : Directive) (h : D.digits ≠ []) : D.width ≤ value D.digits := by
  rw [Directive.width, if_neg h]
  exact Nat.mod_le _ _

section
variable {I r : List UInt8} {D : Directive} {splat : Bool}

lemma bounded_char (hI : s.q = I ++ 0 :: r) (hnul : 0 ∉ I) (hD : D.digits ≠ [])
    (hap : splat = false → s.ap ≠ []) : ∃ t, convert buffer (chr 'c') (D.apply splat s) = some t ∧
      t.state = .normal ∧ Bounded (value D.digits) (value D.digits) s t := by
  have hwidth : charWidth (D.ready splat s) = D.width := by
    rw [charWidth_ready, Directive.charWidth, if_neg hD]
  have hle := width_le D hD
  rw [convert_char]
  cases splat with
  | true =>
    exact ⟨_, scanChar_splat (s := D.ready true s) hI hnul rfl, rfl, ⟨[], rfl, Nat.zero_le _⟩, [],
      (append_nil _).symm, fun x hx => absurd hx not_mem_nil⟩
  | false =>
    obtain ⟨p, ap, hpap⟩ := exists_cons_of_ne_nil (hap rfl)
    have hlen : (I.take D.width).length ≤ value D.digits := (length_take_le _ _).trans hle
    refine ⟨_, scanChar_store (s := D.ready false s) hI hnul rfl hpap, rfl,
      ⟨I.take D.width, ?_, hlen⟩, [(p, .bytes (I.take D.width))], ?_, fun x hx => ?_⟩
    · rw [hI, hwidth, ← append_assoc, take_append_drop]
    · rw [hwidth]
      rfl
    · rw [mem_singleton] at hx
      exact ⟨p, I.take D.width, by rw [hpap]; rfl, by rw [hx], by rw [hx], by rw [hx]; omega⟩

lemma word_append_drop (width : ℕ) (I : List UInt8) :
    word width I ++ I.drop (word width I).length = I :=
  (prefix_iff_eq_append.1 ((List.takeWhile_prefix _).trans (List.take_prefix _ _)))

lemma length_word_le (width : ℕ) (I : List UInt8) : (word width I).length ≤ width :=
  (List.takeWhile_prefix _).length_le.trans (length_take_le _ _)

lemma bounded_str (hI : s.q = I ++ 0 :: r) (hnul : 0 ∉ I) (hD : D.digits ≠ [])
    (hap : splat = false → s.ap ≠ []) : ∃ t, convert buffer (chr 's') (D.apply splat s) = some t ∧
      t.state = .normal ∧ Bounded (value D.digits) (value D.digits + 1) s t := by
  have hlen : (word D.width I).length ≤ value D.digits := (length_word_le _ _).trans (width_le D hD)
  have hread : s.q = word D.width I ++ (I.drop (word D.width I).length ++ 0 :: r) := by
    rw [← append_assoc, word_append_drop, hI]
  rw [convert_str]
  cases splat with
  | true =>
    exact ⟨_, scanStr_splat (s := D.ready true s) hI hnul rfl, rfl, ⟨_, hread, hlen⟩, [],
      (append_nil _).symm, fun x hx => absurd hx not_mem_nil⟩
  | false =>
    obtain ⟨p, ap, hpap⟩ := exists_cons_of_ne_nil (hap rfl)
    refine ⟨_, scanStr_store (s := D.ready false s) hI hnul rfl hpap, rfl, ⟨_, hread, hlen⟩,
      if word D.width I = [] then [] else [(p, .bytes (word D.width I ++ [0]))], ?_, ?_⟩
    · change (if word D.width I = [] then s.stores else _) = _
      by_cases hnil : word D.width I = []
      · rw [if_pos hnil, if_pos hnil, append_nil]
      · rw [if_neg hnil, if_neg hnil]
        rfl
    · intro x hx
      split_ifs at hx
      · exact absurd hx not_mem_nil
      · rw [mem_singleton] at hx
        refine ⟨p, word D.width I ++ [0], by rw [hpap]; rfl, by rw [hx], by rw [hx], ?_⟩
        rw [hx, length_append, length_singleton]
        omega

/-- The prefix of the input that a scan set takes, by the text `rest` behind its `[`. -/
def setPrefix (splat : Bool) (rest q : List UInt8) : List UInt8 :=
  prefixTaken splat (sets rest .matchInit false fun _ => false) (string q)

lemma taken_set (D : Directive) (hap : splat = false → s.ap ≠ []) (hgo : s.bail = .none)
    (buffer : List UInt8) : ∃ t p, convert buffer (chr '[') (D.apply splat s) = some t ∧
      Taken s p [] t ∧ (∀ a, p = some a → s.ap.head? = some a) ∧ ∀ rest,
        later p.isNone (setsFrom rest t) t =
          if D.width ≠ 0 then setPrefix splat rest s.q else [] := by
  cases splat with
  | true =>
    refine ⟨_, none, convert_set_splat D s, ⟨Or.inl rfl, rfl, nofun, rfl, not_mem_nil, rfl, [],
      (append_nil _).symm, nofun⟩, nofun, fun rest => ?_⟩
    exact if_congr (and_iff_left hgo) rfl rfl
  | false =>
    obtain ⟨p, ap, hpap⟩ := exists_cons_of_ne_nil (hap rfl)
    refine ⟨_, some p, convert_set_store D hpap, ⟨Or.inl rfl, rfl, nofun, rfl, not_mem_nil, rfl, [],
      (append_nil _).symm, nofun⟩, fun a ha => ?_, fun rest => ?_⟩
    · rw [hpap, ← Option.some.inj ha]
      rfl
    · exact if_congr (and_iff_left hgo) rfl rfl

end

/-- **Field widths.**  In every format and for every input, a conversion `%Nc` or `%Ns` reads at
most `N` characters and stores at most `N`, and a NUL with `%s`. A conversion `%N[` does so if and
only if the width is zero, as an `unsigned int`, or its sets take no more than `N` characters of the
input. -/
theorem fieldWidth_iff {format : List UInt8} {ap : List ℕ} (hbuffer : 0 ∈ buffer)
    (hs : Reached buffer format ap s) (D : Directive) (hD : D.digits ≠ [])
    (hletter : D.letter = chr 'c' ∨ D.letter = chr 's' ∨ D.letter = chr '[') (splat : Bool)
    (hap : splat = false → s.ap ≠ []) (rest : List UInt8) :
    ∃ t left, conversion buffer D splat rest s = some (t, left) ∧
      (Bounded (value D.digits) (room D.letter (value D.digits)) s t ↔
        (D.letter = chr '[' → value D.digits % 2 ^ 32 = 0 ∨
          (setPrefix splat rest s.q).length ≤ value D.digits)) := by
  have hterm : 0 ∈ s.q := hs.terminated hbuffer
  obtain ⟨I, r, hI, hnul⟩ := exists_string hterm
  rw [conversion_eq D splat rest hs.normal hs.goesOn]
  rcases hletter with h | h | h <;> rw [h]
  · obtain ⟨t, ht, hnormal, hbound⟩ := bounded_char hI hnul hD hap
    refine ⟨t, rest, by rw [ht]; exact untilNormal_normal hnormal rest, ?_⟩
    exact iff_of_true hbound fun hc => absurd hc (by decide)
  · obtain ⟨t, ht, hnormal, hbound⟩ := bounded_str hI hnul hD hap
    refine ⟨t, rest, by rw [ht]; exact untilNormal_normal hnormal rest, ?_⟩
    exact iff_of_true hbound fun hc => absurd hc (by decide)
  · obtain ⟨s1, p, hs1, htaken, hp, hlater⟩ := taken_set D hap hs.goesOn buffer
    obtain ⟨t, left, hrun, ht⟩ := htaken.run hterm buffer rest
    have hwidth : D.width = value D.digits % 2 ^ 32 := by rw [Directive.width, if_neg hD]
    refine ⟨t, left, by rw [hs1]; exact hrun, ?_⟩
    rw [show room (chr '[') (value D.digits) = value D.digits + 1 from rfl, ht.bounded_iff hp,
      nil_append, hlater, ← hwidth]
    by_cases hw : D.width = 0 <;> simp [hw]

/-- The string `aab`. -/
def aab : List UInt8 := [chr 'a', chr 'a', chr 'b', 0]

/-- `%1[` and `%2[`. -/
def setOne : Directive := .set [chr '1'] (by decide +kernel)

def setTwo : Directive := .set [chr '2'] (by decide +kernel)

theorem fieldWidth_iff_two : ∃ t left,
    conversion aab setTwo false [chr 'a', chr ']'] (Scan.init 64 aab [1000]) = some (t, left) ∧
      Bounded 2 3 (Scan.init 64 aab [1000]) t := by
  have hreached : Reached aab [] [1000] (Scan.init 64 aab [1000]) := ⟨rfl, rfl, rfl⟩
  obtain ⟨t, left, hrun, hiff⟩ := fieldWidth_iff (by decide) hreached setTwo (by decide)
    (Or.inr (Or.inr rfl)) false (fun _ => by decide) [chr 'a', chr ']']
  exact ⟨t, left, hrun, hiff.2 fun _ => Or.inr (by decide +kernel)⟩

/-- `%1[a]` reads two characters of `aab`, and stores them and a NUL. -/
theorem set_exceeds_width : ∃ t left,
    conversion aab setOne false [chr 'a', chr ']'] (Scan.init 64 aab [1000]) = some (t, left) ∧
      t.stores = [(1000, .bytes [chr 'a', chr 'a', 0])] ∧
      ¬ Bounded 1 2 (Scan.init 64 aab [1000]) t := by
  refine ⟨_, _, rfl, rfl, ?_⟩
  rintro ⟨⟨l, hl, hle⟩, -⟩
  have hlen := congrArg List.length hl
  rw [length_append] at hlen
  change 4 = l.length + 2 at hlen
  omega

end Klibc.Stdio.FieldWidth
