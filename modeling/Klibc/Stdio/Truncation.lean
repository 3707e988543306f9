import Klibc.Lib.Total
import Klibc.Stdio.FormatInt

/-! # The truncation law of `vsnprintf`

`text format args` is the complete text of a call: the loop of `vsnprintf` over a sink that collects
what is output. The loop does the same over any two sinks whose operations keep a relation (`Sim`);
with `Agree` for the relation, this compares the code on a buffer of `n` bytes with the complete
text. `vsnprintf_truncates` is the law: the code returns the length of the text whatever `n` is, and
the buffer gets as much of it as fits, and a NUL. -/

namespace Klibc.Stdio.Truncation

open Lib.Machine Lib.Blit Vsnprintf FormatInt List
open Lib.Total (rel_bind rel_bind_same)

/-! ### The loop over two sinks -/

structure Sim {σ τ : Type} (K : Sink σ) (L : Sink τ) (R : σ → τ → Prop) : Prop where
  emit : ∀ x s t, R s t → R (K.emit x s) (L.emit x t)
  int : ∀ p s t, R s t → R (K.int p s) (L.int p t)
  store : ∀ p rank s t, R s t → R (K.store p rank s) (L.store p rank t)

abbrev Same {σ τ : Type} (bits : ℕ) (R : σ → τ → Prop) (x : Parse bits × σ) (y : Parse bits × τ) :
    Prop := x.1 = y.1 ∧ R x.2 y.2

section
variable {bits : ℕ} {σ τ : Type} {K : Sink σ} {L : Sink τ} {R : σ → τ → Prop} (h : Sim K L R)
include h

lemma Sim.iterate (x : UInt8) : ∀ (k : ℕ) {s : σ} {t : τ}, R s t →
    R ((K.emit x)^[k] s) ((L.emit x)^[k] t)
  | 0, _, _, hst => hst
  | k + 1, _, _, hst => Sim.iterate x k (h.emit x _ _ hst)

lemma Sim.emitStr : ∀ (k : ℕ) (sarg : List UInt8) {s : σ} {t : τ}, R s t →
    Option.Rel R (emitStr K k sarg s) (emitStr L k sarg t)
  | 0, _, _, _, hst => .some hst
  | _ + 1, [], _, _, _ => .none
  | k + 1, sch :: sarg, _, _, hst => Sim.emitStr k sarg (h.emit sch _ _ hst)

variable {s : σ} {t : τ}

lemma Sim.isString {flags : Flags} {width prec slen : ℤ} {sarg : List UInt8}
    (hst : R s t) : Option.Rel R (isString K flags width prec sarg slen s)
      (isString L flags width prec sarg slen t) := by
  unfold Vsnprintf.isString
  extract_lets slen pad s1 t1
  have h1 : R s1 t1 := by
    unfold s1 t1
    by_cases hm : ¬ flags.minus
    · rw [if_pos hm, if_pos hm]
      exact h.iterate _ _ hst
    · rw [if_neg hm, if_neg hm]
      exact hst
  have h2 := h.emitStr (unsigned 32 slen) sarg h1
  revert h2
  generalize Vsnprintf.emitStr K (unsigned 32 slen) sarg s1 = a
  generalize Vsnprintf.emitStr L (unsigned 32 slen) sarg t1 = b
  intro h2
  cases h2 with
  | none => exact .none
  | some h3 =>
    refine .some ?_
    split_ifs
    · exact h.iterate _ _ h3
    · exact h3

lemma Sim.isInteger {p : Parse bits} {flags : Flags} {base : ℕ} {prec : ℤ}
    {v : Option (BitVec 64 × List (Arg bits))} (hst : R s t) :
    Option.Rel (Same bits R) (isInteger K p flags base prec v s)
      (isInteger L p flags base prec v t) := by
  cases v with
  | none => exact .none
  | some v => exact .some ⟨rfl, h.int _ _ _ hst⟩

section
variable (ch : UInt8) (p : Parse bits) (hst : R s t)
include ch p hst

lemma Sim.convert : Option.Rel (Same bits R) (convert K ch p s) (convert L ch p t) := by
  unfold Vsnprintf.convert
  extract_lets p rank upper
  cases modChar ch with
  | P | p | d | o | u | X | x => exact h.isInteger hst
  | c => exact rel_bind_same fun _ => rel_bind (h.isString hst) fun _ _ hst' => .some ⟨rfl, hst'⟩
  | s =>
    exact rel_bind_same fun _ => rel_bind_same fun _ =>
      rel_bind (h.isString hst) fun _ _ hst' => .some ⟨rfl, hst'⟩
  | n => exact rel_bind_same fun _ => .some ⟨rfl, h.store _ _ _ _ hst⟩
  | h | l | j | z | t | L | other => exact .some ⟨rfl, h.emit _ _ _ hst⟩

lemma Sim.stepModifiers :
    Option.Rel (Same bits R) (stepModifiers K ch p s) (stepModifiers L ch p t) := by
  unfold Vsnprintf.stepModifiers
  cases modChar ch with
  | h | l | j | z | t | L => exact .some ⟨rfl, hst⟩
  | _ => exact h.convert ch p hst

lemma Sim.stepPrec : Option.Rel (Same bits R) (stepPrec K ch p s) (stepPrec L ch p t) := by
  unfold Vsnprintf.stepPrec
  split_ifs
  · exact .some ⟨rfl, hst⟩
  · exact rel_bind_same fun _ => .some ⟨rfl, hst⟩
  · exact h.stepModifiers ch _ hst

lemma Sim.stepWidth : Option.Rel (Same bits R) (stepWidth K ch p s) (stepWidth L ch p t) := by
  unfold Vsnprintf.stepWidth
  split_ifs
  · exact .some ⟨rfl, hst⟩
  · refine rel_bind_same fun ⟨v, args⟩ => ?_
    dsimp only
    split_ifs <;> exact .some ⟨rfl, hst⟩
  · exact .some ⟨rfl, hst⟩
  · exact h.stepModifiers ch _ hst

lemma Sim.stepFlags : Option.Rel (Same bits R) (stepFlags K ch p s) (stepFlags L ch p t) := by
  unfold Vsnprintf.stepFlags
  split_ifs
  all_goals first | exact .some ⟨rfl, hst⟩ | exact h.stepWidth ch _ hst

lemma Sim.step : Option.Rel (Same bits R) (step K ch p s) (step L ch p t) := by
  unfold Vsnprintf.step
  cases p.state with
  | normal =>
    dsimp only
    split_ifs
    · exact .some ⟨rfl, hst⟩
    · exact .some ⟨rfl, h.emit _ _ _ hst⟩
  | flags => exact h.stepFlags ch p hst
  | width => exact h.stepWidth ch p hst
  | prec => exact h.stepPrec ch p hst
  | modifiers => exact h.stepModifiers ch p hst

end

/-- **The loop keeps the relation**: the parser never looks at the output. -/
theorem Sim.loop : ∀ (format : List UInt8) (p : Parse bits) {s : σ} {t : τ}, R s t →
    Option.Rel R (loop K format p s) (loop L format p t)
  | [], _, _, _, hst => .some hst
  | ch :: format, p, s, t, hst => by
    unfold Vsnprintf.loop
    split_ifs
    · exact .some hst
    · refine rel_bind (h.step ch p hst) ?_
      rintro ⟨p', s'⟩ ⟨_, t'⟩ ⟨rfl, hst'⟩
      exact Sim.loop format p' hst'

end

/-! ### The complete text -/

/-- The text output so far, and the values stored by `%n`. -/
structure Text where
  text : List UInt8
  stores : List (ℕ × Rank × ℕ)
  deriving DecidableEq

def textSink : Sink Text where
  emit x s := { s with text := s.text ++ [x] }
  int p s := { s with text := s.text ++ intText p }
  store p rank s := { s with stores := s.stores ++ [(p, rank, s.text.length)] }

/-- **The complete text of a call**; none if an argument does not match the format. -/
def text {bits : ℕ} (format : List UInt8) (args : List (Arg bits)) : Option Text :=
  run textSink format args ⟨[], []⟩

def Follows (n : ℕ) (s : Out) (t : Text) : Prop :=
  t.text.length ≤ INT_MAX → Agree n (fun _ => none) 0 t.text s ∧ s.stores = t.stores

lemma Agree.int {bits n : ℕ} {m : ℤ → Option UInt8} {q0 : ℤ} {t : List UInt8} {s : Out}
    (hbits : 32 ≤ bits) (h : Agree n m q0 t s) (p : IntSpec) (hshort : (intText p).length ≤ INT_MAX)
    (hlen : (t ++ intText p).length < 2 ^ bits) :
    Agree n m q0 (t ++ intText p) ((bufferSink bits n).int p s) := by
  rw [length_append] at hlen
  have ho := h.o
  have hroom : (if s.o < n then n - s.o else 0) = n - t.length := by split_ifs <;> omega
  have hfmt := formatInt_eq hbits s.buf s.q (n - t.length) p hshort
  refine h.block ?_ ?_ ?_
  · simp only [bufferSink, hroom, hfmt]
    exact Nat.mod_eq_of_lt (by omega)
  · simp only [bufferSink, hroom, hfmt]
  · simp only [bufferSink, hroom, hfmt]

/-- **The code follows the complete text.** -/
theorem sim_buffer {bits : ℕ} (hbits : 32 ≤ bits) (n : ℕ) :
    Sim (bufferSink bits n) textSink (Follows n) := by
  have hmax : INT_MAX = 2 ^ 31 - 1 := rfl
  have hpow : 2 ^ 32 ≤ 2 ^ bits := Nat.pow_le_pow_right (by decide) hbits
  refine ⟨fun x s t hst hlen => ?_, fun p s t hst hlen => ?_, fun p rank s t hst hlen => ?_⟩
  · have hlen' : (t.text ++ [x]).length ≤ INT_MAX := hlen
    rw [length_append, length_singleton] at hlen'
    obtain ⟨ha, hs⟩ := hst (by omega)
    refine ⟨ha.emit x (by omega), ?_⟩
    simp only [bufferSink, textSink, Vsnprintf.emit, ← hs]
    split_ifs <;> rfl
  · have hlen' : (t.text ++ intText p).length ≤ INT_MAX := hlen
    have hshort := hlen'
    rw [length_append] at hshort
    obtain ⟨ha, hs⟩ := hst (by omega)
    exact ⟨Agree.int hbits ha p (by omega) (by omega), hs⟩
  · obtain ⟨ha, hs⟩ := hst hlen
    refine ⟨⟨ha.o, ha.q, ha.buf⟩, ?_⟩
    simp only [bufferSink, textSink, hs, ha.o]

/-- What the buffer of `n` bytes holds after a call with the complete text `F`: as much of it as
fits beside a NUL, and that NUL; nothing is written past it, and nothing at all if `n` is 0. -/
structure Truncated (n : ℕ) (F : List UInt8) (buf : ℤ → Option UInt8) : Prop where
  inside : ∀ i, buf i ≠ none → 0 ≤ i ∧ i < n
  text : 0 < n → ∀ i : ℕ, i < min F.length (n - 1) → buf i = F[i]?
  nul : 0 < n → buf (min F.length (n - 1) : ℕ) = some 0

lemma truncated_of_blit {n : ℕ} (F : List UInt8) (hn : 0 < n) :
    Truncated n F (Function.update (blit (fun _ => none) 0 (F.take n))
      (min F.length (n - 1) : ℕ) (some 0)) := by
  refine ⟨fun i hi => ?_, fun _ i hi => ?_, fun _ => Function.update_self ..⟩
  · by_cases h : i = (min F.length (n - 1) : ℕ)
    · omega
    · rw [Function.update_of_ne h] at hi
      by_contra hout
      exact hi (blit_of_not (by rw [length_take]; omega))
  · rw [Function.update_of_ne (by omega), blit_of_mem (by omega) (by rw [length_take]; omega),
      Int.sub_zero, Int.toNat_natCast, getElem?_take_of_lt (by omega)]

lemma truncated_of_agree {n : ℕ} {F : List UInt8} {s : Out} (h : Agree n (fun _ => none) 0 F s) :
    Truncated n F (if s.o < n then Function.update s.buf s.q (some 0)
      else if n > 0 then Function.update s.buf (n - 1) (some 0) else s.buf) := by
  have ho := h.o
  have hq := h.q
  rw [h.buf]
  split_ifs with h1 h2
  · have hend : s.q = (min F.length (n - 1) : ℕ) := by rw [hq (by omega)]; omega
    rw [hend]
    exact truncated_of_blit F (by omega)
  · have hend : (n : ℤ) - 1 = (min F.length (n - 1) : ℕ) := by omega
    rw [hend]
    exact truncated_of_blit F h2
  · obtain rfl : n = 0 := by omega
    rw [take_zero, blit_nil]
    exact ⟨fun i hi => absurd rfl hi, by simp, by simp⟩

/-- A call with a text comes to its end, and the buffer follows the text. -/
theorem run_follows (arch : Arch) (n : ℕ) {format : List UInt8} {args : List (Arg arch.bits)}
    {t : Text} (ht : text format args = some t) :
    ∃ s, run (bufferSink arch.bits n) format args ⟨fun _ => none, 0, 0, []⟩ = some s ∧
      Follows n s t := by
  have hbits : 32 ≤ arch.bits := by rcases arch.bits_eq with h | h <;> omega
  have h0 : Follows n ⟨fun _ => none, 0, 0, []⟩ ⟨[], []⟩ := fun _ => ⟨Agree.init _ _ _ _, rfl⟩
  have hrel := (sim_buffer hbits n).loop format ⟨.normal, .none, 0, 0, -1, args⟩ h0
  unfold text run at ht
  unfold run
  rw [ht] at hrel
  generalize loop (bufferSink arch.bits n) format _ _ = r at hrel ⊢
  cases hrel with
  | some hf => exact ⟨_, rfl, hf⟩

lemma vsnprintf_of_run {arch : Arch} {n : ℕ} {format : List UInt8} {args : List (Arg arch.bits)}
    {s : Out} (h : run (bufferSink arch.bits n) format args ⟨fun _ => none, 0, 0, []⟩ = some s) :
    vsnprintf arch n format args = some ⟨wrap 32 s.o, if s.o < n then
      Function.update s.buf s.q (some 0) else if n > 0 then
        Function.update s.buf (n - 1) (some 0) else s.buf, s.stores⟩ := by
  rw [vsnprintf, h]
  rfl

lemma ret_of_agree {n : ℕ} {m : ℤ → Option UInt8} {q : ℤ} {t : List UInt8} {s : Out}
    (h : Agree n m q t s) (hlen : t.length ≤ INT_MAX) : wrap 32 s.o = t.length := by
  have hmax : INT_MAX = 2 ^ 31 - 1 := rfl
  rw [h.o]
  exact wrap_eq (by decide) (by omega) (by norm_num; omega)

/-- **The truncation law.** Let `F` be the complete text of a call, not longer than `INT_MAX`. Then
`vsnprintf` returns the length of `F` whatever `n` is, writes no byte at index `n` or beyond, and,
if `n > 0`, leaves the first `min (length F) (n - 1)` bytes of `F` and a NUL in the buffer. -/
theorem vsnprintf_truncates (arch : Arch) (n : ℕ) (format : List UInt8)
    (args : List (Arg arch.bits)) (t : Text) (ht : text format args = some t)
    (hlen : t.text.length ≤ INT_MAX) :
    ∃ r, vsnprintf arch n format args = some r ∧ r.ret = t.text.length ∧ r.stores = t.stores ∧
      Truncated n t.text r.buf := by
  obtain ⟨s, hrun, hfollows⟩ := run_follows arch n ht
  obtain ⟨hagree, hstores⟩ := hfollows hlen
  refine ⟨_, vsnprintf_of_run hrun, ?_, hstores, truncated_of_agree hagree⟩
  dsimp only
  exact ret_of_agree hagree hlen

theorem vsnprintf_truncates_int : ∃ r, vsnprintf arch64 2 [37, 100] [.int 42] = some r ∧ r.ret = 2 ∧
    r.stores = [] ∧ Truncated 2 [52, 50] r.buf :=
  vsnprintf_truncates arch64 2 [37, 100] [.int 42] ⟨[52, 50], []⟩ (by decide +kernel) (by decide)

end Klibc.Stdio.Truncation
