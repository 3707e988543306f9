import Klibc.Stdio.Vsnprintf

/-! # What `format_int` writes

`intText p` is the complete text of an integer conversion. `formatInt_eq`: if that text is not
longer than `INT_MAX`, `format_int` returns its length and writes the first `n` bytes of it at `q`,
whatever `n` is. The two cursors of the code are brought together by `Agree`: as long as `o` has not
passed the limit, `q` stands `o` bytes after its start; once it has, `q` is never used again. -/

namespace Klibc.Stdio.FormatInt

open Lib.Machine Lib.Blit Vsnprintf List

/-! ### The text -/

/-- The digits and tick marks of a number from right to left: `k` digits, the first `b` of them
before the first tick mark. -/
def revDigits (p : IntSpec) : ℕ → ℕ → ℕ → List UInt8
  | 0, _, _ => []
  | k + 1, 0, val =>
    chr '_' :: digitChar p.flags.upper (val % p.base) ::
      revDigits p k (p.tickskip.toNat - 1) (val / p.base)
  | k + 1, b + 1, val => digitChar p.flags.upper (val % p.base) :: revDigits p k b (val / p.base)

def digitText (p : IntSpec) : List UInt8 :=
  (revDigits p p.ndigits.toNat p.tickskip.toNat p.magnitude).reverse

def padLen (p : IntSpec) : ℕ := (p.width - (p.nondigits ++ digitText p).length).toNat

/-- **The complete text of an integer conversion.** -/
def intText (p : IntSpec) : List UInt8 :=
  (if ¬ (p.flags.minus ∨ p.flags.zero) then List.replicate (padLen p) (chr ' ') else []) ++
    p.nondigits ++
    (if p.flags.zero ∧ ¬ p.flags.minus then List.replicate (padLen p) (chr '0') else []) ++
    digitText p ++ (if p.flags.minus then List.replicate (padLen p) (chr ' ') else [])

lemma countDigits_nonneg (base : ℕ) : ∀ fuel v, 0 ≤ countDigits base fuel v
  | 0, _ => le_rfl
  | fuel + 1, v => by
    unfold countDigits
    have := countDigits_nonneg base fuel (v / base)
    split_ifs <;> omega

variable (p : IntSpec)

lemma one_le_ndigits : 1 ≤ p.ndigits := by
  have h0 := countDigits_nonneg p.base 64 p.magnitude
  have h1 : p.magnitude ≠ 0 → 1 ≤ countDigits p.base 64 p.magnitude := by
    intro hm
    have := countDigits_nonneg p.base 63 (p.magnitude / p.base)
    rw [countDigits, if_neg hm]
    omega
  unfold IntSpec.ndigits
  dsimp only
  split_ifs with _ _ hm _ hm
  all_goals omega

lemma one_le_tickskip : 1 ≤ p.tickskip := by
  have := one_le_ndigits p
  unfold IntSpec.tickskip
  split_ifs <;> omega

lemma length_revDigits : ∀ k b val, b ≤ p.tickskip.toNat →
    (revDigits p k b val).length = k + (k + p.tickskip.toNat - b - 1) / p.tickskip.toNat := by
  have ht := one_le_tickskip p
  intro k
  induction k with
  | zero =>
    intro b val hb
    rw [Nat.div_eq_of_lt (by omega)]
    rfl
  | succ k ih =>
    intro b val hb
    cases b with
    | zero =>
      rw [revDigits, length_cons, length_cons, ih _ _ (by omega)]
      have h1 : k + p.tickskip.toNat - (p.tickskip.toNat - 1) - 1 = k := by omega
      have h2 : k + 1 + p.tickskip.toNat - 0 - 1 = k + p.tickskip.toNat := by omega
      rw [h1, h2, Nat.add_div_right _ (by omega)]
      omega
    | succ b =>
      rw [revDigits, length_cons, ih _ _ (by omega)]
      have h1 : k + p.tickskip.toNat - b - 1 = k + 1 + p.tickskip.toNat - (b + 1) - 1 := by omega
      rw [h1]
      omega

lemma length_digitText :
    ((digitText p).length : ℤ) = p.ndigits + (p.ndigits - 1).tdiv p.tickskip := by
  have hd := one_le_ndigits p
  have ht := one_le_tickskip p
  unfold digitText
  rw [length_reverse, length_revDigits p _ _ _ le_rfl, Int.tdiv_eq_ediv_of_nonneg (by omega)]
  push_cast
  have h1 : p.ndigits.toNat + p.tickskip.toNat - p.tickskip.toNat - 1 = (p.ndigits - 1).toNat := by
    omega
  rw [h1, Int.toNat_of_nonneg (by omega), Int.toNat_of_nonneg (by omega),
    Int.toNat_of_nonneg (by omega)]

/-! ### The two cursors -/

/-- The text `t` was output to a buffer with room for `n` bytes at `q₀`. -/
structure Agree (n : ℕ) (m : ℤ → Option UInt8) (q₀ : ℤ) (t : List UInt8) (s : Out) : Prop where
  o : s.o = t.length
  q : t.length ≤ n → s.q = q₀ + t.length
  buf : s.buf = blit m q₀ (t.take n)

section
variable {bits n : ℕ} {m : ℤ → Option UInt8} {q₀ : ℤ} {t : List UInt8} {s s' : Out}

lemma Agree.init (n : ℕ) (m : ℤ → Option UInt8) (q : ℤ) (l : List (ℕ × Rank × ℕ)) :
    Agree n m q [] ⟨m, q, 0, l⟩ := ⟨rfl, fun _ => by simp, by simp⟩

section
variable (h : Agree n m q₀ t s)
include h

lemma Agree.block {u : List UInt8} (ho : s'.o = s.o + u.length) (hq : s'.q = s.q + u.length)
    (hb : s'.buf = blit s.buf s.q (u.take (n - t.length))) : Agree n m q₀ (t ++ u) s' := by
  refine ⟨by rw [ho, h.o, length_append], fun hn => ?_, ?_⟩
  · rw [length_append] at hn ⊢
    rw [hq, h.q (by omega)]
    push_cast; omega
  · rw [hb, h.buf, take_append]
    by_cases hn : t.length ≤ n
    · rw [take_of_length_le hn, h.q hn, blit_append]
    · rw [Nat.sub_eq_zero_of_le (by omega), take_zero, append_nil, blit_nil]

lemma Agree.emit (x : UInt8) (hlen : t.length + 1 < 2 ^ bits) :
    Agree n m q₀ (t ++ [x]) (emit bits n x s) := by
  have ho := h.o
  have hmod : (t.length + 1) % 2 ^ bits = t.length + 1 := Nat.mod_eq_of_lt hlen
  unfold Vsnprintf.emit
  split_ifs with hn
  · refine h.block (by simp only [hmod, ho, length_singleton]) rfl ?_
    rw [take_of_length_le (by simp only [length_singleton]; omega), blit_singleton]
  · refine ⟨by simp [ho, hmod], fun hle => ?_, ?_⟩
    · rw [length_append, length_singleton] at hle
      omega
    · rw [take_append_of_le_length (by omega)]
      exact h.buf

lemma Agree.iterate (x : UInt8) (k : ℕ) (hlen : t.length + k < 2 ^ bits) :
    Agree n m q₀ (t ++ List.replicate k x) ((Vsnprintf.emit bits n x)^[k] s) := by
  induction k generalizing t s with
  | zero => simpa using h
  | succ k ih =>
    have hx : t.length + 1 < 2 ^ bits := by omega
    have h1 := ih (h.emit x hx) (by rw [length_append, length_singleton]; omega)
    rw [replicate_succ, Function.iterate_succ_apply, ← singleton_append, ← append_assoc]
    exact h1

lemma Agree.padIf (c : Prop) [Decidable c] (x : UInt8) (k : ℕ)
    (hlen : (t ++ if c then List.replicate k x else []).length < 2 ^ bits) :
    Agree n m q₀ (t ++ if c then List.replicate k x else [])
      (if c then (Vsnprintf.emit bits n x)^[k] s else s) := by
  split_ifs at hlen ⊢
  · exact h.iterate x k (by simpa using hlen)
  · simpa using h

lemma Agree.emits (l : List UInt8) (hlen : (t ++ l).length < 2 ^ bits) :
    Agree n m q₀ (t ++ l) (l.foldl (fun s x => Vsnprintf.emit bits n x s) s) := by
  induction l generalizing t s with
  | nil => simpa using h
  | cons x l ih =>
    rw [length_append, length_cons] at hlen
    have hx : t.length + 1 < 2 ^ bits := by omega
    have h1 := ih (h.emit x hx) (by
      rw [length_append, length_append, length_singleton]; omega)
    rw [append_assoc] at h1
    exact h1

end

end

/-! ### Writing from right to left -/

lemma blit_put (m : ℤ → Option UInt8) (qq : ℤ) {n oo : ℕ} (x : UInt8) {r : List UInt8}
    (h : r.length + 1 ≤ oo) :
    blit (if oo - 1 < n then Function.update m (qq - 1) (some x) else m) (qq - 1 - r.length)
      (r.reverse.take (n - (oo - 1 - r.length))) =
    blit m (qq - (x :: r).length) ((x :: r).reverse.take (n - (oo - (x :: r).length))) := by
  have hq : qq - (x :: r).length = qq - 1 - r.length := by rw [length_cons]; push_cast; omega
  have ho : oo - (x :: r).length = oo - 1 - r.length := by rw [length_cons]; omega
  rw [hq, ho, reverse_cons]
  split_ifs with hn
  · rw [take_of_length_le (by rw [length_reverse]; omega),
      take_of_length_le (by
        simp only [length_append, length_reverse, length_singleton]; omega),
      ← blit_cons_below, length_reverse, Int.sub_add_cancel]
  · rw [take_append_of_le_length (by rw [length_reverse]; omega)]

lemma unsigned_pred {bits k : ℕ} (h0 : 1 ≤ k) (h : k < 2 ^ bits) :
    unsigned bits ((k : ℤ) - 1) = k - 1 := by
  rw [show (k : ℤ) - 1 = ((k - 1 : ℕ) : ℤ) by omega]
  exact unsigned_eq (by omega)

/-- **The loop writes the digits**, as far as there is room. -/
theorem generate_buf {bits n : ℕ} {p : IntSpec} : ∀ (k b fuel : ℕ) (g : Gen), k ≤ fuel →
    b ≤ p.tickskip.toNat → g.b4tick = b → g.ndigits = (revDigits p k b g.val).length →
    (revDigits p k b g.val).length ≤ g.oo → g.oo < 2 ^ bits → (generate bits n p fuel g).buf =
    blit g.buf (g.qq - (revDigits p k b g.val).length)
      ((revDigits p k b g.val).reverse.take (n - (g.oo - (revDigits p k b g.val).length))) := by
  have ht := one_le_tickskip p
  intro k
  induction k with
  | zero =>
    intro b fuel g _ _ _ hnd _ _
    have hnd : g.ndigits = 0 := hnd
    rw [revDigits, reverse_nil, take_nil, blit_nil]
    cases fuel with
    | zero => rfl
    | succ fuel => rw [generate, if_neg (by omega)]
  | succ k ih =>
    intro b fuel g hf hb hb4 hnd hoo hlt
    obtain ⟨fuel, rfl⟩ : ∃ f, fuel = f + 1 := ⟨fuel - 1, by omega⟩
    rw [generate]
    cases b with
    | zero =>
      rw [revDigits] at hnd hoo ⊢
      simp only [length_cons] at hnd hoo
      have hb0 : g.b4tick = 0 := hb4
      rw [if_pos (by omega)]
      simp only [hb0, if_true, Gen.put]
      rw [unsigned_pred (by omega) hlt, unsigned_pred (by omega) (by omega)]
      rw [ih (p.tickskip.toNat - 1) fuel _ (by omega) (by omega) (by simp only; omega)
        (by simp only; omega) (by simp only; omega) (by simp only; omega)]
      rw [← blit_put _ _ _ (by simp only [length_cons]; omega), ← blit_put _ _ _ (by omega)]
    | succ b =>
      rw [revDigits] at hnd hoo ⊢
      simp only [length_cons] at hnd hoo
      have hb0 : g.b4tick ≠ 0 := by omega
      rw [if_pos (by omega)]
      simp only [hb0, if_false, Gen.put]
      rw [unsigned_pred (by omega) hlt]
      rw [ih b fuel _ (by omega) (by omega) (by simp only; omega)
        (by simp only; omega) (by simp only; omega) (by simp only; omega)]
      rw [← blit_put _ _ _ (by omega)]

/-! ### The whole function -/

lemma nchars_eq (p : IntSpec) (h : (p.nondigits ++ digitText p).length ≤ INT_MAX) :
    p.nchars (digitText p).length = (p.nondigits ++ digitText p).length := by
  have hmax : INT_MAX = 2 ^ 31 - 1 := rfl
  have hw : ∀ x : ℤ, 0 ≤ x → x ≤ INT_MAX → wrap 32 x = x := fun x h0 h1 =>
    wrap_eq (by decide) (by norm_num; omega) (by norm_num; omega)
  have hlen : p.nondigits.length = (if p.minus ∨ p.flags.plus ∨ p.flags.space then 1 else 0) +
      (if p.flags.hash ∧ p.base = 16 then 2 else 0) := by
    unfold IntSpec.nondigits
    rw [length_append]
    congr 1
    · cases p.minus <;> cases p.flags.plus <;> cases p.flags.space <;> rfl
    · split_ifs <;> rfl
  rw [length_append, hlen] at h ⊢
  unfold IntSpec.nchars
  split_ifs at h ⊢
  · dsimp only
    rw [hw (_ + 1) (by omega) (by omega), hw _ (by omega) (by omega)]
    push_cast; omega
  · dsimp only
    rw [hw _ (by omega) (by omega)]
    push_cast; omega
  · dsimp only
    rw [hw _ (by omega) (by omega)]
    push_cast; omega
  · simp

lemma Agree.digits {bits n : ℕ} {m : ℤ → Option UInt8} {q₀ : ℤ} {t : List UInt8} {s : Out}
    (h : Agree n m q₀ t s) (p : IntSpec) (hlen : (t ++ digitText p).length < 2 ^ bits) :
    Agree n m q₀ (t ++ digitText p)
      { s with
        q := s.q + (digitText p).length
        o := unsigned bits (s.o + (digitText p).length)
        buf := (generate bits n p ((digitText p).length : ℤ).toNat ⟨s.buf,
          s.q + (digitText p).length, unsigned bits (s.o + (digitText p).length),
          (digitText p).length, p.tickskip, p.magnitude⟩).buf } := by
  have hd := one_le_ndigits p
  have ht := one_le_tickskip p
  rw [length_append] at hlen
  have ho : unsigned bits ((s.o : ℤ) + (digitText p).length) = s.o + (digitText p).length := by
    have := h.o
    exact_mod_cast unsigned_eq (x := s.o + (digitText p).length) (by omega)
  have hrev : (revDigits p p.ndigits.toNat p.tickskip.toNat p.magnitude).length =
      (digitText p).length := by rw [digitText, length_reverse]
  have hfuel : p.ndigits.toNat ≤ (digitText p).length := by
    rw [digitText, length_reverse, length_revDigits p _ _ _ le_rfl]
    exact Nat.le_add_right _ _
  have htext : (revDigits p p.ndigits.toNat p.tickskip.toNat p.magnitude).reverse = digitText p :=
    rfl
  refine h.block ho rfl ?_
  have hlen' := h.o
  simp only [ho, Int.toNat_natCast]
  rw [generate_buf p.ndigits.toNat p.tickskip.toNat _ _ hfuel le_rfl (by simp only; omega)
    (by simp only [hrev]) (by simp only [hrev]; omega) (by simp only; omega)]
  simp [hrev, htext, hlen']

/-- **What `format_int` does**: it returns the length of the complete text, and writes as much of it
as there is room for. -/
theorem formatInt_eq {bits : ℕ} (hbits : 32 ≤ bits) (m : ℤ → Option UInt8) (q : ℤ) (n : ℕ)
    (p : IntSpec) (h : (intText p).length ≤ INT_MAX) :
    formatInt bits m q n p = (blit m q ((intText p).take n), (intText p).length) := by
  have hmax : INT_MAX = 2 ^ 31 - 1 := rfl
  have hpow : 2 ^ 32 ≤ 2 ^ bits := Nat.pow_le_pow_right (by decide) hbits
  have hbody : (p.nondigits ++ digitText p).length ≤ (intText p).length := by
    simp only [intText, length_append]
    omega
  have hnd : wrap 32 (p.ndigits + (p.ndigits - 1).tdiv p.tickskip) = (digitText p).length := by
    rw [← length_digitText]
    rw [length_append] at hbody
    exact wrap_eq (by decide) (by omega) (by norm_num; omega)
  have hnc := nchars_eq p (by omega)
  have hpad : (p.width - (p.nondigits ++ digitText p).length).toNat = padLen p := rfl
  have hlt : ∀ {l : List UInt8}, l.length ≤ (intText p).length → l.length < 2 ^ bits := fun hl => by
    omega
  -- the condition `width > ndigits` on the zero padding makes no difference
  have hzero : ∀ s : Out, (if (p.flags.zero ∧ ¬ p.flags.minus) ∧ p.width > (digitText p).length then
        (emit bits n (chr '0'))^[padLen p] s else s) =
      if p.flags.zero ∧ ¬ p.flags.minus then (emit bits n (chr '0'))^[padLen p] s else s := by
    intro s
    by_cases hc : p.width > (digitText p).length
    · simp [hc]
    · have : padLen p = 0 := by
        unfold padLen
        rw [length_append]
        push_cast; omega
      simp [this]
  have h1 := (Agree.init n m q []).padIf (¬ (p.flags.minus ∨ p.flags.zero)) (chr ' ')
    (padLen p) (hlt (by simp only [intText, length_append, length_nil]; omega))
  have h2 := h1.emits p.nondigits
    (hlt (by simp only [intText, length_append, length_nil]; omega))
  have h3 := h2.padIf (p.flags.zero ∧ ¬ p.flags.minus) (chr '0') (padLen p)
    (hlt (by simp only [intText, length_append, length_nil]; omega))
  have h4 := h3.digits p
    (hlt (by simp only [intText, length_append, length_nil]; omega))
  have h5 := h4.padIf (p.flags.minus = true) (chr ' ') (padLen p)
    (hlt (by simp only [intText, length_append, length_nil]; omega))
  rw [nil_append] at h5
  unfold formatInt
  simp only [hnd, hnc, hpad, hzero]
  exact Prod.ext h5.buf h5.o

end Klibc.Stdio.FormatInt
