import Mathlib.Data.List.TakeWhile
import Klibc.Stdio.ScanLoop

/-! # `strtotimespec` and `strtotimeval`

Both are `strtotimex.c`, with 9 and 6 decimals. The fraction is read by `strntoumax`, in a window of
as many characters as there are decimals, and is then scaled by the characters that are missing. In
the window `strntoumax` takes white space and a sign as well, so that a fraction can be negative. -/

namespace Klibc.Stdlib.Strtotimex

open Lib.Machine Stdio.Vsscanf Stdio.Strntoumax List
open Stdio.Vsnprintf (chr)
open Stdio.ScanLoop (strntoumax_reads)

/-! ### The code -/

/-- The types of the machine: the bits of `size_t`, of `tv_sec` and of the fraction, and whether
`char` is signed. -/
structure Abi where
  bits : ℕ
  sec : ℕ
  frac : ℕ
  charSigned : Bool
  sec_ge : 32 ≤ sec
  sec_le : sec ≤ 64
  frac_ge : 32 ≤ frac
  frac_le : frac ≤ 64

def isdigit (c : ℤ) : Bool := unsigned 32 (c - 48) ≤ 9

/-- `while (isdigit(*s)) s++`. -/
def skipDigits (charSigned : Bool) : List UInt8 → Option (List UInt8)
  | [] => none
  | c :: s => if isdigit (charInt charSigned c) then skipDigits charSigned s else some (c :: s)

/-- `for (; n < DECIMALS; n++) fs *= 10`, for the turns that are left. -/
def scale {w : ℕ} : ℕ → BitVec w → BitVec w
  | 0, fs => fs
  | turns + 1, fs => scale turns (fs * 10)

/-- `strtotimex.c`: `tv_sec`, the fraction and the returned pointer. -/
def strtotimex (decimals : ℕ) (a : Abi) (str : List UInt8) :
    Option (BitVec a.sec × BitVec a.frac × List UInt8) := do
  let (v, s) ← strntoumax str 10 (2 ^ a.bits - 1)
  if (← s.head?) = chr '.' then
    let s0 := s.tail
    let (fs, s) ← strntoumax s0 10 decimals
    let n := s0.length - s.length
    let s ← skipDigits a.charSigned s
    return (v.setWidth a.sec, scale (decimals - n) (fs.setWidth a.frac), s)
  else return (v.setWidth a.sec, 0, s)

def strtotimespec (a : Abi) (str : List UInt8) := strtotimex 9 a str

def strtotimeval (a : Abi) (str : List UInt8) := strtotimex 6 a str

/-! ### Decimal numbers -/

def numberDigits (w : List UInt8) : List UInt8 :=
  let w₁ := w.drop (spaces w)
  digits 10 (w₁.drop (signLength w₁))

def numberLength (w : List UInt8) : ℕ :=
  spaces w + signLength (w.drop (spaces w)) + (numberDigits w).length

def Minus (w : List UInt8) : Prop := (w.drop (spaces w)).head? = some (chr '-')

instance (w : List UInt8) : Decidable (Minus w) := inferInstanceAs (Decidable (_ = _))

lemma scan_ten (w : List UInt8) : scan 10 w = (value 10 (digits 10 w), (digits 10 w).length) := by
  have hradix : radix 10 w = (10, 0) := rfl
  rw [scan_eq hradix, drop_zero, Nat.zero_add]

lemma strntoumax_ten {mem : List UInt8} {n : ℕ} (h : Enough mem n) :
    let v := BitVec.ofNat 64 (value 10 (numberDigits (mem.take n)))
    strntoumax mem 10 n =
      some (if Minus (mem.take n) then -v else v, mem.drop (numberLength (mem.take n))) := by
  have heq := strntoumax_eq 10 h
  simp only [scan_ten] at heq
  exact heq

lemma numberLength_le (w : List UInt8) : numberLength w ≤ w.length := by
  have h := (passes_number 10 w).1
  simp only [scan_ten] at h
  exact h

lemma isDigit_of_mem_digits {b : ℕ} {w : List UInt8} {c : UInt8} (h : c ∈ digits b w) :
    IsDigit b c := by
  simpa using mem_takeWhile_imp h

lemma value_append_list (b : ℕ) (xs ys : List UInt8) :
    value b (xs ++ ys) = value b xs * b ^ ys.length + value b ys := by
  rw [value, value, value, map_append, reverse_append, Nat.ofDigits_append,
    length_reverse, length_map]
  ring

lemma value_lt {b : ℕ} (hb : 1 < b) {ds : List UInt8} (h : ∀ c ∈ ds, IsDigit b c) :
    value b ds < b ^ ds.length := by
  have hlt : ∀ d ∈ (ds.map fun c => (digit c).getD 0).reverse, d < b := by
    intro d hd
    rw [mem_reverse, mem_map] at hd
    obtain ⟨c, hc, rfl⟩ := hd
    obtain ⟨d, hd, hlt⟩ := h c hc
    rw [hd]
    exact hlt
  have hval := Nat.ofDigits_lt_base_pow_length hb hlt
  rwa [length_reverse, length_map] at hval

lemma isdigit_iff (charSigned : Bool) (c : UInt8) :
    isdigit (charInt charSigned c) = true ↔ IsDigit 10 c := by
  have hlt := c.toNat_lt
  have hchar : isdigit (charInt charSigned c) = true ↔ 48 ≤ c.toNat ∧ c.toNat ≤ 57 := by
    rw [isdigit, unsigned, charInt_eq, decide_eq_true_eq]
    split_ifs <;> omega
  rw [hchar, ← digitval_iff, digitval]
  simp only [UInt8.le_iff_toNat_le, chr, UInt8.toNat_ofNat', Char.reduceToNat, Nat.reducePow,
    Nat.reduceMod]
  split_ifs <;> omega

lemma skipDigits_eq (charSigned : Bool) : ∀ {s : List UInt8}, 0 ∈ s →
    skipDigits charSigned s = some (s.drop (digits 10 s).length)
  | [], h => absurd h not_mem_nil
  | c :: s, h => by
    rw [skipDigits, digits]
    by_cases hc : IsDigit 10 c
    · have hne : c ≠ 0 := by
        rintro rfl
        exact absurd hc (by decide)
      rw [if_pos ((isdigit_iff charSigned c).2 hc), takeWhile_cons_of_pos (by simpa using hc),
        skipDigits_eq charSigned ((mem_cons.1 h).resolve_left hne.symm)]
      rfl
    · rw [if_neg (fun h => hc ((isdigit_iff charSigned c).1 h)),
        takeWhile_cons_of_neg (by simpa using hc)]
      rfl

/-! ### What is returned -/

def number (w : List UInt8) : ℤ :=
  if Minus w then -(value 10 (numberDigits w) : ℤ) else value 10 (numberDigits w)

/-- A terminated string and what is behind it, in memory of `2 ^ bits` bytes. -/
structure Str (bits : ℕ) where
  mem : List UInt8
  terminated : 0 ∈ mem
  fits : mem.length < 2 ^ bits

def fraction (l : List UInt8) : Option (List UInt8) :=
  let s := l.drop (numberLength l)
  if s.head? = some (chr '.') then some s.tail else none

lemma fraction_eq_some {l t : List UInt8} :
    fraction l = some t ↔ l.drop (numberLength l) = chr '.' :: t := by
  rw [fraction]
  cases l.drop (numberLength l) with
  | nil => simp
  | cons c rest => by_cases hc : c = chr '.' <;> simp [hc]

def behind (decimals : ℕ) (t : List UInt8) : List UInt8 := t.drop (numberLength (t.take decimals))

lemma setWidth_number {w : ℕ} (hw : w ≤ 64) (l : List UInt8) :
    (if Minus l then -BitVec.ofNat 64 (value 10 (numberDigits l))
      else BitVec.ofNat 64 (value 10 (numberDigits l))).setWidth w = BitVec.ofInt w (number l) := by
  rw [number]
  split_ifs
  · rw [BitVec.setWidth_neg_of_le hw, BitVec.setWidth_ofNat_of_le hw, BitVec.ofInt_neg,
      BitVec.ofInt_natCast]
  · rw [BitVec.setWidth_ofNat_of_le hw, BitVec.ofInt_natCast]

lemma scale_ofInt {w : ℕ} : ∀ (turns : ℕ) (x : ℤ),
    scale turns (BitVec.ofInt w x) = BitVec.ofInt w (x * 10 ^ turns)
  | 0, x => by rw [scale, pow_zero, mul_one]
  | turns + 1, x => by
    have hten : (10 : BitVec w) = BitVec.ofInt w 10 := (BitVec.ofInt_natCast w 10).symm
    rw [scale, hten, ← BitVec.ofInt_mul, scale_ofInt turns, pow_succ']
    congr 1
    ring

lemma terminated_behind {t : List UInt8} (n : ℕ) (h : 0 ∈ t) : 0 ∈ behind n t := by
  obtain ⟨v, rest, hnum, hreads⟩ := strntoumax_reads 10 n h
  have heq := (strntoumax_ten (.inr h)).symm.trans hnum
  rw [Option.some.injEq, Prod.mk.injEq] at heq
  rw [behind, heq.2]
  exact hreads.terminated h

section
variable (a : Abi) (s : Str a.bits)

lemma strntoumax_whole :
    strntoumax s.mem 10 (2 ^ a.bits - 1) =
      some (if Minus s.mem then -BitVec.ofNat 64 (value 10 (numberDigits s.mem))
        else BitVec.ofNat 64 (value 10 (numberDigits s.mem)), s.mem.drop (numberLength s.mem)) := by
  have h := strntoumax_ten (n := 2 ^ a.bits - 1) (.inr s.terminated)
  rwa [take_of_length_le (Nat.le_sub_one_of_lt s.fits)] at h

lemma terminated_rest : 0 ∈ s.mem.drop (numberLength s.mem) := by
  have h := terminated_behind (2 ^ a.bits - 1) s.terminated
  rwa [behind, take_of_length_le (Nat.le_sub_one_of_lt s.fits)] at h

variable {a s}

lemma terminated_fraction {t : List UInt8} (h : fraction s.mem = some t) : 0 ∈ t := by
  have hrest := terminated_rest a s
  rw [fraction_eq_some.1 h] at hrest
  exact (mem_cons.1 hrest).resolve_left (by decide)

lemma strtotimex_none {decimals : ℕ} (h : fraction s.mem = none) :
    strtotimex decimals a s.mem =
      some (BitVec.ofInt a.sec (number s.mem), 0, s.mem.drop (numberLength s.mem)) := by
  obtain ⟨c, rest, hs⟩ := exists_cons_of_ne_nil (ne_nil_of_mem (terminated_rest a s))
  have hc : c ≠ chr '.' := by
    rintro rfl
    cases h.symm.trans (fraction_eq_some.2 hs)
  simp only [strtotimex, strntoumax_whole, hs, Option.bind_eq_bind, Option.bind_some,
    head?_cons, if_neg hc, setWidth_number a.sec_le]
  rfl

lemma strtotimex_some {decimals : ℕ} {t : List UInt8} (h : fraction s.mem = some t) :
    strtotimex decimals a s.mem = some (BitVec.ofInt a.sec (number s.mem),
      BitVec.ofInt a.frac (number (t.take decimals) *
        10 ^ (decimals - numberLength (t.take decimals))),
      (behind decimals t).drop (digits 10 (behind decimals t)).length) := by
  have ht := terminated_fraction h
  have hs := fraction_eq_some.1 h
  have hnum := strntoumax_ten (n := decimals) (.inr ht)
  rw [← behind] at hnum
  have hle := numberLength_le (t.take decimals)
  have hmoved :
      t.length - (behind decimals t).length = numberLength (t.take decimals) := by
    rw [length_take] at hle
    rw [behind, length_drop]
    omega
  simp only [strtotimex, strntoumax_whole, hs, Option.bind_eq_bind, Option.bind_some,
    head?_cons, if_pos, setWidth_number a.sec_le, tail_cons, hnum,
    skipDigits_eq a.charSigned (terminated_behind decimals ht), setWidth_number a.frac_le,
    scale_ofInt, hmoved]
  rfl

end

/-! ### The range of the fraction -/

section
variable {w : List UInt8} {decimals : ℕ}

lemma value_numberDigits_lt (w : List UInt8) : value 10 (numberDigits w) < 10 ^ numberLength w :=
  calc value 10 (numberDigits w) < 10 ^ (numberDigits w).length :=
        value_lt (by decide) fun _ => isDigit_of_mem_digits
    _ ≤ 10 ^ numberLength w := Nat.pow_le_pow_right (by decide) (Nat.le_add_left _ _)

lemma scaled_lt (hw : w.length ≤ decimals) :
    value 10 (numberDigits w) * 10 ^ (decimals - numberLength w) < 10 ^ decimals := by
  have hle := numberLength_le w
  calc value 10 (numberDigits w) * 10 ^ (decimals - numberLength w)
      < 10 ^ numberLength w * 10 ^ (decimals - numberLength w) :=
        Nat.mul_lt_mul_of_pos_right (value_numberDigits_lt w) (by positivity)
    _ = 10 ^ decimals := by rw [← pow_add, Nat.add_sub_cancel' (hle.trans hw)]

lemma number_mul (k : ℕ) : number w * 10 ^ k =
    if Minus w then -((value 10 (numberDigits w) * 10 ^ k : ℕ) : ℤ)
    else ((value 10 (numberDigits w) * 10 ^ k : ℕ) : ℤ) := by
  rw [number]
  split_ifs
  · push_cast
    ring
  · push_cast
    ring

lemma toInt_fraction {frac : ℕ} (hfrac : 32 ≤ frac) (hdecimals : decimals ≤ 9)
    (hw : w.length ≤ decimals) :
    (BitVec.ofInt frac (number w * 10 ^ (decimals - numberLength w))).toInt =
      number w * 10 ^ (decimals - numberLength w) := by
  have hlt := scaled_lt hw
  have hten : 10 ^ decimals ≤ 10 ^ 9 := Nat.pow_le_pow_right (by decide) hdecimals
  have hpow : (2 : ℤ) ^ 31 ≤ 2 ^ (frac - 1) := pow_le_pow_right₀ (by decide) (by omega)
  have habs : -(10 ^ 9 : ℤ) ≤ number w * 10 ^ (decimals - numberLength w) ∧
      number w * 10 ^ (decimals - numberLength w) ≤ 10 ^ 9 := by
    rw [number_mul]
    split_ifs <;> omega
  exact BitVec.toInt_ofInt_eq_self (by omega) (by omega) (by omega)

lemma scaled_mem_iff (hw : w.length ≤ decimals) :
    (0 ≤ number w * 10 ^ (decimals - numberLength w) ∧
      number w * 10 ^ (decimals - numberLength w) < 10 ^ decimals) ↔
      ¬(Minus w ∧ value 10 (numberDigits w) ≠ 0) := by
  have hlt := scaled_lt hw
  have hzero : value 10 (numberDigits w) * 10 ^ (decimals - numberLength w) = 0 ↔
      value 10 (numberDigits w) = 0 := by simp
  have hcast : ((10 ^ decimals : ℕ) : ℤ) = 10 ^ decimals := by push_cast; rfl
  rw [number_mul]
  split_ifs with hminus
  · simp only [hminus, true_and, not_not, ← hzero]
    omega
  · simp only [hminus, false_and, not_false_iff, iff_true]
    omega

end

/-! ### Bare text -/

section
variable {l t : List UInt8} {decimals : ℕ}

lemma numberDigits_of_bare (h : Bare l) : numberDigits l = digits 10 l := by
  simp [numberDigits, h.spaces_eq, signLength, if_neg h.not_signed]

lemma numberLength_of_bare (h : Bare l) : numberLength l = (digits 10 l).length := by
  simp [numberLength, numberDigits_of_bare h, h.spaces_eq, signLength, if_neg h.not_signed]

lemma number_of_bare (h : Bare l) : number l = value 10 (digits 10 l) := by
  have hminus : ¬Minus l := by
    rw [Minus, h.spaces_eq, drop_zero]
    exact fun hm => h.not_signed (.inl hm)
  rw [number, if_neg hminus, numberDigits_of_bare h]

lemma bare_of_digits (h : digits 10 l ≠ []) : Bare l := by
  intro c hc
  refine digit_ne_lead fun hnone => h (digits_eq_nil fun d hd => ?_)
  obtain rfl : d = c := Option.some.inj (hd.symm.trans hc)
  rintro ⟨_, hsome, -⟩
  rw [hnone] at hsome
  exact absurd hsome (by simp)

lemma digits_take_eq (b k : ℕ) (t : List UInt8) :
    digits b (t.take k) = (digits b t).take k :=
  take_takeWhile.symm

lemma value_take_digits (k : ℕ) {ds : List UInt8} (hds : ∀ c ∈ ds, IsDigit 10 c) :
    value 10 (ds.take k) * 10 ^ (k - (ds.take k).length) =
      value 10 ds * 10 ^ k / 10 ^ ds.length := by
  rcases Nat.le_total ds.length k with hle | hge
  · rw [take_of_length_le hle, ← Nat.sub_add_cancel hle, pow_add, Nat.add_sub_cancel,
      ← mul_assoc, Nat.mul_div_cancel _ (by positivity)]
  · have hlen : (ds.take k).length = k := length_take_of_le hge
    have hsplit : value 10 ds = value 10 (ds.take k) * 10 ^ (ds.length - k) +
        value 10 (ds.drop k) := by
      rw [← length_drop, ← value_append_list, take_append_drop]
    have hlow : value 10 (ds.drop k) < 10 ^ (ds.length - k) := by
      rw [← length_drop]
      exact value_lt (by decide) fun c hc => hds c (mem_of_mem_drop hc)
    have hpow : 10 ^ ds.length = 10 ^ (ds.length - k) * 10 ^ k := by
      rw [← pow_add, Nat.sub_add_cancel hge]
    rw [hlen, Nat.sub_self, pow_zero, mul_one, hpow, Nat.mul_div_mul_right _ _ (by positivity),
      hsplit, Nat.mul_comm, Nat.mul_add_div (by positivity), Nat.div_eq_of_lt hlow, Nat.add_zero]

lemma digits_drop (b : ℕ) : ∀ {t : List UInt8} {j : ℕ}, j ≤ (digits b t).length →
    digits b (t.drop j) = (digits b t).drop j
  | t, 0, _ => rfl
  | [], j + 1, h => absurd h (by simp [digits])
  | c :: t, j + 1, h => by
    by_cases hc : IsDigit b c
    · have hcons : digits b (c :: t) = c :: digits b t := takeWhile_cons_of_pos (by simpa using hc)
      rw [hcons, length_cons] at h
      rw [hcons, drop_succ_cons, drop_succ_cons, digits_drop b (by omega)]
    · have hnil : digits b (c :: t) = [] := takeWhile_cons_of_neg (by simpa using hc)
      rw [hnil] at h
      exact absurd h (by simp)

lemma behind_of_bare (h : Bare t) :
    (behind decimals t).drop (digits 10 (behind decimals t)).length =
      t.drop (digits 10 t).length := by
  have hle : ((digits 10 t).take decimals).length ≤ (digits 10 t).length :=
    length_take_le' decimals _
  rw [behind, numberLength_of_bare (h.take decimals), digits_take_eq, digits_drop 10 hle,
    drop_drop, length_drop, Nat.add_sub_cancel' hle]

lemma behind_of_not_bare (hdecimals : 0 < decimals) (h : ¬Bare t) :
    digits 10 t = [] ∧ (behind decimals t).length < t.length := by
  have hnil : digits 10 t = [] := by
    by_contra hne
    exact h (bare_of_digits hne)
  refine ⟨hnil, ?_⟩
  obtain ⟨k, rfl⟩ : ∃ k, decimals = k + 1 := ⟨decimals - 1, by omega⟩
  cases t with
  | nil => exact absurd (fun c hc => absurd hc (by simp)) h
  | cons c t =>
    have hpos : 0 < numberLength ((c :: t).take (k + 1)) := by
      by_contra hzero
      have hspaces : spaces (c :: t.take k) = 0 := by
        rw [take_succ_cons, numberLength] at hzero
        omega
      have hsign : ¬Signed (c :: t.take k) := by
        intro hs
        rw [take_succ_cons, numberLength, hspaces, drop_zero, signLength, if_pos hs]
          at hzero
        omega
      have hspace : isspace c = false := by
        by_contra hc
        rw [spaces, takeWhile_cons_of_pos (by simpa using hc)] at hspaces
        exact absurd hspaces (by simp)
      refine h fun d hd => ?_
      obtain rfl : c = d := Option.some.inj hd
      exact ⟨hspace, fun hc => hsign (.inl (congrArg some hc)),
        fun hc => hsign (.inr (congrArg some hc))⟩
    rw [behind, length_drop, length_cons]
    omega

end

/-! ### The specification -/

/-- The string starts with the decimal digits of a value that `tv_sec` can hold. -/
def Starts (a : Abi) (str : List UInt8) : Prop :=
  digits 10 str ≠ [] ∧ value 10 (digits 10 str) < 2 ^ (a.sec - 1)

/-- What is asked of the result: the fraction is in its range, and a string that starts with digits
has them in `tv_sec` and the digits directly behind a point in the fraction, rounded down. -/
def Meets (decimals : ℕ) (a : Abi) (str : List UInt8)
    (result : Option (BitVec a.sec × BitVec a.frac × List UInt8)) : Prop :=
  ∃ sec fs rest, result = some (sec, fs, rest) ∧ (0 ≤ fs.toInt ∧ fs.toInt < 10 ^ decimals) ∧
    (Starts a str → sec.toInt = value 10 (digits 10 str) ∧
      ∀ t, str.drop (digits 10 str).length = chr '.' :: t →
        fs.toInt = (value 10 (digits 10 t) * 10 ^ decimals / 10 ^ (digits 10 t).length : ℕ) ∧
          rest = t.drop (digits 10 t).length)

/-- Behind the point of a string that starts with digits there is neither white space nor a sign,
and behind that of another one no negative number in the window. -/
def PlainFraction (decimals : ℕ) (a : Abi) (str : List UInt8) : Prop :=
  ∀ t, fraction str = some t → (Starts a str → Bare t) ∧
    ¬(Minus (t.take decimals) ∧ value 10 (numberDigits (t.take decimals)) ≠ 0)

section
variable {a : Abi} {s : Str a.bits} {decimals : ℕ}

lemma toInt_sec {l : List UInt8} (h : Starts a l) :
    (BitVec.ofInt a.sec (number l)).toInt = value 10 (digits 10 l) := by
  have hsec := a.sec_ge
  have hlt := h.2
  rw [number_of_bare (bare_of_digits h.1)]
  refine BitVec.toInt_ofInt_eq_self (by omega) ?_ ?_
  · have hpos : (0 : ℤ) < 2 ^ (a.sec - 1) := by positivity
    omega
  · exact_mod_cast hlt

lemma fraction_iff {l t : List UInt8} (h : Starts a l) :
    fraction l = some t ↔ l.drop (digits 10 l).length = chr '.' :: t := by
  rw [fraction_eq_some, numberLength_of_bare (bare_of_digits h.1)]

lemma strtotimex_iff (hpos : 0 < decimals) (hle : decimals ≤ 9) :
    Meets decimals a s.mem (strtotimex decimals a s.mem) ↔ PlainFraction decimals a s.mem := by
  cases hfrac : fraction s.mem with
  | none =>
    refine iff_of_true ?_ fun t ht => absurd (ht.symm.trans hfrac) (by simp)
    refine ⟨_, _, _, strtotimex_none hfrac, by simp, fun hstarts => ⟨toInt_sec hstarts, ?_⟩⟩
    intro t ht
    rw [← fraction_iff hstarts, hfrac] at ht
    exact absurd ht (by simp)
  | some t =>
    have hw : (t.take decimals).length ≤ decimals := length_take_le decimals t
    have hfield := toInt_fraction a.frac_ge hle hw
    have hrange := scaled_mem_iff hw
    constructor
    · rintro ⟨sec, fs, rest, hresult, hfs, hspec⟩ t' ht'
      obtain rfl : t = t' := Option.some.inj (hfrac.symm.trans ht')
      rw [strtotimex_some hfrac, Option.some.injEq, Prod.mk.injEq, Prod.mk.injEq] at hresult
      obtain ⟨-, rfl, rfl⟩ := hresult
      rw [hfield, hrange] at hfs
      refine ⟨fun hstarts => ?_, hfs⟩
      by_contra hbare
      -- the returned pointer is behind the white space or the sign
      obtain ⟨hnil, hlt⟩ := behind_of_not_bare hpos hbare
      have hrest := ((hspec hstarts).2 t ((fraction_iff hstarts).1 hfrac)).2
      rw [hnil, length_nil, drop_zero] at hrest
      have hlen := congrArg List.length hrest
      rw [length_drop] at hlen
      omega
    · intro hplain
      obtain ⟨hbare, hminus⟩ := hplain t hfrac
      refine ⟨_, _, _, strtotimex_some hfrac, by rw [hfield, hrange]; exact hminus,
        fun hstarts => ⟨toInt_sec hstarts, fun t' ht' => ?_⟩⟩
      obtain rfl : t = t' := by
        rw [← fraction_iff hstarts, hfrac] at ht'
        exact Option.some.inj ht'
      have hb := hbare hstarts
      refine ⟨?_, behind_of_bare hb⟩
      rw [hfield, number_of_bare (hb.take decimals), numberLength_of_bare (hb.take decimals),
        digits_take_eq, ← value_take_digits decimals fun _ => isDigit_of_mem_digits]
      push_cast
      rfl

end

/-- **Both functions** do what is asked of them iff the fraction is plain. -/
theorem strtotime_iff (a : Abi) (s : Str a.bits) :
    (Meets 9 a s.mem (strtotimespec a s.mem) ↔ PlainFraction 9 a s.mem) ∧
      (Meets 6 a s.mem (strtotimeval a s.mem) ↔ PlainFraction 6 a s.mem) :=
  ⟨strtotimex_iff (by decide) (by decide), strtotimex_iff (by decide) (by decide)⟩

def long64 : Abi where
  bits := 64
  sec := 64
  frac := 64
  charSigned := true
  sec_ge := by decide
  sec_le := by decide
  frac_ge := by decide
  frac_le := by decide

/-- `1.5`. -/
def oneHalf : Str long64.bits where
  mem := "1.5".toList.map chr ++ [0]
  terminated := by decide +kernel
  fits := by decide +kernel

theorem strtotime_iff_oneHalf : Meets 9 long64 oneHalf.mem (strtotimespec long64 oneHalf.mem) := by
  refine (strtotime_iff long64 oneHalf).1.2 fun t ht => ?_
  obtain rfl : [chr '5', 0] = t := by
    rw [show fraction oneHalf.mem = some [chr '5', 0] by decide +kernel] at ht
    exact Option.some.inj ht
  refine ⟨fun _ c hc => ?_, by decide +kernel⟩
  cases hc
  decide

/-- `1.-5`. -/
def minusFraction : Str long64.bits where
  mem := "1.-5".toList.map chr ++ [0]
  terminated := by decide +kernel
  fits := by decide +kernel

/-- The fraction is negative, and all of the string is taken. -/
theorem strtotimespec_minus :
    strtotimespec long64 minusFraction.mem = some (1, -50000000, [0]) ∧
      ¬Meets 9 long64 minusFraction.mem (strtotimespec long64 minusFraction.mem) := by
  have hcall : strtotimespec long64 minusFraction.mem = some (1, -50000000, [0]) := by
    decide +kernel
  rw [hcall]
  refine ⟨rfl, ?_⟩
  rintro ⟨sec, fs, rest, hresult, hrange, -⟩
  obtain ⟨-, rfl, -⟩ := by simpa using hresult
  exact absurd hrange.1 (by decide)

end Klibc.Stdlib.Strtotimex
