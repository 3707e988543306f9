import Klibc.Stdio.Strntoumax

/-! # Numerals

A numeral is white space, a sign, a prefix and digits, in a string that goes on with something
else. `strntoumax` reads back its value and stops behind it, unless the numeral is a single zero
that an `x` follows: the two are taken for the prefix of a hexadecimal number whether or not digits
follow. -/

namespace Klibc.Stdio.Numerals

open Vsscanf (isspace strntoumax)
open Strntoumax List
open Vsnprintf (chr)

/-- The parts of a string that starts with a number. -/
structure Numeral where
  white : List UInt8
  sign : List UInt8
  pre : List UInt8
  digits : List UInt8
  stop : UInt8
  rest : List UInt8

def Numeral.text (x : Numeral) : List UInt8 :=
  x.white ++ (x.sign ++ (x.pre ++ (x.digits ++ x.stop :: x.rest)))

def Numeral.lead (x : Numeral) : ℕ := x.white.length + x.sign.length + x.pre.length

def Numeral.radix (x : Numeral) (base : ℕ) : ℕ :=
  if base ≠ 0 then base
  else if x.pre ≠ [] then 16
  else if x.digits.head? = some (chr '0') then 8
  else 10

/-- `0x` or `0X`. -/
def IsHexPrefix (pre : List UInt8) : Prop := pre = [chr '0', chr 'x'] ∨ pre = [chr '0', chr 'X']

/-- A numeral of the base, in a string. A zero with an `x` and a hexadecimal digit behind it is a
prefix and not a numeral of its own. -/
structure Numeral.WellFormed (base : ℕ) (x : Numeral) : Prop where
  range : base = 0 ∨ 2 ≤ base ∧ base ≤ 36
  white : ∀ c ∈ x.white, isspace c = true
  sign : IsSign x.sign
  pre : x.pre = [] ∨ (base = 0 ∨ base = 16) ∧ IsHexPrefix x.pre
  nonempty : x.digits ≠ []
  digits : ∀ c ∈ x.digits, IsDigit (x.radix base) c
  stop : ¬IsDigit (x.radix base) x.stop
  alone : x.pre = [] → (base = 0 ∨ base = 16) → x.digits = [chr '0'] →
    (x.stop = chr 'x' ∨ x.stop = chr 'X') → ∀ c ∈ x.rest.head?, ¬IsDigit 16 c
  terminated : 0 ∈ x.stop :: x.rest

/-- The digits within the first `n` characters. -/
def Numeral.used (x : Numeral) (n : ℕ) : List UInt8 := x.digits.take (n - x.lead)

def Numeral.result (x : Numeral) (base n : ℕ) : BitVec 64 :=
  let v := BitVec.ofNat 64 (value (x.radix base) (x.used n))
  if x.sign = [chr '-'] then -v else v

/-- The numeral is a single zero, and what follows makes it look like a prefix. -/
def Numeral.LonelyZero (x : Numeral) (base : ℕ) : Prop :=
  (base = 0 ∨ base = 16) ∧ x.pre = [] ∧ x.digits = [chr '0'] ∧ (x.stop = chr 'x' ∨ x.stop = chr 'X')

section
variable {x : Numeral} {base n : ℕ} (hw : x.WellFormed base)
include hw

lemma Numeral.WellFormed.bare : Bare (x.pre ++ (x.digits ++ x.stop :: x.rest)) := by
  obtain ⟨d, ds, hds⟩ := exists_cons_of_ne_nil hw.nonempty
  intro c hc
  apply digit_ne_lead
  obtain h | ⟨-, h | h⟩ := hw.pre
  · have hd : IsDigit (x.radix base) d := hw.digits d (by simp [hds])
    obtain rfl : d = c := by simpa [h, hds] using hc
    obtain ⟨k, hk, -⟩ := hd
    simp [hk]
  · obtain rfl : chr '0' = c := by simpa [h] using hc
    decide
  · obtain rfl : chr '0' = c := by simpa [h] using hc
    decide

lemma Numeral.WellFormed.enough : Enough x.text n := by
  refine .inr ?_
  simp only [Numeral.text, mem_append]
  exact .inr (.inr (.inr (.inr hw.terminated)))

end

/-! ### The window behind white space and sign -/

lemma digits_take {b : ℕ} {ds rest : List UInt8} {stop : UInt8} (hds : ∀ c ∈ ds, IsDigit b c)
    (hstop : ¬IsDigit b stop) (k : ℕ) : digits b ((ds ++ stop :: rest).take k) = ds.take k := by
  have hall : ∀ c ∈ ds.take k, decide (IsDigit b c) = true :=
    fun c hc => by simpa using hds c (mem_of_mem_take hc)
  rw [digits, take_append, takeWhile_append_of_pos hall]
  cases k - ds.length with
  | zero => simp
  | succ j => rw [take_succ_cons, takeWhile_cons_of_neg (by simpa using hstop)]; simp

lemma not_isDigit_x {c : UInt8} (hc : c = chr 'x' ∨ c = chr 'X') {b : ℕ} (hb : b ≤ 16) :
    ¬IsDigit b c := by
  rintro ⟨d, hd, hlt⟩
  have h33 : digit c = some 33 := by rcases hc with rfl | rfl <;> decide
  rw [h33] at hd
  obtain rfl := Option.some.inj hd
  omega

lemma value_zero_cons (b : ℕ) (ds : List UInt8) : value b (chr '0' :: ds) = value b ds := by
  have h0 : (digit (chr '0')).getD 0 = 0 := by decide
  rw [value, value, map_cons, h0, reverse_cons, Nat.ofDigits_append]
  simp

section
variable {x : Numeral} {base k : ℕ} (hw : x.WellFormed base)
include hw

lemma hexPrefix_iff (hpre : x.pre = []) (hbase : base = 0 ∨ base = 16) (hk : 1 ≤ k) :
    HexPrefix ((x.digits ++ x.stop :: x.rest).take k) ↔ x.LonelyZero base ∧ 2 ≤ k := by
  obtain ⟨d, ds, hds⟩ := exists_cons_of_ne_nil hw.nonempty
  obtain ⟨k, rfl⟩ : ∃ j, k = j + 1 := ⟨k - 1, by omega⟩
  have hb : x.radix base ≤ 16 := by
    rw [Numeral.radix]
    split_ifs <;> omega
  rw [HexPrefix, hds, cons_append, take_succ_cons, head?_cons, tail_cons,
    Option.some.injEq, Numeral.LonelyZero]
  cases ds with
  | nil =>
    cases k with
    | zero => simp
    | succ k => simp [hpre, hbase, hds]
  | cons d' ds =>
    have hd' : IsDigit (x.radix base) d' := hw.digits d' (by simp [hds])
    have hne : ¬(d' = chr 'x' ∨ d' = chr 'X') := fun h => not_isDigit_x h hb hd'
    refine iff_of_false ?_ (by simp [hds])
    cases k with
    | zero => simp
    | succ k => simpa using fun _ => hne

lemma scan_plain (hr : Strntoumax.radix base ((x.digits ++ x.stop :: x.rest).take k) =
      (x.radix base, 0)) :
    scan base ((x.digits ++ x.stop :: x.rest).take k) =
      (value (x.radix base) (x.digits.take k), (x.digits.take k).length) := by
  rw [scan_eq hr, drop_zero, digits_take hw.digits hw.stop, Nat.zero_add]

lemma scan_octal (hr : Strntoumax.radix 0 ((x.digits ++ x.stop :: x.rest).take k) = (8, 1))
    (h8 : x.radix base = 8) (hk : 1 ≤ k) (hzero : x.digits.head? = some (chr '0')) :
    scan 0 ((x.digits ++ x.stop :: x.rest).take k) =
      (value (x.radix base) (x.digits.take k), (x.digits.take k).length) := by
  obtain ⟨ds, hds⟩ := head?_eq_some_iff.1 hzero
  obtain ⟨k, rfl⟩ : ∃ j, k = j + 1 := ⟨k - 1, by omega⟩
  have hdigits : ∀ c ∈ ds, IsDigit 8 c := fun c hc => h8 ▸ hw.digits c (by simp [hds, hc])
  have hstop : ¬IsDigit 8 x.stop := h8 ▸ hw.stop
  rw [scan_eq hr, h8, hds, cons_append, take_succ_cons, drop_succ_cons, drop_zero,
    digits_take hdigits hstop, take_succ_cons, value_zero_cons, length_cons, Nat.add_comm]

lemma scan_noPrefix (hpre : x.pre = []) (hk : 0 < k) (hok : ¬(x.LonelyZero base ∧ 2 ≤ k)) :
    scan base ((x.digits ++ x.stop :: x.rest).take k) =
      (value (x.radix base) (x.digits.take k), (x.digits.take k).length) := by
  have hhex (hbase : base = 0 ∨ base = 16) :
      ¬HexPrefix ((x.digits ++ x.stop :: x.rest).take k) := by
    rw [hexPrefix_iff hw hpre hbase (by omega)]
    exact hok
  have hhead : ((x.digits ++ x.stop :: x.rest).take k).head? = x.digits.head? := by
    obtain ⟨d, ds, hds⟩ := exists_cons_of_ne_nil hw.nonempty
    obtain ⟨k, rfl⟩ : ∃ j, k = j + 1 := ⟨k - 1, by omega⟩
    rw [hds]
    rfl
  by_cases h0 : base = 0
  · subst h0
    by_cases hzero : x.digits.head? = some (chr '0')
    · refine scan_octal hw ?_ ?_ (by omega) hzero
      · rw [Strntoumax.radix, if_pos rfl, if_neg (hhex (.inl rfl)), hhead, if_pos hzero]
      · rw [Numeral.radix, if_neg (by simp), if_neg (by simp [hpre]), if_pos hzero]
    · apply scan_plain hw
      rw [Strntoumax.radix, if_pos rfl, if_neg (hhex (.inl rfl)), hhead, if_neg hzero,
        Numeral.radix, if_neg (by simp), if_neg (by simp [hpre]), if_neg hzero]
  · apply scan_plain hw
    rw [Strntoumax.radix, Numeral.radix, if_neg h0, if_pos h0]
    split_ifs with h16 hx
    · exact absurd hx (hhex (.inr h16))
    · rw [h16]
    · rfl

lemma scan_prefixed (hbase : base = 0 ∨ base = 16)
    (hpre : x.pre = [chr '0', chr 'x'] ∨ x.pre = [chr '0', chr 'X']) (k : ℕ) :
    scan base ((x.pre ++ (x.digits ++ x.stop :: x.rest)).take (k + 2)) =
      (value (x.radix base) (x.digits.take k), 2 + (x.digits.take k).length) := by
  have hne : x.pre ≠ [] := by rcases hpre with h | h <;> simp [h]
  have hradix : x.radix base = 16 := by
    rw [Numeral.radix]
    rcases hbase with rfl | rfl <;> simp [hne]
  obtain ⟨c, hc, hx⟩ : ∃ c, (c = chr 'x' ∨ c = chr 'X') ∧ x.pre = [chr '0', c] := by
    rcases hpre with h | h
    · exact ⟨_, .inl rfl, h⟩
    · exact ⟨_, .inr rfl, h⟩
  have hdigits := hw.digits
  have hstop := hw.stop
  rw [hradix] at hdigits hstop
  rw [hx, cons_append, cons_append, nil_append, scan_zero_x hbase hc,
    digits_take hdigits hstop, hradix]

/-- **The number behind white space and sign**, unless a zero is taken for a prefix. -/
theorem scan_window (hk : x.pre.length < k) (hok : ¬(x.LonelyZero base ∧ x.pre.length + 2 ≤ k)) :
    scan base ((x.pre ++ (x.digits ++ x.stop :: x.rest)).take k) =
      (value (x.radix base) (x.digits.take (k - x.pre.length)),
        x.pre.length + (x.digits.take (k - x.pre.length)).length) := by
  obtain hpre | ⟨hbase, hpre⟩ := hw.pre
  · rw [hpre, nil_append, length_nil, Nat.sub_zero, Nat.zero_add]
    rw [hpre, length_nil] at hk hok
    exact scan_noPrefix hw hpre hk (by simpa using hok)
  · have hlen : x.pre.length = 2 := by rcases hpre with h | h <;> rw [h] <;> rfl
    obtain ⟨k, rfl⟩ : ∃ j, k = j + 2 := ⟨k - 2, by omega⟩
    rw [hlen, Nat.add_sub_cancel]
    exact scan_prefixed hw hbase hpre k

lemma scan_lonely (hzero : x.LonelyZero base) (hk : 2 ≤ k) :
    scan base ((x.pre ++ (x.digits ++ x.stop :: x.rest)).take k) = (0, 2) := by
  obtain ⟨hbase, hpre, hdigits, hstop⟩ := hzero
  obtain ⟨k, rfl⟩ : ∃ j, k = j + 2 := ⟨k - 2, by omega⟩
  have hnone : digits 16 (x.rest.take k) = [] :=
    digits_eq_nil fun c hc => hw.alone hpre hbase hdigits hstop c (mem_head?_of_take hc)
  rw [hpre, hdigits, nil_append, cons_append, nil_append, scan_zero_x hbase hstop, hnone]
  rfl

end

/-! ### What is returned -/

section
variable {x : Numeral} {base n : ℕ} (hw : x.WellFormed base)
include hw

lemma strntoumax_text (hn : x.white.length + x.sign.length ≤ n) :
    let r := scan base ((x.pre ++ (x.digits ++ x.stop :: x.rest)).take
      (n - x.white.length - x.sign.length))
    strntoumax x.text base n =
      some (if x.sign = [chr '-'] then -BitVec.ofNat 64 r.1 else BitVec.ofNat 64 r.1,
        x.text.drop (x.white.length + x.sign.length + r.2)) :=
  strntoumax_body base hw.white hw.sign hw.bare hn hw.enough

lemma strntoumax_numeral (hn : x.lead < n) (hok : ¬(x.LonelyZero base ∧ x.lead + 2 ≤ n)) :
    strntoumax x.text base n =
      some (x.result base n, x.text.drop (x.lead + (x.used n).length)) := by
  have hlead : x.lead = x.white.length + x.sign.length + x.pre.length := rfl
  have hscan := scan_window (k := n - x.white.length - x.sign.length) hw (by omega)
    fun h => hok ⟨h.1, by omega⟩
  have hsub : n - x.white.length - x.sign.length - x.pre.length = n - x.lead := by omega
  rw [hsub] at hscan
  rw [strntoumax_text hw (by omega), hscan, Numeral.result, Numeral.used]
  dsimp only
  rw [← Nat.add_assoc, ← hlead]

lemma strntoumax_lonely (hzero : x.LonelyZero base) (hn : x.lead + 2 ≤ n) :
    strntoumax x.text base n = some (0, x.text.drop (x.lead + 2)) := by
  have hlead : x.lead = x.white.length + x.sign.length := by
    rw [Numeral.lead, hzero.2.1, length_nil, Nat.add_zero]
  have hscan := scan_lonely (k := n - x.white.length - x.sign.length) hw hzero (by omega)
  rw [strntoumax_text hw (by omega), hscan, hlead]
  simp

end

/-- **`strntoumax` on a numeral.** -/
theorem strntoumax_numeral_iff (bits : ℕ) {x : Numeral} {base : ℕ} (hw : x.WellFormed base)
    (n : ℕ) : (((∃ v r, strntoumax (x.text.take n) base n = some (v, r) ∧
          strntoumax x.text base n = some (v, r ++ x.text.drop n)) ∧
        (x.lead < n → strntoumax x.text base n =
          some (x.result base n, x.text.drop (x.lead + (x.used n).length)))) ↔
      ¬(x.LonelyZero base ∧ x.lead + 2 ≤ n)) ∧
    (strtol bits x.text base = (strntoumax x.text base (2 ^ bits - 1)).map
        fun r => (r.1.setWidth bits, r.2)) ∧
    (strtoul bits x.text base = (strntoumax x.text base (2 ^ bits - 1)).map
        fun r => (r.1.setWidth bits, r.2)) ∧
    (strtoimax bits x.text base = (strntoumax x.text base (2 ^ bits - 1)).map
        fun r => (r.1.setWidth 64, r.2)) ∧
    (atoi bits x.text = (strntoumax x.text 10 (2 ^ bits - 1)).map fun r => r.1.setWidth 32) := by
  refine ⟨⟨?_, fun hok => ⟨strntoumax_window base hw.enough, fun hn =>
    strntoumax_numeral hw hn hok⟩⟩, rfl, rfl, rfl, rfl⟩
  rintro ⟨-, hread⟩ ⟨hzero, hn⟩
  have hlen : (x.used n).length = 1 := by
    rw [Numeral.used, hzero.2.2.1, length_take, length_singleton]
    omega
  have htext : x.lead + 2 ≤ x.text.length := by
    rw [Numeral.lead, Numeral.text, hzero.2.2.1]
    simp
    omega
  have h := (strntoumax_lonely hw hzero hn).symm.trans (hread (by omega))
  have hdrop := congrArg List.length (congrArg Prod.snd (Option.some.inj h))
  simp only [length_drop, hlen] at hdrop
  omega

/-- The string `0xg` in base 16: `*endptr` is behind the `x`. -/
theorem zero_takes_the_x : let x : Numeral := ⟨[], [], [], [chr '0'], chr 'x', [chr 'g', 0]⟩
    x.WellFormed 16 ∧ x.text = "0xg".toList.map chr ++ [0] ∧
      strntoumax x.text 16 4 = some (0, [chr 'g', 0]) ∧
      x.text.drop (x.lead + (x.used 4).length) = [chr 'x', chr 'g', 0] := by
  refine ⟨⟨.inr (by decide), by simp, .inl rfl, .inl rfl, by simp, by decide +kernel, by decide, ?_,
    by decide⟩, rfl, by decide, by decide⟩
  intro _ _ _ _ c hc
  obtain rfl : chr 'g' = c := by simpa using hc
  decide

/-- The string ` -0x1Fg` in base 0, with the first five characters. -/
theorem strntoumax_numeral_iff_hex : let x : Numeral :=
      ⟨[chr ' '], [chr '-'], [chr '0', chr 'x'], [chr '1', chr 'F'], chr 'g', [0]⟩
    (((∃ v r, strntoumax (x.text.take 5) (0 : ℕ) 5 = some (v, r) ∧
          strntoumax x.text (0 : ℕ) 5 = some (v, r ++ x.text.drop 5)) ∧
        (x.lead < 5 → strntoumax x.text (0 : ℕ) 5 =
          some (x.result 0 5, x.text.drop (x.lead + (x.used 5).length)))) ↔
      ¬(x.LonelyZero 0 ∧ x.lead + 2 ≤ 5)) ∧
    (strtol 64 x.text (0 : ℕ) = (strntoumax x.text (0 : ℕ) (2 ^ 64 - 1)).map
        fun r => (r.1.setWidth 64, r.2)) ∧
    (strtoul 64 x.text (0 : ℕ) = (strntoumax x.text (0 : ℕ) (2 ^ 64 - 1)).map
        fun r => (r.1.setWidth 64, r.2)) ∧
    (strtoimax 64 x.text (0 : ℕ) = (strntoumax x.text (0 : ℕ) (2 ^ 64 - 1)).map
        fun r => (r.1.setWidth 64, r.2)) ∧
    (atoi 64 x.text = (strntoumax x.text 10 (2 ^ 64 - 1)).map fun r => r.1.setWidth 32) :=
  strntoumax_numeral_iff 64
    ⟨.inl rfl, by decide +kernel, .inr (.inr rfl), .inr ⟨.inl rfl, .inl rfl⟩, by simp,
      by decide +kernel, by decide, by simp, by decide⟩ 5

end Klibc.Stdio.Numerals
