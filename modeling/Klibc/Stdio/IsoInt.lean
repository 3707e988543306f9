import Klibc.Stdio.IsoParse

/-! # Integer directives: the code and ISO C

Both texts are a head (sign and `0x`), digits, and padding. `intText_eq_fill` brings the text of the
code into that form, `digitText_eq_digits` compares the digits and `nondigits_eq` the heads. They
differ for a zero value with precision 0, for a `#` with a zero value, and for a `+` or a space with
an unsigned conversion; the padding differs for a `0` together with a precision.
`intText_eq_iff` is the exact condition (`IntGood`) under which the whole texts are the same. -/

namespace Klibc.Stdio.IsoInt

open Lib.Machine Vsnprintf FormatInt Digits List Iso IsoParse

/-! ### Padding -/

section
variable {left zero : Bool} {w : ℕ} {head tail : List UInt8}

lemma length_fill : (fill left zero w head tail).length = max w (head ++ tail).length := by
  have hmax : (head ++ tail).length + (w - (head ++ tail).length) =
      max w (head ++ tail).length := by omega
  unfold fill
  dsimp only
  rw [← hmax]
  split_ifs <;> simp only [length_append, length_replicate] <;> omega

lemma mem_fill {x : UInt8} (hx : x ∈ head ∨ x ∈ tail) : x ∈ fill left zero w head tail := by
  unfold fill
  dsimp only
  rcases hx with hx | hx <;> split_ifs <;> simp [hx]

lemma not_mem_fill {x : UInt8} (hhead : x ∉ head) (htail : x ∉ tail) (hspace : x ≠ chr ' ')
    (hzero : zero → x ≠ chr '0') : x ∉ fill left zero w head tail := by
  unfold fill
  dsimp only
  split_ifs with h1 h2
  · simp [hhead, htail, hspace]
  · simp [hhead, htail, hzero h2]
  · simp [hhead, htail, hspace]

lemma count_space_zeros (n : ℕ) : (List.replicate n (chr '0')).count (chr ' ') = 0 :=
  count_eq_zero_of_not_mem fun h => absurd (eq_of_mem_replicate h) (by decide)

lemma fill_zero_iff : fill left true w head tail = fill left false w head tail ↔
    left ∨ w ≤ (head ++ tail).length := by
  cases left with
  | true => simp [fill]
  | false =>
    simp only [fill, Bool.false_eq_true, if_false, if_true, false_or]
    constructor
    · intro heq
      have hcount := congrArg (List.count (chr ' ')) heq
      simp only [count_append, count_space_zeros, count_replicate_self] at hcount
      omega
    · intro hle
      rw [Nat.sub_eq_zero_of_le hle]
      simp

lemma fill_space_iff {zero' : Bool} (hzero : zero' → zero) (hne : head ++ tail ≠ [])
    (hno : chr ' ' ∉ head ++ tail) :
    fill left zero w (chr ' ' :: head) tail = fill left zero' w head tail ↔
      left = false ∧ (head ++ tail).length < w ∧
        (zero → zero' = false ∧ w = (head ++ tail).length + 1) := by
  have hlen : (chr ' ' :: head ++ tail).length = (head ++ tail).length + 1 := rfl
  have hspaces : (head ++ tail).count (chr ' ') = 0 := count_eq_zero_of_not_mem hno
  rw [count_append] at hspaces
  constructor
  · intro heq
    have hlength := congrArg List.length heq
    rw [length_fill, length_fill, hlen] at hlength
    have hlt : (head ++ tail).length < w := by omega
    have hcount := congrArg (List.count (chr ' ')) heq
    cases left with
    | true =>
      -- the first character of the one is a space, that of the other is not
      obtain ⟨x, r, hxr⟩ := exists_cons_of_ne_nil hne
      simp only [fill, if_true, cons_append, hxr, List.cons.injEq] at heq
      exact absurd (by rw [hxr, ← heq.1]; simp) hno
    | false =>
      refine ⟨rfl, hlt, fun hz => ?_⟩
      subst hz
      simp only [fill, Bool.false_eq_true, if_false, if_true, hlen] at hcount
      cases zero' with
      | true =>
        simp only [if_true, count_append, count_cons_self, count_space_zeros] at hcount
        omega
      | false =>
        simp only [Bool.false_eq_true, if_false, count_append, count_cons_self,
          count_space_zeros, count_replicate_self] at hcount
        exact ⟨rfl, by omega⟩
  · rintro ⟨rfl, hlt, hz⟩
    simp only [fill, Bool.false_eq_true, if_false, hlen]
    cases zero with
    | true =>
      obtain ⟨rfl, hw⟩ := hz rfl
      rw [hw, Nat.sub_self, Nat.add_sub_cancel_left]
      simp
    | false =>
      obtain rfl : zero' = false := by
        cases zero' with
        | false => rfl
        | true => exact absurd (hzero rfl) (by decide)
      obtain ⟨n, hn⟩ : ∃ n, w - (head ++ tail).length = n + 1 :=
        ⟨w - (head ++ tail).length - 1, by omega⟩
      rw [if_neg (by decide), if_neg (by decide), hn,
        show w - ((head ++ tail).length + 1) = n by omega, replicate_succ']
      simp

end

section
variable {bits : ℕ} (d : IntDirective bits)

lemma width_le (h : d.text.length ≤ INT_MAX) : d.width.value ≤ INT_MAX := by
  unfold IntDirective.text at h
  rw [length_fill] at h
  omega

lemma codeWidth_eq {w : Width} (h : w.value ≤ INT_MAX) : codeWidth w = w.value := by
  have hmax : INT_MAX = 2 ^ 31 - 1 := rfl
  cases w with
  | digits ds _ =>
    have hds : decimal ds ≤ INT_MAX := h
    exact wrap_eq (by decide) (by omega) (by norm_num; omega)
  | star v =>
    have hv : v.toInt.natAbs ≤ INT_MAX := h
    simp only [codeWidth, Width.value]
    split_ifs with hneg
    · rw [wrap_eq (by decide) (by omega) (by norm_num; omega)]
      omega
    · omega

lemma intText_fill (p : IntSpec) :
    intText p = fill p.flags.minus p.flags.zero p.width.toNat p.nondigits (digitText p) := by
  have hpad : padLen p = p.width.toNat - (p.nondigits ++ digitText p).length := by
    unfold padLen
    omega
  unfold intText fill
  rw [hpad]
  cases p.flags.minus <;> cases p.flags.zero <;> simp

lemma intText_eq_fill (h : d.width.value ≤ INT_MAX) :
    intText (codeSpec d) = fill d.left (.zero ∈ d.flags) d.width.value (codeSpec d).nondigits
      (digitText (codeSpec d)) := by
  have hwidth : (codeSpec d).width = d.width.value := codeWidth_eq h
  rw [intText_fill, hwidth]
  rfl

/-! ### The value -/

section
variable (hbits : 0 < bits ∧ bits ≤ 64)
include hbits

lemma argWidth_le (m : Modifier) : 0 < m.width bits ∧ m.width bits ≤ 64 := by
  cases m <;> simp only [Modifier.width] <;> omega

lemma argument_codeSpec : argument (codeSpec d) = d.value := by
  obtain ⟨hpos, hle⟩ := argWidth_le hbits d.modifier
  have hval : (codeSpec d).val = if d.conv.signed then
      (d.arg.setWidth (d.modifier.width bits)).signExtend 64
      else (d.arg.setWidth (d.modifier.width bits)).setWidth 64 := rfl
  have hflag : (codeSpec d).flags.signed = d.conv.signed := rfl
  unfold argument IntDirective.value
  rw [hval, hflag]
  split_ifs
  · exact BitVec.toInt_signExtend_of_le hle
  · rw [BitVec.toNat_setWidth_of_le hle]

lemma minus_magnitude :
    ((codeSpec d).minus ↔ d.value < 0) ∧ (codeSpec d).magnitude = d.value.natAbs := by
  rw [minus_iff, magnitude_eq, argument_codeSpec d hbits]
  exact ⟨Iff.rfl, rfl⟩

end

/-! ### The digits -/

lemma one_lt_base (c : IntConv) : 1 < c.base := by cases c <;> decide

lemma head_numeral (base k v : ℕ) : (numeral base k v).head? = some 0 ↔ k ≠ 0 := by
  cases k with
  | succ k => simp [numeral, replicate_succ]
  | zero =>
    rw [numeral, replicate_zero, nil_append, head?_reverse]
    refine iff_of_false (fun hlast => ?_) (by simp)
    by_cases h0 : v = 0
    · simp [h0] at hlast
    · have hne : Nat.digits base v ≠ [] := by simpa [Nat.digits_ne_nil_iff_ne_zero] using h0
      rw [getLast?_eq_some_getLast hne, Option.some.injEq] at hlast
      exact Nat.getLast_digit_ne_zero base h0 hlast

def len : ℕ := (Nat.digits d.conv.base d.value.natAbs).length

lemma len_eq_zero : len d = 0 ↔ d.value = 0 := by
  rw [len, length_eq_zero_iff, Nat.digits_eq_nil_iff_eq_zero, Int.natAbs_eq_zero]

/-- How many zeros ISO C prescribes in front of them. -/
def zeros : ℕ :=
  let k := d.prec.value.getD 1 - len d
  if .hash ∈ d.flags ∧ d.conv.base = 8 ∧ k = 0 then 1 else k

lemma digits_eq_numeral : d.digits = numeral d.conv.base (zeros d) d.value.natAbs := by
  have hhead := head_numeral d.conv.base (d.prec.value.getD 1 - len d) d.value.natAbs
  have hdef : d.digits = if .hash ∈ d.flags ∧ d.conv.base = 8 ∧
        (numeral d.conv.base (d.prec.value.getD 1 - len d) d.value.natAbs).head? ≠ some 0 then
        0 :: numeral d.conv.base (d.prec.value.getD 1 - len d) d.value.natAbs
      else numeral d.conv.base (d.prec.value.getD 1 - len d) d.value.natAbs := rfl
  simp only [hdef, zeros, ne_eq, hhead, not_not]
  by_cases hc : Flag.hash ∈ d.flags ∧ d.conv.base = 8 ∧ d.prec.value.getD 1 - len d = 0
  · rw [if_pos hc, if_pos hc, hc.2.2]
    rfl
  · rw [if_neg hc, if_neg hc]

def NoDigits : Prop := d.value = 0 ∧ d.prec.value = some 0 ∧ ¬ (.hash ∈ d.flags ∧ d.conv.base = 8)

lemma prec_le_length_digits : d.prec.value.getD 1 ≤ d.digits.length := by
  rw [digits_eq_numeral, numeral, length_append, length_replicate, length_reverse, ← len, zeros]
  split_ifs <;> omega

lemma codePrec_eq {pr : Prec} (h : pr.value.getD 1 ≤ INT_MAX) :
    codePrec pr = pr.value.elim (-1) (fun q => (q : ℤ)) := by
  have hmax : INT_MAX = 2 ^ 31 - 1 := rfl
  cases pr with
  | none => rfl
  | digits ds =>
    have hds : decimal ds ≤ INT_MAX := h
    exact wrap_eq (by decide) (by omega) (by norm_num; omega)
  | star v =>
    simp only [codePrec, Prec.value]
    split_ifs with hneg
    · rfl
    · exact (Int.toNat_of_nonneg (by omega)).symm

lemma ndigits_eq (hbits : 0 < bits ∧ bits ≤ 64) {q : ℤ} (hq : codePrec d.prec = q) :
    (codeSpec d).ndigits = if .hash ∈ d.flags ∧ d.conv.base = 8 then max q (len d + 1)
      else if len d < q then q else max 1 (len d : ℤ) := by
  have hmag := (minus_magnitude d hbits).2
  have hcount := countDigits_eq (one_lt_base d.conv) 64 (codeSpec d).magnitude
    (magnitude_lt_pow (p := codeSpec d) (one_lt_base d.conv))
  rw [hmag, ← len] at hcount
  have hbase : (codeSpec d).base = d.conv.base := rfl
  have hprec : (codeSpec d).prec = q := hq
  have hhash : (codeSpec d).flags.hash = decide (.hash ∈ d.flags) := rfl
  have h0 := len_eq_zero d
  simp only [IntSpec.ndigits, hmag, hbase, hcount, hprec, hhash, decide_eq_true_eq,
    Int.natAbs_eq_zero, ← h0]
  by_cases hh : Flag.hash ∈ d.flags ∧ d.conv.base = 8
  · rw [if_pos hh]
    by_cases hlt : q < len d + 1
    · have hc : Flag.hash ∈ d.flags ∧ d.conv.base = 8 ∧ q < len d + 1 := ⟨hh.1, hh.2, hlt⟩
      rw [if_pos hc, if_pos (by omega)]
      omega
    · have hc : ¬ (Flag.hash ∈ d.flags ∧ d.conv.base = 8 ∧ q < len d + 1) := fun hc => hlt hc.2.2
      rw [if_neg hc, if_pos (by omega)]
      omega
  · have hc : ¬ (Flag.hash ∈ d.flags ∧ d.conv.base = 8 ∧ q < len d + 1) := fun hc =>
      hh ⟨hc.1, hc.2.1⟩
    rw [if_neg hh, if_neg hc]
    split_ifs <;> omega

/-- **The digits are the same**, but for the value 0 with the precision 0. -/
theorem digitText_eq_digits (hbits : 0 < bits ∧ bits ≤ 64) (h : d.prec.value.getD 1 ≤ INT_MAX)
    (hno : ¬ NoDigits d) : digitText (codeSpec d) = d.digits.map (digitChar d.conv.upper) := by
  have hzeros : (codeSpec d).ndigits.toNat - len d = zeros d := by
    rw [ndigits_eq d hbits (codePrec_eq h), zeros]
    unfold NoDigits at hno
    rw [← len_eq_zero] at hno
    by_cases hh : Flag.hash ∈ d.flags ∧ d.conv.base = 8
    · rw [if_pos hh]
      cases d.prec.value with
      | none => simp only [hh, true_and, Option.elim_none, Option.getD_none]; split_ifs <;> omega
      | some q => simp only [hh, true_and, Option.elim_some, Option.getD_some]; split_ifs <;> omega
    · have hc : ¬ (Flag.hash ∈ d.flags ∧ d.conv.base = 8 ∧ d.prec.value.getD 1 - len d = 0) :=
        fun hc => hh ⟨hc.1, hc.2.1⟩
      rw [if_neg hh, if_neg hc]
      cases hq : d.prec.value with
      | none =>
        rw [Option.elim_none, Option.getD_none, if_neg (by omega)]
        omega
      | some q =>
        have hq0 : len d = 0 → q ≠ 0 := fun hl hq' => hno ⟨hl, by rw [hq, hq'], hh⟩
        rw [Option.elim_some, Option.getD_some]
        by_cases hlt : (len d : ℤ) < q
        · rw [if_pos hlt]
          omega
        · rw [if_neg hlt]
          omega
  rw [digitText_eq (p := codeSpec d) (one_lt_base d.conv) rfl, digits_eq_numeral,
    (minus_magnitude d hbits).2, show (codeSpec d).base = d.conv.base from rfl, ← len, hzeros]
  rfl

/-! ### The heads -/

/-- `#` with the value 0. -/
def HexZero : Prop := .hash ∈ d.flags ∧ d.conv.base = 16 ∧ d.value = 0

lemma hexMark_eq (h : ¬ HexZero d) : (if (codeSpec d).flags.hash ∧ (codeSpec d).base = 16 then
      [chr '0', if (codeSpec d).flags.upper then chr 'X' else chr 'x'] else []) = d.hexMark := by
  have hhash : (codeSpec d).flags.hash = decide (.hash ∈ d.flags) := rfl
  have hbase : (codeSpec d).base = d.conv.base := rfl
  have hupper : (codeSpec d).flags.upper = d.conv.upper := rfl
  rw [hhash, hbase, hupper, IntDirective.hexMark]
  by_cases hc : Flag.hash ∈ d.flags ∧ d.conv.base = 16
  · have hne : d.value ≠ 0 := fun h0 => h ⟨hc.1, hc.2, h0⟩
    simp [hc, hne]
  · rw [if_neg (by simpa using hc), if_neg (fun hc' => hc ⟨hc'.1, hc'.2.1⟩)]

lemma value_nonneg (h : d.conv.signed = false) : ¬ d.value < 0 := by
  unfold IntDirective.value
  rw [h]
  simp only [Bool.false_eq_true, if_false]
  omega

/-- **The heads are the same** for a signed conversion, and without `+` and space. -/
theorem nondigits_eq (hbits : 0 < bits ∧ bits ≤ 64) (h : ¬ HexZero d)
    (hsign : d.conv.signed = true ∨ .plus ∉ d.flags ∧ .space ∉ d.flags) :
    (codeSpec d).nondigits = d.sign ++ d.hexMark := by
  have hminus := (minus_magnitude d hbits).1
  have hplus : (codeSpec d).flags.plus = decide (.plus ∈ d.flags) := rfl
  have hspace : (codeSpec d).flags.space = decide (.space ∈ d.flags) := rfl
  rw [IntSpec.nondigits, hexMark_eq d h, IntDirective.sign, hplus, hspace]
  congr 1
  cases hs : d.conv.signed with
  | true => simp [hminus]
  | false =>
    obtain ⟨h1, h2⟩ := hsign.resolve_left (by simp [hs])
    simp [hminus, value_nonneg d hs, h1, h2]

lemma nondigits_space (hbits : 0 < bits ∧ bits ≤ 64) (h : ¬ HexZero d)
    (hs : d.conv.signed = false) (hplus : .plus ∉ d.flags) (hspace : .space ∈ d.flags) :
    (codeSpec d).nondigits = chr ' ' :: (d.sign ++ d.hexMark) := by
  have hminus := (minus_magnitude d hbits).1
  have hplus' : (codeSpec d).flags.plus = decide (.plus ∈ d.flags) := rfl
  have hspace' : (codeSpec d).flags.space = decide (.space ∈ d.flags) := rfl
  rw [IntSpec.nondigits, hexMark_eq d h, IntDirective.sign, hplus', hspace']
  simp [hminus, value_nonneg d hs, hs, hplus, hspace]

/-! ### The whole texts -/

lemma digitChar_not_mark : ∀ upper : Bool, ∀ x < 16, digitChar upper x ≠ chr ' ' ∧
    digitChar upper x ≠ chr '+' := by
  decide

lemma digits_lt {x : ℕ} (hx : x ∈ d.digits) : x < 16 := by
  rw [digits_eq_numeral] at hx
  have hlt := numeral_lt_base (one_lt_base d.conv) _ _ x hx
  have hbase : d.conv.base ≤ 16 := by cases d.conv <;> decide
  omega

lemma not_mem_hexMark_digits {x : UInt8} (hx : x = chr ' ' ∨ x = chr '+') :
    x ∉ d.hexMark ∧ x ∉ d.digits.map (digitChar d.conv.upper) := by
  constructor
  · unfold IntDirective.hexMark
    rcases hx with rfl | rfl <;> split_ifs <;> decide
  · intro hmem
    obtain ⟨y, hy, rfl⟩ := mem_map.1 hmem
    have hfacts := digitChar_not_mark d.conv.upper y (digits_lt d hy)
    rcases hx with hx | hx
    · exact hfacts.1 hx
    · exact hfacts.2 hx

lemma digits_of_value_zero (h : d.value = 0) {x : UInt8}
    (hx : x ∈ d.digits.map (digitChar d.conv.upper)) : x = chr '0' := by
  rw [digits_eq_numeral, h] at hx
  obtain ⟨y, hy, rfl⟩ := mem_map.1 hx
  obtain ⟨-, rfl⟩ : ¬ zeros d = 0 ∧ y = 0 := by simpa [numeral] using hy
  cases d.conv <;> rfl

lemma sign_of_unsigned (h : d.conv.signed = false) : d.sign = [] := by simp [IntDirective.sign, h]

lemma digits_of_noDigits (h : NoDigits d) : d.digits = [] := by
  obtain ⟨h0, hprec, hhash⟩ := h
  have hz : zeros d = 0 := by
    rw [zeros, hprec, (len_eq_zero d).2 h0, if_neg (fun hc => hhash ⟨hc.1, hc.2.1⟩)]
    rfl
  rw [digits_eq_numeral, hz, h0]
  simp [numeral]

lemma prec_le (hlen : d.text.length ≤ INT_MAX) : d.prec.value.getD 1 ≤ INT_MAX := by
  have h1 := prec_le_length_digits d
  unfold IntDirective.text at hlen
  rw [length_fill, length_append, length_map] at hlen
  omega

lemma ne_of_hexZero (hwidth : d.width.value ≤ INT_MAX) (h : HexZero d) :
    intText (codeSpec d) ≠ d.text := by
  obtain ⟨hhash, hbase, h0⟩ := h
  have hs : d.conv.signed = false := by
    cases hc : d.conv <;> simp [hc, IntConv.base] at hbase <;> rfl
  have hx : ∀ x, x = chr 'x' ∨ x = chr 'X' → x ∉ d.text := by
    intro x hx
    have hx' : x ≠ chr ' ' ∧ x ≠ chr '0' := by rcases hx with rfl | rfl <;> decide
    refine not_mem_fill ?_ (fun hmem => hx'.2 (digits_of_value_zero d h0 hmem)) hx'.1
      (fun _ => hx'.2)
    simp [sign_of_unsigned d hs, IntDirective.hexMark, h0]
  have hmem : (if d.conv.upper then chr 'X' else chr 'x') ∈ intText (codeSpec d) := by
    rw [intText_eq_fill d hwidth]
    refine mem_fill (Or.inl ?_)
    have hhash' : (codeSpec d).flags.hash = true := decide_eq_true hhash
    have hbase' : (codeSpec d).base = 16 := hbase
    have hupper : (codeSpec d).flags.upper = d.conv.upper := rfl
    simp [IntSpec.nondigits, hhash', hbase', hupper]
  intro heq
  rw [heq] at hmem
  exact hx _ (by split_ifs <;> simp) hmem

section
variable (hbits : 0 < bits ∧ bits ≤ 64) (hwidth : d.width.value ≤ INT_MAX)
include hbits hwidth

lemma ne_of_noDigits (h : NoDigits d) : intText (codeSpec d) ≠ d.text := by
  have hdigits := digits_of_noDigits d h
  obtain ⟨h0, hprec, -⟩ := h
  have hnot : chr '0' ∉ d.text := by
    refine not_mem_fill ?_ (by simp [hdigits]) (by decide) (by simp [hprec])
    simp only [IntDirective.hexMark, h0, ne_eq, not_true_eq_false, and_false, if_false,
      append_nil, IntDirective.sign, lt_irrefl]
    split_ifs <;> decide
  have hmem : chr '0' ∈ intText (codeSpec d) := by
    rw [intText_eq_fill d hwidth]
    refine mem_fill (Or.inr ?_)
    have hmag : (codeSpec d).magnitude = 0 := by
      rw [(minus_magnitude d hbits).2, h0]
      rfl
    have hnd := one_le_ndigits (codeSpec d)
    rw [digitText_eq (p := codeSpec d) (one_lt_base d.conv) rfl, hmag, numeral, Nat.digits_zero]
    refine mem_map.2 ⟨0, ?_, by cases (codeSpec d).flags.upper <;> rfl⟩
    simp only [length_nil, Nat.sub_zero, reverse_nil, append_nil, mem_replicate, and_true]
    omega
  intro heq
  exact hnot (heq ▸ hmem)

lemma ne_of_plus
    (hs : d.conv.signed = false) (h : .plus ∈ d.flags) : intText (codeSpec d) ≠ d.text := by
  obtain ⟨hmark, hdigits⟩ := not_mem_hexMark_digits d (Or.inr rfl)
  have hnot : chr '+' ∉ d.text :=
    not_mem_fill (by simp [sign_of_unsigned d hs, hmark]) hdigits (by decide) (fun _ => by decide)
  have hmem : chr '+' ∈ intText (codeSpec d) := by
    rw [intText_eq_fill d hwidth]
    refine mem_fill (Or.inl ?_)
    have hplus : (codeSpec d).flags.plus = true := decide_eq_true h
    have hminus : (codeSpec d).minus = false := by
      rw [Bool.eq_false_iff, ne_eq, (minus_magnitude d hbits).1]
      exact value_nonneg d hs
    simp [IntSpec.nondigits, hplus, hminus]
  intro heq
  exact hnot (heq ▸ hmem)

end

/-- **When the code writes what ISO C prescribes** for an integer. -/
structure IntGood : Prop where
  /-- `#x` and `#X` have a nonzero value. -/
  hexZero : ¬ HexZero d
  /-- The value 0 with the precision 0 stands under `#o`. -/
  digits : ¬ NoDigits d
  /-- A `+` stands with a signed conversion. -/
  plus : d.conv.signed = false → .plus ∉ d.flags
  /-- A space does so too, or it is in the place of a padding space. -/
  space : d.conv.signed = false → .space ∈ d.flags → d.left = false ∧
    d.body.length < d.width.value ∧
      (.zero ∈ d.flags → d.prec.value ≠ none ∧ d.width.value = d.body.length + 1)
  /-- A `0` together with a precision finds nothing to be padded. -/
  zero : d.conv.signed = true ∨ .space ∉ d.flags → .zero ∈ d.flags → d.left = false →
    d.prec.value ≠ none → d.width.value ≤ d.body.length

lemma digits_ne_nil (h : ¬ NoDigits d) : d.digits ≠ [] := by
  intro hnil
  have hp := prec_le_length_digits d
  rw [hnil, length_nil, Nat.le_zero] at hp
  have hq : d.prec.value = some 0 := by
    cases hq : d.prec.value with
    | none => simp [hq] at hp
    | some q => simp only [hq, Option.getD_some] at hp; rw [hp]
  rw [digits_eq_numeral, numeral, append_eq_nil_iff, replicate_eq_nil_iff,
    reverse_eq_nil_iff, Nat.digits_eq_nil_iff_eq_zero, Int.natAbs_eq_zero] at hnil
  refine h ⟨hnil.2, hq, fun hh => ?_⟩
  have hz : zeros d = 1 := by
    rw [zeros, hq]
    exact if_pos ⟨hh.1, hh.2, Nat.zero_sub _⟩
  omega

section
variable (hbits : 0 < bits ∧ bits ≤ 64)
include hbits

/-- **The text of the code is the one of ISO C** if and only if the directive is `IntGood`. -/
theorem intText_eq_iff (hlen : d.text.length ≤ INT_MAX) :
    intText (codeSpec d) = d.text ↔ IntGood d := by
  have hwidth := width_le d hlen
  have hprec := prec_le d hlen
  by_cases hhex : HexZero d
  · exact iff_of_false (ne_of_hexZero d hwidth hhex) fun hg => hg.hexZero hhex
  by_cases hno : NoDigits d
  · exact iff_of_false (ne_of_noDigits d hbits hwidth hno) fun hg => hg.digits hno
  by_cases hplus : d.conv.signed = false ∧ .plus ∈ d.flags
  · exact iff_of_false (ne_of_plus d hbits hwidth hplus.1 hplus.2) fun hg => hg.plus hplus.1 hplus.2
  rw [intText_eq_fill d hwidth, digitText_eq_digits d hbits hprec hno, IntDirective.text]
  have hplus' : d.conv.signed = false → .plus ∉ d.flags := fun hs hp => hplus ⟨hs, hp⟩
  by_cases hspace : d.conv.signed = false ∧ .space ∈ d.flags
  · -- a space in front of an unsigned number
    obtain ⟨hs, hsp⟩ := hspace
    obtain ⟨hmark, hdigits⟩ := not_mem_hexMark_digits d (Or.inl rfl)
    rw [nondigits_space d hbits hhex hs (hplus' hs) hsp,
      fill_space_iff (fun hz => decide_eq_true (of_decide_eq_true hz).1)
      (by simp [digits_ne_nil d hno]) (by simpa [sign_of_unsigned d hs, hmark] using hdigits)]
    constructor
    · rintro ⟨hleft, hlt, hz⟩
      refine ⟨hhex, hno, hplus', fun _ _ => ⟨hleft, hlt, fun hzero => ?_⟩, fun hc => ?_⟩
      · obtain ⟨hprecision, hw⟩ := hz (decide_eq_true hzero)
        exact ⟨fun hnone => of_decide_eq_false hprecision ⟨hzero, hnone⟩, hw⟩
      · rcases hc with hc | hc
        · rw [hs] at hc
          cases hc
        · exact absurd hsp hc
    · intro hg
      obtain ⟨hleft, hlt, hz⟩ := hg.space hs hsp
      refine ⟨hleft, hlt, fun hzero => ?_⟩
      obtain ⟨hprecision, hw⟩ := hz (of_decide_eq_true hzero)
      exact ⟨decide_eq_false fun hc => hprecision hc.2, hw⟩
  · -- the same head and the same digits
    have hsign : d.conv.signed = true ∨ .plus ∉ d.flags ∧ .space ∉ d.flags := by
      cases hs : d.conv.signed with
      | true => exact Or.inl rfl
      | false => exact Or.inr ⟨hplus' hs, fun hsp => hspace ⟨hs, hsp⟩⟩
    have hnospace : d.conv.signed = false → .space ∈ d.flags → False := fun hs hsp =>
      hspace ⟨hs, hsp⟩
    rw [nondigits_eq d hbits hhex hsign]
    by_cases hz : .zero ∈ d.flags ∧ d.prec.value ≠ none
    · rw [decide_eq_true hz.1, decide_eq_false fun hc => hz.2 hc.2, fill_zero_iff]
      constructor
      · intro h
        refine ⟨hhex, hno, hplus', fun hs hsp => (hnospace hs hsp).elim, fun _ _ hleft _ => ?_⟩
        exact h.resolve_left (by simp [hleft])
      · intro hg
        cases hleft : d.left with
        | true => exact Or.inl rfl
        | false => exact Or.inr (hg.zero (hsign.imp_right And.right) hz.1 hleft hz.2)
    · have hsame : decide (.zero ∈ d.flags ∧ d.prec.value = none) = decide (.zero ∈ d.flags) := by
        refine decide_eq_decide.2 ⟨And.left, fun hzero => ⟨hzero, ?_⟩⟩
        by_contra hprecision
        exact hz ⟨hzero, hprecision⟩
      rw [hsame]
      refine iff_of_true rfl ⟨hhex, hno, hplus', fun hs hsp => (hnospace hs hsp).elim, ?_⟩
      exact fun _ hzero _ hprecision => absurd ⟨hzero, hprecision⟩ hz

lemma length_head_le : (d.sign ++ d.hexMark).length ≤ (codeSpec d).nondigits.length := by
  have hminus := (minus_magnitude d hbits).1
  have hplus : (codeSpec d).flags.plus = decide (.plus ∈ d.flags) := rfl
  have hspace : (codeSpec d).flags.space = decide (.space ∈ d.flags) := rfl
  rw [IntSpec.nondigits, length_append, length_append]
  refine Nat.add_le_add ?_ ?_
  · unfold IntDirective.sign
    cases d.conv.signed with
    | true => simp [hminus, hplus, hspace]
    | false => simp
  · by_cases hhex : HexZero d
    · simp [IntDirective.hexMark, hhex.2.2]
    · rw [hexMark_eq d hhex]

lemma length_text_le (hlen : d.text.length ≤ INT_MAX) :
    d.text.length ≤ (intText (codeSpec d)).length := by
  have hhead := length_head_le d hbits
  have hdigits : (d.digits.map (digitChar d.conv.upper)).length ≤
      (digitText (codeSpec d)).length := by
    by_cases hno : NoDigits d
    · rw [digits_of_noDigits d hno]
      exact Nat.zero_le _
    · rw [digitText_eq_digits d hbits (prec_le d hlen) hno]
  rw [intText_eq_fill d (width_le d hlen), length_fill, IntDirective.text, length_fill]
  simp only [length_append] at hhead ⊢
  omega

end

end

end Klibc.Stdio.IsoInt
