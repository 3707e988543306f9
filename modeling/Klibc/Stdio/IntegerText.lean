import Klibc.Stdio.IsoInt

/-! # The text of an integer conversion

What `format_int` emits, for every value, set of flags, width and precision: padding, a sign, the
prefix `0x` and a group of digits, with tick marks between them for the flag `'` (`DigitGroup`).
`format_int_text` holds as long as the counters of the code, which are of type `int`, can count the
characters. -/

namespace Klibc.Stdio.IntegerText

open Lib.Machine Lib.Blit List Vsnprintf FormatInt Digits Iso IsoInt

/-! ### The parts of the text -/

section
variable (p : IntSpec)

def sign : List UInt8 :=
  if argument p < 0 then [chr '-'] else if p.flags.plus then [chr '+']
  else if p.flags.space then [chr ' '] else []

def hexPrefix : List UInt8 :=
  if p.flags.hash ∧ p.base = 16 then [chr '0', if p.flags.upper then chr 'X' else chr 'x'] else []

/-- How many digits there are: at least one, those of the precision and the significant ones, with a
zero in front of these for a `#` in base eight. -/
def digitCount : ℕ :=
  max 1 (max p.prec.toNat ((Nat.digits p.base (argument p).natAbs).length +
    if p.flags.hash ∧ p.base = 8 then 1 else 0))

def groupSize : ℕ := if p.base = 16 then 4 else 3

/-- How many characters there are beside the padding. -/
def charCount : ℕ :=
  (sign p).length + (hexPrefix p).length + digitCount p +
    if p.flags.tick then (digitCount p - 1) / groupSize p else 0

/-- The digits `ds` with their tick marks. Counted from the right, a tick mark stands before every
`groupSize` digits, and none stands first. -/
structure DigitGroup (group : List UInt8) (ds : List ℕ) : Prop where
  digits : group.filter (· ≠ chr '_') = ds.map (digitChar p.flags.upper)
  count : ds.length = digitCount p
  lt : ∀ d ∈ ds, d < p.base
  value : horner p.base ds = (argument p).natAbs
  plain : p.flags.tick = false → chr '_' ∉ group
  ticks : p.flags.tick = true → ∀ i, group.reverse[i]? = some (chr '_') ↔
    i < group.length ∧ i % (groupSize p + 1) = groupSize p
  first : group.head? ≠ some (chr '_')

end

/-! ### The digits of the code -/

section
variable {p : IntSpec}

lemma digitChar_ne_tick (upper : Bool) {d : ℕ} (h : d < 16) : digitChar upper d ≠ chr '_' := by
  revert upper
  interval_cases d <;> decide

section
variable (hb : p.base ≤ 16) (h0 : 0 < p.base)
include hb h0

lemma filter_revDigits : ∀ k b c v, k ≤ c →
    (revDigits p k b v).filter (· ≠ chr '_') = revDigits p k c v := by
  intro k
  induction k with
  | zero => intro b c v _; rfl
  | succ k ih =>
    intro b c v hc
    obtain ⟨c, rfl⟩ : ∃ e, c = e + 1 := ⟨c - 1, by omega⟩
    have hd : digitChar p.flags.upper (v % p.base) ≠ chr '_' :=
      digitChar_ne_tick _ ((Nat.mod_lt v h0).trans_le hb)
    cases b with
    | zero =>
      rw [revDigits, revDigits, filter_cons_of_neg (by simp), filter_cons_of_pos
        (by simpa using hd), ih _ c _ (by omega)]
    | succ b =>
      rw [revDigits, revDigits, filter_cons_of_pos (by simpa using hd), ih _ c _ (by omega)]

/-- **Where the tick marks stand**, from right to left, with `b` digits before the first one. -/
theorem revDigits_tick {g : ℕ} (hg : 0 < g) (hskip : p.tickskip.toNat = g) : ∀ k b v i, b ≤ g →
    ((revDigits p k b v)[i]? = some (chr '_') ↔
      i < (revDigits p k b v).length ∧ (i + (g - b)) % (g + 1) = g) := by
  intro k
  induction k with
  | zero => intro b v i _; simp [revDigits]
  | succ k ih =>
    intro b v i hbg
    have hd : digitChar p.flags.upper (v % p.base) ≠ chr '_' :=
      digitChar_ne_tick _ ((Nat.mod_lt v h0).trans_le hb)
    cases b with
    | zero =>
      rw [revDigits, hskip]
      rcases i with _ | _ | i
      · simp [Nat.mod_eq_of_lt (Nat.lt_succ_self g)]
      · have hmod : (0 + 1 + (g - 0)) % (g + 1) = 0 := by
          rw [Nat.zero_add, Nat.sub_zero, Nat.add_comm, Nat.mod_self]
        rw [hmod]
        exact iff_of_false (by simpa using hd) fun h => hg.ne h.2
      · have hmod : (i + 1 + 1 + (g - 0)) % (g + 1) = (i + (g - (g - 1))) % (g + 1) := by
          have : i + 1 + 1 + (g - 0) = i + (g - (g - 1)) + (g + 1) := by omega
          rw [this, Nat.add_mod_right]
        rw [getElem?_cons_succ, getElem?_cons_succ, ih _ _ _ (by omega), hmod]
        simp
    | succ b =>
      rw [revDigits]
      rcases i with _ | i
      · have hmod : (0 + (g - (b + 1))) % (g + 1) = g - (b + 1) := by
          rw [Nat.zero_add, Nat.mod_eq_of_lt (by omega)]
        rw [hmod]
        exact iff_of_false (by simpa using hd) fun h => by omega
      · have hsum : i + 1 + (g - (b + 1)) = i + (g - b) := by omega
        rw [getElem?_cons_succ, ih _ _ _ (by omega), hsum]
        simp

lemma getLast_revDigits : ∀ k b v, (revDigits p k b v).getLast? ≠ some (chr '_') := by
  intro k
  induction k with
  | zero => intro b v; simp [revDigits]
  | succ k ih =>
    intro b v
    have hd : digitChar p.flags.upper (v % p.base) ≠ chr '_' :=
      digitChar_ne_tick _ ((Nat.mod_lt v h0).trans_le hb)
    have hcons : ∀ {c : UInt8} {r : List UInt8}, c ≠ chr '_' → r.getLast? ≠ some (chr '_') →
        (c :: r).getLast? ≠ some (chr '_') := by
      intro c r hc hr
      cases r with
      | nil => simpa using hc
      | cons x r => rwa [getLast?_cons_cons]
    cases b with
    | zero =>
      rw [revDigits, getLast?_cons_cons]
      exact hcons hd (ih _ _)
    | succ b =>
      rw [revDigits]
      exact hcons hd (ih _ _)

end

end

/-! ### The parts and the code -/

section
variable {p : IntSpec} (hb : p.base = 8 ∨ p.base = 10 ∨ p.base = 16)

lemma nondigits_eq_parts (p : IntSpec) : p.nondigits = sign p ++ hexPrefix p := by
  have hminus : (p.minus = true) = (argument p < 0) := propext (minus_iff p)
  unfold IntSpec.nondigits sign hexPrefix
  simp only [hminus]

lemma tickskip_eq (htick : p.flags.tick = true) : p.tickskip = groupSize p := by
  unfold IntSpec.tickskip groupSize
  rw [if_pos htick]
  split_ifs <;> rfl

include hb

lemma ndigits_eq : p.ndigits = digitCount p := by
  have hcount := countDigits_eq (by omega) 64 p.magnitude (magnitude_lt_pow (p := p) (by omega))
  have hzero : p.magnitude = 0 ↔ (Nat.digits p.base p.magnitude).length = 0 := by
    rw [length_eq_zero_iff, Nat.digits_eq_nil_iff_eq_zero]
  unfold IntSpec.ndigits digitCount
  rw [hcount, ← magnitude_eq]
  dsimp only
  generalize (Nat.digits p.base p.magnitude).length = n at hzero
  by_cases hoctal : p.flags.hash = true ∧ p.base = 8
  · rw [if_pos hoctal]
    simp only [hoctal.1, hoctal.2, true_and]
    split_ifs <;> omega
  · have hno : ¬ (p.flags.hash = true ∧ p.base = 8 ∧ p.prec < (n : ℤ) + 1) :=
      fun h => hoctal ⟨h.1, h.2.1⟩
    rw [if_neg hoctal]
    simp only [if_neg hno]
    split_ifs <;> omega

/-- **The digits that the code writes.** -/
theorem digitText_group : ∃ ds, DigitGroup p (digitText p) ds := by
  have h1 : 1 < p.base := by omega
  have h16 : p.base ≤ 16 := by omega
  have hlen := length_digits_le_ndigits h1
  have hcount : p.ndigits.toNat = digitCount p := by rw [ndigits_eq hb]; rfl
  obtain ⟨z, hz⟩ : ∃ z, z = p.ndigits.toNat - (Nat.digits p.base p.magnitude).length := ⟨_, rfl⟩
  have hplain := revDigits_eq h1 p.ndigits.toNat p.ndigits.toNat p.magnitude le_rfl (by omega)
  rw [← hz] at hplain
  refine ⟨numeral p.base z p.magnitude, ?_, ?_, numeral_lt_base h1 _ _, ?_, fun htick => ?_,
    fun htick i => ?_, ?_⟩
  · rw [digitText, filter_reverse, filter_revDigits h16 (by omega) _ _ _ _ le_rfl, hplain,
      ← map_reverse, reverse_append, reverse_replicate, numeral]
  · rw [numeral, length_append, length_replicate, length_reverse]
    omega
  · rw [horner_numeral, magnitude_eq]
  · have hskip : p.tickskip = p.ndigits := by simp [IntSpec.tickskip, htick]
    rw [digitText, hskip, mem_reverse,
      ← filter_revDigits h16 (by omega) _ p.ndigits.toNat _ _ le_rfl, mem_filter]
    simp
  · have hskip := tickskip_eq htick
    have hpos : 0 < groupSize p := by unfold groupSize; split_ifs <;> decide
    rw [digitText, reverse_reverse, length_reverse]
    have htoNat : p.tickskip.toNat = groupSize p := by rw [hskip]; rfl
    rw [htoNat, revDigits_tick h16 (by omega) hpos htoNat _ _ _ _ le_rfl, Nat.sub_self,
      Nat.add_zero]
  · rw [digitText, head?_reverse]
    exact getLast_revDigits h16 (by omega) _ _ _

lemma length_body : (p.nondigits ++ digitText p).length = charCount p := by
  have hlen := length_digitText p
  have hcount := ndigits_eq hb
  have hone : 1 ≤ digitCount p := le_max_left _ _
  rw [hcount] at hlen
  rw [length_append, nondigits_eq_parts, length_append, charCount]
  by_cases htick : p.flags.tick = true
  · rw [if_pos htick]
    rw [tickskip_eq htick, Int.tdiv_eq_ediv_of_nonneg (by omega)] at hlen
    have hcast : ((digitCount p : ℤ) - 1) / groupSize p =
        ((digitCount p - 1) / groupSize p : ℕ) := by
      rw [Int.natCast_ediv, Nat.cast_sub hone]
      rfl
    omega
  · have hskip : p.tickskip = digitCount p := by rw [IntSpec.tickskip, if_neg htick, hcount]
    rw [if_neg htick]
    rw [hskip, Int.tdiv_eq_ediv_of_nonneg (by omega), Int.ediv_eq_zero_of_lt (by omega)
      (by omega)] at hlen
    omega

end

/-! ### The whole text -/

/-- **The text of an integer conversion.**  For every value, set of flags, width and precision, in
base 8, 10 and 16, as long as there are at most `INT_MAX` characters beside the padding: the
complete text, of which `format_int` writes as much as there is room for, consists of the sign, the
prefix, a group of digits whose value is the magnitude of the argument, and padding up to the width;
`format_int` returns its length. -/
theorem format_int_text {bits : ℕ} (hbits : 32 ≤ bits) (p : IntSpec)
    (hb : p.base = 8 ∨ p.base = 10 ∨ p.base = 16) (hwidth : p.width ≤ INT_MAX)
    (hfit : charCount p ≤ INT_MAX) : ∃ group ds text, DigitGroup p group ds ∧
      text = fill p.flags.minus p.flags.zero p.width.toNat (sign p ++ hexPrefix p) group ∧
      (text.length : ℤ) = max p.width (charCount p) ∧
      ∀ m q n, formatInt bits m q n p = (blit m q (text.take n), text.length) := by
  obtain ⟨ds, hgroup⟩ := digitText_group hb
  have htext := intText_fill p
  have hlen : (intText p).length = max p.width.toNat (charCount p) := by
    rw [htext, length_fill, length_body hb]
  refine ⟨digitText p, ds, intText p, hgroup, ?_, by omega, fun m q n => ?_⟩
  · rw [htext, nondigits_eq_parts]
  · exact formatInt_eq hbits m q n p (by omega)

/-- `%'12d` of -1234567. -/
def ticked : IntSpec := ⟨-1234567, { Flags.none with signed := true, tick := true }, 10, 12, -1⟩

theorem format_int_text_ticked : ∃ group ds text, DigitGroup ticked group ds ∧
    text = fill false false 12 [chr '-'] group ∧ (text.length : ℤ) = 12 ∧
    ∀ m q n, formatInt 64 m q n ticked = (blit m q (text.take n), text.length) :=
  format_int_text (by decide : 32 ≤ 64) ticked (by decide) (by decide) (by decide +kernel)

/-! ### More than `INT_MAX` characters -/

lemma iterate_emit_o (bits n : ℕ) (x : UInt8) (k : ℕ) (s : Out) (h : s.o + k < 2 ^ bits) :
    ((emit bits n x)^[k] s).o = s.o + k := by
  induction k with
  | zero => rfl
  | succ k ih =>
    rw [Function.iterate_succ_apply']
    have hstep : ∀ s : Out, (emit bits n x s).o = (s.o + 1) % 2 ^ bits := by
      intro s
      unfold emit
      split_ifs <;> rfl
    rw [hstep, ih (by omega), Nat.add_assoc, Nat.mod_eq_of_lt h]

lemma formatInt_negative {bits : ℕ} {p : IntSpec} {k : ℕ} (hk : k < 2 ^ bits)
    (hflags : p.flags = { Flags.none with tick := true }) (hbase : p.base ≠ 16)
    (hwidth : p.width = 0) (hval : p.minus = false)
    (hnd : wrap 32 (p.ndigits + (p.ndigits - 1).tdiv p.tickskip) = -(k : ℤ))
    (m : ℤ → Option UInt8) (q : ℤ) (n : ℕ) : (formatInt bits m q n p).2 = 0 := by
  have hpad : (p.width - -(k : ℤ)).toNat = k := by omega
  have hspaces := iterate_emit_o bits n (chr ' ') k ⟨m, q, 0, []⟩ (by simpa using hk)
  have hzero : unsigned bits 0 = 0 := by simp [unsigned]
  simp only [formatInt, hnd, IntSpec.nchars, IntSpec.nondigits, hflags, hval, Flags.none, hbase,
    hpad, hspaces, Bool.false_eq_true, and_false, or_self, if_false, not_false_eq_true, if_true,
    append_nil, foldl_nil, false_and, Nat.zero_add, Int.add_right_neg, hzero]

/-- `%'.*u` of 0, with the precision `INT_MAX`. -/
def hugePrecision : IntSpec := ⟨0, { Flags.none with tick := true }, 10, 0, 2147483647⟩

lemma digitCount_huge : digitCount hugePrecision = 2147483647 := by
  simp [digitCount, hugePrecision, argument, Flags.none]

/-- **A precision that is too large.**  There are 2147483647 digits and 715827882 tick marks to be
written. Their number wraps around, and `format_int` returns 0. -/
theorem hugePrecision_wraps : charCount hugePrecision = 2863311529 ∧
    ∀ m q n, (formatInt 64 m q n hugePrecision).2 = 0 := by
  have hsign : sign hugePrecision = [] := rfl
  have hprefix : hexPrefix hugePrecision = [] := rfl
  have hsize : groupSize hugePrecision = 3 := rfl
  have htick : hugePrecision.flags.tick = true := rfl
  have hnd : wrap 32 (hugePrecision.ndigits +
      (hugePrecision.ndigits - 1).tdiv hugePrecision.tickskip) = -(1431655767 : ℕ) := by
    rw [ndigits_eq (by decide), tickskip_eq rfl, digitCount_huge]
    decide +kernel
  refine ⟨?_, formatInt_negative (by norm_num) rfl (by decide) rfl rfl hnd⟩
  rw [charCount, digitCount_huge, hsign, hprefix, hsize, if_pos htick, length_nil]

end Klibc.Stdio.IntegerText
