import Klibc.Stdio.IsoParse
import Klibc.Stdio.Numerals
import Klibc.Stdio.ScanLoop
import Klibc.Stdio.Truncation

/-! # `scanf` undoes `printf`

A list of integer conversions `d`, `u`, `o` and `x` with the length modifiers `hh`, `h`, none, `l`
and `ll`, separated by single spaces, is a format for both `vsnprintf` and `vsscanf`.
`scanf_undoes_printf`: what the first writes, the second reads back, whatever the values are. -/

namespace Klibc.Stdio.RoundTrip

open Lib.Machine Vsnprintf FormatInt Digits List Truncation
open Iso (IntConv IntDirective)
open ScanLoop (loop_cons_of_step)
open IsoParse (codeSpec loop_int)
open Numerals (Numeral strntoumax_numeral)
open Strntoumax (digit value)
open Vsscanf (isspace strntoumax Val Stored Scan skipspace scanInt setInteger UINT_MAX
  vsscanf)

/-! ### The conversions -/

inductive Kind
  | d | u | o | x
  deriving DecidableEq

def Kind.letter : Kind → UInt8
  | .d => chr 'd'
  | .u => chr 'u'
  | .o => chr 'o'
  | .x => chr 'x'

def Kind.base : Kind → ℕ
  | .d => 10
  | .u => 10
  | .o => 8
  | .x => 16

section
variable {bits : ℕ}

def modifier : Val bits → List UInt8
  | .char _ => [chr 'h', chr 'h']
  | .short _ => [chr 'h']
  | .int _ => []
  | .long _ => [chr 'l']
  | .longlong _ => [chr 'l', chr 'l']

structure Conv (bits : ℕ) where
  kind : Kind
  val : Val bits

/-- `%`, the length modifier and the letter. -/
def Conv.format (c : Conv bits) : List UInt8 := chr '%' :: modifier c.val ++ [c.kind.letter]

def Kind.extend {w : ℕ} (k : Kind) (v : ℕ) (x : BitVec w) : BitVec v :=
  if k = .d then x.signExtend v else x.setWidth v

/-- The argument: values of `char` and `short` are passed as `int`. -/
def Conv.arg (c : Conv bits) : Arg bits :=
  match c.val with
  | .char v => .int (c.kind.extend 32 v)
  | .short v => .int (c.kind.extend 32 v)
  | .int v => .int v
  | .long v => .long v
  | .longlong v => .longlong v

/-- The value as a `uintmax_t`. -/
def Conv.value (c : Conv bits) : BitVec 64 :=
  match c.val with
  | .char v => c.kind.extend 64 v
  | .short v => c.kind.extend 64 v
  | .int v => c.kind.extend 64 v
  | .long v => c.kind.extend 64 v
  | .longlong v => v

def rank : Val bits → Rank
  | .char _ => .char
  | .short _ => .short
  | .int _ => .int
  | .long _ => .long
  | .longlong _ => .longlong

/-- The conversions with single spaces between them. -/
def formatOf (cs : List (Conv bits)) : List UInt8 := List.intercalate [chr ' '] (cs.map Conv.format)

/-! ### Extending and cutting off -/

lemma setWidth_extend (k : Kind) {w v : ℕ} (h : w ≤ v) (x : BitVec w) :
    (k.extend v x).setWidth w = x := by
  unfold Kind.extend
  split_ifs
  · ext i hi
    simp [BitVec.getElem_signExtend, hi, lt_of_lt_of_le hi h]
  · rw [BitVec.setWidth_setWidth_of_le _ h, BitVec.setWidth_eq]

lemma ofRank_value (hbits : bits ≤ 64) (c : Conv bits) :
    Val.ofRank c.value (rank c.val) = c.val := by
  obtain ⟨k, v⟩ := c
  cases v with
  | char v => exact congrArg Val.char (setWidth_extend k (by decide) v)
  | short v => exact congrArg Val.short (setWidth_extend k (by decide) v)
  | int v => exact congrArg Val.int (setWidth_extend k (by decide) v)
  | long v => exact congrArg Val.long (setWidth_extend k hbits v)
  | longlong v => rfl

end

/-! ### Printing -/

section
variable {bits : ℕ} {σ : Type} {K : Sink σ}

/-- What `format_int` gets. -/
def Conv.spec (c : Conv bits) : IntSpec where
  val := c.value
  flags := { Flags.none with signed := c.kind = .d }
  base := c.kind.base
  width := 0
  prec := -1

def Conv.text (c : Conv bits) : List UInt8 := intText c.spec

def textOf (cs : List (Conv bits)) : List UInt8 := List.intercalate [chr ' '] (cs.map Conv.text)

def Kind.conv : Kind → IntConv
  | .d => .d
  | .u => .u
  | .o => .o
  | .x => .x

def Conv.directive (c : Conv bits) : IntDirective bits :=
  match c.val with
  | .char v => ⟨[], .omitted, .none, .hh, c.kind.conv, c.kind.extend 32 v, Iso.no_hash _⟩
  | .short v => ⟨[], .omitted, .none, .h, c.kind.conv, c.kind.extend 32 v, Iso.no_hash _⟩
  | .int v => ⟨[], .omitted, .none, .none, c.kind.conv, v, Iso.no_hash _⟩
  | .long v => ⟨[], .omitted, .none, .l, c.kind.conv, v, Iso.no_hash _⟩
  | .longlong v => ⟨[], .omitted, .none, .ll, c.kind.conv, v, Iso.no_hash _⟩

variable (c : Conv bits)

lemma format_directive : c.directive.format = c.format := by
  obtain ⟨k, v⟩ := c
  cases v <;> cases k <;> rfl

lemma args_directive : c.directive.args = [c.arg] := by
  obtain ⟨k, v⟩ := c
  cases v <;> rfl

lemma extend_conv (k : Kind) {w : ℕ} (x : BitVec w) :
    (if k.conv.signed then x.signExtend 64 else x.setWidth 64) = k.extend 64 x := by
  cases k <;> rfl

lemma spec_directive : codeSpec c.directive = c.spec := by
  have hval : (codeSpec c.directive).val = c.value := by
    obtain ⟨k, v⟩ := c
    cases v with
    | char v =>
      have hcut : (k.extend 32 v).setWidth 8 = v := setWidth_extend k (by decide) v
      exact (extend_conv k _).trans (congrArg (k.extend 64) hcut)
    | short v =>
      have hcut : (k.extend 32 v).setWidth 16 = v := setWidth_extend k (by decide) v
      exact (extend_conv k _).trans (congrArg (k.extend 64) hcut)
    | int v => exact (extend_conv k _).trans (congrArg (k.extend 64) (BitVec.setWidth_eq v))
    | long v => exact (extend_conv k _).trans (congrArg (k.extend 64) (BitVec.setWidth_eq v))
    | longlong v =>
      refine (extend_conv k _).trans ?_
      change k.extend 64 (v.setWidth 64) = v
      rw [BitVec.setWidth_eq, ← BitVec.setWidth_eq (k.extend 64 v)]
      exact setWidth_extend k le_rfl v
  have hrest : { codeSpec c.directive with val := c.value } = c.spec := by
    obtain ⟨k, v⟩ := c
    cases v <;> cases k <;> rfl
  rw [← hrest, ← hval]

/-- **A conversion of the format** is one call of `format_int`. -/
theorem loop_conv (args : List (Arg bits)) (rest : List UInt8) {p : Parse bits}
    (hstate : p.state = .normal) (hargs : p.args = c.arg :: args) (s : σ) :
    ∃ p', p'.state = .normal ∧ p'.args = args ∧
      loop K (c.format ++ rest) p s = loop K rest p' (K.int c.spec s) := by
  rw [← format_directive, ← spec_directive]
  refine loop_int c.directive rest hstate ?_ s
  rw [args_directive, hargs, singleton_append]

lemma loop_space (rest : List UInt8) {p : Parse bits} (hstate : p.state = .normal) (s : σ) :
    loop K (chr ' ' :: rest) p s = loop K rest p (K.emit (chr ' ') s) := by
  refine loop_cons K (by decide) rest ?_
  rw [step, hstate]
  rfl

lemma formatOf_singleton : formatOf [c] = c.format ++ [] := by simp [formatOf, List.intercalate]

lemma textOf_singleton : textOf [c] = c.text := by simp [textOf, List.intercalate]

lemma formatOf_cons (c c' : Conv bits) (cs : List (Conv bits)) :
    formatOf (c :: c' :: cs) = c.format ++ chr ' ' :: formatOf (c' :: cs) := by
  simp [formatOf, List.intercalate]

lemma textOf_cons (c c' : Conv bits) (cs : List (Conv bits)) :
    textOf (c :: c' :: cs) = c.text ++ chr ' ' :: textOf (c' :: cs) := by
  simp [textOf, List.intercalate]

/-- **The loop over the format**, with an invariant of the output that its operations keep: the text
so far. -/
theorem loop_formatOf {I : List UInt8 → σ → Prop} {N : ℕ}
    (hint : ∀ t s (c : Conv bits), I t s → (t ++ c.text).length ≤ N →
      I (t ++ c.text) (K.int c.spec s)) (hemit : ∀ t s, I t s → (t ++ [chr ' ']).length ≤ N →
      I (t ++ [chr ' ']) (K.emit (chr ' ') s)) :
    ∀ (cs : List (Conv bits)) (p : Parse bits) (t : List UInt8) (s : σ), p.state = .normal →
      p.args = cs.map Conv.arg → I t s → (t ++ textOf cs).length ≤ N →
      ∃ s', loop K (formatOf cs) p s = some s' ∧ I (t ++ textOf cs) s'
  | [], p, t, s, _, _, hI, _ => ⟨s, rfl, by simpa [textOf, List.intercalate] using hI⟩
  | [c], p, t, s, hstate, hargs, hI, hlen => by
    rw [textOf_singleton] at hlen ⊢
    obtain ⟨p', -, -, hloop⟩ := loop_conv (K := K) c [] [] hstate hargs s
    rw [formatOf_singleton, hloop]
    exact ⟨_, rfl, hint t s c hI hlen⟩
  | c :: c' :: cs, p, t, s, hstate, hargs, hI, hlen => by
    rw [textOf_cons] at hlen ⊢
    rw [append_cons, ← append_assoc, ← append_assoc] at hlen ⊢
    have h1 : (t ++ c.text ++ [chr ' ']).length ≤ N := le_trans (by simp) hlen
    have h2 : (t ++ c.text).length ≤ N := le_trans (by simp) h1
    obtain ⟨p', hstate', hargs', hloop⟩ := loop_conv (K := K) c _
      (chr ' ' :: formatOf (c' :: cs)) hstate hargs s
    rw [formatOf_cons, hloop, loop_space _ hstate']
    exact loop_formatOf hint hemit (c' :: cs) p' _ _ hstate' hargs'
      (hemit _ _ (hint t s c hI h2) h1) hlen

def Conv.digits (c : Conv bits) : List ℕ :=
  numeral c.kind.base (1 - (Nat.digits c.kind.base c.spec.magnitude).length) c.spec.magnitude

lemma one_lt_base (k : Kind) : 1 < k.base := by cases k <;> decide

lemma ndigits_spec : c.spec.ndigits.toNat = (Nat.digits c.kind.base c.spec.magnitude).length +
      (1 - (Nat.digits c.kind.base c.spec.magnitude).length) := by
  have hcount := countDigits_eq (one_lt_base c.kind) 64 c.spec.magnitude
    (magnitude_lt_pow (p := c.spec) (one_lt_base c.kind))
  have hnd : c.spec.ndigits = if c.spec.magnitude = 0 then 1
      else ((Nat.digits c.kind.base c.spec.magnitude).length : ℤ) := by
    rw [← hcount]
    have h0 := countDigits_nonneg c.kind.base 64 c.spec.magnitude
    simp only [IntSpec.ndigits, Conv.spec, Flags.none, Bool.false_eq_true, false_and, if_false]
    rw [if_neg (by exact not_lt.2 (le_trans (by decide) h0))]
  rw [hnd]
  split_ifs with h0
  · rw [h0, Nat.digits_zero]
    rfl
  · rw [digits_of_ne_zero (one_lt_base c.kind) h0, length_cons]
    omega

lemma text_eq : c.text =
    (if c.spec.minus then [chr '-'] else []) ++ c.digits.map (digitChar false) := by
  have hplus : c.spec.flags.plus = false := rfl
  have hspace : c.spec.flags.space = false := rfl
  have hhash : c.spec.flags.hash = false := rfl
  have hbase : c.spec.base = c.kind.base := rfl
  have hnon : c.spec.nondigits = if c.spec.minus then [chr '-'] else [] := by
    simp [IntSpec.nondigits, hplus, hspace, hhash]
  have hpad : padLen c.spec = 0 := by
    have hwidth : c.spec.width = 0 := rfl
    rw [padLen, hwidth]
    omega
  have hdigits : digitText c.spec = c.digits.map (digitChar false) := by
    rw [digitText_eq (one_lt_base c.kind) rfl, hbase, ndigits_spec, Nat.add_sub_cancel_left]
    rfl
  rw [Conv.text, intText, hpad, hnon, hdigits]
  simp

lemma length_digits_le : c.digits.length ≤ 65 := by
  have hlen : (Nat.digits c.kind.base c.spec.magnitude).length ≤ 64 :=
    (Nat.digits_length_le_iff (one_lt_base c.kind) _).2
      (magnitude_lt_pow (p := c.spec) (one_lt_base c.kind))
  simp only [Conv.digits, numeral, length_append, length_replicate, length_reverse]
  omega

lemma length_text_le : c.text.length ≤ 66 := by
  have hlen := length_digits_le c
  rw [text_eq, length_append, length_map]
  split_ifs <;> simp only [length_singleton, length_nil] <;> omega

end

/-! ### The text in the buffer -/

section

lemma text_formatOf {bits : ℕ} (cs : List (Conv bits)) :
    Truncation.text (formatOf cs) (cs.map Conv.arg) = some ⟨textOf cs, []⟩ := by
  obtain ⟨s, hs, rfl⟩ := loop_formatOf (K := textSink) (I := fun t s => s = ⟨t, []⟩)
    (N := (textOf cs).length)
    (fun t s c hI _ => by rw [hI]; rfl) (fun t s hI _ => by rw [hI]; rfl) cs
    ⟨.normal, .none, 0, 0, -1, cs.map Conv.arg⟩ [] ⟨[], []⟩ rfl rfl rfl (by simp)
  exact hs

/-- **`vsnprintf` leaves the text and a NUL** in a buffer that is large enough. -/
theorem vsnprintf_formatOf (arch : Arch) (cs : List (Conv arch.bits)) (n : ℕ)
    (hlen : (textOf cs).length < 2 ^ arch.bits) :
    ∃ r, vsnprintf arch n (formatOf cs) (cs.map Conv.arg) = some r ∧
      Truncated n (textOf cs) r.buf := by
  have hbits : 32 ≤ arch.bits := by rcases arch.bits_eq with h | h <;> omega
  have hpow : 0 < 2 ^ arch.bits := Nat.pow_pos (by decide)
  have hmax : INT_MAX = 2 ^ 31 - 1 := rfl
  obtain ⟨s, hs, hagree⟩ := loop_formatOf (K := bufferSink arch.bits n)
    (I := fun t s => Agree n (fun _ => none) 0 t s) (N := 2 ^ arch.bits - 1) (fun t s c hI hN => by
      have hc := length_text_le c
      exact Agree.int hbits hI c.spec (show c.text.length ≤ INT_MAX by omega)
        (show (t ++ c.text).length < 2 ^ arch.bits by omega))
    (fun t s hI hN => by
      rw [length_append, length_singleton] at hN
      exact hI.emit (chr ' ') (by omega)) cs
    ⟨.normal, .none, 0, 0, -1, cs.map Conv.arg⟩ [] ⟨fun _ => none, 0, 0, []⟩ rfl rfl
    (Agree.init _ _ _ _) (by rw [nil_append]; omega)
  rw [nil_append] at hagree
  have hret : vsnprintf arch n (formatOf cs) (cs.map Conv.arg) = some ⟨wrap 32 s.o,
      if s.o < n then Function.update s.buf s.q (some 0)
      else if n > 0 then Function.update s.buf (n - 1) (some 0) else s.buf, s.stores⟩ := by
    rw [vsnprintf, run, hs]
    rfl
  exact ⟨_, hret, truncated_of_agree hagree⟩

/-- The memory of the buffer, of `n` bytes, after the bytes of `buf` were written to it. -/
structure Written (buf : ℤ → Option UInt8) (n : ℕ) (mem : List UInt8) : Prop where
  length : mem.length = n
  bytes : ∀ (i : ℕ) (b : UInt8), buf i = some b → mem[i]? = some b

lemma written_eq {buf : ℤ → Option UInt8} {n : ℕ} {mem F : List UInt8} (hn : F.length < n)
    (h : Truncated n F buf) (hmem : Written buf n mem) : ∃ rest, mem = F ++ 0 :: rest := by
  have hmin : min F.length (n - 1) = F.length := by omega
  have htext := h.text (by omega)
  have hnul := h.nul (by omega)
  rw [hmin] at htext hnul
  refine ⟨mem.drop (F.length + 1), ext_getElem? fun i => ?_⟩
  rcases lt_trichotomy i F.length with hi | rfl | hi
  · rw [getElem?_append_left hi, getElem?_eq_getElem hi]
    exact hmem.bytes i _ (by rw [htext i hi, getElem?_eq_getElem hi])
  · rw [hmem.bytes _ _ hnul]
    simp
  · rw [getElem?_append_right (by omega)]
    obtain ⟨j, rfl⟩ : ∃ j, i = F.length + 1 + j := ⟨i - (F.length + 1), by omega⟩
    rw [show F.length + 1 + j - F.length = j + 1 by omega, getElem?_cons_succ, getElem?_drop]

end

/-! ### Reading a number -/

section

lemma digitChar_facts : ∀ d < 16, digit (digitChar false d) = some d ∧
    isspace (digitChar false d) = false ∧ digitChar false d ≠ 0 := by
  decide

/-- What stands behind a number: a space or the NUL. -/
def Ends (e : UInt8) : Prop := e = chr ' ' ∨ e = 0

variable {e : UInt8} {rest : List UInt8}

variable {bits : ℕ} (c : Conv bits)

lemma digits_ne_nil : c.digits ≠ [] := by
  by_cases h0 : c.spec.magnitude = 0
  · simp [Conv.digits, numeral, h0]
  · simp [Conv.digits, numeral, digits_of_ne_zero (one_lt_base c.kind) h0]

lemma digits_lt_base : ∀ d ∈ c.digits, d < c.kind.base := numeral_lt_base (one_lt_base c.kind) _ _

lemma base_le (k : Kind) : k.base ≤ 16 := by cases k <;> decide

lemma text_cons : ∃ ch tail, c.text = ch :: tail ∧ isspace ch = false ∧ ch ≠ 0 := by
  obtain ⟨d, ds, hds⟩ := exists_cons_of_ne_nil (digits_ne_nil c)
  have hd : d < 16 := lt_of_lt_of_le (digits_lt_base c d (by simp [hds])) (base_le c.kind)
  have hfacts := digitChar_facts d hd
  rw [text_eq, hds]
  split_ifs
  · exact ⟨chr '-', _, rfl, by decide, by decide⟩
  · exact ⟨_, _, rfl, hfacts.2.1, hfacts.2.2⟩

lemma value_digits : value c.kind.base (c.digits.map (digitChar false)) = c.spec.magnitude := by
  have hdigits : (c.digits.map (digitChar false)).map (fun ch => (digit ch).getD 0) = c.digits := by
    rw [map_map]
    refine (map_congr_left fun d hd => ?_).trans (map_id _)
    simp [(digitChar_facts d ((digits_lt_base c d hd).trans_le (base_le c.kind))).1]
  rw [value, hdigits, Conv.digits, numeral, reverse_append, reverse_reverse, reverse_replicate,
    Nat.ofDigits_append_replicate_zero, Nat.ofDigits_digits]

lemma ofNat_magnitude (p : IntSpec) :
    (if p.minus then -BitVec.ofNat 64 p.magnitude else BitVec.ofNat 64 p.magnitude) = p.val := by
  unfold IntSpec.magnitude
  split_ifs
  · rw [BitVec.ofNat_toNat, BitVec.setWidth_eq, BitVec.neg_neg]
  · rw [BitVec.ofNat_toNat, BitVec.setWidth_eq]

variable (e rest) in
def numeralOf : Numeral :=
  ⟨[], if c.spec.minus then [chr '-'] else [], [], c.digits.map (digitChar false), e, rest⟩

lemma radix_numeralOf : (numeralOf e rest c).radix c.kind.base = c.kind.base :=
  if_pos (by cases c.kind <;> decide)

lemma Ends.notDigit (he : Ends e) : digit e = none ∧ ¬(e = chr 'x' ∨ e = chr 'X') := by
  rcases he with rfl | rfl <;> decide

lemma wellFormed_numeralOf (he : Ends e) (h0 : 0 ∈ e :: rest) :
    (numeralOf e rest c).WellFormed c.kind.base where
  range := .inr (by cases c.kind <;> decide)
  white := by simp [numeralOf]
  sign := by
    rw [numeralOf]
    split_ifs
    · exact .inr (.inr rfl)
    · exact .inl rfl
  pre := .inl rfl
  nonempty := by simpa [numeralOf] using digits_ne_nil c
  digits := by
    rw [radix_numeralOf, numeralOf, forall_mem_map]
    intro d hd
    have hlt := digits_lt_base c d hd
    exact ⟨d, (digitChar_facts d (hlt.trans_le (base_le c.kind))).1, hlt⟩
  stop := by
    rintro ⟨d, hd, -⟩
    cases he.notDigit.1.symm.trans hd
  alone _ _ _ hx := absurd hx he.notDigit.2
  terminated := h0

/-- **`strntoumax` reads back the value** that was written. -/
theorem strntoumax_text (he : Ends e) (h0 : 0 ∈ e :: rest) {n : ℕ} (hn : 100 ≤ n) :
    strntoumax (c.text ++ e :: rest) c.kind.base n = some (c.value, e :: rest) := by
  have htext : (numeralOf e rest c).text = c.text ++ e :: rest := by
    rw [text_eq, append_assoc]
    rfl
  have hlead : (numeralOf e rest c).lead ≤ 1 := by
    rw [Numeral.lead, numeralOf]
    split_ifs <;> simp
  have hused : (numeralOf e rest c).used n = c.digits.map (digitChar false) := by
    have hlen := length_digits_le c
    refine take_of_length_le ((length_map _).trans_le ?_)
    omega
  have hdrop : (c.text ++ e :: rest).drop ((numeralOf e rest c).lead + c.digits.length) =
      e :: rest := by
    refine drop_left' ?_
    rw [text_eq, length_append, length_map]
    simp [Numeral.lead, numeralOf]
  rw [← htext, strntoumax_numeral (wellFormed_numeralOf c he h0) (by omega)
    fun h => he.notDigit.2 h.1.2.2.2, Numeral.result, hused, radix_numeralOf, value_digits, htext,
    length_map, hdrop]
  refine congrArg (fun v => some (v, e :: rest)) (Eq.trans ?_ (ofNat_magnitude c.spec))
  rw [numeralOf]
  split_ifs <;> simp_all

end

/-! ### Scanning -/

section
variable {bits : ℕ} (buffer : List UInt8) {rest : List UInt8} {e : UInt8}

variable (c : Conv bits)

lemma skipspace_text (r : List UInt8) : skipspace (c.text ++ r) = some (c.text ++ r) := by
  obtain ⟨ch, tail, htext, hspace, -⟩ := text_cons c
  rw [htext, cons_append, skipspace, hspace, if_neg (by decide)]

variable {s : Scan bits} {ap : List ℕ}

lemma scanInt_text (he : Ends e) (h0 : 0 ∈ e :: rest) (conv : BitVec 64 → Stored bits) {p : ℕ}
    (hq : s.q = c.text ++ e :: rest) (hap : s.ap = p :: ap) (hsplat : s.splat = false)
    (hwidth : s.width = UINT_MAX) : scanInt c.kind.base conv s = some
      { s with
        q := e :: rest
        ap := ap
        converted := wrap 32 (s.converted + 1)
        stores := s.stores ++ [(p, conv c.value)] } := by
  obtain ⟨ch, tail, htext, -, hch⟩ := text_cons c
  have hhead : (c.text ++ e :: rest).head? = some ch := by rw [htext]; rfl
  have hmoved : e :: rest ≠ c.text ++ e :: rest := by
    rw [htext]
    intro heq
    have := congrArg List.length heq
    simp only [length_cons, length_append] at this
    omega
  simp only [scanInt, hq, skipspace_text, hwidth, Option.bind_eq_bind, Option.bind_some, hhead,
    if_neg hch, strntoumax_text c he h0 (show 100 ≤ UINT_MAX by decide), if_neg hmoved, setInteger,
    Scan.count, Scan.arg, Scan.store, hap, hsplat, Bool.false_eq_true, not_false_eq_true, if_true]

def scanBehind : Val bits → Vsscanf.St × ℤ
  | .char _ => (.modifiers, -2)
  | .short _ => (.modifiers, -1)
  | .int _ => (.flags, 0)
  | .long _ => (.modifiers, 1)
  | .longlong _ => (.modifiers, 2)

lemma rankOf_scanBehind (v : Val bits) : rankOf (scanBehind v).2 = rank v := by cases v <;> rfl

lemma scan_modifier (v : Val bits) (format : List UInt8)
    (hstate : s.state = .flags) (hrank : s.rank = 0) (hbail : s.bail = .none) :
    Vsscanf.loop buffer (modifier v ++ format) s = Vsscanf.loop buffer format
      { s with state := (scanBehind v).1, rank := (scanBehind v).2 } := by
  obtain ⟨st, sp, iv, hw, rk, w, q, ap, sa, bl, cv, mm, mi, rs, sr⟩ := s
  simp only at hstate hrank hbail
  subst hstate hrank hbail
  cases v <;> rfl

lemma scan_letter (k : Kind) (v : Val bits)
    (hstate : s.state = (scanBehind v).1) : Vsscanf.step buffer k.letter s =
      scanInt k.base (fun val => .int (Val.ofRank val (rankOf s.rank)))
        { s with state := .normal } := by
  obtain ⟨st, sp, iv, hw, rk, w, q, ap, sa, bl, cv, mm, mi, rs, sr⟩ := s
  cases hstate
  cases v <;> cases k <;> rfl

/-- Between two conversions: what is left of the text and of the arguments, how many conversions
were counted, and what was stored. -/
structure Between (s : Scan bits) (q : List UInt8) (ap : List ℕ) (k : ℕ)
    (stores : List (ℕ × Stored bits)) : Prop where
  state : s.state = .normal
  bail : s.bail = .none
  q : s.q = q
  ap : s.ap = ap
  converted : s.converted = wrap 32 k
  stores : s.stores = stores

/-- The variables behind a `%`. -/
def behindPercent (s : Scan bits) : Scan bits :=
  { s with
    state := .flags
    splat := false
    inv := false
    hasWidth := false
    rank := 0
    width := UINT_MAX }

/-- **A conversion of the format** reads one number and stores its value. -/
theorem scan_conv (hbits : bits ≤ 64) (c : Conv bits) (he : Ends e) (h0 : 0 ∈ e :: rest)
    (format : List UInt8) {p k : ℕ} {st : List (ℕ × Stored bits)}
    (hs : Between s (c.text ++ e :: rest) (p :: ap) k st) :
    ∃ s', Vsscanf.loop buffer (c.format ++ format) s = Vsscanf.loop buffer format s' ∧
      Between s' (e :: rest) ap (k + 1) (st ++ [(p, .int c.val)]) := by
  have hpercent : Vsscanf.step buffer (chr '%') s = some (behindPercent s) := by
    rw [Vsscanf.step, hs.state]
    rfl
  have hcount : wrap 32 (s.converted + 1) = wrap 32 ((k + 1 : ℕ) : ℤ) := by
    rw [hs.converted, wrap_wrap_add]
    rfl
  rw [Conv.format, cons_append, cons_append, append_assoc,
    loop_cons_of_step (by decide) hs.bail _ hpercent,
    scan_modifier buffer c.val _ (s := behindPercent s) rfl rfl hs.bail, singleton_append]
  refine ⟨_, loop_cons_of_step (by cases c.kind <;> decide) (by exact hs.bail) _
    ((scan_letter buffer c.kind c.val rfl).trans (scanInt_text c he h0 _ hs.q hs.ap rfl rfl)),
    rfl, hs.bail, rfl, rfl, hcount, ?_⟩
  simp only [behindPercent, rankOf_scanBehind, ofRank_value hbits, hs.stores]

lemma scan_space (format : List UInt8) {k : ℕ}
    {st : List (ℕ × Stored bits)} (hs : Between s (chr ' ' :: (c.text ++ rest)) ap k st) :
    ∃ s', Vsscanf.loop buffer (chr ' ' :: format) s = Vsscanf.loop buffer format s' ∧
      Between s' (c.text ++ rest) ap k st := by
  have hskip : skipspace s.q = some (c.text ++ rest) := by
    rw [hs.q, skipspace, if_pos (by decide), skipspace_text]
  have hstep : Vsscanf.step buffer (chr ' ') s = some { s with q := c.text ++ rest } := by
    rw [Vsscanf.step, hs.state]
    simp only [Vsscanf.stepNormal, hskip, if_neg (show chr ' ' ≠ chr '%' by decide),
      if_pos (show isspace (chr ' ') by decide), Option.bind_eq_bind, Option.bind_some]
    rw [← hs.state]
  exact ⟨_, loop_cons_of_step (by decide) hs.bail _ hstep,
    hs.state, hs.bail, rfl, hs.ap, hs.converted, hs.stores⟩

lemma textOf_head (cs : List (Conv bits)) : ∃ r, textOf (c :: cs) = c.text ++ r := by
  cases cs with
  | nil => exact ⟨[], by rw [textOf_singleton, append_nil]⟩
  | cons c' cs => exact ⟨_, textOf_cons c c' cs⟩

/-- **The loop over the format** reads all numbers of the text. -/
theorem scan_formatOf (hbits : bits ≤ 64) : ∀ (cs : List (Conv bits)) (s : Scan bits)
    (ap : List ℕ) (k : ℕ) (st : List (ℕ × Stored bits)), ap.length = cs.length →
    Between s (textOf cs ++ 0 :: rest) ap k st →
    ∃ s', Vsscanf.loop buffer (formatOf cs) s = some s' ∧ Between s' (0 :: rest) [] (k + cs.length)
      (st ++ ap.zip (cs.map fun c => Stored.int c.val))
  | [], s, ap, k, st, hap, hs => by
    obtain rfl : ap = [] := eq_nil_of_length_eq_zero hap
    exact ⟨s, rfl, hs.state, hs.bail, hs.q, hs.ap, hs.converted, by simp [hs.stores]⟩
  | [c], s, ap, k, st, hap, hs => by
    obtain ⟨p, rfl⟩ := length_eq_one_iff.1 hap
    rw [textOf_singleton] at hs
    obtain ⟨s', hloop, hs'⟩ := scan_conv buffer hbits c (Or.inr rfl) (by simp) [] hs
    exact ⟨s', by rw [formatOf_singleton, hloop]; rfl, hs'⟩
  | c :: c' :: cs, s, ap, k, st, hap, hs => by
    obtain ⟨p, ap, rfl⟩ := exists_cons_of_length_eq_add_one hap
    rw [textOf_cons, append_assoc, cons_append] at hs
    obtain ⟨s1, hloop1, hs1⟩ :=
      scan_conv buffer hbits c (Or.inl rfl) (by simp) (chr ' ' :: formatOf (c' :: cs)) hs
    obtain ⟨r, hr⟩ := textOf_head c' cs
    rw [hr, append_assoc] at hs1
    obtain ⟨s2, hloop2, hs2⟩ := scan_space buffer c' (formatOf (c' :: cs)) hs1
    rw [← append_assoc, ← hr] at hs2
    obtain ⟨s3, hloop3, hs3⟩ := scan_formatOf hbits (c' :: cs) s2 ap (k + 1) _
      (by simpa using hap) hs2
    refine ⟨s3, by rw [formatOf_cons, hloop1, hloop2, hloop3], ?_⟩
    rw [length_cons, Nat.add_comm (c' :: cs).length 1, ← Nat.add_assoc]
    rwa [append_assoc] at hs3

end

/-- **`scanf` undoes `printf`.**  For every list of conversions and every buffer that is large
enough for the text of their values: `vsnprintf` returns, and `vsscanf` of what is then in the
buffer, with the same format, returns the number of conversions and stores all values. -/
theorem scanf_undoes_printf (arch : Arch) (cs : List (Conv arch.bits)) :
    ∃ t, Truncation.text (formatOf cs) (cs.map Conv.arg) = some t ∧
      ∀ n < 2 ^ arch.bits, t.text.length < n →
        ∃ r, vsnprintf arch n (formatOf cs) (cs.map Conv.arg) = some r ∧
          ∀ mem, Written r.buf n mem → ∀ ap : List ℕ, ap.length = cs.length →
            vsscanf arch mem (formatOf cs) ap =
              some ⟨wrap 32 cs.length, ap.zip (cs.map fun c => .int c.val)⟩ := by
  have hbits : arch.bits ≤ 64 := by rcases arch.bits_eq with h | h <;> omega
  refine ⟨_, text_formatOf cs, fun n hn hlen => ?_⟩
  obtain ⟨r, hr, htruncated⟩ := vsnprintf_formatOf arch cs n (lt_trans hlen hn)
  refine ⟨r, hr, fun mem hmem ap hap => ?_⟩
  obtain ⟨rest, rfl⟩ := written_eq hlen htruncated hmem
  have hinit : Between (Scan.init arch.bits (textOf cs ++ 0 :: rest) ap)
      (textOf cs ++ 0 :: rest) ap 0 [] := ⟨rfl, rfl, rfl, rfl, rfl, rfl⟩
  obtain ⟨s, hs, hend⟩ := scan_formatOf (textOf cs ++ 0 :: rest) hbits cs _ ap 0 [] hap hinit
  simp [vsscanf, hs, hend.bail, hend.converted, hend.stores]

/-- `%hhd %llx` at the limits of the two types. -/
def limits : List (Conv arch64.bits) := [⟨.d, .char 128#8⟩, ⟨.x, .longlong (-1)⟩]

theorem scanf_undoes_printf_limits :
    ∃ r, vsnprintf arch64 200 (formatOf limits) (limits.map Conv.arg) = some r ∧
      ∀ mem, Written r.buf 200 mem → vsscanf arch64 mem (formatOf limits) [1000, 2000] =
        some ⟨2, [(1000, .int (.char 128#8)), (2000, .int (.longlong (-1)))]⟩ := by
  obtain ⟨t, ht, hscan⟩ := scanf_undoes_printf arch64 limits
  have htext : t.text = textOf limits := by
    rw [text_formatOf, Option.some.injEq] at ht
    rw [← ht]
  have hlen : t.text.length < 200 := by
    have h1 := length_text_le (⟨.d, .char 128#8⟩ : Conv arch64.bits)
    have h2 := length_text_le (⟨.x, .longlong (-1)⟩ : Conv arch64.bits)
    rw [htext, limits, textOf_cons, textOf_singleton, length_append, length_cons]
    omega
  obtain ⟨r, hr, hmem⟩ := hscan 200 (by decide) hlen
  exact ⟨r, hr, fun mem hw => hmem mem hw [1000, 2000] rfl⟩

end Klibc.Stdio.RoundTrip
