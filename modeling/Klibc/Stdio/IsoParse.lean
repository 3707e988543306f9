import Klibc.Stdio.Iso

/-! # How `vsnprintf` reads a directive

The loop over the format, over any sink, from the `%` of a directive to the character behind it:
`loop_int`, `loop_char` and `loop_str` say which operation of the sink the directive is. -/

namespace Klibc.Stdio.IsoParse

open Lib.Machine Vsnprintf Digits Iso List

/-! ### What the code makes of the parts -/

/-- `flags` after all flags, and after a negative width. -/
def codeFlags (flags : List Flag) (w : Width) : Flags where
  zero := .zero ∈ flags
  minus := .minus ∈ flags ∨ w.left
  plus := .plus ∈ flags
  tick := false
  space := .space ∈ flags
  hash := .hash ∈ flags
  signed := false
  upper := false

/-- `width`. -/
def codeWidth : Width → ℤ
  | .digits ds _ => wrap 32 (decimal ds)
  | .star v => if v.toInt < 0 then wrap 32 (-v.toInt) else v.toInt

/-- `prec`. -/
def codePrec : Prec → ℤ
  | .none => -1
  | .digits ds => wrap 32 (decimal ds)
  | .star v => if v.toInt < 0 then -1 else v.toInt

/-- The characters that `st_flags` takes. -/
def isFlag (ch : UInt8) : Bool :=
  ch = chr '-' ∨ ch = chr '+' ∨ ch = chr '\'' ∨ ch = chr ' ' ∨ ch = chr '#' ∨ ch = chr '0'

/-- The characters that are left to `st_modifiers`. -/
def isPlain (ch : UInt8) : Bool := ¬ isFlag ch ∧ ¬ isDigit ch ∧ ch ≠ chr '*' ∧ ch ≠ chr '.' ∧ ch ≠ 0

section
variable {bits : ℕ} {σ : Type} {K : Sink σ}

variable {args : List (Arg bits)} {ch : UInt8} {p : Parse bits}

lemma loop_again (rest : List UInt8) {p p' : Parse bits} {s : σ}
    (hstep : step K ch p s = step K ch p' s) :
    loop K (ch :: rest) p s = loop K (ch :: rest) p' s := by
  rw [loop, loop, hstep]

/-! ### The flags -/

def addFlag (f : Flags) : Flag → Flags
  | .minus => { f with minus := true }
  | .plus => { f with plus := true }
  | .space => { f with space := true }
  | .hash => { f with hash := true }
  | .zero => { f with zero := true }

lemma loop_flags (rest : List UInt8) (args : List (Arg bits)) (s : σ) :
    ∀ (flags : List Flag) (f : Flags),
      loop K (flags.map Flag.char ++ rest) ⟨.flags, f, 0, 0, -1, args⟩ s =
        loop K rest ⟨.flags, flags.foldl addFlag f, 0, 0, -1, args⟩ s
  | [], _ => rfl
  | a :: flags, f => by
    have hstep : step K a.char ⟨.flags, f, 0, 0, -1, args⟩ s =
        some (⟨.flags, addFlag f a, 0, 0, -1, args⟩, s) := by
      cases a <;> rfl
    rw [map_cons, cons_append, loop_cons K (by cases a <;> decide) _ hstep,
      loop_flags rest args s flags]
    rfl

lemma foldl_addFlag (flags : List Flag) (f : Flags) : flags.foldl addFlag f = { f with
      zero := f.zero || .zero ∈ flags
      minus := f.minus || .minus ∈ flags
      plus := f.plus || .plus ∈ flags
      space := f.space || .space ∈ flags
      hash := f.hash || .hash ∈ flags } := by
  induction flags generalizing f with
  | nil => simp
  | cons a flags ih =>
    rw [foldl_cons, ih]
    cases a <;> simp [addFlag]

lemma step_flags_width (hch : isFlag ch = false) (f : Flags) (args : List (Arg bits)) (s : σ) :
    step K ch ⟨.flags, f, 0, 0, -1, args⟩ s = step K ch ⟨.width, f, 0, 0, -1, args⟩ s := by
  simp only [isFlag, decide_eq_false_iff_not, not_or] at hch
  obtain ⟨h1, h2, h3, h4, h5, h6⟩ := hch
  simp only [step, stepFlags, if_neg h1, if_neg h2, if_neg h3, if_neg h4, if_neg h5, if_neg h6]

/-! ### Field width and precision -/

/-- `w = w * 10 + (ch - '0')`, for one digit after the other. -/
def readDigits (w : ℤ) (ds : List (Fin 10)) : ℤ :=
  ds.foldl (fun w (d : Fin 10) => wrap 32 (w * 10 + d.val)) w

lemma readDigits_wrap (ds : List (Fin 10)) : ∀ m : ℕ, readDigits (wrap 32 m) ds =
    wrap 32 ((ds.map Fin.val).foldl (fun m d => m * 10 + d) m : ℕ) := by
  induction ds with
  | nil =>
    intro m
    rw [readDigits, foldl_nil, map_nil, foldl_nil]
  | cons d ds ih =>
    intro m
    have hstep : wrap 32 (wrap 32 m * 10 + d.val) = wrap 32 ((m * 10 + d.val : ℕ) : ℤ) := by
      rw [← wrap_wrap_add, wrap_wrap_mul, wrap_wrap_add]
      rfl
    rw [readDigits, foldl_cons, hstep, ← readDigits, ih, map_cons, foldl_cons]

lemma readDigits_zero (ds : List (Fin 10)) : readDigits 0 ds = wrap 32 (decimal ds) :=
  readDigits_wrap ds 0

lemma digitChar_facts : ∀ d : Fin 10, isDigit (digitChar false d.val) = true ∧
    ((digitChar false d.val).toNat : ℤ) - 48 = d.val ∧ digitChar false d.val ≠ 0 ∧
    (d ≠ 0 → isFlag (digitChar false d.val) = false) := by
  decide

lemma loop_digits {p : ℤ → Parse bits} {s : σ} (rest : List UInt8)
    (hstep : ∀ (d : Fin 10) v, isDigit (digitChar false d.val) = true →
      step K (digitChar false d.val) (p v) s = some (p (wrap 32 (v * 10 + d.val)), s)) :
    ∀ (ds : List (Fin 10)) (v : ℤ),
      loop K (digitsFormat ds ++ rest) (p v) s = loop K rest (p (readDigits v ds)) s
  | [], _ => rfl
  | d :: ds, v => by
    obtain ⟨hdigit, -, h0, -⟩ := digitChar_facts d
    rw [digitsFormat, map_cons, cons_append, loop_cons K h0 _ (hstep d v hdigit), ← digitsFormat,
      loop_digits rest hstep ds]
    rfl

lemma loop_width (w : Width) (rest : List UInt8) (f : Flags) (args : List (Arg bits)) (s : σ) :
    loop K (w.format ++ rest) ⟨.width, f, 0, 0, -1, w.args ++ args⟩ s =
      loop K rest ⟨.width, { f with minus := f.minus || w.left }, 0, codeWidth w, -1, args⟩ s := by
  cases w with
  | digits ds _ =>
    rw [Width.format, loop_digits (p := fun v => ⟨.width, f, 0, v, -1, _⟩) rest fun d v hdigit => by
      simp only [step, stepWidth, hdigit, if_true, (digitChar_facts d).2.1], readDigits_zero]
    simp [Width.args, Width.left, codeWidth]
  | star v =>
    have hstep : step K (chr '*') ⟨.width, f, 0, 0, -1, .int v :: args⟩ s =
        some (⟨.width, { f with minus := f.minus || Width.left (.star v) }, 0, codeWidth (.star v),
          -1, args⟩, s) := by
      have hstar : isDigit (chr '*') = false := by decide
      simp only [step, stepWidth, hstar, Bool.false_eq_true, if_false, if_true, takeInt,
        Option.bind_eq_bind, Option.bind_some, codeWidth, Width.left]
      by_cases hneg : v.toInt < 0
      · simp [hneg]
      · simp [hneg]
    rw [Width.format, Width.args, singleton_append, singleton_append,
      loop_cons K (by decide) _ hstep]

lemma step_width_modifiers (hch : isPlain ch) (f : Flags) (w : ℤ) (args : List (Arg bits)) (s : σ) :
    step K ch ⟨.width, f, 0, w, -1, args⟩ s = step K ch ⟨.modifiers, f, 0, w, -1, args⟩ s := by
  simp only [isPlain, decide_eq_true_eq] at hch
  obtain ⟨-, h1, h2, h3, -⟩ := hch
  simp [step, stepWidth, h1, h2, h3]

lemma step_prec_modifiers (hch : isPlain ch) (f : Flags) (w pr : ℤ)
    (args : List (Arg bits)) (s : σ) :
    step K ch ⟨.prec, f, 0, w, pr, args⟩ s = step K ch ⟨.modifiers, f, 0, w, pr, args⟩ s := by
  simp only [isPlain, decide_eq_true_eq] at hch
  obtain ⟨-, h1, h2, -, -⟩ := hch
  simp [step, stepPrec, h1, h2]

lemma loop_prec (pr : Prec) (hch : isPlain ch) (rest : List UInt8) (f : Flags)
    (w : ℤ) (args : List (Arg bits)) (s : σ) :
    loop K (pr.format ++ ch :: rest) ⟨.width, f, 0, w, -1, pr.args ++ args⟩ s =
      loop K (ch :: rest) ⟨.modifiers, f, 0, w, codePrec pr, args⟩ s := by
  have hperiod : ∀ args : List (Arg bits), step K (chr '.') ⟨.width, f, 0, w, -1, args⟩ s =
      some (⟨.prec, f, 0, w, 0, args⟩, s) := fun _ => rfl
  cases pr with
  | none => exact loop_again rest (step_width_modifiers hch f w args s)
  | digits ds =>
    rw [Prec.format, cons_append, loop_cons K (by decide) _ (hperiod _),
      loop_digits (p := fun v => ⟨.prec, f, 0, w, v, _⟩) _ fun d v hdigit => by
        simp only [step, stepPrec, hdigit, if_true, (digitChar_facts d).2.1], readDigits_zero,
      loop_again rest (step_prec_modifiers hch f w _ _ s)]
    rfl
  | star v =>
    have hstep : step K (chr '*') ⟨.prec, f, 0, w, 0, .int v :: args⟩ s =
        some (⟨.prec, f, 0, w, codePrec (.star v), args⟩, s) := rfl
    rw [Prec.format, Prec.args, cons_append, singleton_append, singleton_append,
      loop_cons K (by decide) _ (hperiod _), loop_cons K (by decide) _ hstep,
      loop_again rest (step_prec_modifiers hch f w _ _ s)]

lemma head_not_flag (w : Width) (pr : Prec) (hch : isPlain ch) (rest : List UInt8) :
    ∃ c tail, w.format ++ (pr.format ++ ch :: rest) = c :: tail ∧ isFlag c = false := by
  simp only [isPlain, decide_eq_true_eq, Bool.not_eq_true] at hch
  match w with
  | .star v => exact ⟨_, _, rfl, by decide⟩
  | .digits (d :: ds) hd =>
    exact ⟨_, _, rfl, (digitChar_facts d).2.2.2 fun h0 => hd (by rw [h0]; rfl)⟩
  | .digits [] _ =>
    match pr with
    | .none => exact ⟨ch, rest, rfl, hch.1⟩
    | .digits ds => exact ⟨_, _, rfl, by decide⟩
    | .star v => exact ⟨_, _, rfl, by decide⟩

/-- **From the `%` to the length modifier.** -/
theorem loop_options (flags : List Flag) (w : Width) (pr : Prec) (hch : isPlain ch)
    (rest : List UInt8) (hstate : p.state = .normal)
    (hargs : p.args = w.args ++ (pr.args ++ args)) (s : σ) :
    loop K (chr '%' :: (flags.map Flag.char ++ (w.format ++ (pr.format ++ ch :: rest)))) p s =
      loop K (ch :: rest) ⟨.modifiers, codeFlags flags w, 0, codeWidth w, codePrec pr, args⟩ s := by
  have hpercent : step K (chr '%') p s = some (⟨.flags, .none, 0, 0, -1, p.args⟩, s) := by
    rw [step, hstate]
    rfl
  obtain ⟨c, tail, hhead, hflag⟩ := head_not_flag w pr hch rest
  rw [loop_cons K (by decide) _ hpercent, loop_flags, foldl_addFlag, hhead,
    loop_again tail (step_flags_width hflag _ _ s), ← hhead, hargs, loop_width, loop_prec pr hch]
  congr 2
  simp [codeFlags, Flags.none]

/-! ### Length modifiers and conversions -/

/-- `rank` behind a length modifier. -/
def codeRank : Modifier → ℤ
  | .none => 0
  | .hh => -2
  | .h => -1
  | .l | .z | .t => 1
  | .ll | .j => 2

variable (m : Modifier)

lemma loop_modifier (rest : List UInt8) (f : Flags) (w pr : ℤ) (args : List (Arg bits)) (s : σ) :
    loop K (m.format ++ rest) ⟨.modifiers, f, 0, w, pr, args⟩ s =
      loop K rest ⟨.modifiers, f, codeRank m, w, pr, args⟩ s := by
  cases m <;> rfl

lemma head_plain (c : IntConv) (rest : List UInt8) :
    ∃ ch tail, m.format ++ c.letter :: rest = ch :: tail ∧ isPlain ch := by
  cases m with
  | none => exact ⟨c.letter, rest, rfl, by cases c <;> decide⟩
  | hh | h | l | ll | j | z | t => exact ⟨_, _, rfl, by decide⟩

lemma takeSigned_arg (v : BitVec (m.argWidth bits)) (args : List (Arg bits)) :
    takeSigned (rankOf (codeRank m)) (m.arg v :: args) =
      some ((v.setWidth (m.width bits)).signExtend 64, args) := by
  cases m with
  | hh | h => rfl
  | none | l | z | t =>
    exact congrArg (fun x => some (BitVec.signExtend 64 x, args)) (BitVec.setWidth_eq v).symm
  | ll | j =>
    have hv : (BitVec.setWidth 64 v).signExtend 64 = v := by
      rw [BitVec.signExtend_eq]
      exact BitVec.setWidth_eq v
    exact congrArg (fun x => some (x, args)) hv.symm

lemma takeUnsigned_arg (v : BitVec (m.argWidth bits)) (args : List (Arg bits)) :
    takeUnsigned (rankOf (codeRank m)) (m.arg v :: args) =
      some ((v.setWidth (m.width bits)).setWidth 64, args) := by
  cases m with
  | hh | h => rfl
  | none | l | z | t =>
    exact congrArg (fun x => some (BitVec.setWidth 64 x, args)) (BitVec.setWidth_eq v).symm
  | ll | j =>
    have hv : (BitVec.setWidth 64 v).setWidth 64 = v := by
      rw [BitVec.setWidth_eq]
      exact BitVec.setWidth_eq v
    exact congrArg (fun x => some (x, args)) hv.symm

/-- What `format_int` gets for a directive. -/
def codeSpec (d : IntDirective bits) : IntSpec where
  val :=
    let v := d.arg.setWidth (d.modifier.width bits)
    if d.conv.signed then v.signExtend 64 else v.setWidth 64
  flags := { codeFlags d.flags d.width with signed := d.conv.signed, upper := d.conv.upper }
  base := d.conv.base
  width := codeWidth d.width
  prec := codePrec d.prec

/-- The case of the `switch` for a conversion. -/
def convChar : IntConv → ModChar
  | .d | .i => .d
  | .o => .o
  | .u => .u
  | .x => .x
  | .X => .X

lemma modChar_letter (c : IntConv) : modChar c.letter = convChar c := by cases c <;> rfl

/-- **A directive `d`, `i`, `o`, `u`, `x` or `X`** is one call of `format_int`. -/
theorem loop_int (d : IntDirective bits) (rest : List UInt8) (hstate : p.state = .normal)
    (hargs : p.args = d.args ++ args) (s : σ) : ∃ p', p'.state = .normal ∧ p'.args = args ∧
      loop K (d.format ++ rest) p s = loop K rest p' (K.int (codeSpec d) s) := by
  obtain ⟨ch, tail, hhead, hch⟩ := head_plain d.modifier d.conv rest
  have hletter : step K d.conv.letter ⟨.modifiers, codeFlags d.flags d.width, codeRank d.modifier,
      codeWidth d.width, codePrec d.prec, d.modifier.arg d.arg :: args⟩ s =
      some (⟨.normal, codeFlags d.flags d.width, codeRank d.modifier, codeWidth d.width,
        codePrec d.prec, args⟩, K.int (codeSpec d) s) := by
    have hsigned := takeSigned_arg d.modifier d.arg args
    have hunsigned := takeUnsigned_arg d.modifier d.arg args
    obtain ⟨flags, w, pr, m, c, v, hdef⟩ := d
    cases c <;>
    · simp only [step, stepModifiers, convert, modChar_letter, convChar, isInteger, hsigned,
        hunsigned]
      rfl
  have hformat : d.format ++ rest = chr '%' :: (d.flags.map Flag.char ++
      (d.width.format ++ (d.prec.format ++ ch :: tail))) := by
    rw [← hhead]
    simp [IntDirective.format]
  have hargs' : p.args = d.width.args ++ (d.prec.args ++ (d.modifier.arg d.arg :: args)) := by
    rw [hargs]
    simp [IntDirective.args]
  refine ⟨⟨.normal, codeFlags d.flags d.width, codeRank d.modifier, codeWidth d.width,
    codePrec d.prec, args⟩, rfl, rfl, ?_⟩
  rw [hformat, loop_options d.flags d.width d.prec hch tail hstate hargs', ← hhead, loop_modifier,
    loop_cons K (by cases d.conv <;> decide) rest hletter]

/-- **A directive `c`** writes a string of one byte. -/
theorem loop_char (d : CharDirective) (rest : List UInt8) (hstate : p.state = .normal)
    (hargs : p.args = d.args ++ args) (s : σ) :
    ∃ p', p'.state = .normal ∧ p'.args = args ∧ loop K (d.format ++ rest) p s =
      (isString K (codeFlags d.flags d.width) (codeWidth d.width) (-1)
        [(d.arg.setWidth 8).toNat.toUInt8] 1 s).bind fun s' => loop K rest p' s' := by
  refine ⟨⟨.normal, codeFlags d.flags d.width, 0, codeWidth d.width, -1, args⟩, rfl, rfl, ?_⟩
  have hformat : d.format ++ rest = chr '%' :: (d.flags.map Flag.char ++
      (d.width.format ++ (Prec.none.format ++ chr 'c' :: rest))) := by
    simp [CharDirective.format, Prec.format]
  have hargs' : p.args = d.width.args ++ (Prec.none.args ++ (.int d.arg :: args)) := by
    rw [hargs]
    simp [CharDirective.args, Prec.args]
  rw [hformat, loop_options d.flags d.width .none (by decide) rest hstate hargs', loop,
    if_neg (by decide), step, stepModifiers]
  simp only [show modChar (chr 'c') = .c from rfl, convert, takeInt, Option.bind_eq_bind,
    Option.bind_some, Option.bind_assoc, codePrec]

/-- **A directive `s`** writes the string that `strlen` finds. -/
theorem loop_str (d : StrDirective) (rest : List UInt8) (hstate : p.state = .normal)
    (hargs : p.args = d.args ++ args) (s : σ) :
    ∃ p', p'.state = .normal ∧ p'.args = args ∧ loop K (d.format ++ rest) p s =
      (strlen d.mem).bind fun slen =>
        (isString K (codeFlags d.flags d.width) (codeWidth d.width) (codePrec d.prec) d.mem
          (wrap 32 slen) s).bind fun s' => loop K rest p' s' := by
  refine ⟨⟨.normal, codeFlags d.flags d.width, 0, codeWidth d.width, codePrec d.prec, args⟩,
    rfl, rfl, ?_⟩
  have hformat : d.format ++ rest = chr '%' :: (d.flags.map Flag.char ++
      (d.width.format ++ (d.prec.format ++ chr 's' :: rest))) := by
    simp [StrDirective.format]
  have hargs' : p.args = d.width.args ++ (d.prec.args ++ (.str (some d.mem) :: args)) := by
    rw [hargs]
    simp [StrDirective.args]
  rw [hformat, loop_options d.flags d.width d.prec (by decide) rest hstate hargs', loop,
    if_neg (by decide), step, stepModifiers]
  simp only [show modChar (chr 's') = .s from rfl, convert, takeStr, Option.getD_some,
    Option.bind_eq_bind, Option.bind_some, Option.bind_assoc]

end

end Klibc.Stdio.IsoParse
