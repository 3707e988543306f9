import Klibc.Stdio.IsoInt
import Klibc.Stdio.Truncation

/-! # `vsnprintf` and ISO C

The complete text of a format is put together from what the code writes for its directives
(`text_formatOf`). `vsnprintf_iso_iff`: it is the text that ISO C prescribes if and only if every
integer directive is `IntGood` and every string has a NUL. -/

namespace Klibc.Stdio.Conformance

open Lib.Machine Vsnprintf FormatInt Truncation List Option Iso IsoParse IsoInt

/-! ### What the code writes for a directive -/

/-- What `is_string` writes. -/
def strText (flags : Flags) (width prec : ℤ) (sarg : List UInt8) (slen : ℤ) : Option (List UInt8) :=
  let slen := if prec ≠ -1 ∧ slen > prec then prec else slen
  let pad := (width - slen).toNat
  if unsigned 32 slen ≤ sarg.length then
    some ((if ¬ flags.minus then
      List.replicate pad (if flags.zero then chr '0' else chr ' ') else []) ++
      sarg.take (unsigned 32 slen) ++
      (if flags.minus then List.replicate pad (chr ' ') else []))
  else none

def codeText {bits : ℕ} : Item bits → Option (List UInt8)
  | .ordinary ch _ _ => some [ch]
  | .int d => some (intText (codeSpec d))
  | .char d => strText (codeFlags d.flags d.width) (codeWidth d.width) (-1)
      [(d.arg.setWidth 8).toNat.toUInt8] 1
  | .str d => (strlen d.mem).bind fun slen =>
      strText (codeFlags d.flags d.width) (codeWidth d.width) (codePrec d.prec) d.mem
        (wrap 32 slen)
  | .percent => some [chr '%']

def codeTexts {bits : ℕ} : List (Item bits) → Option (List UInt8)
  | [] => some []
  | x :: items => do
    let t ← codeText x
    let ts ← codeTexts items
    some (t ++ ts)

section
variable {bits : ℕ} {t : List UInt8} {st : List (ℕ × Rank × ℕ)}

section
variable {σ : Type} {K : Sink σ} {g : List UInt8 → σ} (hK : ∀ t x, K.emit x (g t) = g (t ++ [x]))
include hK

lemma iterate_emit (x : UInt8) (k : ℕ) : (K.emit x)^[k] (g t) = g (t ++ List.replicate k x) := by
  induction k generalizing t with
  | zero => simp
  | succ k ih =>
    rw [Function.iterate_succ_apply, replicate_succ, append_cons, hK]
    exact ih

lemma emitStr_eq (k : ℕ) (sarg : List UInt8) : emitStr K k sarg (g t) =
    if k ≤ sarg.length then some (g (t ++ sarg.take k)) else none := by
  induction k generalizing sarg t with
  | zero => simp [emitStr]
  | succ k ih =>
    cases sarg with
    | nil => simp [emitStr]
    | cons c sarg =>
      rw [emitStr, hK, ih]
      simp

lemma isString_eq (flags : Flags) (width prec : ℤ) (sarg : List UInt8) (slen : ℤ) :
    isString K flags width prec sarg slen (g t) =
      (strText flags width prec sarg slen).map fun u => g (t ++ u) := by
  unfold isString strText
  extract_lets slen pad s1
  have hs1 : s1 = g (t ++ if ¬ flags.minus then
      List.replicate pad (if flags.zero then chr '0' else chr ' ') else []) := by
    unfold s1
    split_ifs <;> simp [iterate_emit hK]
  rw [hs1, emitStr_eq hK]
  split_ifs <;> simp [iterate_emit hK]

end

lemma isString_text (flags : Flags) (width prec : ℤ) (sarg : List UInt8) (slen : ℤ) :
    isString textSink flags width prec sarg slen ⟨t, st⟩ =
      (strText flags width prec sarg slen).map fun u => ⟨t ++ u, st⟩ :=
  isString_eq (K := textSink) (g := fun t => ⟨t, st⟩) (fun _ _ => rfl) ..

/-- **The loop over a directive** writes what the code writes for it. -/
theorem loop_item (t : List UInt8) (st : List (ℕ × Rank × ℕ)) (x : Item bits) (rest : List UInt8)
    {p : Parse bits} {args : List (Arg bits)} (hstate : p.state = .normal)
    (hargs : p.args = x.args ++ args) :
    ∃ p', p'.state = .normal ∧ p'.args = args ∧ loop textSink (x.format ++ rest) p ⟨t, st⟩ =
      (codeText x).bind fun u => loop textSink rest p' ⟨t ++ u, st⟩ := by
  cases x with
  | ordinary ch h1 h0 =>
    have hstep : step textSink ch p ⟨t, st⟩ = some (p, ⟨t ++ [ch], st⟩) := by
      rw [step, hstate]
      exact if_neg h1
    exact ⟨p, hstate, hargs, loop_cons textSink h0 rest hstep⟩
  | int d => exact loop_int (K := textSink) d rest hstate hargs ⟨t, st⟩
  | char d =>
    obtain ⟨p', hs, ha, hloop⟩ := loop_char (K := textSink) d rest hstate hargs ⟨t, st⟩
    refine ⟨p', hs, ha, ?_⟩
    rw [Item.format, hloop, isString_text, bind_map]
    rfl
  | str d =>
    obtain ⟨p', hs, ha, hloop⟩ := loop_str (K := textSink) d rest hstate hargs ⟨t, st⟩
    refine ⟨p', hs, ha, ?_⟩
    simp only [Item.format, hloop, isString_text, bind_map, codeText, bind_assoc]
    rfl
  | percent =>
    have h1 : step textSink (chr '%') p ⟨t, st⟩ =
        some (⟨.flags, .none, 0, 0, -1, p.args⟩, ⟨t, st⟩) := by
      rw [step, hstate]
      rfl
    have h2 : step textSink (chr '%') ⟨.flags, .none, 0, 0, -1, p.args⟩ (⟨t, st⟩ : Text) =
        some (⟨.normal, .none, 0, 0, -1, p.args⟩, ⟨t ++ [chr '%'], st⟩) := rfl
    refine ⟨⟨.normal, .none, 0, 0, -1, p.args⟩, rfl, hargs, ?_⟩
    rw [Item.format, cons_append, singleton_append, loop_cons textSink (by decide) _ h1,
      loop_cons textSink (by decide) _ h2]
    rfl

/-- **The loop over a format.** -/
theorem loop_items : ∀ (items : List (Item bits)) (p : Parse bits) (t : List UInt8),
    p.state = .normal → p.args = argsOf items →
    loop textSink (formatOf items) p ⟨t, st⟩ = (codeTexts items).map fun u => ⟨t ++ u, st⟩
  | [], p, t, _, _ => by simp [formatOf, codeTexts, loop]
  | x :: items, p, t, hstate, hargs => by
    rw [argsOf, flatMap_cons, ← argsOf] at hargs
    rw [formatOf, flatMap_cons, ← formatOf]
    obtain ⟨p', hs, ha, hloop⟩ := loop_item t st x (formatOf items) hstate hargs
    rw [hloop, codeTexts]
    simp only [loop_items items p' _ hs ha, bind_eq_bind, map_bind]
    cases codeText x with
    | none => rfl
    | some u =>
      cases codeTexts items with
      | none => rfl
      | some us => simp

/-- **The complete text** of a format. -/
theorem text_formatOf (items : List (Item bits)) :
    text (formatOf items) (argsOf items) = (codeTexts items).map fun u => ⟨u, []⟩ :=
  loop_items items _ [] rfl rfl

end

/-! ### Characters and strings -/

section

lemma strText_eq_fill {flags : Flags} {width : ℤ} {w : ℕ} {prec slen : ℤ} {sarg : List UInt8}
    {c : ℕ} (hzero : flags.zero = false) (hw : width = w)
    (hc : (if prec ≠ -1 ∧ slen > prec then prec else slen) = c) (hlen : c ≤ sarg.length)
    (hmax : c ≤ INT_MAX) :
    strText flags width prec sarg slen = some (fill flags.minus false w [] (sarg.take c)) := by
  have hpow : INT_MAX = 2 ^ 31 - 1 := rfl
  have hcount : unsigned 32 (c : ℤ) = c := unsigned_eq (by omega)
  have hpad : ((w : ℤ) - c).toNat = w - ([] ++ sarg.take c).length := by
    rw [nil_append, length_take, Nat.min_eq_left hlen]
    omega
  simp only [strText, hc, hcount, if_pos hlen, hw, hzero, hpad, fill]
  cases flags.minus <;> simp

lemma zero_codeFlags {flags : List Flag} (h : .zero ∉ flags) (w : Width) :
    (codeFlags flags w).zero = false := decide_eq_false h

lemma codeText_char (d : CharDirective) {bits : ℕ} (hlen : d.text.length ≤ INT_MAX) :
    codeText (.char d : Item bits) = some d.text := by
  have hwidth : d.width.value ≤ INT_MAX := by
    unfold CharDirective.text at hlen
    rw [length_fill] at hlen
    omega
  rw [codeText]
  exact strText_eq_fill (c := 1) (zero_codeFlags d.defined.2 d.width) (codeWidth_eq hwidth) rfl
    le_rfl (by decide)

/-- The lengths of the string and of the precision are values of an `int`. -/
structure StrFits (d : StrDirective) : Prop where
  length : ∀ n, strlen d.mem = some n → n ≤ INT_MAX
  prec : ∀ p, d.prec.value = some p → p ≤ INT_MAX

lemma strlen_append {l r : List UInt8} (hl : 0 ∉ l) : strlen (l ++ 0 :: r) = some l.length := by
  have hnone : l.findIdx? (· == 0) = none := by
    rw [findIdx?_eq_none_iff]
    intro b hb
    exact beq_false_of_ne fun h => hl (h ▸ hb)
  rw [strlen, findIdx?_append, hnone, findIdx?_cons]
  simp

lemma bytes_eq_take {d : StrDirective} {l r : List UInt8} (hl : 0 ∉ l)
    (hmem : d.mem = l ++ 0 :: r) :
    d.bytes = d.mem.take (min (d.prec.value.getD l.length) l.length) := by
  have hall : ∀ b ∈ l, decide (b ≠ 0) = true := fun b hb => decide_eq_true fun h => hl (h ▸ hb)
  have htake : d.mem.take (min (d.prec.value.getD l.length) l.length) =
      l.take (d.prec.value.getD l.length) := by
    rw [hmem, take_append_of_le_length (by omega), ← take_take, take_length]
  rw [htake, StrDirective.bytes]
  cases d.prec.value with
  | none =>
    rw [hmem, takeWhile_append_of_pos hall, takeWhile_cons_of_neg (by simp)]
    simp
  | some p =>
    have hall' : ∀ b ∈ l.take p, decide (b ≠ 0) = true := fun b hb => hall b (mem_of_mem_take hb)
    simp only [hmem, take_append, takeWhile_append_of_pos hall', getD_some]
    cases p - l.length <;> simp

/-- **A string with a NUL** is written as ISO C prescribes. -/
theorem codeText_str (d : StrDirective) {bits : ℕ} (hfits : StrFits d) (hnul : 0 ∈ d.mem)
    (hlen : d.text.length ≤ INT_MAX) : codeText (.str d : Item bits) = some d.text := by
  have hwidth : d.width.value ≤ INT_MAX := by
    unfold StrDirective.text at hlen
    rw [length_fill] at hlen
    omega
  obtain ⟨l, r, hmem, hl⟩ := eq_append_cons_of_mem hnul
  have hstrlen : strlen d.mem = some l.length := by rw [hmem, strlen_append hl]
  have hmax : INT_MAX = 2 ^ 31 - 1 := rfl
  have hL := hfits.length _ hstrlen
  have hslen : wrap 32 (l.length : ℤ) = l.length :=
    wrap_eq (by decide) (by omega) (by norm_num; omega)
  have hprec : codePrec d.prec = d.prec.value.elim (-1) (fun q => (q : ℤ)) := by
    refine codePrec_eq ?_
    cases hq : d.prec.value with
    | none => decide
    | some q => exact hfits.prec q hq
  rw [codeText, hstrlen, bind_some, hslen, StrDirective.text, bytes_eq_take hl hmem]
  refine strText_eq_fill (zero_codeFlags d.defined.2 d.width) (codeWidth_eq hwidth) ?_ ?_ ?_
  · rw [hprec]
    cases d.prec.value with
    | none => simp
    | some q =>
      simp only [elim_some, getD_some]
      split_ifs <;> omega
  · rw [hmem, length_append]
    omega
  · omega

end

/-! ### Formats -/

section
variable {bits : ℕ}

/-- **When the code writes what ISO C prescribes** for a directive. -/
def Good : Item bits → Prop
  | .int d => IntGood d
  | .str d => 0 ∈ d.mem
  | _ => True

def Fits : Item bits → Prop
  | .str d => StrFits d
  | _ => True

lemma strlen_eq_none {mem : List UInt8} (h : 0 ∉ mem) : strlen mem = none := by
  rw [strlen, findIdx?_eq_none_iff]
  intro b hb
  exact beq_false_of_ne fun h0 => h (h0 ▸ hb)

section
variable (hbits : 0 < bits ∧ bits ≤ 64) (x : Item bits) (hfits : Fits x)
  (hlen : x.text.length ≤ INT_MAX)
include hbits x hfits hlen

lemma codeText_eq_iff : codeText x = some x.text ↔ Good x := by
  cases x with
  | ordinary ch _ _ => exact iff_of_true rfl trivial
  | int d => exact some_inj.trans (intText_eq_iff d hbits hlen)
  | char d => exact iff_of_true (codeText_char d hlen) trivial
  | str d =>
    by_cases hnul : 0 ∈ d.mem
    · exact iff_of_true (codeText_str d hfits hnul hlen) hnul
    · refine iff_of_false ?_ hnul
      rw [codeText, strlen_eq_none hnul]
      nofun
  | percent => exact iff_of_true rfl trivial

lemma length_le_codeText {u : List UInt8} (hu : codeText x = some u) :
    x.text.length ≤ u.length := by
  by_cases hgood : Good x
  · rw [(codeText_eq_iff hbits x hfits hlen).2 hgood, Option.some.injEq] at hu
    rw [hu]
  · cases x with
    | int d =>
      rw [codeText, Option.some.injEq] at hu
      rw [← hu]
      exact IsoInt.length_text_le d hbits hlen
    | str d =>
      rw [codeText, strlen_eq_none hgood] at hu
      cases hu
    | ordinary | char | percent => exact absurd trivial hgood

end

lemma textOf_cons (x : Item bits) (items : List (Item bits)) :
    textOf (x :: items) = x.text ++ textOf items := flatMap_cons

lemma codeTexts_eq_iff (hbits : 0 < bits ∧ bits ≤ 64) : ∀ items : List (Item bits),
    (∀ x ∈ items, Fits x) → (textOf items).length ≤ INT_MAX →
    (codeTexts items = some (textOf items) ↔ ∀ x ∈ items, Good x) ∧
      ∀ us, codeTexts items = some us → (textOf items).length ≤ us.length
  | [], _, _ => by simp [codeTexts, textOf]
  | x :: items, hfits, hlen => by
    rw [textOf_cons, length_append] at hlen
    obtain ⟨hx, hitems⟩ := forall_mem_cons.1 hfits
    have hiff := codeText_eq_iff hbits x hx (by omega)
    have hle := fun u => length_le_codeText hbits x hx (by omega) (u := u)
    obtain ⟨ihiff, ihle⟩ := codeTexts_eq_iff hbits items hitems (by omega)
    rw [textOf_cons, codeTexts, forall_mem_cons, ← hiff, ← ihiff]
    cases hu : codeText x with
    | none => simp
    | some u =>
      cases hus : codeTexts items with
      | none => simp
      | some us =>
        have h1 := hle u hu
        have h2 := ihle us hus
        simp only [bind_eq_bind, bind_some, Option.some.injEq, length_append]
        refine ⟨⟨fun heq => ?_, fun ⟨e1, e2⟩ => by rw [e1, e2]⟩, ?_⟩
        · have hlength := congrArg List.length heq
          rw [length_append, length_append] at hlength
          exact append_inj heq (by omega)
        · rintro vs rfl
          rw [length_append]
          omega

/-- **When `vsnprintf` writes what ISO C prescribes.**  Let the prescribed text of a format be not
longer than `INT_MAX`, and the same for its string arguments and their precisions. Then the complete
text of `vsnprintf` is the prescribed one if and only if every integer directive is `IntGood` and
every string argument has a NUL. -/
theorem vsnprintf_iso_iff (arch : Arch) (items : List (Item arch.bits))
    (hlen : (textOf items).length ≤ INT_MAX) (hfits : ∀ x ∈ items, Fits x) :
    text (formatOf items) (argsOf items) = some ⟨textOf items, []⟩ ↔ ∀ x ∈ items, Good x := by
  have hbits : 0 < arch.bits ∧ arch.bits ≤ 64 := by rcases arch.bits_eq with h | h <;> omega
  rw [← (codeTexts_eq_iff hbits items hfits hlen).1, text_formatOf]
  cases codeTexts items <;> simp

lemma vsnprintf_writes_iso (arch : Arch) (items : List (Item arch.bits))
    (hlen : (textOf items).length ≤ INT_MAX) (hfits : ∀ x ∈ items, Fits x)
    (hgood : ∀ x ∈ items, Good x) (n : ℕ) :
    ∃ r, vsnprintf arch n (formatOf items) (argsOf items) = some r ∧
      r.ret = (textOf items).length ∧ Truncated n (textOf items) r.buf := by
  have hbits : 0 < arch.bits ∧ arch.bits ≤ 64 := by rcases arch.bits_eq with h | h <;> omega
  have htext : text (formatOf items) (argsOf items) = some ⟨textOf items, []⟩ := by
    rw [text_formatOf, (codeTexts_eq_iff hbits items hfits hlen).1.2 hgood]
    rfl
  obtain ⟨r, hr, hret, -, htrunc⟩ := vsnprintf_truncates arch n _ _ _ htext hlen
  exact ⟨r, hr, hret, htrunc⟩

end

/-! ### Some directives -/

def intItem (flags : List Flag) (width : List (Fin 10)) (first : width.head? ≠ some 0)
    (prec : Prec) (conv : IntConv) (v : BitVec 32) (defined : .hash ∈ flags → conv.base ≠ 10) :
    Item arch64.bits :=
  .int ⟨flags, .digits width first, prec, .none, conv, v, defined⟩

/-- `%05d` of -42. -/
def sampleInt : IntDirective arch64.bits :=
  ⟨[.zero], .digits [5] (by decide), .none, .none, .d, (-42 : BitVec 32), by simp⟩

/-- `%s` of `ab`. -/
def sampleStr : StrDirective := ⟨[], .omitted, .none, [97, 98, 0], no_flags, Or.inl (by simp)⟩

def sampleItems : List (Item arch64.bits) :=
  [.int sampleInt, .ordinary (chr ' ') (by decide) (by decide), .str sampleStr]

theorem vsnprintf_iso_iff_sample : text (formatOf sampleItems) (argsOf sampleItems) =
    some ⟨textOf sampleItems, []⟩ := by
  have hfits : StrFits sampleStr := ⟨by decide, nofun⟩
  have hgood : IntGood sampleInt :=
    ⟨fun h => absurd h.1 (by decide), fun h => absurd h.2.1 (by decide), nofun, nofun,
      fun _ _ _ h => absurd rfl h⟩
  refine (vsnprintf_iso_iff arch64 sampleItems (by decide +kernel) ?_).2 ?_
  · simpa [sampleItems, Fits] using hfits
  · simpa [sampleItems, Good, hgood] using show (0 : UInt8) ∈ sampleStr.mem by decide

def textOfItem (x : Item arch64.bits) : Option (List UInt8) :=
  (text (formatOf [x]) (argsOf [x])).map Text.text

/-- `%.0d` of 0. -/
def zeroPrecItem : Item arch64.bits := intItem [] [] no_digits (.digits [0]) .d 0 (no_hash .d)

/-- `%#x` of 0. -/
def hexZeroItem : Item arch64.bits := intItem [.hash] [] no_digits .none .x 0 (by decide)

/-- `%05.3d` of 42. -/
def zeroFlagItem : Item arch64.bits := intItem [.zero] [5] (by decide) (.digits [3]) .d 42 (by simp)

/-- `%+u` of 5. -/
def plusItem : Item arch64.bits := intItem [.plus] [] no_digits .none .u 5 (by simp)

/-- `0` and not the empty text, `0x0` and not `0`, `00042` and not `  042`, `+5` and not `5`. -/
theorem vsnprintf_not_iso : (textOfItem zeroPrecItem = some [48] ∧ textOf [zeroPrecItem] = []) ∧
    (textOfItem hexZeroItem = some [48, 120, 48] ∧ textOf [hexZeroItem] = [48]) ∧
    (textOfItem zeroFlagItem = some [48, 48, 48, 52, 50] ∧
      textOf [zeroFlagItem] = [32, 32, 48, 52, 50]) ∧
    (textOfItem plusItem = some [43, 53] ∧ textOf [plusItem] = [53]) := by
  decide +kernel

end Klibc.Stdio.Conformance
