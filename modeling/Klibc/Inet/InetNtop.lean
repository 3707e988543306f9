import Klibc.Lib.Ipv6
import Klibc.Lib.Slice
import Klibc.Stdio.Conformance

/-! # `inet_ntop`

The text of an address, by `snprintf`. For an IPv6 address it is its eight groups without leading
zeros, with colons between them (`groupsText`); it denotes the address (`denotes_groupsText`), and a
buffer that is large enough gets the whole of it (`inetNtop_groups`). -/

namespace Klibc.Inet.InetNtop

open Lib.Machine Lib.Slice Lib.Ipv6 Stdio.Vsnprintf List
open Stdio.Truncation Stdio.Digits Stdio.Iso Stdio.IsoInt
open Stdio.Conformance

/-- The address family: `AF_INET`, `AF_INET6` or any other one. -/
inductive Family
  | inet | inet6 | other
  deriving DecidableEq

/-- What `errno` is set to. -/
inductive Errno
  | EAFNOSUPPORT | ENOSPC
  deriving DecidableEq

/-- `ntohs(s6_addr16[i])`. -/
def ntohs (mem : List UInt8) (i : ℤ) : Option ℕ :=
  (slice mem (2 * i) 2).map fun w => w.foldl (fun m b => m * 256 + b.toNat) 0

/-- `"%u.%u.%u.%u"`. -/
def quadFormat : List UInt8 :=
  [chr '%', chr 'u', chr '.', chr '%', chr 'u', chr '.', chr '%', chr 'u', chr '.',
    chr '%', chr 'u']

/-- `"%x:%x:%x:%x:%x:%x:%x:%x"`. -/
def groupsFormat : List UInt8 :=
  [chr '%', chr 'x', chr ':', chr '%', chr 'x', chr ':', chr '%', chr 'x', chr ':',
    chr '%', chr 'x', chr ':', chr '%', chr 'x', chr ':', chr '%', chr 'x', chr ':',
    chr '%', chr 'x', chr ':', chr '%', chr 'x']

/-- What a call returns, `buf` or `NULL`, and leaves behind. -/
structure Ntop where
  ret : Bool
  buf : ℤ → Option UInt8
  errno : Option Errno

/-- `inet_ntop` after `snprintf`. -/
def finish (arch : Arch) (len : ℕ) (r : Result) : Ntop :=
  let xlen := unsigned arch.bits r.ret
  if xlen > len then ⟨false, r.buf, some .ENOSPC⟩ else ⟨true, r.buf, none⟩

/-- `inet_ntop(af, cp, buf, len)`, with the memory at `cp`. -/
def inetNtop (arch : Arch) (af : Family) (cp : List UInt8) (len : ℕ) : Option Ntop :=
  match af with
  | .inet => do
    let bp ← slice cp 0 4
    let r ← vsnprintf arch len quadFormat (bp.map fun b => .int (BitVec.ofNat 32 b.toNat))
    some (finish arch len r)
  | .inet6 => do
    let gs ← (List.range 8).mapM (fun i : ℕ => ntohs cp i)
    let r ← vsnprintf arch len groupsFormat (gs.map fun v => .int (BitVec.ofNat 32 v))
    some (finish arch len r)
  | .other => some ⟨false, fun _ => none, some .EAFNOSUPPORT⟩

/-! ### Numbers without flags, width and precision -/

section
variable {bits : ℕ}

/-- `%u` or `%x`, for a number. -/
def number (conv : IntConv) (v : ℕ) : IntDirective bits :=
  ⟨[], .omitted, .none, .none, conv, BitVec.ofNat 32 v, no_hash conv⟩

def numText (conv : IntConv) (v : ℕ) : List UInt8 :=
  (numeral conv.base (1 - (Nat.digits conv.base v).length) v).map (digitChar conv.upper)

section
variable {conv : IntConv} (hconv : conv.signed = false) {v : ℕ} (hv : v < 2 ^ 32)
include hconv hv

lemma value_number : (number conv v : IntDirective bits).value = v := by
  have hvalue : (number conv v : IntDirective bits).value =
      if conv.signed then ((BitVec.ofNat 32 v).setWidth 32).toInt
      else ((BitVec.ofNat 32 v).setWidth 32).toNat := rfl
  rw [hvalue, hconv, if_neg (by decide), BitVec.setWidth_eq, BitVec.toNat_ofNat,
    Nat.mod_eq_of_lt hv]

lemma text_number : (number conv v : IntDirective bits).text = numText conv v := by
  have hsign : (number conv v : IntDirective bits).sign = [] := by
    simp [IntDirective.sign, number, hconv]
  have hmark : (number conv v : IntDirective bits).hexMark = [] := by
    simp [IntDirective.hexMark, number]
  have hdigits : (number conv v : IntDirective bits).digits =
      numeral conv.base (1 - (Nat.digits conv.base v).length) v := by
    rw [IntDirective.digits, value_number hconv hv]
    simp [number, Prec.value, numeral]
  rw [IntDirective.text, hsign, hmark, hdigits]
  simp [number, fill, IntDirective.left, Width.omitted, Width.left, Width.value, decimal, horner,
    numText]

end

lemma good_number (conv : IntConv) (v : ℕ) : IntGood (number conv v : IntDirective bits) := by
  refine ⟨fun h => ?_, fun h => ?_, fun _ => by simp [number], fun _ h => ?_, fun _ h => ?_⟩
  · exact absurd h.1 (by simp [number])
  · exact absurd h.2.1 (by simp [number, Prec.value])
  · exact absurd h (by simp [number])
  · exact absurd h (by simp [number])

def joined {ch : UInt8} (hpercent : ch ≠ chr '%') (hnul : ch ≠ 0) (conv : IntConv) (vs : List ℕ) :
    List (Item bits) :=
  (vs.map fun v => .int (number conv v)).intersperse (.ordinary ch hpercent hnul)

section
variable {ch : UInt8} {hpercent : ch ≠ chr '%'} {hnul : ch ≠ 0} {conv : IntConv} {vs : List ℕ}

lemma flatMap_joined {α : Type} (f : Item bits → List α) :
    (joined hpercent hnul conv vs).flatMap f =
      (f (.ordinary ch hpercent hnul)).intercalate (vs.map fun v => f (.int (number conv v))) := by
  induction vs with
  | nil => rfl
  | cons v vs ih =>
    unfold joined at ih ⊢
    cases vs with
    | nil =>
      rw [map_singleton, intersperse_singleton, map_singleton,
        intercalate_singleton, flatMap_singleton]
    | cons w vs =>
      rw [map_cons, map_cons] at ih
      rw [map_cons, map_cons, intersperse_cons_cons, flatMap_cons, flatMap_cons, ih, map_cons,
        map_cons, intercalate_cons_cons, append_assoc]

lemma textOf_joined (hconv : conv.signed = false) (hvs : ∀ v ∈ vs, v < 2 ^ 32) :
    textOf (joined hpercent hnul conv vs : List (Item bits)) =
      [ch].intercalate (vs.map (numText conv)) := by
  have htexts : vs.map (fun v => (Item.int (number conv v) : Item bits).text) =
      vs.map (numText conv) := map_congr_left fun v hv => text_number hconv (hvs v hv)
  rw [textOf, flatMap_joined, htexts]
  rfl

lemma formatOf_joined : formatOf (joined hpercent hnul conv vs : List (Item bits)) =
    [ch].intercalate (List.replicate vs.length [chr '%', conv.letter]) := by
  rw [formatOf, flatMap_joined, ← map_const']
  rfl

lemma argsOf_joined : argsOf (joined hpercent hnul conv vs : List (Item bits)) =
    vs.map fun v => .int (BitVec.ofNat 32 v) := by
  have hnil : ∀ l : List (List (Arg bits)), [].intercalate l = l.flatten := by
    intro l
    induction l with
    | nil => rfl
    | cons x l ih =>
      by_cases hl : l = []
      · simp [hl]
      · rw [intercalate_cons_of_ne_nil hl, ih, append_nil, flatten_cons]
  rw [argsOf, flatMap_joined]
  refine (hnil _).trans ?_
  rw [← flatMap_def, map_eq_flatMap]
  rfl

lemma fits_good_joined :
    ∀ x ∈ (joined hpercent hnul conv vs : List (Item bits)), Fits x ∧ Good x := by
  have hnumber : ∀ v, Fits (.int (number conv v) : Item bits) ∧
      Good (.int (number conv v) : Item bits) := fun v => ⟨trivial, good_number conv v⟩
  induction vs with
  | nil => exact fun x hx => absurd hx not_mem_nil
  | cons v vs ih =>
    unfold joined at ih ⊢
    cases vs with
    | nil =>
      rw [map_singleton, intersperse_singleton]
      exact forall_mem_singleton.2 (hnumber v)
    | cons w vs =>
      rw [map_cons, map_cons, intersperse_cons_cons]
      exact forall_mem_cons.2 ⟨hnumber v, forall_mem_cons.2 ⟨⟨trivial, trivial⟩, ih⟩⟩

/-- **The text of numbers with a character between them**, as much of it as fits into the
buffer. -/
theorem vsnprintf_joined (arch : Arch) (conv : IntConv) (hpercent : ch ≠ chr '%') (hnul : ch ≠ 0)
    (hconv : conv.signed = false) (hvs : ∀ v ∈ vs, v < 2 ^ 32)
    (hlen : ([ch].intercalate (vs.map (numText conv))).length ≤ INT_MAX) (n : ℕ) :
    ∃ r, vsnprintf arch n (formatOf (joined hpercent hnul conv vs : List (Item arch.bits)))
        (argsOf (joined hpercent hnul conv vs : List (Item arch.bits))) = some r ∧
      r.ret = ([ch].intercalate (vs.map (numText conv))).length ∧
      Truncated n ([ch].intercalate (vs.map (numText conv))) r.buf := by
  have htext : textOf (joined hpercent hnul conv vs : List (Item arch.bits)) = _ :=
    textOf_joined hconv hvs
  rw [← htext] at hlen ⊢
  exact vsnprintf_writes_iso arch _ hlen (fun x hx => (fits_good_joined x hx).1)
    (fun x hx => (fits_good_joined x hx).2) n

end

end

/-! ### The groups of an address -/

section

lemma length_numText (conv : IntConv) {k v : ℕ} (hk : 1 ≤ k) (hv : v < conv.base ^ k) :
    1 ≤ (numText conv v).length ∧ (numText conv v).length ≤ k := by
  have hdigits := (Nat.digits_length_le_iff (one_lt_base conv) v).2 hv
  rw [numText, length_map, numeral, length_append, length_replicate, length_reverse]
  omega

lemma mapM_map_eq_some {α β : Type} {f : β → Option α} {g : α → β} :
    ∀ {l : List α}, (∀ x ∈ l, f (g x) = some x) → (l.map g).mapM f = some l
  | [], _ => rfl
  | x :: l, h => by
    obtain ⟨hx, hl⟩ := forall_mem_cons.1 h
    rw [map_cons, mapM_cons, hx, mapM_map_eq_some hl]
    rfl

lemma hexDigit_digitChar : ∀ d < 16, hexDigit (digitChar false d) = some d := by decide

lemma groupValue_numText {v : ℕ} (hv : v < 65536) : groupValue (numText .x v) = some v := by
  have hlength := length_numText .x (k := 4) (by decide) hv
  have hdigits : ∀ d ∈ numeral 16 (1 - (Nat.digits 16 v).length) v,
      hexDigit (digitChar false d) = some d := fun d hd =>
    hexDigit_digitChar d (numeral_lt_base (by decide) _ _ d hd)
  have hmapM : (numText .x v).mapM hexDigit = some (numeral 16 (1 - (Nat.digits 16 v).length) v) :=
    mapM_map_eq_some hdigits
  rw [groupValue, if_pos hlength, hmapM, Option.map_some]
  exact congrArg some (horner_numeral 16 _ v)

def groupsText (a : List UInt8) : List UInt8 := join ((groupsOf a).map (numText .x))

/-- **The text denotes the address.** -/
theorem denotes_groupsText {a : List UInt8} (ha : a.length = 16) :
    Denotes (groupsText a) (groupsOf a) := by
  refine .full (mapM_map_eq_some fun v hv => ?_) (length_groupsOf 8 ha)
  exact groupValue_numText (groupsOf_lt a v hv)

lemma length_groupsText {a : List UInt8} (ha : a.length = 16) : (groupsText a).length ≤ 40 := by
  have hgroups : ∀ g ∈ (groupsOf a).map (numText .x), g.length ≤ 4 := by
    intro g hg
    obtain ⟨v, hv, rfl⟩ := mem_map.1 hg
    exact (length_numText .x (by decide) (groupsOf_lt a v hv)).2
  have hle := length_join_le hgroups
  rwa [length_map, length_groupsOf 8 ha] at hle

lemma nul_notMem_groupsText (a : List UInt8) : 0 ∉ groupsText a := by
  intro h0
  rcases mem_join h0 with h | ⟨g, hg, hc⟩
  · exact absurd h (by decide)
  · obtain ⟨v, -, rfl⟩ := mem_map.1 hg
    obtain ⟨d, hd, hchar⟩ := mem_map.1 hc
    have hhex : hexDigit 0 = some d := by
      rw [← hchar]
      exact hexDigit_digitChar d (numeral_lt_base (by decide) _ _ d hd)
    exact absurd hhex (by simp [hexDigit])

lemma ntohs_succ (hi lo : UInt8) (rest : List UInt8) (i : ℕ) :
    ntohs (hi :: lo :: rest) (i + 1 : ℕ) = ntohs rest i := by
  have hdrop : (hi :: lo :: rest).drop (2 * (i + 1)) = rest.drop (2 * i) := by
    rw [Nat.mul_succ]
    rfl
  have hiff : 0 ≤ 2 * ((i + 1 : ℕ) : ℤ) ∧ (0 : ℤ) ≤ 2 ∧
      2 * ((i + 1 : ℕ) : ℤ) + 2 ≤ (hi :: lo :: rest).length ↔
      0 ≤ 2 * (i : ℤ) ∧ (0 : ℤ) ≤ 2 ∧ 2 * (i : ℤ) + 2 ≤ rest.length := by
    simp only [length_cons]
    omega
  have h1 : (2 * ((i + 1 : ℕ) : ℤ)).toNat = 2 * (i + 1) := by omega
  have h2 : (2 * (i : ℤ)).toNat = 2 * i := by omega
  simp only [ntohs, slice, hiff, h1, h2, hdrop]

lemma mapM_ntohs (k : ℕ) {a : List UInt8} (h : a.length = 2 * k) :
    (List.range k).mapM (fun i : ℕ => ntohs a i) = some (groupsOf a) := by
  refine pairs_induct rfl (fun k hi lo rest ih => ?_) k a h
  have hfirst : ntohs (hi :: lo :: rest) (0 : ℕ) = some (hi.toNat * 256 + lo.toNat) := by
    have hslice : slice (hi :: lo :: rest) (2 * ((0 : ℕ) : ℤ)) 2 = some [hi, lo] := by
      rw [slice, if_pos]
      · rfl
      · simp only [length_cons]
        omega
    rw [ntohs, hslice]
    simp
  rw [range_succ_eq_map, mapM_cons, hfirst, mapM_map]
  simp only [Function.comp_def, Nat.succ_eq_add_one, ntohs_succ, ih]
  rfl

end

/-! ### `inet_ntop` -/

def dotted (a : List UInt8) : List UInt8 :=
  [chr '.'].intercalate (a.map fun b => numText .u b.toNat)

def Family.size : Family → ℕ
  | .inet => 4
  | .inet6 => 16
  | .other => 0

def Family.text (a : List UInt8) : Family → List UInt8
  | .inet => dotted a
  | .inet6 => groupsText a
  | .other => []

def HoldsText (T : List UInt8) (buf : ℤ → Option UInt8) : Prop :=
  ∀ i ≤ T.length, buf i = (T ++ [0])[i]?

lemma holdsText_of_truncated {T : List UInt8} {n : ℕ} {buf : ℤ → Option UInt8}
    (h : Truncated n T buf) (hn : T.length < n) : HoldsText T buf := by
  have hmin : min T.length (n - 1) = T.length := by omega
  intro i hi
  rcases hi.lt_or_eq with hi | hi
  · rw [getElem?_append_left hi]
    exact h.text (by omega) i (by omega)
  · have hnul := h.nul (by omega)
    rw [hmin] at hnul
    rw [hi, getElem?_concat_length]
    exact hnul

lemma length_dotted {a : List UInt8} (ha : a.length = 4) : (dotted a).length ≤ 15 := by
  obtain ⟨b0, b1, b2, b3, rfl⟩ := length_eq_four.1 ha
  have hbyte : ∀ b : UInt8, (numText .u b.toNat).length ≤ 3 := fun b =>
    (length_numText .u (k := 3) (by decide) (b.toNat_lt.trans (by decide))).2
  have h₀ := hbyte b0
  have h₁ := hbyte b1
  have h₂ := hbyte b2
  have h3 := hbyte b3
  simp only [dotted, map_cons, map_nil, intercalate_cons_cons,
    intercalate_singleton, length_append, length_singleton]
  omega

section
variable (arch : Arch) {af : Family} {a : List UInt8} (len : ℕ)

lemma vsnprintf_dotted (ha : a.length = 4) :
    ∃ r, vsnprintf arch len quadFormat (a.map fun b => .int (BitVec.ofNat 32 b.toNat)) = some r ∧
      r.ret = (dotted a).length ∧ Truncated len (dotted a) r.buf := by
  have hdot : chr '.' ≠ chr '%' ∧ chr '.' ≠ 0 := by decide
  have hle := length_dotted ha
  have hmax : INT_MAX = 2 ^ 31 - 1 := rfl
  have htext : [chr '.'].intercalate ((a.map UInt8.toNat).map (numText .u)) = dotted a := by
    rw [map_map]
    rfl
  have hlt : ∀ v ∈ a.map UInt8.toNat, v < 2 ^ 32 := by
    intro v hv
    obtain ⟨b, -, rfl⟩ := mem_map.1 hv
    exact b.toNat_lt.trans (by decide)
  obtain ⟨r, hr, hret, htrunc⟩ := vsnprintf_joined arch .u hdot.1 hdot.2 rfl
    hlt (by rw [htext]; omega) len
  rw [formatOf_joined, argsOf_joined, length_map, ha, map_map] at hr
  rw [htext] at hret htrunc
  exact ⟨r, hr, hret, htrunc⟩

lemma vsnprintf_groups (ha : a.length = 16) :
    ∃ r, vsnprintf arch len groupsFormat ((groupsOf a).map fun v => .int (BitVec.ofNat 32 v)) =
      some r ∧ r.ret = (groupsText a).length ∧ Truncated len (groupsText a) r.buf := by
  have hcolon : chr ':' ≠ chr '%' ∧ chr ':' ≠ 0 := by decide
  have hlt : ∀ v ∈ groupsOf a, v < 2 ^ 32 := by
    intro v hv
    have := groupsOf_lt a v hv
    omega
  have hmax : INT_MAX = 2 ^ 31 - 1 := rfl
  have htext := length_groupsText ha
  obtain ⟨r, hr, hret, htrunc⟩ := vsnprintf_joined arch .x hcolon.1 hcolon.2 rfl hlt
    (show (groupsText a).length ≤ INT_MAX by omega) len
  rw [formatOf_joined, argsOf_joined, length_groupsOf 8 ha] at hr
  exact ⟨r, hr, hret, htrunc⟩

/-- **What `inet_ntop` does**: it takes a text that fits without its NUL for one that fits. -/
theorem inetNtop_eq (haf : af ≠ .other) (ha : a.length = af.size) :
    ∃ buf, inetNtop arch af a len = some (if len < (af.text a).length then
      ⟨false, buf, some .ENOSPC⟩ else ⟨true, buf, none⟩) ∧ Truncated len (af.text a) buf := by
  have hbits : 2 ^ 31 ≤ 2 ^ arch.bits := by
    refine Nat.pow_le_pow_right (by decide) ?_
    rcases arch.bits_eq with h | h <;> omega
  cases af with
  | inet =>
    obtain ⟨r, hr, hret, htrunc⟩ := vsnprintf_dotted arch len ha
    have hle := length_dotted ha
    have hxlen : unsigned arch.bits r.ret = (dotted a).length := by
      rw [hret]
      exact unsigned_eq (by omega)
    refine ⟨r.buf, ?_, htrunc⟩
    have ha : a.length = 4 := ha
    have hslice : slice a 0 4 = some a := by
      rw [show slice a 0 4 = _ from slice_eq (i := 0) (n := 4) ha.ge, drop_zero,
        take_of_length_le ha.le]
    simp only [inetNtop, hslice, Option.bind_eq_bind, Option.bind_some, hr, finish, hxlen,
      Family.text]
    rfl
  | inet6 =>
    obtain ⟨r, hr, hret, htrunc⟩ := vsnprintf_groups arch len ha
    have hle := length_groupsText ha
    have hxlen : unsigned arch.bits r.ret = (groupsText a).length := by
      rw [hret]
      exact unsigned_eq (by omega)
    refine ⟨r.buf, ?_, htrunc⟩
    simp only [inetNtop, mapM_ntohs 8 ha, Option.bind_eq_bind, Option.bind_some, hr, finish,
      hxlen, Family.text]
    rfl
  | other => exact absurd rfl haf

/-- `buf` is returned iff it holds the text, and `NULL` with `ENOSPC` iff there is no room for it
and its NUL. -/
def Tells (af : Family) (a : List UInt8) : Prop :=
  ∃ r, inetNtop arch af a len = some r ∧ (r.ret = true ↔ HoldsText (af.text a) r.buf) ∧
    (r.ret = false ∧ r.errno = some .ENOSPC ↔ len < (af.text a).length + 1)

/-- **`inet_ntop`** tells whether there was room iff there is not room for just all but the NUL. -/
theorem inet_ntop_iff (haf : af ≠ .other) (ha : a.length = af.size) :
    Tells arch len af a ↔ (af.text a).length ≠ len := by
  obtain ⟨buf, hr, htrunc⟩ := inetNtop_eq arch len haf ha
  rw [Tells, hr]
  rcases lt_trichotomy len (af.text a).length with hlt | heq | hgt
  · have hnot : ¬HoldsText (af.text a) buf := fun h => by
      have hnul := h _ le_rfl
      rw [getElem?_concat_length] at hnul
      have hinside := htrunc.inside _ (hnul ▸ Option.some_ne_none _)
      omega
    rw [if_pos hlt]
    refine iff_of_true ⟨_, rfl, ?_, ?_⟩ hlt.ne'
    · simpa using hnot
    · simpa using hlt.le
  · rw [if_neg (by omega)]
    refine iff_of_false ?_ (not_not_intro heq.symm)
    rintro ⟨r, hr, -, hspace⟩
    obtain rfl := Option.some.inj hr
    exact absurd (hspace.2 (by omega)).1 (by simp)
  · rw [if_neg (by omega)]
    refine iff_of_true ⟨_, rfl, ?_, ?_⟩ hgt.ne
    · simpa using holdsText_of_truncated htrunc hgt
    · simpa using hgt

theorem inet_ntop_iff_nine : Tells arch64 9 .inet [10, 0, 0, 1] :=
  (inet_ntop_iff arch64 9 (show Family.inet ≠ .other by decide) rfl).2 (by decide +kernel)

theorem inetNtop_eight : ((inetNtop arch64 .inet [10, 0, 0, 1] 8).map fun r =>
      (r.ret, (List.range 8).map fun i : ℕ => r.buf i)) =
    some (true, ("10.0.0.".toList.map chr ++ [0]).map some) ∧
      ¬Tells arch64 8 .inet [10, 0, 0, 1] := by
  have hcall : ((inetNtop arch64 .inet [10, 0, 0, 1] 8).map fun r =>
      (r.ret, (List.range 8).map fun i : ℕ => r.buf i)) =
    some (true, ("10.0.0.".toList.map chr ++ [0]).map some) := by decide +kernel
  refine ⟨hcall, ?_⟩
  rintro ⟨r, hr, -, hspace⟩
  rw [hr] at hcall
  have hret : r.ret = true := congrArg Prod.fst (Option.some.inj hcall)
  exact absurd (hret.symm.trans (hspace.2 (by decide +kernel)).1) (by decide)

end

end Klibc.Inet.InetNtop
