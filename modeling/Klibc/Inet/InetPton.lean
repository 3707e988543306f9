import Klibc.Inet.InetNtop
import Klibc.Stdio.Vsscanf

/-! # `inet_pton`

For an IPv6 address both loops of `inet_pton` run over `dst`, the memory that is to get the address,
and `src` is never read. The first loop checks the old contents of `dst`; if it is content, the
sixteen bytes are set to zero, and the second loop finds the NUL at once. `inetPton_eq` says what a
call does. `inet_pton_iff` compares it with what it should do: a text is converted properly if and
only if it denotes the address `::` and the old contents of `dst` pass the first loop, or it is not
an address and they do not. -/

namespace Klibc.Inet.InetPton

open Lib.Machine Lib.Slice Lib.Ipv6 Stdio.Vsnprintf InetNtop List
open Stdio.Vsscanf (Stored vsscanf)

/-! ### The code -/

/-- `"%hhu.%hhu.%hhu.%hhu"`. -/
def scanFormat : List UInt8 :=
  [chr '%', chr 'h', chr 'h', chr 'u', chr '.', chr '%', chr 'h', chr 'h', chr 'u', chr '.',
    chr '%', chr 'h', chr 'h', chr 'u', chr '.', chr '%', chr 'h', chr 'h', chr 'u']

/-- `a.b[k]`, if it was stored. -/
def byteAt {bits : ℕ} (stores : List (ℕ × Stored bits)) (k : ℕ) : Option UInt8 :=
  match stores.lookup k with
  | some (.int (.char v)) => some (UInt8.ofBitVec v)
  | _ => none

/-- `inet_aton(str, addr)`. -/
def inetAton (arch : Arch) (str addr : List UInt8) : Option (ℤ × List UInt8) := do
  let r ← vsscanf arch str scanFormat [0, 1, 2, 3]
  if r.ret = 4 then
    let b ← (List.range 4).mapM (byteAt r.stores)
    let addr ← overwrite addr 0 b
    some (1, addr)
  else some (0, addr)

/-- `isxdigit(c)`: the table has no entry below -1. -/
def isxdigit (c : ℤ) : Option Bool :=
  if c < -1 then none else some (48 ≤ c ∧ c ≤ 57 ∨ 65 ≤ c ∧ c ≤ 70 ∨ 97 ≤ c ∧ c ≤ 102)

def hexval (ch : ℤ) : ℤ :=
  if 48 ≤ ch ∧ ch ≤ 57 then ch - 48
  else if 65 ≤ ch ∧ ch ≤ 70 then ch - 65 + 10
  else if 97 ≤ ch ∧ ch ≤ 102 then ch - 97 + 10
  else -1

/-- `htons`, of the low bits of a number. -/
def htons (v : ℤ) : List UInt8 := [(unsigned 16 v / 256).toUInt8, (unsigned 16 v).toUInt8]

/-- The first loop: `colons` and `dcolons`, unless there is something else in the text. -/
def countColons (charSigned : Bool) : List UInt8 → ℤ → ℤ → Option (Option (ℤ × ℤ))
  | [], _, _ => none
  | c :: p, colons, dcolons =>
    if c = 0 then some (some (colons, dcolons))
    else if c = colon then do
      let c' ← p.head?
      countColons charSigned p (wrap 32 (colons + 1))
        (if c' = colon then wrap 32 (dcolons + 1) else dcolons)
    else do
      if ← isxdigit (charInt charSigned c) then countColons charSigned p colons dcolons
      else some none

/-- The second loop, which reads and writes the same memory. -/
def place (charSigned : Bool) (colons : ℤ) : ℕ → ℕ → ℤ → List UInt8 → Option (List UInt8)
  | 0, _, _, _ => none
  | fuel + 1, p, i, mem => do
    let c ← mem[p]?
    if c = 0 then some mem
    else if c = colon then
      let c' ← mem[p + 1]?
      place charSigned colons fuel (p + 1)
        (if c' = colon then wrap 32 (i + (8 - colons)) else wrap 32 (i + 1)) mem
    else
      let v ← ntohs mem i
      let mem ← overwrite mem (2 * i) (htons (v * 16 + hexval (charInt charSigned c)))
      place charSigned colons fuel (p + 1) i mem

structure Pton where
  ret : ℤ
  dst : List UInt8
  errno : Option Errno
  deriving DecidableEq

/-- `inet_pton(af, src, dst)`, with the memory at `src` and at `dst`. -/
def inetPton (arch : Arch) (charSigned : Bool) (af : Family) (src dst : List UInt8) : Option Pton :=
  match af with
  | .inet => (inetAton arch src dst).map fun (ret, addr) => ⟨ret, addr, none⟩
  | .inet6 => do
    match ← countColons charSigned dst 0 0 with
    | none => some ⟨0, dst, none⟩
    | some (colons, dcolons) =>
      if colons > 7 ∨ dcolons > 1 ∨ dcolons = 0 ∧ colons ≠ 7 then some ⟨0, dst, none⟩
      else
        let d ← overwrite dst 0 (List.replicate 16 0)
        -- `p` cannot get further than to the end of the memory
        let d ← place charSigned colons (d.length + 1) 0 0 d
        some ⟨1, d, none⟩
  | .other => some ⟨-1, dst, some .EAFNOSUPPORT⟩

/-! ### What the first loop reads -/

def good (c : UInt8) : Bool := c = colon ∨ (hexDigit c).isSome

/-- The number of `::`, overlapping ones as well. -/
def doubles : List UInt8 → ℕ
  | a :: b :: rest => (if a = colon ∧ b = colon then 1 else 0) + doubles (b :: rest)
  | _ => 0

/-- The check after the first loop: at most seven colons, and one `::`, or seven colons without
one. The counts are values of an `int`. -/
def Plausible (t : List UInt8) : Prop :=
  let colons := wrap 32 (t.count colon)
  let dcolons := wrap 32 (doubles t)
  colons ≤ 7 ∧ dcolons ≤ 1 ∧ (dcolons = 0 → colons = 7)

instance decidablePlausible (t : List UInt8) : Decidable (Plausible t) :=
  inferInstanceAs (Decidable (_ ∧ _ ∧ (_ → _)))

lemma plausible_iff (t : List UInt8) : Plausible t ↔
    ¬ (wrap 32 (t.count colon) > 7 ∨ wrap 32 (doubles t) > 1 ∨
      wrap 32 (doubles t) = 0 ∧ wrap 32 (t.count colon) ≠ 7) := by
  simp only [Plausible]
  omega

/-- A character for which `isxdigit` has an entry. -/
def Readable (charSigned : Bool) (c : UInt8) : Prop := charSigned = true → c < 128 ∨ c = 255

instance decidableReadable (charSigned : Bool) (c : UInt8) : Decidable (Readable charSigned c) :=
  inferInstanceAs (Decidable (_ → _))

/-- **The first loop is content** with the old contents of `dst`. -/
def Accepts (dst : List UInt8) : Prop :=
  (dst.dropWhile good).head? = some 0 ∧ Plausible (dst.takeWhile good)

instance decidableAccepts (dst : List UInt8) : Decidable (Accepts dst) :=
  inferInstanceAs (Decidable (_ ∧ _))

/-- **The first loop or the check rejects** the old contents of `dst`. -/
def Rejects (charSigned : Bool) (dst : List UInt8) : Prop :=
  ∃ c, (dst.dropWhile good).head? = some c ∧
    if c = 0 then ¬ Plausible (dst.takeWhile good) else Readable charSigned c

lemma good_zero : good 0 = false := by decide

lemma isSome_hexDigit (c : UInt8) : (hexDigit c).isSome ↔
    48 ≤ c.toNat ∧ c.toNat ≤ 57 ∨ 65 ≤ c.toNat ∧ c.toNat ≤ 70 ∨
      97 ≤ c.toNat ∧ c.toNat ≤ 102 := by
  unfold hexDigit
  split_ifs with h1 h2 h3 <;> simp <;> omega

lemma isxdigit_charInt (charSigned : Bool) (c : UInt8) : isxdigit (charInt charSigned c) =
      if Readable charSigned c then some (hexDigit c).isSome else none := by
  have hlt := c.toNat_lt
  have hint := charInt_eq charSigned c
  have h255 : c = 255 ↔ c.toNat = 255 := ⟨fun h => by rw [h]; rfl, fun h => UInt8.toNat.inj h⟩
  have h128 : c < 128 ↔ c.toNat < 128 := UInt8.lt_iff_toNat_lt
  have hentry : charInt charSigned c < -1 ↔ ¬ Readable charSigned c := by
    unfold Readable
    rw [h255, h128, hint]
    cases charSigned with
    | false => simp
    | true =>
      simp only [true_and, true_imp_iff]
      split_ifs <;> omega
  by_cases hread : Readable charSigned c
  · rw [isxdigit, if_neg (fun h => hentry.1 h hread), if_pos hread, Option.some.injEq,
      Bool.eq_iff_iff, decide_eq_true_iff, isSome_hexDigit, hint]
    split_ifs <;> omega
  · rw [isxdigit, if_pos (hentry.2 hread), if_neg hread]

lemma doubles_cons (a b : UInt8) (rest : List UInt8) : doubles (a :: b :: rest) =
    (if a = colon ∧ b = colon then 1 else 0) + doubles (b :: rest) := rfl

lemma doubles_of_ne {a : UInt8} (h : a ≠ colon) (rest : List UInt8) :
    doubles (a :: rest) = doubles rest := by
  cases rest with
  | nil => rfl
  | cons b rest => rw [doubles_cons, if_neg (fun hab => h hab.1), Nat.zero_add]

lemma good_colon : good colon = true := by decide

lemma doubles_colon (c : UInt8) (p : List UInt8) : doubles (colon :: (c :: p).takeWhile good) =
      (if c = colon then 1 else 0) + doubles ((c :: p).takeWhile good) := by
  by_cases hc : c = colon
  · rw [hc, takeWhile_cons_of_pos good_colon, doubles_cons, if_pos ⟨rfl, rfl⟩, if_pos rfl]
  · rw [if_neg hc, Nat.zero_add, takeWhile_cons]
    split_ifs
    · rw [doubles_cons, if_neg (fun h => hc h.2), Nat.zero_add]
    · rfl

/-- **The first loop.** -/
theorem countColons_eq (charSigned : Bool) (mem : List UInt8) (n d : ℤ) :
    countColons charSigned mem (wrap 32 n) (wrap 32 d) =
      (mem.dropWhile good).head?.bind fun c =>
        if c = 0 then some (some (wrap 32 (n + (mem.takeWhile good).count colon),
          wrap 32 (d + doubles (mem.takeWhile good))))
        else if Readable charSigned c then some none else none := by
  induction mem generalizing n d with
  | nil => rfl
  | cons c p ih =>
    by_cases h0 : c = 0
    · subst h0
      simp [countColons, good_zero, doubles]
    rw [countColons, if_neg h0]
    by_cases hcolon : c = colon
    · subst hcolon
      rw [if_pos rfl, dropWhile_cons_of_pos good_colon, takeWhile_cons_of_pos good_colon]
      cases p with
      | nil => rfl
      | cons c' p =>
        have hdoubles : (if c' = colon then wrap 32 (wrap 32 d + 1) else wrap 32 d) =
            wrap 32 (d + if c' = colon then 1 else 0) := by
          split_ifs
          · exact wrap_wrap_add 32 d 1
          · rw [Int.add_zero]
        rw [head?_cons, Option.bind_eq_bind, Option.bind_some, hdoubles, wrap_wrap_add, ih,
          count_cons_self, doubles_colon]
        push_cast
        rw [Int.add_assoc n, Int.add_comm 1, Int.add_assoc d]
    · rw [if_neg hcolon, isxdigit_charInt]
      have hgood : good c = (hexDigit c).isSome := by simp [good, hcolon]
      by_cases hhex : (hexDigit c).isSome = true
      · rw [hhex] at hgood
        have hread : Readable charSigned c := by
          intro _
          rw [isSome_hexDigit] at hhex
          exact .inl (UInt8.lt_iff_toNat_lt.2 (show c.toNat < 128 by omega))
        rw [if_pos hread, dropWhile_cons_of_pos hgood, takeWhile_cons_of_pos hgood,
          count_cons_of_ne hcolon, doubles_of_ne hcolon, hhex]
        exact ih n d
      · rw [Bool.not_eq_true] at hhex
        rw [hhex] at hgood
        rw [dropWhile_cons_of_neg (by rw [hgood]; decide), head?_cons, Option.bind_some,
          if_neg h0, hhex]
        split_ifs <;> rfl

/-! ### What a call does -/

section
variable (arch : Arch) (charSigned : Bool) (src : List UInt8) {dst : List UInt8}

/-- The bytes of the address `::`. -/
def zeros : List UInt8 := List.replicate 16 0

lemma place_zeros (colons : ℤ) (fuel : ℕ) (rest : List UInt8) :
    place charSigned colons (fuel + 1) 0 0 (zeros ++ rest) = some (zeros ++ rest) := rfl

section
variable (hdst : 16 ≤ dst.length)
include hdst

/-- **What a call for an IPv6 address does**, whatever `src` is. -/
theorem inetPton_eq : inetPton arch charSigned .inet6 src dst =
    (dst.dropWhile good).head?.bind fun c =>
      if c = 0 then
        if Plausible (dst.takeWhile good) then some ⟨1, zeros ++ dst.drop 16, none⟩
        else some ⟨0, dst, none⟩
      else if Readable charSigned c then some ⟨0, dst, none⟩ else none := by
  have hcount := countColons_eq charSigned dst 0 0
  have h0 : wrap 32 0 = 0 := rfl
  rw [h0, Int.zero_add, Int.zero_add] at hcount
  have hover : overwrite dst 0 (List.replicate 16 0) = some (zeros ++ dst.drop 16) :=
    overwrite_eq (i := 0) hdst
  rw [inetPton, hcount]
  cases (dst.dropWhile good).head? with
  | none => rfl
  | some c =>
    simp only [Option.bind_eq_bind, Option.bind_some]
    by_cases hc : c = 0
    · rw [if_pos hc, if_pos hc, Option.bind_some]
      by_cases hplausible : Plausible (dst.takeWhile good)
      · simp only [if_neg ((plausible_iff _).1 hplausible), if_pos hplausible, hover,
          Option.bind_some, place_zeros]
      · simp only [if_pos (not_not.1 fun h => hplausible ((plausible_iff _).2 h)),
          if_neg hplausible]
    · rw [if_neg hc, if_neg hc]
      split_ifs <;> rfl

/-- The three outcomes: the old contents of `dst` are accepted, rejected, or read beyond the
table or the memory. -/
theorem inetPton_cases : Accepts dst ∧ ¬ Rejects charSigned dst ∧
      inetPton arch charSigned .inet6 src dst = some ⟨1, zeros ++ dst.drop 16, none⟩ ∨
    ¬ Accepts dst ∧ Rejects charSigned dst ∧
      inetPton arch charSigned .inet6 src dst = some ⟨0, dst, none⟩ ∨
    ¬ Accepts dst ∧ ¬ Rejects charSigned dst ∧ inetPton arch charSigned .inet6 src dst = none := by
  rw [inetPton_eq arch charSigned src hdst, Accepts, Rejects]
  cases (dst.dropWhile good).head? with
  | none => simp
  | some c =>
    by_cases hc : c = 0
    · by_cases hplausible : Plausible (dst.takeWhile good) <;> simp [hc, hplausible]
    · by_cases hread : Readable charSigned c <;> simp [hc, hread]

/-- **When a call returns 1**, and what it then stores. -/
theorem returns_one_iff (d : List UInt8) :
    (∃ r, inetPton arch charSigned .inet6 src dst = some r ∧ r.ret = 1 ∧ r.dst = d) ↔
      d = zeros ++ dst.drop 16 ∧ Accepts dst := by
  rcases inetPton_cases arch charSigned src hdst with ⟨ha, -, h⟩ | ⟨ha, -, h⟩ | ⟨ha, -, h⟩
  · simp [h, ha, eq_comm]
  · simp [h, ha]
  · simp [h, ha]

/-- **When a call returns 0.** -/
theorem returns_zero_iff : (∃ r, inetPton arch charSigned .inet6 src dst = some r ∧ r.ret = 0) ↔
      Rejects charSigned dst := by
  rcases inetPton_cases arch charSigned src hdst with ⟨-, hr, h⟩ | ⟨-, hr, h⟩ | ⟨-, hr, h⟩
  · simp [h, hr]
  · simp [h, hr]
  · simp [h, hr]

end

end

/-! ### What a call should do -/

section
variable (arch : Arch) (charSigned : Bool)

/-- **The conversion of a text**: a valid text without an embedded IPv4 address gives the address it
denotes, a text that is not valid is rejected. -/
structure Converts (src dst : List UInt8) : Prop where
  valid : ∀ vs, Denotes src vs → ∃ r, inetPton arch charSigned .inet6 (src ++ [0]) dst = some r ∧
    r.ret = 1 ∧ r.dst = bytesOf vs ++ dst.drop 16
  invalid : (∀ vs, ¬ Denotes src vs) → ¬ Mixed src →
    ∃ r, inetPton arch charSigned .inet6 (src ++ [0]) dst = some r ∧ r.ret = 0

/-- **The round trip** of an address: the buffer gets a text of it, and the text is converted to
it. -/
def RoundTrips (a : List UInt8) (len : ℕ) (dst : List UInt8) : Prop :=
  ∃ r, ∃ t : List UInt8, inetNtop arch .inet6 a len = some r ∧ r.ret = true ∧
    (0 ∉ t ∧ ∀ i ≤ t.length, r.buf i = (t ++ [0])[i]?) ∧ (∃ vs, Denotes t vs ∧ bytesOf vs = a) ∧
    ∃ r', inetPton arch charSigned .inet6 (t ++ [0]) dst = some r' ∧ r'.ret = 1 ∧
      r'.dst = a ++ dst.drop 16

/-- **When `inet_pton` does what it should.**  A text is converted properly if and only if the
address it denotes, if there is one, is `::` and the old contents of `dst` are accepted; and, if it
is not an address, they are rejected. The round trip is proper only for the address `::`, under the
same condition. -/
theorem inet_pton_iff {dst : List UInt8} (hdst : 16 ≤ dst.length) :
    (∀ src, Converts arch charSigned src dst ↔
      (∀ vs, Denotes src vs → bytesOf vs = zeros ∧ Accepts dst) ∧
      ((∀ vs, ¬ Denotes src vs) → ¬ Mixed src → Rejects charSigned dst)) ∧
    ∀ a len, a.length = 16 → (groupsText a).length < len →
      (RoundTrips arch charSigned a len dst ↔ a = zeros ∧ Accepts dst) := by
  have hone := fun src => returns_one_iff arch charSigned src hdst
  have hzero := fun src => returns_zero_iff arch charSigned src hdst
  have happend : ∀ a : List UInt8, a ++ dst.drop 16 = zeros ++ dst.drop 16 ↔ a = zeros :=
    fun a => append_left_inj _
  constructor
  · intro src
    constructor
    · intro h
      refine ⟨fun vs hvs => ?_, fun hnone hmixed => ?_⟩
      · have hvalid := (hone _ _).1 (h.valid vs hvs)
        rwa [happend] at hvalid
      · exact (hzero _).1 (h.invalid hnone hmixed)
    · rintro ⟨hvalid, hinvalid⟩
      refine ⟨fun vs hvs => ?_, fun hnone hmixed => ?_⟩
      · rw [hone, happend]
        exact hvalid vs hvs
      · rw [hzero]
        exact hinvalid hnone hmixed
  · intro a len ha hlen
    constructor
    · rintro ⟨r, t, -, -, -, -, h⟩
      have hstored := (hone _ _).1 h
      rwa [happend] at hstored
    · intro h
      obtain ⟨buf, hr, htrunc⟩ := inetNtop_eq arch len (show Family.inet6 ≠ .other by decide) ha
      rw [if_neg (show ¬len < (Family.inet6.text a).length from not_lt.2 hlen.le)] at hr
      refine ⟨_, groupsText a, hr, rfl,
        ⟨nul_notMem_groupsText a, holdsText_of_truncated htrunc hlen⟩,
        ⟨groupsOf a, denotes_groupsText ha, bytesOf_groupsOf 8 ha⟩, ?_⟩
      rw [hone, happend]
      exact h

end

/-- `::1`. -/
def loopback : List UInt8 := [58, 58, 49]

lemma denotes_loopback : Denotes loopback [0, 0, 0, 0, 0, 0, 0, 1] :=
  @Denotes.compressed [] [[49]] [] [1] rfl rfl (by decide)

/-- Sixteen bytes that begin with `::` and a NUL. -/
def oldText : List UInt8 := [58, 58, 0, 0, 0, 0, 0, 0, 0, 0, 0, 0, 0, 0, 0, 0]

theorem inet_pton_iff_oldText : RoundTrips arch64 true zeros 40 oldText ∧
    ¬ Converts arch64 true loopback oldText := by
  have hlen : 16 ≤ oldText.length := by decide
  have hiff := inet_pton_iff arch64 true hlen
  refine ⟨(hiff.2 zeros 40 rfl (by decide +kernel)).2 ⟨rfl, by decide +kernel⟩, fun h => ?_⟩
  have hzeros := (((hiff.1 loopback).1 h).1 _ denotes_loopback).1
  exact absurd hzeros (by decide)

/-- `::1` is rejected, with zeros in `dst`, or gives the address `::`. -/
theorem loopback_lost : Denotes loopback [0, 0, 0, 0, 0, 0, 0, 1] ∧
    inetPton arch64 true .inet6 (loopback ++ [0]) zeros = some ⟨0, zeros, none⟩ ∧
    inetPton arch64 true .inet6 (loopback ++ [0]) oldText = some ⟨1, zeros, none⟩ :=
  ⟨denotes_loopback, by decide +kernel, by decide +kernel⟩

end Klibc.Inet.InetPton
