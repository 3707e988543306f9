import Klibc.Inet.InetPton
import Klibc.Stdlib.Strtotimex

/-! # `inet_aton`

`inet_aton` is one call of `sscanf` with four `%hhu`. On a string it always returns: `sscanf` stores
a byte for each directive that it gets over, and none of them is read unless all four are there.
What it gets over is more than a number from 0 to 255, so that other strings than dotted quads are
taken for addresses. -/

namespace Klibc.Inet.InetAton

open Lib.Machine Lib.Slice InetPton List Option
open Stdio.Vsnprintf Stdio.Vsscanf Stdio.ScanLoop
open Stdio.Strntoumax (IsDigit value digits digits_eq_nil mem_head?_of_take spaces signLength)
open Stdlib.Strtotimex (Minus numberDigits numberLength strntoumax_ten setWidth_number
  isDigit_of_mem_digits value_append_list)

/-! ### What is read -/

/-- What `%hhu` reads: white space, a sign and digits, `UINT_MAX` characters of them at most. Either
of the sign and the digits may be missing, and the number is taken modulo 256. -/
def number (u : List UInt8) : Option (UInt8 × List UInt8) :=
  let u := u.dropWhile isspace
  let w := u.take UINT_MAX
  if numberLength w = 0 then none
  else some (.ofBitVec (.ofInt 8 (Stdlib.Strtotimex.number w)), u.drop (numberLength w))

/-- What `k` of them read, with dots between them. -/
def numbers : ℕ → List UInt8 → Option (List UInt8)
  | 0, _ => some []
  | k + 1, u => do
    let (b, u) ← number u
    if k = 0 then some [b]
    else if u.head? = some (chr '.') then (numbers k u.tail).map (b :: ·)
    else none

/-! ### The texts it takes -/

/-- A text that `%hhu` takes for a number: white space, a sign and digits, of which the sign or the
digits may be missing. -/
structure Item where
  white : List UInt8
  sign : List UInt8
  digits : List UInt8
  white_ok : ∀ c ∈ white, isspace c = true
  sign_ok : sign = [] ∨ sign = [chr '+'] ∨ sign = [chr '-']
  digits_ok : ∀ c ∈ digits, IsDigit 10 c
  nonempty : sign ++ digits ≠ []

def Item.text (i : Item) : List UInt8 := i.white ++ (i.sign ++ i.digits)

/-- A number from 0 to 255 with nothing in front of it. -/
def Item.Plain (i : Item) : Prop := i.white = [] ∧ i.sign = [] ∧ value 10 i.digits ≤ 255

/-- More than `sscanf` takes. -/
def Item.Long (i : Item) : Prop := UINT_MAX < (i.sign ++ i.digits).length

def NoDigit (rest : List UInt8) : Prop := ∀ c ∈ rest.head?, ¬IsDigit 10 c

/-- Four items with dots between them, and what is behind them. -/
structure Reading where
  a : Item
  b : Item
  c : Item
  d : Item
  tail : List UInt8
  whole : NoDigit tail

def Reading.text (r : Reading) : List UInt8 :=
  r.a.text ++ chr '.' :: (r.b.text ++ chr '.' :: (r.c.text ++ chr '.' :: (r.d.text ++ r.tail)))

def Reading.Plain (r : Reading) : Prop :=
  r.a.Plain ∧ r.b.Plain ∧ r.c.Plain ∧ r.d.Plain ∧ ∀ c ∈ r.tail, isspace c = true

/-- All items are plain and only white space follows. Items of more than `UINT_MAX` characters are
another matter: `sscanf` stops at the first three, and stores the beginning of the last one. -/
def Reading.Right (r : Reading) : Prop :=
  (r.Plain → ¬r.a.Long ∧ ¬r.b.Long ∧ ¬r.c.Long ∧ (r.d.Long → value 10 r.d.digits = 0)) ∧
    (¬r.Plain → r.a.Long ∨ r.b.Long ∨ r.c.Long)

/-- A decimal number from 0 to 255. -/
def Octet (d : List UInt8) : Prop :=
  d ≠ [] ∧ (∀ c ∈ d, IsDigit 10 c) ∧ value 10 d ≤ 255

/-- **A dotted quad**: four decimal numbers from 0 to 255, and white space behind them. -/
def IsQuad (t v : List UInt8) : Prop :=
  ∃ a b c d white, (Octet a ∧ Octet b ∧ Octet c ∧ Octet d) ∧ (∀ c ∈ white, isspace c = true) ∧
    t = a ++ chr '.' :: (b ++ chr '.' :: (c ++ chr '.' :: (d ++ white))) ∧
    v = [a, b, c, d].map fun d => UInt8.ofNat (value 10 d)

def Item.first (i : Item) : List UInt8 := i.digits.take (UINT_MAX - i.sign.length)

/-- The byte that is stored for the item. -/
def Item.byte (i : Item) : UInt8 :=
  .ofBitVec (.ofInt 8 (if i.sign = [chr '-'] then -value 10 i.first else value 10 i.first))

section
variable {i : Item} {sign ds rest u v : List UInt8} {c : UInt8}

lemma isspace_of_digit (h : IsDigit 10 c) : isspace c = false :=
  Stdio.Strntoumax.forall_byte (P := fun c => IsDigit 10 c → isspace c = false)
    (by decide +kernel) c h

/-- Where the parts of a number end, and which sign it has. -/
lemma parts (hsign : sign = [] ∨ sign = [chr '+'] ∨ sign = [chr '-'])
    (hds : ∀ c ∈ ds, IsDigit 10 c) (hne : sign ++ ds ≠ []) (hrest : NoDigit rest) :
    (sign ++ (ds ++ rest)).takeWhile isspace = [] ∧
      signLength (sign ++ (ds ++ rest)) = sign.length ∧ digits 10 (ds ++ rest) = ds ∧
      ((sign ++ (ds ++ rest)).head? = some (chr '-') ↔ sign = [chr '-']) := by
  have hdigits : digits 10 (ds ++ rest) = ds := by
    rw [digits, takeWhile_append_of_pos fun c hc => by simpa using hds c hc]
    exact (congrArg (ds ++ ·) (digits_eq_nil hrest)).trans (append_nil _)
  rcases hsign with rfl | rfl | rfl
  · obtain ⟨c, ds, rfl⟩ := exists_cons_of_ne_nil hne
    have hc := hds c mem_cons_self
    refine ⟨takeWhile_cons_of_neg (by simp [isspace_of_digit hc]), if_neg ?_, hdigits,
      iff_of_false ?_ (by decide)⟩
    · rintro (h | h) <;> cases h <;> exact absurd hc (by decide)
    · rintro ⟨⟩
      exact absurd hc (by decide)
  · exact ⟨rfl, rfl, hdigits, iff_of_false (by rintro ⟨⟩) (by decide)⟩
  · exact ⟨rfl, rfl, hdigits, iff_of_true rfl rfl⟩

lemma dropWhile_eq_self (h : u.takeWhile isspace = []) : u.dropWhile isspace = u := by
  have := takeWhile_append_dropWhile (p := isspace) (l := u)
  rwa [h, nil_append] at this

lemma dropWhile_text (i : Item) (hrest : NoDigit rest) :
    (i.text ++ rest).dropWhile isspace = i.sign ++ (i.digits ++ rest) := by
  rw [Item.text, append_assoc, append_assoc, dropWhile_append_of_pos i.white_ok]
  exact dropWhile_eq_self (parts i.sign_ok i.digits_ok i.nonempty hrest).1

lemma Item.sign_lt (i : Item) : i.sign.length < UINT_MAX := by
  rcases i.sign_ok with h | h | h <;> rw [h] <;> decide

lemma Item.left (i : Item) :
    (i.sign ++ i.digits).drop UINT_MAX = i.digits.drop (UINT_MAX - i.sign.length) := by
  rw [drop_append, drop_of_length_le i.sign_lt.le, nil_append]

/-- **An item read**: what is more than `UINT_MAX` characters is left. -/
theorem number_text (i : Item) (hrest : NoDigit rest) : number (i.text ++ rest) =
    some (i.byte, (i.sign ++ i.digits).drop UINT_MAX ++ rest) := by
  have hsignlt := i.sign_lt
  have hfirst : ∀ c ∈ i.first, IsDigit 10 c := fun c hc => i.digits_ok c (mem_of_mem_take hc)
  have hne : i.sign ++ i.first ≠ [] := by
    intro h
    obtain ⟨hs, hd⟩ := append_eq_nil_iff.1 h
    have hnil := i.nonempty
    rw [Item.first, take_eq_nil_iff] at hd
    rw [hs, nil_append] at hnil
    exact hd.elim (by omega) hnil
  -- the window
  obtain ⟨rest', hrest', hw⟩ : ∃ rest', NoDigit rest' ∧
      (i.sign ++ (i.digits ++ rest)).take UINT_MAX = i.sign ++ (i.first ++ rest') := by
    refine ⟨rest.take (UINT_MAX - i.sign.length - i.digits.length),
      fun c hc => hrest c (mem_head?_of_take hc), ?_⟩
    rw [take_append, take_append, take_of_length_le hsignlt.le]
    rfl
  obtain ⟨hspaces, hsign, hdigits, hhead⟩ := parts i.sign_ok hfirst hne hrest'
  have hzero : spaces (i.sign ++ (i.first ++ rest')) = 0 := by rw [spaces, hspaces, length_nil]
  have hnum : numberDigits (i.sign ++ (i.first ++ rest')) = i.first := by
    simp only [numberDigits, hzero, drop_zero, hsign, drop_left, hdigits]
  have hlen : numberLength (i.sign ++ (i.first ++ rest')) = (i.sign ++ i.first).length := by
    simp only [numberLength, hnum, hzero, drop_zero, hsign, length_append, zero_add]
  have hminus : Minus (i.sign ++ (i.first ++ rest')) ↔ i.sign = [chr '-'] := by
    rw [Minus, hzero, drop_zero]
    exact hhead
  have hleft : (i.sign ++ (i.digits ++ rest)).drop (i.sign ++ i.first).length =
      (i.sign ++ i.digits).drop UINT_MAX ++ rest := by
    have hsplit : i.first ++ i.digits.drop (UINT_MAX - i.sign.length) = i.digits :=
      take_append_drop _ _
    rw [i.left]
    nth_rewrite 1 [← hsplit]
    rw [append_assoc, ← append_assoc i.sign, drop_left]
  rw [number, dropWhile_text i hrest]
  simp only [hw, hlen, hleft, Stdlib.Strtotimex.number, hminus, hnum]
  rw [if_neg (by simpa using hne)]
  rfl

/-- What is read begins with an item. -/
lemma exists_item (h : number u ≠ none) : ∃ (i : Item) (rest : List UInt8), NoDigit rest ∧
    u = i.text ++ rest := by
  have hwhite : ∀ c ∈ u.takeWhile isspace, isspace c = true := fun c hc => mem_takeWhile_imp hc
  have hu := takeWhile_append_dropWhile (p := isspace) (l := u)
  have hhead := head?_dropWhile_not isspace u
  rw [number] at h
  generalize u.takeWhile isspace = white at hwhite hu
  generalize u.dropWhile isspace = v at hu hhead h
  -- digits as far as they go, behind a sign or not
  have hitem {sign : List UInt8} (hsign : sign = [] ∨ sign = [chr '+'] ∨ sign = [chr '-'])
      (hv : v = sign ++ v.drop sign.length) (hne : sign ++ digits 10 (v.drop sign.length) ≠ []) :
      ∃ (i : Item) (rest : List UInt8), NoDigit rest ∧ u = i.text ++ rest := by
    generalize v.drop sign.length = w at hv hne
    refine ⟨⟨white, sign, digits 10 w, hwhite, hsign, fun _ => isDigit_of_mem_digits, hne⟩,
      w.dropWhile fun c => IsDigit 10 c, ?_, ?_⟩
    · intro c hc
      have := head?_dropWhile_not (fun c => decide (IsDigit 10 c)) w
      rw [hc] at this
      simpa using this
    · have := takeWhile_append_dropWhile (p := fun c => decide (IsDigit 10 c)) (l := w)
      rw [Item.text, append_assoc, append_assoc, ← hu, hv]
      exact congrArg _ (congrArg _ this.symm)
  cases v with
  | nil => exact absurd rfl h
  | cons c v =>
    by_cases hplus : c = chr '+'
    · exact hitem (.inr (.inl rfl)) (hplus ▸ rfl) (cons_ne_nil _ _)
    by_cases hminus : c = chr '-'
    · exact hitem (.inr (.inr rfl)) (hminus ▸ rfl) (cons_ne_nil _ _)
    by_cases hdigit : IsDigit 10 c
    · refine hitem (.inl rfl) rfl ?_
      rw [nil_append, length_nil, drop_zero, digits, takeWhile_cons_of_pos (by simpa using hdigit)]
      exact cons_ne_nil _ _
    · refine absurd (if_pos ?_) h
      have hspace : isspace c = false := by simpa using hhead
      have hsign : signLength (c :: v.take (2 ^ 32 - 2)) = 0 := if_neg (by
        rintro (h | h) <;> cases h <;> contradiction)
      have hzero : spaces (c :: v.take (2 ^ 32 - 2)) = 0 := by
        rw [spaces, takeWhile_cons_of_neg (by simp [hspace]), length_nil]
      show numberLength (c :: v.take (2 ^ 32 - 2)) = 0
      simp only [numberLength, numberDigits, hzero, drop_zero, hsign]
      rw [digits_eq_nil (by simpa using hdigit)]
      rfl

lemma noDigit_dot (u : List UInt8) : NoDigit (chr '.' :: u) := by
  rintro c ⟨⟩
  decide

/-- A text begins with one item at most. -/
lemma Item.unique {j : Item} {rest' : List UInt8} (hrest : NoDigit rest) (hrest' : NoDigit rest')
    (h : i.text ++ rest = j.text ++ rest') : i = j ∧ rest = rest' := by
  have hdrop := congrArg (dropWhile isspace) h
  rw [dropWhile_text i hrest, dropWhile_text j hrest'] at hdrop
  obtain ⟨-, hsi, hdi, -⟩ := parts i.sign_ok i.digits_ok i.nonempty hrest
  obtain ⟨-, hsj, hdj, -⟩ := parts j.sign_ok j.digits_ok j.nonempty hrest'
  rw [hdrop, hsj] at hsi
  obtain ⟨hsign, htail⟩ := append_inj hdrop hsi.symm
  rw [htail, hdj] at hdi
  rw [hdi] at htail
  have hwhite : i.white = j.white := by
    simp only [Item.text, append_assoc] at h
    rw [hdrop] at h
    exact append_cancel_right h
  refine ⟨?_, append_cancel_left htail⟩
  cases i
  cases j
  simp_all

instance (i : Item) : Decidable i.Long := inferInstanceAs (Decidable (_ < _))

lemma head?_left (i : Item) (rest : List UInt8) :
    ((i.sign ++ i.digits).drop UINT_MAX ++ rest).head? = some (chr '.') ↔
      ¬i.Long ∧ rest.head? = some (chr '.') := by
  by_cases hlong : i.Long
  · refine iff_of_false ?_ fun h => h.1 hlong
    rw [i.left]
    have hne : i.digits.drop (UINT_MAX - i.sign.length) ≠ [] := by
      have hsign := i.sign_lt
      rw [Item.Long, length_append] at hlong
      intro h
      have := drop_eq_nil_iff.1 h
      omega
    obtain ⟨c, ds, hcd⟩ := exists_cons_of_ne_nil hne
    have hc := i.digits_ok c (mem_of_mem_drop (hcd ▸ mem_cons_self))
    rw [hcd]
    rintro ⟨⟩
    exact absurd hc (by decide)
  · rw [drop_of_length_le (Nat.not_lt.1 hlong), nil_append]
    exact (and_iff_right hlong).symm

lemma numbers_text (k : ℕ) (i : Item) (hrest : NoDigit rest) : numbers (k + 2) (i.text ++ rest) =
    if ¬i.Long ∧ rest.head? = some (chr '.') then
      (numbers (k + 1) ((i.sign ++ i.digits).drop UINT_MAX ++ rest).tail).map (i.byte :: ·)
    else none := by
  rw [numbers, number_text i hrest]
  simp only [Option.bind_eq_bind, Option.bind_some, Nat.add_eq_zero_iff, one_ne_zero, and_false,
    if_false, head?_left]

lemma numbers_dot (k : ℕ) (i : Item) (u : List UInt8) :
    numbers (k + 2) (i.text ++ chr '.' :: u) =
      if i.Long then none else (numbers (k + 1) u).map (i.byte :: ·) := by
  rw [numbers_text k i (noDigit_dot u)]
  by_cases hlong : i.Long
  · rw [if_pos hlong, if_neg fun h => h.1 hlong]
  · rw [if_neg hlong, if_pos ⟨hlong, rfl⟩, drop_of_length_le (Nat.not_lt.1 hlong)]
    rfl

lemma numbers_last (i : Item) (hrest : NoDigit rest) :
    numbers 1 (i.text ++ rest) = some [i.byte] := by
  rw [numbers, number_text i hrest]
  rfl

lemma exists_dot {k : ℕ} (h : numbers (k + 2) u ≠ none) : ∃ (i : Item) (u' : List UInt8),
    u = i.text ++ chr '.' :: u' ∧ numbers (k + 1) u' ≠ none := by
  obtain ⟨i, rest, hrest, rfl⟩ := exists_item fun hnone => h (by rw [numbers, hnone]; rfl)
  by_cases hdot : rest.head? = some (chr '.')
  · obtain ⟨u', rfl⟩ : ∃ u', rest = chr '.' :: u' := ⟨_, (cons_head?_tail hdot).symm⟩
    refine ⟨i, u', rfl, fun hnone => h ?_⟩
    rw [numbers_dot, hnone]
    split_ifs <;> rfl
  · refine absurd ?_ h
    rw [numbers_text k i hrest, if_neg fun h => hdot h.2]

/-! ### Readings of a text -/

lemma numbers_reading (r : Reading) (rest : List UInt8) : numbers 4 (r.text ++ 0 :: rest) =
    if r.a.Long ∨ r.b.Long ∨ r.c.Long then none
    else some [r.a.byte, r.b.byte, r.c.byte, r.d.byte] := by
  have htail : NoDigit (r.tail ++ 0 :: rest) := by
    cases htail : r.tail with
    | nil =>
      rintro c ⟨⟩
      decide
    | cons c tail =>
      have := r.whole
      rwa [htail] at this
  simp only [Reading.text, append_assoc, cons_append]
  rw [numbers_dot, numbers_dot, numbers_dot, numbers_last _ htail]
  by_cases ha : r.a.Long <;> by_cases hb : r.b.Long <;> by_cases hc : r.c.Long <;>
    simp [ha, hb, hc]

lemma Item.zero_notMem (i : Item) : 0 ∉ i.text := by
  have hsign : 0 ∉ i.sign := by rcases i.sign_ok with h | h | h <;> rw [h] <;> decide
  simp only [Item.text, mem_append, not_or]
  exact ⟨fun h => absurd (i.white_ok 0 h) (by decide), hsign,
    fun h => absurd (i.digits_ok 0 h) (by decide)⟩

lemma string_append (h : 0 ∉ v) (u : List UInt8) : string (v ++ u) = v ++ string u :=
  takeWhile_append_of_pos fun c hc => by simpa using fun h0 : c = 0 => h (h0 ▸ hc)

lemma string_dot (i : Item) (u : List UInt8) :
    string (i.text ++ chr '.' :: u) = i.text ++ chr '.' :: string u :=
  string_append i.zero_notMem _

lemma noDigit_string (h : NoDigit u) : NoDigit (string u) := by
  cases u with
  | nil => exact h
  | cons c u =>
    by_cases hc : c = 0
    · subst hc
      rintro c ⟨⟩
    · rw [string, takeWhile_cons_of_pos (by simpa using hc)]
      exact h

lemma exists_reading (h : numbers 4 u ≠ none) : ∃ r : Reading, r.text = string u := by
  obtain ⟨a, u₁, rfl, h₁⟩ := exists_dot h
  obtain ⟨b, u₂, rfl, h₂⟩ := exists_dot h₁
  obtain ⟨c, u₃, rfl, h₃⟩ := exists_dot h₂
  rw [numbers] at h₃
  obtain ⟨d, tail, htail, rfl⟩ := exists_item fun hnone => h₃ (by rw [hnone]; rfl)
  refine ⟨⟨a, b, c, d, string tail, noDigit_string htail⟩, ?_⟩
  rw [string_dot, string_dot, string_dot, string_append d.zero_notMem]
  rfl

lemma Reading.unique {r r' : Reading} (h : r.text = r'.text) : r = r' := by
  obtain ⟨ha, h⟩ := Item.unique (noDigit_dot _) (noDigit_dot _) h
  obtain ⟨hb, h⟩ := Item.unique (noDigit_dot _) (noDigit_dot _) (cons.inj h).2
  obtain ⟨hc, h⟩ := Item.unique (noDigit_dot _) (noDigit_dot _) (cons.inj h).2
  obtain ⟨hd, h⟩ := Item.unique r.whole r'.whole (cons.inj h).2
  cases r
  cases r'
  simp_all

def Reading.values (r : Reading) : List UInt8 :=
  [r.a, r.b, r.c, r.d].map fun i => UInt8.ofNat (value 10 i.digits)

def plainItem {d : List UInt8} (h : Octet d) : Item where
  white := []
  sign := []
  digits := d
  white_ok := by simp
  sign_ok := .inl rfl
  digits_ok := h.2.1
  nonempty := h.1

lemma Item.Plain.octet (h : i.Plain) : i.text = i.digits ∧ Octet i.digits := by
  have hne := i.nonempty
  rw [h.2.1] at hne
  exact ⟨by rw [Item.text, h.1, h.2.1]; rfl, hne, i.digits_ok, h.2.2⟩

/-- A dotted quad is a plain reading. -/
lemma isQuad_iff : IsQuad u v ↔ ∃ r : Reading, r.text = u ∧ r.Plain ∧ v = r.values := by
  constructor
  · rintro ⟨a, b, c, d, white, ⟨ha, hb, hc, hd⟩, hwhite, rfl, rfl⟩
    have htail : NoDigit white := fun c hc hdigit => by
      have := hwhite c (mem_of_mem_head? hc)
      rw [isspace_of_digit hdigit] at this
      cases this
    exact ⟨⟨plainItem ha, plainItem hb, plainItem hc, plainItem hd, white, htail⟩, rfl,
      ⟨⟨rfl, rfl, ha.2.2⟩, ⟨rfl, rfl, hb.2.2⟩, ⟨rfl, rfl, hc.2.2⟩, ⟨rfl, rfl, hd.2.2⟩, hwhite⟩, rfl⟩
  · rintro ⟨r, rfl, ⟨ha, hb, hc, hd, hwhite⟩, rfl⟩
    refine ⟨_, _, _, _, r.tail, ⟨ha.octet.2, hb.octet.2, hc.octet.2, hd.octet.2⟩, hwhite, ?_, rfl⟩
    rw [Reading.text, ha.octet.1, hb.octet.1, hc.octet.1, hd.octet.1]

lemma byte_eq_iff (h : i.Plain) :
    i.byte = UInt8.ofNat (value 10 i.digits) ↔ (i.Long → value 10 i.digits = 0) := by
  obtain ⟨-, hsign, hle⟩ := h
  have hsplit := value_append_list 10 (i.digits.take UINT_MAX) (i.digits.drop UINT_MAX)
  rw [take_append_drop, length_drop] at hsplit
  have hlong : i.Long ↔ UINT_MAX < i.digits.length := by rw [Item.Long, hsign, nil_append]
  have hbyte : i.byte = UInt8.ofNat (value 10 (i.digits.take UINT_MAX)) := by
    rw [Item.byte, hsign, if_neg (by decide), Item.first, hsign, BitVec.ofInt_natCast]
    rfl
  rw [hbyte, hlong]
  by_cases hlt : UINT_MAX < i.digits.length
  · have hpow : 10 ^ 1 ≤ 10 ^ (i.digits.length - UINT_MAX) :=
      Nat.pow_le_pow_right (by decide) (by omega)
    have hmul := Nat.mul_le_mul_left (value 10 (i.digits.take UINT_MAX)) hpow
    rw [forall_prop_of_true hlt]
    constructor
    · intro h
      have hnat := congrArg UInt8.toNat h
      simp only [UInt8.toNat_ofNat'] at hnat
      omega
    · intro h
      rw [h, show value 10 (i.digits.take UINT_MAX) = 0 by omega]
  · rw [take_of_length_le (Nat.not_lt.1 hlt)]
    exact iff_of_true rfl fun h => absurd h hlt

/-- **The numbers read are those of a quad** iff the reading is right. -/
theorem right_iff (r : Reading) (rest : List UInt8) :
    (∀ b, numbers 4 (r.text ++ 0 :: rest) = some b ↔ IsQuad r.text b) ↔ r.Right := by
  have hquad (b : List UInt8) : IsQuad r.text b ↔ r.Plain ∧ b = r.values := by
    rw [isQuad_iff]
    constructor
    · rintro ⟨r', hr, h⟩
      rwa [Reading.unique hr] at h
    · exact fun h => ⟨r, rfl, h⟩
  simp only [numbers_reading, hquad]
  by_cases hlong : r.a.Long ∨ r.b.Long ∨ r.c.Long
  · simp only [if_pos hlong]
    constructor
    · intro h
      have hplain : ¬r.Plain := fun hp => by cases (h r.values).2 ⟨hp, rfl⟩
      exact ⟨fun hp => absurd hp hplain, fun _ => hlong⟩
    · rintro ⟨hright, -⟩ b
      refine iff_of_false (by rintro ⟨⟩) fun h => ?_
      obtain ⟨ha, hb, hc, -⟩ := hright h.1
      tauto
  · obtain ⟨ha, hb, hc⟩ := not_or.1 hlong |>.imp_right not_or.1
    have hbytes (hp : r.Plain) : [r.a.byte, r.b.byte, r.c.byte, r.d.byte] = r.values ↔
        (r.d.Long → value 10 r.d.digits = 0) := by
      obtain ⟨pa, pb, pc, pd, -⟩ := hp
      rw [← byte_eq_iff pd, (byte_eq_iff pa).2 fun h => absurd h ha,
        (byte_eq_iff pb).2 fun h => absurd h hb, (byte_eq_iff pc).2 fun h => absurd h hc]
      simp [Reading.values]
    simp only [if_neg hlong, Option.some.injEq]
    constructor
    · intro h
      obtain ⟨hp, hv⟩ := (h _).1 rfl
      exact ⟨fun _ => ⟨ha, hb, hc, (hbytes hp).1 hv⟩, fun hn => absurd hp hn⟩
    · rintro ⟨hright, hplain⟩ b
      have hp : r.Plain := by
        by_contra hn
        exact hlong (hplain hn)
      rw [(hbytes hp).2 (hright hp).2.2.2]
      exact ⟨fun h => ⟨hp, h.symm⟩, fun h => h.2.symm⟩

end

/-! ### The scanner -/

/-- `%hhu`. -/
def hhu : Directive where
  digits := []
  modifiers := [chr 'h', chr 'h']
  letter := chr 'u'
  digits_ok := digits_nil
  modifiers_ok := by decide +kernel
  letter_ok := by decide

/-- `k` directives, with dots between them. -/
def format : ℕ → List UInt8
  | 0 => []
  | k + 1 => hhu.text false ++ if k = 0 then [] else [chr '.'] ++ format k

variable {bits : ℕ} (buffer : List UInt8) {v : List UInt8} {s : Scan bits}

/-- What `sscanf` has stored for the first bytes. -/
def bytesStored (v : List UInt8) : List (ℕ × Stored bits) :=
  v.mapIdx fun i b => (i, .int (.char b.toBitVec))

/-- The scanner has read the numbers `v`. -/
structure Read (v : List UInt8) (s : Scan bits) : Prop where
  normal : s.state = .normal
  goesOn : s.bail = .none
  ap : s.ap = List.range' v.length (4 - v.length)
  stores : s.stores = bytesStored v
  converted : s.converted = v.length
  string : 0 ∈ s.q

def Stopped (s : Scan bits) : Prop := s.bail ≠ .none ∧ s.converted < 4

/-- **One directive** stores a byte, or the scanner stops. -/
theorem read_hhu (hv : v.length < 4) (h : Read v s) :
    ∃ t, loop buffer (hhu.text false) s = some t ∧ (number s.q = none → Stopped t) ∧
      ∀ b u, number s.q = some (b, u) → Read (v ++ [b]) t ∧ t.q = u := by
  obtain ⟨normal, goesOn, ap, stores, converted, string⟩ := h
  have hconvert : convert buffer hhu.letter (hhu.apply false s) =
      scanInt 10 (fun val => .int (.char (val.setWidth 8))) (hhu.ready false s) := rfl
  have hskip : skipspace (hhu.ready false s).q = some (s.q.dropWhile isspace) :=
    skipspace_eq string
  have hstring := (reads_dropWhile s.q).terminated string
  have hnum := strntoumax_ten (n := UINT_MAX) (Or.inr hstring)
  have hlt : s.converted < 4 := by omega
  rw [loop_letter _ _ normal goesOn, hconvert, number]
  simp only at hnum ⊢
  generalize s.q.dropWhile isspace = u at *
  obtain ⟨w, hw⟩ : ∃ w, u.take UINT_MAX = w := ⟨_, rfl⟩
  rw [hw] at hnum ⊢
  obtain ⟨c, q, rfl⟩ := exists_cons_of_ne_nil (ne_nil_of_mem hstring)
  by_cases hc : c = 0
  · refine ⟨_, scanInt_eof _ hskip hc, fun _ => ⟨by simp, hlt⟩, fun b u hnumber => ?_⟩
    have hzero : numberLength w = 0 := by
      rw [← hw, hc]
      rfl
    rw [if_pos hzero] at hnumber
    cases hnumber
  by_cases hstay : numberLength w = 0
  · rw [hstay, drop_zero] at hnum
    rw [if_pos hstay]
    refine ⟨_, scanInt_stays _ hskip hc hnum, fun _ => ⟨?_, hlt⟩, fun b u h => (by cases h)⟩
    exact Bail.noConfusion
  · have hmoved : (c :: q).drop (numberLength w) ≠ c :: q := by
      intro heq
      have hlen := congrArg List.length heq
      rw [length_drop, length_cons] at hlen
      omega
    have hap : s.ap = v.length :: List.range' (v.length + 1) (4 - (v.length + 1)) := by
      rw [ap, show 4 - v.length = 4 - (v.length + 1) + 1 by omega, range'_succ]
    have hready : (hhu.ready false s).splat = false := rfl
    rw [scanInt_moves _ hskip hc hnum hmoved,
      if_pos (show ¬(hhu.ready false s).splat = true by simp [hready]), if_neg hstay]
    refine ⟨_, setInteger_store (s := Scan.count { hhu.ready false s with q := _ }) rfl hap _ _,
      fun h => (by cases h), fun b u hnumber => ?_⟩
    obtain ⟨hb, rfl⟩ := Prod.mk.inj (Option.some.inj hnumber)
    have hbyte := setWidth_number (show 8 ≤ 64 by decide) w
    obtain ⟨val, q', hval, hreads⟩ := strntoumax_reads 10 UINT_MAX hstring
    cases hnum.symm.trans hval
    refine ⟨⟨rfl, goesOn, by simp [length_append], ?_, ?_, hreads.terminated hstring⟩, rfl⟩
    · change s.stores ++ _ = _
      rw [stores, bytesStored, bytesStored, mapIdx_append, mapIdx_singleton]
      simp [hbyte, ← hb]
    · change wrap 32 (s.converted + 1) = _
      rw [converted, length_append, length_singleton]
      generalize v.length = k at hv
      interval_cases k <;> rfl

lemma read_dot (h : Read v s) (hv : v.length < 4) :
    ∃ t, loop buffer [chr '.'] s = some t ∧ (s.q.head? ≠ some (chr '.') → Stopped t) ∧
      (s.q.head? = some (chr '.') → Read v t ∧ t.q = s.q.tail) := by
  obtain ⟨normal, goesOn, ap, stores, converted, string⟩ := h
  obtain ⟨c, q, hcq⟩ := exists_cons_of_ne_nil (ne_nil_of_mem string)
  have hstep : loop buffer [chr '.'] s = some (if s.q.head? = some (chr '.') then
      { s with q := s.q.tail } else { s with bail := .err }) := by
    rw [loop_singleton (by decide) goesOn, Stdio.Vsscanf.step]
    simp [normal, stepNormal, hcq, show isspace (chr '.') = false by decide,
      show chr '.' ≠ chr '%' by decide]
  refine ⟨_, hstep, fun hdot => ?_, fun hdot => ?_⟩
  · rw [if_neg hdot]
    refine ⟨by simp, ?_⟩
    change s.converted < 4
    omega
  · rw [if_pos hdot]
    refine ⟨⟨normal, goesOn, ap, stores, converted, ?_⟩, rfl⟩
    rw [hcq, head?_cons, Option.some.injEq] at hdot
    rw [hcq, hdot] at string
    simpa [hcq, show (0 : UInt8) ≠ chr '.' by decide] using string

/-- **The whole format.** -/
theorem read_format {k : ℕ} (h : Read v s) (hk : v.length + k = 4) :
    ∃ t, loop buffer (format k) s = some t ∧ (numbers k s.q = none → Stopped t) ∧
      ∀ bs, numbers k s.q = some bs → Read (v ++ bs) t ∧ bs.length = k := by
  induction k generalizing v s with
  | zero =>
    refine ⟨s, rfl, fun h => (by cases h), fun bs hbs => ?_⟩
    cases hbs
    exact ⟨by simpa using h, rfl⟩
  | succ k ih =>
    obtain ⟨t, ht, hstop, hread⟩ := read_hhu buffer (by omega) h
    rw [format, loop_append _ _ (zero_notMem_text _ _), ht, bind_eq_bind, bind_some, numbers]
    cases hnumber : number s.q with
    | none =>
      exact ⟨t, loop_bail (hstop hnumber).1 _, fun _ => hstop hnumber, fun _ h => (by cases h)⟩
    | some bu =>
      obtain ⟨b, u⟩ := bu
      obtain ⟨hread, rfl⟩ := hread b u hnumber
      have hlen : (v ++ [b]).length + k = 4 := by simp; omega
      simp only [bind_eq_bind, bind_some]
      by_cases h0 : k = 0
      · rw [if_pos h0, if_pos h0]
        refine ⟨t, rfl, fun h => (by cases h), fun bs hbs => ?_⟩
        cases hbs
        exact ⟨hread, congrArg (· + 1) h0.symm⟩
      · rw [if_neg h0, if_neg h0, loop_append _ _ (by decide)]
        obtain ⟨t', ht', hstop', hread'⟩ := read_dot buffer hread (by omega)
        rw [ht', bind_eq_bind, bind_some]
        by_cases hdot : t.q.head? = some (chr '.')
        · obtain ⟨hread, hq⟩ := hread' hdot
          obtain ⟨t'', ht'', hstop, hread⟩ := ih hread hlen
          rw [hq] at hstop hread
          refine ⟨t'', ht'', ?_, ?_⟩
          · rw [if_pos hdot, map_eq_none_iff]
            exact hstop
          · intro bs hbs
            rw [if_pos hdot] at hbs
            obtain ⟨bs', hbs', rfl⟩ := map_eq_some_iff.1 hbs
            obtain ⟨hread, hlen⟩ := hread bs' hbs'
            exact ⟨by simpa using hread, congrArg (· + 1) hlen⟩
        · refine ⟨t', loop_bail (hstop' hdot).1 _, fun _ => hstop' hdot, fun bs hbs => ?_⟩
          rw [if_neg hdot] at hbs
          cases hbs

lemma bytes_read (h : v.length = 4) : (List.range 4).mapM (byteAt (@bytesStored bits v)) =
    some v := by
  obtain ⟨a, b, c, d, rfl⟩ := length_eq_four.1 h
  rfl

/-- The address that is stored is what the scanner reads. -/
theorem inetAton_eq (arch : Arch) {str : List UInt8} (h : 0 ∈ str) (addr : List UInt8)
    (haddr : addr.length = 4) : inetAton arch str addr =
        some ((numbers 4 str).elim (0, addr) fun b => (1, b)) ∧
      ∀ b, numbers 4 str = some b → b.length = 4 := by
  have hinit : @Read arch.bits [] (Scan.init arch.bits str [0, 1, 2, 3]) :=
    ⟨rfl, rfl, rfl, rfl, rfl, h⟩
  obtain ⟨t, ht, hstop, hread⟩ := read_format (k := 4) str hinit rfl
  have hscan : vsscanf arch str scanFormat [0, 1, 2, 3] =
      some ⟨if t.bail = .eof ∧ t.converted = 0 then -1 else t.converted, t.stores⟩ := by
    rw [vsscanf, show scanFormat = format 4 from rfl, ht]
    rfl
  change (numbers 4 str = none → _) at hstop
  change (∀ bs, numbers 4 str = some bs → _) at hread
  refine ⟨?_, fun b hb => (hread b hb).2⟩
  rw [inetAton, hscan, bind_eq_bind, bind_some]
  cases hnum : numbers 4 str with
  | some b =>
    obtain ⟨⟨-, goesOn, -, stores, converted, -⟩, hlen⟩ := hread b hnum
    have hret : (if t.bail = .eof ∧ t.converted = 0 then -1 else t.converted) = 4 := by
      rw [goesOn, converted, nil_append, hlen]
      rfl
    simp only [hret, if_true, stores, nil_append, bytes_read hlen, bind_eq_bind, bind_some]
    have hwrite := overwrite_eq (l := addr) (t := b) (i := 0) (by omega)
    rw [Nat.cast_zero] at hwrite
    rw [hwrite, bind_some, drop_of_length_le (by omega)]
    simp
  | none =>
    obtain ⟨-, hlt⟩ := hstop hnum
    refine if_neg ?_
    change ¬(if _ then _ else _ : ℤ) = 4
    split <;> omega

/-! ### What is asked of it -/

structure Call where
  str : List UInt8
  addr : List UInt8
  terminated : 0 ∈ str
  size : addr.length = 4

/-- Dotted quads are accepted and stored, and nothing else is. -/
def Call.Strict (x : Call) (arch : Arch) : Prop :=
  (∀ b, IsQuad (string x.str) b → inetAton arch x.str x.addr = some (1, b)) ∧
    ((¬∃ b, IsQuad (string x.str) b) → inetAton arch x.str x.addr = some (0, x.addr))

lemma strict_iff (arch : Arch) (x : Call) :
    x.Strict arch ↔ ∀ b, numbers 4 x.str = some b ↔ IsQuad (string x.str) b := by
  rw [Call.Strict, (inetAton_eq arch x.terminated x.addr x.size).1]
  cases hread : numbers 4 x.str with
  | none =>
    constructor
    · rintro ⟨hquad, -⟩ b
      exact ⟨fun h => (by cases h), fun h => by cases hquad b h⟩
    · exact fun h => ⟨fun b hb => (by cases (h b).2 hb), fun _ => rfl⟩
  | some v =>
    constructor
    · rintro ⟨hquad, hother⟩ b
      have heq : ∀ b, IsQuad (string x.str) b → v = b := by
        intro b hb
        have h := hquad b hb
        simpa using h
      refine ⟨fun h => ?_, fun h => congrArg some (heq b h)⟩
      obtain rfl : v = b := Option.some.inj h
      by_contra hno
      have hnone : ¬∃ b, IsQuad (string x.str) b := fun ⟨b, hb⟩ => hno (heq b hb ▸ hb)
      cases hother hnone
    · intro h
      refine ⟨fun b hb => ?_, fun hno => absurd ⟨v, (h v).1 rfl⟩ hno⟩
      rw [elim_some, Option.some.inj ((h b).2 hb)]

/-- **`inet_aton` accepts exactly dotted quads** iff the four items that the string begins with, if
it does, are numbers from 0 to 255 without white space or a sign in front of them, and only white
space is behind them. -/
theorem inet_aton_iff (arch : Arch) (x : Call) :
    x.Strict arch ↔ ∀ r : Reading, r.text = string x.str → r.Right := by
  rw [strict_iff]
  obtain ⟨t, rest, hstr, h0⟩ := exists_string x.terminated
  rw [hstr, string_eq h0]
  constructor
  · rintro h r rfl
    exact (right_iff r rest).1 h
  · intro h b
    by_cases hr : ∃ r : Reading, r.text = t
    · obtain ⟨r, rfl⟩ := hr
      exact (right_iff r rest).2 (h r rfl) b
    · refine iff_of_false (fun hb => hr ?_) fun hb => hr ?_
      · have hread := exists_reading (u := t ++ 0 :: rest) (by rw [hb]; exact some_ne_none _)
        rwa [string_eq h0] at hread
      · obtain ⟨r, hr, -⟩ := isQuad_iff.1 hb
        exact ⟨r, hr⟩

/-- `-1.2.3.4`. -/
def negative : Call where
  str := [45, 49, 46, 50, 46, 51, 46, 52, 0]
  addr := [0, 0, 0, 0]
  terminated := by decide
  size := rfl

/-- It is taken for 255.2.3.4. -/
theorem inetAton_negative : inetAton arch64 negative.str negative.addr = some (1, [255, 2, 3, 4]) ∧
      ¬∃ b, IsQuad (string negative.str) b := by
  refine ⟨by decide +kernel, ?_⟩
  rintro ⟨v, a, b, c, d, white, ⟨⟨hne, hdigits, -⟩, -⟩, -, ht, -⟩
  obtain ⟨c, a, rfl⟩ := exists_cons_of_ne_nil hne
  obtain rfl : 45 = c := (List.cons.inj ht).1
  exact absurd (hdigits 45 mem_cons_self) (by decide)

end Klibc.Inet.InetAton
