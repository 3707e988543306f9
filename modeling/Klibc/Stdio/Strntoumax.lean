import Mathlib.Data.List.TakeWhile
import Mathlib.Data.Nat.Digits.Defs
import Klibc.Stdio.Vsscanf

/-! # `strntoumax` and the functions over it

`strntoumax` works on the first `n` characters, the *window*: how many of them are white space,
sign, prefix and digits says what it returns (`strntoumax_eq`), and no character behind the window
is read. -/

namespace Klibc.Stdio.Strntoumax

open Vsscanf
open Vsnprintf (chr)

/-! ### The functions over it -/

/-- `strtox.c`, with `TYPE` of `width` bits and `size_t` of `bits` bits. -/
def strtox (bits width : ℕ) (nptr : List UInt8) (base : ℤ) :
    Option (BitVec width × List UInt8) :=
  (strntoumax nptr base (2 ^ bits - 1)).map fun r => (r.1.setWidth width, r.2)

def strtol (bits : ℕ) (nptr : List UInt8) (base : ℤ) := strtox bits bits nptr base

def strtoul (bits : ℕ) (nptr : List UInt8) (base : ℤ) := strtox bits bits nptr base

def strtoimax (bits : ℕ) (nptr : List UInt8) (base : ℤ) := strtox bits 64 nptr base

/-- `atox.c`, with `TYPE` of `width` bits and `size_t` of `bits` bits. -/
def atox (bits width : ℕ) (nptr : List UInt8) : Option (BitVec width) :=
  (strntoumax nptr 10 (2 ^ bits - 1)).map fun r => r.1.setWidth width

def atoi (bits : ℕ) (nptr : List UInt8) := atox bits 32 nptr

/-! ### Digits -/

def lowerDigits : List UInt8 := "0123456789abcdefghijklmnopqrstuvwxyz".toList.map chr

def upperDigits : List UInt8 := "0123456789ABCDEFGHIJKLMNOPQRSTUVWXYZ".toList.map chr

def digit (c : UInt8) : Option ℕ := (lowerDigits.idxOf? c).or (upperDigits.idxOf? c)

def IsDigit (b : ℕ) (c : UInt8) : Prop := ∃ d, digit c = some d ∧ d < b

variable {c : UInt8} {b : ℕ}

lemma isDigit_iff : (digit c).any (· < b) = true ↔ IsDigit b c := by
  rw [IsDigit]
  cases digit c <;> simp

instance (b : ℕ) (c : UInt8) : Decidable (IsDigit b c) := decidable_of_iff _ isDigit_iff

def value (b : ℕ) (ds : List UInt8) : ℕ := Nat.ofDigits b (ds.map fun c => (digit c).getD 0).reverse

lemma forall_byte {P : UInt8 → Prop} (h : ∀ k < 256, P (UInt8.ofNat k)) (c : UInt8) : P c := by
  have hc := h c.toNat c.toNat_lt
  rwa [UInt8.ofNat_toNat] at hc

lemma digitval_eq (c : UInt8) : digitval c = ((digit c).map Int.ofNat).getD (-1) :=
  forall_byte (P := fun c => digitval c = ((digit c).map Int.ofNat).getD (-1))
    (by decide +kernel) c

lemma digitval_isspace (h : isspace c = true) : digitval c = -1 :=
  forall_byte (P := fun c => isspace c = true → digitval c = -1) (by decide +kernel) c h

lemma digit_ne_lead (h : digit c ≠ none) :
    isspace c = false ∧ c ≠ chr '-' ∧ c ≠ chr '+' := by
  have hval : digitval c ≠ -1 := by
    obtain ⟨d, hd⟩ := Option.ne_none_iff_exists'.1 h
    rw [digitval_eq, hd, Option.map_some, Option.getD_some, Int.ofNat_eq_natCast]
    omega
  refine ⟨?_, ?_, ?_⟩
  · by_contra hspace
    rw [Bool.not_eq_false] at hspace
    exact hval (digitval_isspace hspace)
  · rintro rfl
    exact hval (by decide)
  · rintro rfl
    exact hval (by decide)

lemma digitval_iff :
    (digitval c ≥ 0 ∧ digitval c < (b : ℤ)) ↔ IsDigit b c := by
  rw [digitval_eq, IsDigit]
  cases digit c with
  | none => simp
  | some d => simp

lemma value_nil (b : ℕ) : value b [] = 0 := rfl

lemma value_append (b : ℕ) (ds : List UInt8) (c : UInt8) :
    value b (ds ++ [c]) = value b ds * b + (digit c).getD 0 := by
  simp [value, Nat.ofDigits_cons]
  ring

/-! ### The window -/

/-- There are `n` characters, or the NUL comes first. -/
def Enough (mem : List UInt8) (n : ℕ) : Prop := n ≤ mem.length ∨ 0 ∈ mem

section
variable {mem : List UInt8} {n b : ℕ} {c : UInt8}

lemma not_enough_nil : ¬Enough [] (n + 1) := by simp [Enough]

lemma Enough.tail (h : Enough (c :: mem) (n + 1)) (hc : c ≠ 0) : Enough mem n := by
  obtain h | h := h
  · exact .inl (by simpa using h)
  · exact .inr ((List.mem_cons.1 h).resolve_left (Ne.symm hc))

lemma Enough.ne_nil (h : Enough mem n) (hn : n ≠ 0) : mem ≠ [] := by
  rintro rfl
  obtain ⟨m, rfl⟩ := Nat.exists_eq_succ_of_ne_zero hn
  exact not_enough_nil h

def spaces (w : List UInt8) : ℕ := (w.takeWhile isspace).length

def Signed (w : List UInt8) : Prop := w.head? = some (chr '-') ∨ w.head? = some (chr '+')

instance (w : List UInt8) : Decidable (Signed w) := inferInstanceAs (Decidable (_ ∨ _))

def signLength (w : List UInt8) : ℕ := if Signed w then 1 else 0

def HexPrefix (w : List UInt8) : Prop :=
  w.head? = some (chr '0') ∧ (w.tail.head? = some (chr 'x') ∨ w.tail.head? = some (chr 'X'))

instance (w : List UInt8) : Decidable (HexPrefix w) := inferInstanceAs (Decidable (_ ∧ _))

def radix (base : ℕ) (w : List UInt8) : ℕ × ℕ :=
  if base = 0 then
    if HexPrefix w then (16, 2) else if w.head? = some (chr '0') then (8, 1) else (10, 0)
  else if base = 16 then if HexPrefix w then (16, 2) else (16, 0)
  else (base, 0)

def digits (b : ℕ) (w : List UInt8) : List UInt8 := w.takeWhile fun c => IsDigit b c

/-- The number behind white space and sign, and where it ends. -/
def scan (base : ℕ) (w : List UInt8) : ℕ × ℕ :=
  let ds := digits (radix base w).1 (w.drop (radix base w).2)
  (value (radix base w).1 ds, (radix base w).2 + ds.length)

variable {w : List UInt8} {base k : ℕ}

lemma scan_eq (h : radix base w = (b, k)) :
    scan base w = (value b (digits b (w.drop k)), k + (digits b (w.drop k)).length) := by
  rw [scan, h]

lemma digits_eq_nil (h : ∀ c ∈ w.head?, ¬IsDigit b c) : digits b w = [] := by
  cases w with
  | nil => rfl
  | cons c w => exact List.takeWhile_cons_of_neg (by simpa using h c rfl)

lemma mem_head?_of_take {l : List UInt8} (h : c ∈ (l.take k).head?) : c ∈ l.head? := by
  cases l with
  | nil => simp at h
  | cons a l =>
    cases k with
    | zero => simp at h
    | succ k => exact h

lemma scan_zero_x {x : UInt8} (hbase : base = 0 ∨ base = 16)
    (hx : x = chr 'x' ∨ x = chr 'X') (rest : List UInt8) (k : ℕ) :
    scan base ((chr '0' :: x :: rest).take (k + 2)) =
      (value 16 (digits 16 (rest.take k)), 2 + (digits 16 (rest.take k)).length) := by
  have hhex : HexPrefix (chr '0' :: x :: rest.take k) := ⟨rfl, by simpa using hx⟩
  have hr : radix base (chr '0' :: x :: rest.take k) = (16, 2) := by
    rw [radix]
    rcases hbase with rfl | rfl <;> simp [hhex]
  exact scan_eq hr

lemma skipSpaces_eq : ∀ {mem : List UInt8} {n : ℕ}, Enough mem n →
    skipSpaces mem n = some (mem.drop (spaces (mem.take n)), n - spaces (mem.take n)) ∧
      Enough (mem.drop (spaces (mem.take n))) (n - spaces (mem.take n))
  | mem, 0, h => by simpa [skipSpaces, spaces] using h
  | [], n + 1, h => absurd h not_enough_nil
  | c :: mem, n + 1, h => by
    rw [skipSpaces, List.take_succ_cons, spaces]
    by_cases hc : isspace c = true
    · have hne : c ≠ 0 := by
        rintro rfl
        exact absurd hc (by decide)
      have ih := skipSpaces_eq (h.tail hne)
      rw [if_pos hc, List.takeWhile_cons_of_pos hc, List.length_cons, List.drop_succ_cons,
        Nat.add_sub_add_right]
      exact ih
    · rw [if_neg hc, List.takeWhile_cons_of_neg hc]
      exact ⟨rfl, h⟩

section
variable (h : Enough mem n)
include h

lemma takeSign_eq :
    takeSign mem n = some (decide ((mem.take n).head? = some (chr '-')),
      mem.drop (signLength (mem.take n)), n - signLength (mem.take n)) ∧
    Enough (mem.drop (signLength (mem.take n))) (n - signLength (mem.take n)) := by
  cases n with
  | zero => simpa [takeSign, signLength, Signed] using h
  | succ n =>
    obtain ⟨c, rest, rfl⟩ := List.exists_cons_of_ne_nil (h.ne_nil (by simp))
    have hhead : ((c :: rest).take (n + 1)).head? = some c := rfl
    have hsigned : Signed ((c :: rest).take (n + 1)) ↔ c = chr '-' ∨ c = chr '+' := by simp [Signed]
    rw [takeSign, if_pos (by simp), List.head?_cons, hhead, Option.bind_eq_bind,
      Option.bind_some, signLength]
    by_cases hc : c = chr '-' ∨ c = chr '+'
    · have hne : c ≠ 0 := by rcases hc with rfl | rfl <;> decide
      rw [if_pos hc, if_pos (hsigned.2 hc)]
      exact ⟨by simp, h.tail hne⟩
    · rw [if_neg hc, if_neg fun hs => hc (hsigned.1 hs)]
      have hminus : c ≠ chr '-' := fun h => hc (.inl h)
      exact ⟨by simp [hminus], h⟩

lemma hexPrefixed_eq :
    hexPrefixed mem n = some (decide (HexPrefix (mem.take n))) := by
  obtain rfl | rfl | ⟨n, rfl⟩ : n = 0 ∨ n = 1 ∨ ∃ m, n = m + 2 := by
    rcases n with _ | _ | n <;> simp
  · simp [hexPrefixed, HexPrefix]
  · cases mem <;> simp [hexPrefixed, HexPrefix]
  · obtain ⟨c, rest, rfl⟩ := List.exists_cons_of_ne_nil (h.ne_nil (by simp))
    by_cases hc : c = chr '0'
    · obtain ⟨c', rest, rfl⟩ :=
        List.exists_cons_of_ne_nil ((h.tail (by simp [hc, chr])).ne_nil (by simp))
      simp [hexPrefixed, HexPrefix, hc]
    · simp [hexPrefixed, HexPrefix, hc]

lemma zeroPrefixed_eq :
    zeroPrefixed mem n = some (decide ((mem.take n).head? = some (chr '0'))) := by
  cases n with
  | zero => simp [zeroPrefixed]
  | succ n =>
    obtain ⟨c, rest, rfl⟩ := List.exists_cons_of_ne_nil (h.ne_nil (by simp))
    simp [zeroPrefixed, beq_eq_decide]

lemma Enough.drop_one (hc : (mem.take n).head? = some c) (h0 : c ≠ 0) :
    Enough (mem.drop 1) (n - 1) := by
  cases n with
  | zero => simp at hc
  | succ n =>
    obtain ⟨a, rest, rfl⟩ := List.exists_cons_of_ne_nil (h.ne_nil (by simp))
    obtain rfl : a = c := by simpa using hc
    exact h.tail h0

lemma Enough.drop_two (hx : HexPrefix (mem.take n)) :
    Enough (mem.drop 2) (n - 2) := by
  have h1 := h.drop_one hx.1 (by simp [chr])
  obtain ⟨c, hc, h0⟩ : ∃ c, (mem.take n).tail.head? = some c ∧ c ≠ 0 := by
    rcases hx.2 with h | h
    · exact ⟨_, h, by simp [chr]⟩
    · exact ⟨_, h, by simp [chr]⟩
  have htail : (mem.take n).tail = (mem.drop 1).take (n - 1) := by cases mem <;> cases n <;> simp
  rw [htail] at hc
  simpa [Nat.sub_sub] using h1.drop_one hc h0

end

variable (base : ℕ)

lemma takeBase_eq (h : Enough mem n) :
    takeBase mem base n = some (((radix base (mem.take n)).1 : ℤ),
      mem.drop (radix base (mem.take n)).2, n - (radix base (mem.take n)).2) ∧
    Enough (mem.drop (radix base (mem.take n)).2) (n - (radix base (mem.take n)).2) := by
  have hzero : ((base : ℤ) = 0) ↔ base = 0 := by omega
  have hhex : ((base : ℤ) = 16) ↔ base = 16 := by omega
  rw [takeBase, hexPrefixed_eq h, zeroPrefixed_eq h, radix]
  simp only [hzero, hhex, Option.bind_eq_bind, Option.bind_some, decide_eq_true_eq]
  split_ifs with h0 hx hz h16 hx
  · exact ⟨rfl, h.drop_two hx⟩
  · exact ⟨by simp, h.drop_one hz (by simp [chr])⟩
  · exact ⟨by simp, h⟩
  · exact ⟨rfl, h.drop_two hx⟩
  · exact ⟨by simp, h⟩
  · exact ⟨by simp, h⟩

lemma takeDigits_eq : ∀ {mem : List UInt8} {n : ℕ} (before : List UInt8), Enough mem n →
    takeDigits b mem n (BitVec.ofNat 64 (value b before)) =
      some (BitVec.ofNat 64 (value b (before ++ digits b (mem.take n))),
        mem.drop (digits b (mem.take n)).length)
  | mem, 0, before, h => by simp [takeDigits, digits]
  | [], n + 1, before, h => absurd h not_enough_nil
  | c :: mem, n + 1, before, h => by
    rw [takeDigits, List.take_succ_cons, digits]
    by_cases hc : IsDigit b c
    · have hd := digitval_iff.2 hc
      have hne : c ≠ 0 := by
        rintro rfl
        exact absurd hd.1 (by decide)
      have hv : BitVec.ofNat 64 (value b before) * BitVec.ofInt 64 b +
          BitVec.ofInt 64 (digitval c) = BitVec.ofNat 64 (value b (before ++ [c])) := by
        obtain ⟨d, hcd, -⟩ := hc
        have hval : digitval c = (d : ℤ) := by
          rw [digitval_eq, hcd]
          rfl
        rw [hval, BitVec.ofInt_natCast, BitVec.ofInt_natCast, ← BitVec.ofNat_mul,
          ← BitVec.ofNat_add, value_append, hcd]
        rfl
      rw [if_pos hd, hv, takeDigits_eq (before ++ [c]) (h.tail hne),
        List.takeWhile_cons_of_pos (by simpa using hc), List.append_assoc]
      rfl
    · rw [if_neg fun h => hc (digitval_iff.1 h), List.takeWhile_cons_of_neg (by simpa using hc)]
      simp

lemma take_sub_drop (k : ℕ) : (mem.drop k).take (n - k) = (mem.take n).drop k := by
  rw [List.drop_take]

/-- **What `strntoumax` returns**, from its window. -/
theorem strntoumax_eq (h : Enough mem n) :
    let w := mem.take n
    let w1 := w.drop (spaces w)
    let w2 := w1.drop (signLength w1)
    let v := BitVec.ofNat 64 (scan base w2).1
    strntoumax mem base n = some (if w1.head? = some (chr '-') then -v else v,
      mem.drop (spaces w + signLength w1 + (scan base w2).2)) := by
  intro w w1 w2 v
  obtain ⟨h₁, e1⟩ := skipSpaces_eq h
  obtain ⟨h₂, e2⟩ := takeSign_eq e1
  rw [take_sub_drop] at h₂ e2
  have hw2 : ((mem.drop (spaces w)).drop (signLength w1)).take
      (n - spaces w - signLength w1) = w2 := by
    rw [take_sub_drop, take_sub_drop]
  obtain ⟨h3, e3⟩ := takeBase_eq base e2
  rw [hw2] at h3 e3
  have h4 := takeDigits_eq (b := (radix base w2).1) [] e3
  rw [take_sub_drop, hw2, value_nil] at h4
  simp only [strntoumax, h₁, h₂, h3, Option.bind_eq_bind, Option.bind_some]
  rw [show (0 : BitVec 64) = BitVec.ofNat 64 0 from rfl, h4]
  simp only [Option.bind_some, List.drop_drop, List.nil_append, decide_eq_true_eq]
  rw [Nat.add_assoc]
  rfl

/-- There are `k` characters, and none of them is NUL. -/
def Passes (w : List UInt8) (k : ℕ) : Prop := k ≤ w.length ∧ 0 ∉ w.take k

section
variable {w : List UInt8} {c : UInt8} {j k : ℕ}

lemma passes_zero (w : List UInt8) : Passes w 0 := ⟨Nat.zero_le _, List.not_mem_nil⟩

lemma Passes.add (h : Passes w j) (h' : Passes (w.drop j) k) : Passes w (j + k) := by
  have hlen := h'.1
  rw [List.length_drop] at hlen
  refine ⟨by have := h.1; omega, ?_⟩
  rw [List.take_add, List.mem_append, not_or]
  exact ⟨h.2, h'.2⟩

lemma passes_head (h : w.head? = some c) (hc : c ≠ 0) : Passes w 1 := by
  obtain ⟨w, rfl⟩ := List.head?_eq_some_iff.1 h
  exact ⟨Nat.le_add_left 1 _, by simpa using hc.symm⟩

lemma passes_takeWhile {p : UInt8 → Bool} (h0 : p 0 = false) : Passes w (w.takeWhile p).length := by
  refine ⟨(List.takeWhile_prefix p).length_le, fun h => ?_⟩
  rw [← List.prefix_iff_eq_take.1 (List.takeWhile_prefix p)] at h
  exact absurd (List.mem_takeWhile_imp h) (by simp [h0])

lemma passes_signLength (w : List UInt8) : Passes w (signLength w) := by
  rw [signLength]
  split_ifs with h
  · exact h.elim (passes_head · (by decide)) (passes_head · (by decide))
  · exact passes_zero w

lemma passes_radix (w : List UInt8) : Passes w (radix base w).2 := by
  have hhex (h : HexPrefix w) : Passes w 2 := by
    refine (passes_head h.1 (by decide)).add (k := 1) ?_
    rw [List.drop_one]
    exact h.2.elim (passes_head · (by decide)) (passes_head · (by decide))
  rw [radix]
  split_ifs with _ hx hz _ hx
  · exact hhex hx
  · exact passes_head hz (by decide)
  · exact passes_zero w
  · exact hhex hx
  · exact passes_zero w
  · exact passes_zero w

end

/-- **Where the number ends**: in the window, and before a NUL. -/
theorem passes_number (w : List UInt8) :
    let w1 := w.drop (spaces w)
    let w2 := w1.drop (signLength w1)
    Passes w (spaces w + signLength w1 + (scan base w2).2) := by
  intro w1 w2
  have hspaces : Passes w (spaces w) := passes_takeWhile rfl
  refine (hspaces.add (passes_signLength w1)).add ?_
  rw [← List.drop_drop]
  have hdigit (b : ℕ) : decide (IsDigit b 0) = false := by
    simp [IsDigit, show digit 0 = none by decide]
  exact (passes_radix base w2).add (passes_takeWhile (hdigit _))

/-- **Nothing behind the window is read**: with the window alone the value is the same, and
`*endptr` the same place. -/
theorem strntoumax_window (h : Enough mem n) :
    ∃ v r, strntoumax (mem.take n) base n = some (v, r) ∧
      strntoumax mem base n = some (v, r ++ mem.drop n) := by
  have htake : (mem.take n).take n = mem.take n := by rw [List.take_take, min_self]
  have hw : Enough (mem.take n) n := by
    by_cases hn : n ≤ mem.length
    · exact .inl (by rw [List.length_take]; omega)
    · rw [List.take_of_length_le (by omega)]
      exact h
  have hle := (passes_number base (mem.take n)).1
  have hwin := strntoumax_eq base hw
  have hmem := strntoumax_eq base h
  rw [htake] at hwin
  refine ⟨_, _, hwin, ?_⟩
  rw [hmem, ← List.drop_append_of_le_length hle, List.take_append_drop]

end

/-! ### White space and sign -/

section
variable {white sign body : List UInt8} {n : ℕ}

def IsSign (sign : List UInt8) : Prop := sign = [] ∨ sign = [chr '+'] ∨ sign = [chr '-']

/-- The number begins with neither white space nor a sign. -/
def Bare (body : List UInt8) : Prop :=
  ∀ c ∈ body.head?, isspace c = false ∧ c ≠ chr '-' ∧ c ≠ chr '+'

lemma Bare.take (h : Bare body) (n : ℕ) : Bare (body.take n) := by
  intro c hc
  exact h c (mem_head?_of_take hc)

lemma Bare.not_signed (h : Bare body) : ¬Signed body := by
  rintro (h' | h')
  · exact (h _ h').2.1 rfl
  · exact (h _ h').2.2 rfl

lemma Bare.spaces_eq (h : Bare body) : spaces body = 0 := by
  cases body with
  | nil => rfl
  | cons c body =>
    have hc := (h c rfl).1
    rw [spaces, List.takeWhile_cons_of_neg (by simp [hc])]
    rfl

lemma window_lead (hwhite : ∀ c ∈ white, isspace c = true) (hsign : IsSign sign)
    (hbody : Bare body) (hn : white.length + sign.length ≤ n) :
    let w := (white ++ (sign ++ body)).take n
    let w1 := w.drop (spaces w)
    spaces w = white.length ∧ signLength w1 = sign.length ∧
      (w1.head? = some (chr '-') ↔ sign = [chr '-']) ∧
      w1.drop (signLength w1) = body.take (n - white.length - sign.length) := by
  intro w w1
  have hb := hbody.take (n - white.length - sign.length)
  set rest := body.take (n - white.length - sign.length)
  have hw : w = white ++ (sign ++ rest) := by
    have h1 : white.take n = white := List.take_of_length_le (by omega)
    have h2 : sign.take (n - white.length) = sign := List.take_of_length_le (by omega)
    rw [show w = (white ++ (sign ++ body)).take n from rfl, List.take_append, List.take_append,
      h1, h2]
  have hspaces : spaces (sign ++ rest) = 0 := by
    rcases hsign with rfl | rfl | rfl
    · exact hb.spaces_eq
    · rfl
    · rfl
  have hs : spaces w = white.length := by
    rw [spaces, List.length_eq_zero_iff] at hspaces
    rw [hw, spaces, List.takeWhile_append_of_pos hwhite, hspaces, List.append_nil]
  have hw1 : w1 = sign ++ rest := by
    rw [show w1 = w.drop (spaces w) from rfl, hs, hw, List.drop_left]
  rw [hs, hw1]
  refine ⟨rfl, ?_⟩
  rcases hsign with rfl | rfl | rfl
  · have hminus : rest.head? ≠ some (chr '-') := fun h => (hb _ h).2.1 rfl
    rw [List.nil_append, signLength, if_neg hb.not_signed]
    exact ⟨rfl, by simp [hminus], rfl⟩
  · exact ⟨rfl, by simp [chr], rfl⟩
  · exact ⟨rfl, by simp, rfl⟩

/-- **What `strntoumax` returns** behind white space and sign. -/
theorem strntoumax_body (base : ℕ) (hwhite : ∀ c ∈ white, isspace c = true) (hsign : IsSign sign)
    (hbody : Bare body) (hn : white.length + sign.length ≤ n)
    (h : Enough (white ++ (sign ++ body)) n) :
    let r := scan base (body.take (n - white.length - sign.length))
    let v := BitVec.ofNat 64 r.1
    strntoumax (white ++ (sign ++ body)) base n = some (if sign = [chr '-'] then -v else v,
      (white ++ (sign ++ body)).drop (white.length + sign.length + r.2)) := by
  obtain ⟨hspaces, hlength, hminus, hw⟩ := window_lead hwhite hsign hbody hn
  have heq := strntoumax_eq base h
  simp only [hspaces] at hlength hminus hw heq
  simp only [hlength] at hw heq
  simp only [hw, hminus] at heq
  exact heq

end

end Klibc.Stdio.Strntoumax
