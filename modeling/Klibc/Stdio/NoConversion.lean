import Klibc.Stdio.ScanLoop

/-! # Strings without a number

Where there is no digit `strntoumax` returns 0, and `*endptr` is behind the white space and the
sign, not at the start of the string (`strntoumax_noNumber`). So `vsscanf`, which takes a conversion
for a match if `*endptr` has moved, counts a lone sign as an integer. -/

namespace Klibc.Stdio.NoConversion

open Lib.Machine Vsscanf ScanLoop Strntoumax List
open Vsnprintf (chr arch64)

/-- White space, a sign and a digit; in base 0 a decimal one, whatever base it is the prefix of. -/
def BeginsNumber (base : ℕ) (w : List UInt8) : Prop :=
  ∃ white sign d rest, w = white ++ (sign ++ d :: rest) ∧ (∀ c ∈ white, isspace c = true) ∧
    IsSign sign ∧ IsDigit (if base = 0 then 10 else base) d

section
variable {base n : ℕ} {w mem : List UInt8}

lemma window_eq (w : List UInt8) :
    let w1 := w.drop (spaces w)
    ∃ white sign, w = white ++ (sign ++ w1.drop (signLength w1)) ∧
      (∀ c ∈ white, isspace c = true) ∧ IsSign sign := by
  intro w1
  have hwhite : w = w.takeWhile isspace ++ w1 := by
    rw [show w1 = w.drop (w.takeWhile isspace).length from rfl]
    exact (prefix_iff_eq_append.1 (List.takeWhile_prefix _)).symm
  obtain ⟨sign, hsign, hw1⟩ : ∃ sign, IsSign sign ∧ w1 = sign ++ w1.drop (signLength w1) := by
    rw [signLength]
    split
    · next h =>
      obtain h | h := h
      · obtain ⟨w', hw'⟩ := head?_eq_some_iff.1 h
        exact ⟨[chr '-'], .inr (.inr rfl), by rw [hw']; rfl⟩
      · obtain ⟨w', hw'⟩ := head?_eq_some_iff.1 h
        exact ⟨[chr '+'], .inr (.inl rfl), by rw [hw']; rfl⟩
    · exact ⟨[], .inl rfl, rfl⟩
  exact ⟨_, sign, by rw [← hw1]; exact hwhite, fun c hc => mem_takeWhile_imp hc, hsign⟩

lemma scan_noDigit
    (h : ∀ c ∈ w.head?, ¬IsDigit (if base = 0 then 10 else base) c) : scan base w = (0, 0) := by
  have hzero : w.head? ≠ some (chr '0') := by
    intro h0
    refine h _ h0 ⟨0, by decide, ?_⟩
    split <;> omega
  have hr : radix base w = (if base = 0 then 10 else base, 0) := by
    have hhex : ¬HexPrefix w := fun hx => hzero hx.1
    rw [radix, if_neg hhex, if_neg hhex, if_neg hzero]
    split_ifs <;> simp_all
  rw [scan_eq hr, drop_zero, digits_eq_nil h]
  rfl

/-- **A string without a number**: the result is 0, and `*endptr` is behind white space and
sign. -/
theorem strntoumax_noNumber (h : Enough mem n) (hno : ¬BeginsNumber base (mem.take n)) :
    let w := mem.take n
    strntoumax mem base n =
      some (0, mem.drop (spaces w + signLength (w.drop (spaces w)))) := by
  intro w
  obtain ⟨white, sign, hw, hwhite, hsign⟩ := window_eq w
  have hscan : scan base ((w.drop (spaces w)).drop (signLength (w.drop (spaces w)))) = (0, 0) := by
    refine scan_noDigit fun c hc hdigit => hno ?_
    obtain ⟨rest, hrest⟩ := head?_eq_some_iff.1 hc
    exact ⟨white, sign, c, rest, by rw [← hrest]; exact hw, hwhite, hsign, hdigit⟩
  rw [strntoumax_eq base h, hscan]
  simp
  rfl

lemma lead_eq_zero_iff (w : List UInt8) :
    spaces w + signLength (w.drop (spaces w)) = 0 ↔ Bare w := by
  constructor
  · intro h
    have hspaces : spaces w = 0 := by omega
    have hsign : ¬Signed w := by
      intro hs
      rw [hspaces, drop_zero, signLength, if_pos hs] at h
      omega
    intro c hc
    refine ⟨?_, fun h => hsign (.inl (h ▸ hc)), fun h => hsign (.inr (h ▸ hc))⟩
    obtain ⟨w', rfl⟩ := head?_eq_some_iff.1 hc
    by_contra hspace
    rw [spaces, takeWhile_cons_of_pos (by simpa using hspace)] at hspaces
    simp at hspaces
  · intro h
    rw [h.spaces_eq, drop_zero, signLength, if_neg h.not_signed]

/-- **The position is restored** exactly where there was nothing to restore. -/
theorem noNumber_iff (h : Enough mem n) (hno : ¬BeginsNumber base (mem.take n)) :
    strntoumax mem base n = some (0, mem) ↔ Bare (mem.take n) := by
  have hle := (passes_number base (mem.take n)).1
  have hlen : (mem.take n).length ≤ mem.length := by simp
  rw [strntoumax_noNumber h hno, ← lead_eq_zero_iff]
  constructor
  · intro heq
    have hdrop := congrArg List.length (congrArg Prod.snd (Option.some.inj heq))
    simp only [length_drop] at hdrop
    omega
  · intro h0
    rw [h0, drop_zero]

lemma not_beginsNumber (h : ∀ c ∈ w, ¬IsDigit (if base = 0 then 10 else base) c) :
    ¬BeginsNumber base w := by
  rintro ⟨white, sign, d, rest, rfl, -, -, hd⟩
  exact h d (by simp) hd

end

/-! ### A prefix without digits -/

/-- **A prefix without digits**: `*endptr` is at the `x` exactly if the window ends there. -/
theorem prefix_iff {base n : ℕ} {white sign rest : List UInt8} {x : UInt8}
    (hbase : base = 0 ∨ base = 16) (hwhite : ∀ c ∈ white, isspace c = true) (hsign : IsSign sign)
    (hx : x = chr 'x' ∨ x = chr 'X') (hterminated : 0 ∈ rest) (hn : white.length + sign.length < n)
    (hno : white.length + sign.length + 2 < n → ∀ c ∈ rest.head?, ¬IsDigit 16 c) :
    let mem := white ++ (sign ++ chr '0' :: x :: rest)
    strntoumax mem base n = some (0, mem.drop (white.length + sign.length + 1)) ↔
      n = white.length + sign.length + 1 := by
  intro mem
  have hbare : Bare (chr '0' :: x :: rest) := by
    intro c hc
    obtain rfl : chr '0' = c := by simpa using hc
    decide
  have henough : Enough mem n := .inr (by simp [mem, hterminated])
  have hlen : white.length + sign.length + 2 ≤ mem.length := by
    simp [mem]
    omega
  rw [strntoumax_body base hwhite hsign hbare hn.le henough]
  by_cases hend : n = white.length + sign.length + 1
  · have hscan : scan base ((chr '0' :: x :: rest).take (n - white.length - sign.length)) =
        (0, 1) := by
      rw [show n - white.length - sign.length = 0 + 1 by omega, take_succ_cons,
        take_zero]
      rcases hbase with rfl | rfl <;> decide
    rw [hscan]
    simp [hend, mem]
  · obtain ⟨k, hk⟩ : ∃ k, n - white.length - sign.length = k + 2 :=
      ⟨n - white.length - sign.length - 2, by omega⟩
    have hnone : digits 16 (rest.take k) = [] := by
      cases k with
      | zero => rfl
      | succ k => exact digits_eq_nil fun c hc => hno (by omega) c (mem_head?_of_take hc)
    rw [hk, scan_zero_x hbase hx, hnone]
    refine iff_of_false (fun heq => ?_) hend
    have hdrop := congrArg List.length (congrArg Prod.snd (Option.some.inj heq))
    simp only [length_drop, length_nil] at hdrop
    have hmem : (white ++ (sign ++ chr '0' :: x :: rest)).length = mem.length := rfl
    omega

/-! ### `vsscanf` -/

section
variable {bits : ℕ} {s : Scan bits}

def intBase (ch : UInt8) : Option ℕ :=
  if ch = chr 'P' ∨ ch = chr 'p' ∨ ch = chr 'i' then some 0
  else if ch = chr 'd' ∨ ch = chr 'u' then some 10
  else if ch = chr 'o' then some 8
  else if ch = chr 'x' ∨ ch = chr 'X' then some 16
  else none

lemma wrap_succ_ne (x : ℤ) : wrap 32 (x + 1) ≠ x := by
  simp only [wrap, Int.bmod]
  omega

lemma counted_iff (q : List UInt8) (conv : BitVec 64 → Stored bits) (val : BitVec 64)
    (harg : s.splat = true ∨ s.ap ≠ []) :
    ∃ s', setInteger conv val
        (if ¬s.splat then Scan.count { s with q := q } else { s with q := q }) = some s' ∧
      (s'.converted = s.converted ↔ s.splat = true) := by
  by_cases hsplat : s.splat = true
  · rw [if_neg (not_not.2 hsplat)]
    exact ⟨_, setInteger_splat (s := { s with q := q }) hsplat conv val, iff_of_true rfl hsplat⟩
  · obtain ⟨p, ap, hap⟩ := exists_cons_of_ne_nil (harg.resolve_left hsplat)
    rw [if_pos hsplat]
    exact ⟨_, setInteger_store (s := Scan.count { s with q := q }) (Bool.eq_false_iff.2 hsplat) hap
      conv val, iff_of_false (wrap_succ_ne s.converted) hsplat⟩

/-- **`scan_int` without a digit**: the conversion is counted exactly if there is a sign. -/
theorem scanInt_noNumber {base : ℕ} (conv : BitVec 64 → Stored bits) (hq : 0 ∈ s.q)
    (hno : ¬BeginsNumber base ((s.q.dropWhile isspace).take s.width))
    (harg : s.splat = true ∨ s.ap ≠ []) :
    ∃ s', scanInt base conv s = some s' ∧ (s'.converted = s.converted ↔
      s.splat = true ∨ ¬Signed ((s.q.dropWhile isspace).take s.width)) := by
  have hskip := skipspace_eq hq
  have hterminated := (reads_dropWhile s.q).terminated hq
  have hspace : ∀ c ∈ (s.q.dropWhile isspace).head?, isspace c = false := by
    intro c hc
    have h := head?_dropWhile_not isspace s.q
    rw [hc] at h
    simpa using h
  generalize s.q.dropWhile isspace = q at *
  obtain ⟨c, t, rfl⟩ := exists_cons_of_ne_nil (ne_nil_of_mem hterminated)
  have hspaces : spaces ((c :: t).take s.width) = 0 := by
    rw [spaces]
    cases s.width with
    | zero => rfl
    | succ k =>
      rw [take_succ_cons, takeWhile_cons_of_neg (by simp [hspace c rfl])]
      rfl
  by_cases hc : c = 0
  · refine ⟨_, scanInt_eof conv hskip hc, iff_of_true rfl (.inr ?_)⟩
    rintro (h | h) <;> simpa [hc, chr] using mem_head?_of_take h
  have hnum := strntoumax_noNumber (.inr hterminated) hno
  simp only [hspaces, drop_zero, Nat.zero_add] at hnum
  by_cases hs : Signed ((c :: t).take s.width)
  · -- The sign is left behind, and this is taken for a match.
    have hmoved : (c :: t).drop 1 ≠ c :: t := fun h => by simpa using congrArg List.length h
    rw [signLength, if_pos hs] at hnum
    rw [scanInt_moves conv hskip hc hnum hmoved]
    simpa [hs] using counted_iff t conv 0 harg
  · rw [signLength, if_neg hs, drop_zero] at hnum
    exact ⟨_, scanInt_stays conv hskip hc hnum, iff_of_true rfl (.inr hs)⟩

lemma convert_int {ch : UInt8} {base : ℕ} (hch : intBase ch = some base)
    (buffer : List UInt8) (s : Scan bits) :
    ∃ conv, convert buffer ch s = scanInt base conv { s with state := .normal } := by
  rw [intBase] at hch
  rw [convert]
  split_ifs at hch with h1 h2 h3 h4 <;> obtain rfl := Option.some.inj hch
  · rcases h1 with rfl | rfl | rfl
    · exact ⟨_, rfl⟩
    · exact ⟨_, rfl⟩
    · exact ⟨_, rfl⟩
  · rcases h2 with rfl | rfl
    · exact ⟨_, rfl⟩
    · exact ⟨_, rfl⟩
  · subst h3
    exact ⟨_, rfl⟩
  · rcases h4 with rfl | rfl
    · exact ⟨_, rfl⟩
    · exact ⟨_, rfl⟩

end

/-- **Without a digit**: when the position is restored, when `*endptr` is at the `x` of a prefix
without digits, and when `vsscanf` counts nothing. -/
theorem no_conversion_iff (bits : ℕ) :
    (∀ (mem : List UInt8) (base n : ℕ), 0 ∈ mem → (base = 0 ∨ 2 ≤ base ∧ base ≤ 36) →
      ¬BeginsNumber base (mem.take n) →
      (strntoumax mem base n = some (0, mem) ↔ Bare (mem.take n))) ∧
    (∀ (white sign rest : List UInt8) (x : UInt8) (base n : ℕ), (base = 0 ∨ base = 16) →
      (∀ c ∈ white, isspace c = true) → IsSign sign → (x = chr 'x' ∨ x = chr 'X') → 0 ∈ rest →
      white.length + sign.length < n →
      (white.length + sign.length + 2 < n → ∀ c ∈ rest.head?, ¬IsDigit 16 c) →
      (strntoumax (white ++ (sign ++ chr '0' :: x :: rest)) base n =
          some (0, (white ++ (sign ++ chr '0' :: x :: rest)).drop
            (white.length + sign.length + 1)) ↔
        n = white.length + sign.length + 1)) ∧
    (∀ (buffer : List UInt8) (ch : UInt8) (base : ℕ) (s : Scan bits), intBase ch = some base →
      0 ∈ s.q → ¬BeginsNumber base ((s.q.dropWhile isspace).take s.width) →
      (s.splat = true ∨ s.ap ≠ []) →
      ∃ s', convert buffer ch s = some s' ∧ (s'.converted = s.converted ↔
        s.splat = true ∨ ¬Signed ((s.q.dropWhile isspace).take s.width))) := by
  refine ⟨fun mem base n hmem _ hno => noNumber_iff (.inr hmem) hno, ?_, ?_⟩
  · intro white sign rest x base n hbase hwhite hsign hx hrest hn hno
    exact prefix_iff hbase hwhite hsign hx hrest hn hno
  · intro buffer ch base s hch hq hno harg
    obtain ⟨conv, hconv⟩ := convert_int hch buffer s
    rw [hconv]
    exact scanInt_noNumber (s := { s with state := .normal }) conv hq hno harg

/-- A lone sign: `*endptr` is behind it, and `vsscanf` counts it. A prefix without digits: `*endptr`
is behind the `x`. -/
theorem lone_sign_counts :
    (¬BeginsNumber 10 ([chr '+', 0].take 2) ∧
      strntoumax [chr '+', 0] (10 : ℕ) 2 = some (0, [0])) ∧
    strntoumax ("0xg".toList.map chr ++ [0]) (16 : ℕ) 4 = some (0, [chr 'g', 0]) ∧
    vsscanf arch64 [chr '+', 0] ("%d".toList.map chr ++ [0]) [1000] =
      some ⟨1, [(1000, .int (.int 0))]⟩ := by
  exact ⟨⟨not_beginsNumber (by decide +kernel), by decide⟩, by decide, by decide⟩

/-- A string that begins with a letter; the characters `0x`; and `%d` at a lone sign. -/
theorem no_conversion_iff_letter :
    (strntoumax [chr 'g', 0] (10 : ℕ) 2 = some (0, [chr 'g', 0]) ↔ Bare ([chr 'g', 0].take 2)) ∧
    (strntoumax [chr '0', chr 'x', 0] (16 : ℕ) 3 = some (0, [chr 'x', 0]) ↔ 3 = 0 + 0 + 1) ∧
    ∃ s', convert [chr '+', 0] (chr 'd') (Scan.init 64 [chr '+', 0] [1000]) = some s' ∧
      (s'.converted = 0 ↔ false = true ∨ ¬Signed ([chr '+', 0].take UINT_MAX)) := by
  obtain ⟨h1, h2, h3⟩ := no_conversion_iff 64
  refine ⟨h1 _ 10 2 (by decide) (by decide) (not_beginsNumber (by decide +kernel)),
    h2 [] [] [0] (chr 'x') 16 3 (by decide) (by simp) (.inl rfl) (.inl rfl) (by decide)
      (by decide) (fun _ => by decide +kernel), ?_⟩
  refine h3 _ (chr 'd') 10 (Scan.init 64 [chr '+', 0] [1000]) (by decide) (by decide)
    (not_beginsNumber fun c hc => ?_) (by decide)
  have hall : ∀ c ∈ [chr '+', 0].dropWhile isspace, ¬IsDigit 10 c := by decide +kernel
  exact hall c (mem_of_mem_take hc)

end Klibc.Stdio.NoConversion
