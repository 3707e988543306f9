import Klibc.Kinit.SplitCmdline
import Klibc.Lib.Words
import Mathlib.Data.List.Forall2

/-! # The two passes of `split_cmdline` agree

The first pass counts the words of the command lines and the arguments, and the second fills a
vector that has room for so many pointers. -/

namespace Klibc.Kinit.TwoPasses

open Lib.CString Lib.Machine Lib.Words Stdio.Vsscanf List SplitCmdline

/-! ### One byte -/

lemma isspaceChar_ascii {charSigned : Bool} {c : UInt8} (hc : c < 128) :
    isspaceChar charSigned c = some (isspace c) := by
  have hlt : c.toNat < 128 := UInt8.lt_iff_toNat_lt.1 hc
  have hwrap : wrap 8 c.toNat = c.toNat := wrap_eq (by omega) (by omega) (by omega)
  have hi : (if charSigned then wrap 8 c.toNat else (c.toNat : ℤ)) = c.toNat := by
    rw [hwrap, ite_self]
  unfold isspaceChar
  simp only [hi]
  rw [if_neg (by omega), if_neg (by omega)]

section

variable {charSigned : Bool} {m : ℕ} {wasSpace : Bool} {p : ℕ} {s : Pass}

variable {cs : List UInt8}

lemma splitLine_cons {c : UInt8} (hv : s.v < m) (hc : c < 128) (hne : c ≠ 0) :
    splitLine charSigned m wasSpace p (c :: cs) s =
      (splitByte wasSpace (isspace c) p c s).bind fun r =>
        (splitLine charSigned m (isspace c) (p + 1) cs r.2).map fun r' => (r.1 :: r'.1, r'.2) := by
  rw [splitLine, if_pos (by exact_mod_cast hv), isspaceChar_ascii hc]
  simp only [hne, if_false]
  cases hbyte : splitByte wasSpace (isspace c) p c s with
  | none => simp [hbyte]
  | some r =>
    cases hline : splitLine charSigned m (isspace c) (p + 1) cs r.2 with
    | none => simp [hbyte, hline]
    | some r' => simp [hbyte, hline]

lemma splitLine_zero (hv : s.v < m) : splitLine charSigned m wasSpace p [0] s =
      (splitByte wasSpace false p 0 s).map fun r => ([r.1], r.2) := by
  have hzero : isspace 0 = false := by decide
  rw [splitLine, if_pos (by exact_mod_cast hv), isspaceChar_ascii (by decide), hzero]
  cases hbyte : splitByte wasSpace false p 0 s with
  | none => simp [hbyte]
  | some r => simp [hbyte]

lemma splitLine_full (hv : m ≤ s.v) : splitLine charSigned m wasSpace p cs s = some (cs, s) := by
  cases cs with
  | nil => rw [splitLine, if_neg (by omega)]
  | cons c cs => rw [splitLine, if_neg (by omega)]

end

/-! ### The words of the command lines -/

def wordPtrs (l : Str) : List ℕ := (words isspace l.bytes).map fun w => l.addr + w.1

lemma wordPtrs_eq (l : Str) : wordPtrs l = starts isspace true l.addr l.bytes := by
  have hadd : starts isspace true (0 + l.addr) l.bytes = _ := starts_add
  rw [Nat.zero_add] at hadd
  rw [wordPtrs, words, map_map, hadd]
  refine map_congr_left fun o _ => ?_
  exact Nat.add_comm _ _

/-! ### The first pass -/

def Ascii (l : List UInt8) : Prop := ∀ c ∈ l, c < 128

variable {done rest : List ℕ} {c : UInt8}

variable {space : Bool} {p v : ℕ}

variable {wasSpace : Bool} {x : ℕ}

lemma count_byte : splitByte wasSpace space p c ⟨v, none⟩ =
      some (c, ⟨if (space = true ∨ c = 0) ∧ wasSpace = false then v + 1 else v, none⟩) := by
  unfold splitByte
  by_cases hend : (space = true ∨ c = 0) ∧ wasSpace = false
  · rw [if_pos hend, if_pos hend]
    rfl
  · rw [if_neg hend, if_neg hend, Pass.store]
    split_ifs <;> rfl

lemma count_line {charSigned : Bool} {m : ℕ} {l : List UInt8} (hascii : Ascii l) (hnonul : 0 ∉ l)
    (hv : v ≤ m) : splitLine charSigned m wasSpace p (l ++ [0]) ⟨v, none⟩ = some (l ++ [0],
      ⟨min m (v + (!wasSpace).toNat + (starts isspace wasSpace p l).length), none⟩) := by
  induction l generalizing wasSpace p v with
  | nil =>
    rcases hv.eq_or_lt with heq | hlt
    · rw [splitLine_full heq.ge, Nat.min_eq_left (by omega), heq]
    · rw [nil_append, splitLine_zero hlt, count_byte]
      cases wasSpace with
      | true => simp [starts, hv]
      | false => simp [starts, Nat.succ_le_of_lt hlt]
  | cons c l ih =>
    rcases hv.eq_or_lt with heq | hlt
    · rw [splitLine_full heq.ge, Nat.min_eq_left (by omega), heq]
    · have hc : c ≠ 0 := fun h => hnonul (h ▸ mem_cons_self)
      have hascii' : Ascii l := fun d hd => hascii d (mem_cons_of_mem _ hd)
      have hnonul' : 0 ∉ l := fun h => hnonul (mem_cons_of_mem _ h)
      rw [cons_append, splitLine_cons hlt (hascii c mem_cons_self) hc, count_byte]
      -- whether a word goes on, ends or begins here
      cases hwas : wasSpace <;> cases hspace : isspace c
      · simp [hc, starts, ih hascii' hnonul' hv, hspace]
      · simp [hc, starts, ih hascii' hnonul' (Nat.succ_le_of_lt hlt), hspace]
      · simp [hc, starts, ih hascii' hnonul' hv, hspace]
        omega
      · simp [hc, starts, ih hascii' hnonul' hv, hspace]

/-! ### The second pass -/

lemma set_behind : (done ++ rest).set done.length x = done ++ rest.set 0 x := by
  rw [set_append_right _ _ le_rfl, Nat.sub_self]

lemma fill_store (hv : v = done.length) (hrest : rest ≠ []) :
    Pass.store ⟨v, some (done ++ rest)⟩ v x = some ⟨v, some (done ++ rest.set 0 x)⟩ := by
  have hlt : done.length < (done ++ rest).length := by
    rw [length_append]
    exact Nat.lt_add_of_pos_right (length_pos_iff.2 hrest)
  rw [Pass.store, hv]
  simp only [if_pos hlt, set_behind]

lemma fill_byte_end {cells : List ℕ} (h : space = true ∨ c = 0) :
    splitByte false space p c ⟨v, some cells⟩ = some (0, ⟨v + 1, some cells⟩) := by
  rw [splitByte, if_pos ⟨h, rfl⟩]
  rfl

lemma fill_byte_word {s : Pass} (hc : c ≠ 0) : splitByte false false p c s = some (c, s) := by
  rw [splitByte, if_neg (by simp [hc]), if_neg (by simp)]

lemma fill_byte_space
    (hrest : rest ≠ []) : splitByte true space p c ⟨done.length, some (done ++ rest)⟩ =
      some (c, ⟨done.length, some (done ++ rest.set 0 p)⟩) := by
  rw [splitByte, if_neg (by simp), if_pos rfl, fill_store rfl hrest]
  rfl

/-- **A line fills the vector.**  What is `done` stands before the index `v`, and the beginning of a
word that is not done yet at this index. The words of the line come behind them. -/
def Fills (charSigned : Bool) (m : ℕ) (wasSpace : Bool) (p : ℕ) (l : List UInt8)
    (done pending : List ℕ) : Prop :=
  ∀ rest, done.length + pending.length + rest.length = m + 1 →
    ∃ rest', done.length + pending.length + (starts isspace wasSpace p l).length + rest'.length =
      m + 1 ∧
      splitLine charSigned m wasSpace p (l ++ [0]) ⟨done.length, some (done ++ pending ++ rest)⟩ =
        some (cut isspace 0 wasSpace l ++ [0],
          ⟨done.length + pending.length + (starts isspace wasSpace p l).length,
            some (done ++ pending ++ starts isspace wasSpace p l ++ rest')⟩)

section

variable {charSigned : Bool} {m p : ℕ} {wasSpace : Bool} {l : List UInt8} {done pending : List ℕ}

lemma fills_full (hpending : pending.length = (!wasSpace).toNat)
    (hroom : done.length + pending.length + (starts isspace wasSpace p l).length ≤ m)
    (hfull : m ≤ done.length) : Fills charSigned m wasSpace p l done pending := by
  intro rest hrest
  have hnone : starts isspace wasSpace p l = [] := length_eq_zero_iff.1 (by omega)
  have hnil : pending = [] := length_eq_zero_iff.1 (by omega)
  subst hnil
  have hwas : wasSpace = true := by
    cases wasSpace with
    | true => rfl
    | false => cases hpending
  subst hwas
  refine ⟨rest, by rw [hnone]; exact hrest, ?_⟩
  rw [splitLine_full hfull, cut_of_starts_nil hnone, hnone]
  simp

lemma fills_nil_word {x : ℕ} (hlt : done.length < m) : Fills charSigned m false p [] done [x] := by
  refine fun rest hrest => ⟨rest, hrest, ?_⟩
  rw [nil_append, splitLine_zero hlt, fill_byte_end (Or.inr rfl)]
  simp [starts, cut]

lemma fills_nil_space (hlt : done.length < m) : Fills charSigned m true p [] done [] := by
  intro rest hrest
  have hne : rest ≠ [] := by
    rintro rfl
    rw [length_nil] at hrest
    omega
  refine ⟨rest.set 0 p, by rw [length_set]; exact hrest, ?_⟩
  rw [nil_append, splitLine_zero hlt, append_nil, fill_byte_space hne]
  simp [starts, cut]

section

variable {c : UInt8} (hlt : done.length < m) (hascii : c < 128) (hc : c ≠ 0)
include hlt hascii hc

lemma fills_end {x : ℕ} (hspace : isspace c = true)
    (h : Fills charSigned m true (p + 1) l (done ++ [x]) []) :
    Fills charSigned m false p (c :: l) done [x] := by
  intro rest hrest
  have hdone : (done ++ [x]).length = done.length + 1 := length_append
  obtain ⟨rest', hlen, heq⟩ := h rest (by rw [hdone]; exact hrest)
  rw [hdone, append_nil] at heq
  rw [hdone] at hlen
  refine ⟨rest', by rw [starts_sep hspace]; exact hlen, ?_⟩
  rw [cons_append, splitLine_cons hlt hascii hc, hspace, fill_byte_end (Or.inl rfl),
    Option.bind_some, heq, starts_sep hspace, cut_end hspace]
  rfl

lemma fills_word (hspace : isspace c = false)
    (h : Fills charSigned m false (p + 1) l done pending) :
    Fills charSigned m false p (c :: l) done pending := by
  intro rest hrest
  obtain ⟨rest', hlen, heq⟩ := h rest hrest
  refine ⟨rest', by rw [starts_inside hspace]; exact hlen, ?_⟩
  rw [cons_append, splitLine_cons hlt hascii hc, hspace, fill_byte_word hc, Option.bind_some,
    heq, starts_inside hspace, cut_word_cons hspace]
  rfl

lemma fills_space (hspace : isspace c = true) (h : Fills charSigned m true (p + 1) l done []) :
    Fills charSigned m true p (c :: l) done [] := by
  intro rest hrest
  have hne : rest ≠ [] := by
    rintro rfl
    rw [length_nil] at hrest
    omega
  obtain ⟨rest', hlen, heq⟩ := h (rest.set 0 p) (by rw [length_set]; exact hrest)
  rw [append_nil] at heq
  refine ⟨rest', by rw [starts_sep hspace]; exact hlen, ?_⟩
  rw [cons_append, splitLine_cons hlt hascii hc, hspace, append_nil, fill_byte_space hne,
    Option.bind_some, heq, starts_sep hspace, cut_sep hspace]
  rfl

lemma fills_begin (hspace : isspace c = false) (h : Fills charSigned m false (p + 1) l done [p]) :
    Fills charSigned m true p (c :: l) done [] := by
  intro rest hrest
  have hne : rest ≠ [] := by
    rintro rfl
    rw [length_nil] at hrest
    omega
  obtain ⟨x, rest, rfl⟩ := exists_cons_of_ne_nil hne
  rw [length_nil, length_cons] at hrest
  obtain ⟨rest', hlen, heq⟩ := h rest (by rw [length_singleton]; omega)
  rw [length_singleton] at hlen
  rw [append_assoc, singleton_append] at heq
  refine ⟨rest', by rw [starts_begin hspace, length_nil, length_cons]; omega, ?_⟩
  rw [cons_append, splitLine_cons hlt hascii hc, hspace, append_nil, fill_byte_space hne,
    Option.bind_some, set_cons_zero, heq, starts_begin hspace, cut_word_cons hspace]
  simp
  omega

end

lemma fill_line (hascii : Ascii l) (hnonul : 0 ∉ l) (hpending : pending.length = (!wasSpace).toNat)
    (hroom : done.length + pending.length + (starts isspace wasSpace p l).length ≤ m) :
    Fills charSigned m wasSpace p l done pending := by
  induction l generalizing wasSpace p done pending with
  | nil =>
    rcases Nat.lt_or_ge done.length m with hlt | hfull
    · cases wasSpace with
      | false =>
        obtain ⟨x, rfl⟩ := length_eq_one_iff.1 hpending
        exact fills_nil_word hlt
      | true =>
        obtain rfl := length_eq_zero_iff.1 hpending
        exact fills_nil_space hlt
    · exact fills_full hpending hroom hfull
  | cons c l ih =>
    have hc : c ≠ 0 := fun h => hnonul (h ▸ mem_cons_self)
    have hc128 : c < 128 := hascii c mem_cons_self
    have hascii' : Ascii l := fun d hd => hascii d (mem_cons_of_mem _ hd)
    have hnonul' : 0 ∉ l := fun h => hnonul (mem_cons_of_mem _ h)
    rcases Nat.lt_or_ge done.length m with hlt | hfull
    · cases wasSpace with
      | false =>
        obtain ⟨x, rfl⟩ := length_eq_one_iff.1 hpending
        cases hspace : isspace c with
        | true =>
          rw [starts_sep hspace, ← length_append] at hroom
          exact fills_end hlt hc128 hc hspace (ih hascii' hnonul' rfl hroom)
        | false =>
          rw [starts_inside hspace] at hroom
          exact fills_word hlt hc128 hc hspace (ih hascii' hnonul' hpending hroom)
      | true =>
        obtain rfl := length_eq_zero_iff.1 hpending
        cases hspace : isspace c with
        | true =>
          rw [starts_sep hspace] at hroom
          exact fills_space hlt hc128 hc hspace (ih hascii' hnonul' rfl hroom)
        | false =>
          rw [starts_begin hspace, length_nil, length_cons] at hroom
          refine fills_begin hlt hc128 hc hspace (ih hascii' hnonul' rfl ?_)
          rw [length_singleton]
          omega
    · exact fills_full hpending hroom hfull

end

/-! ### All lines and arguments -/

variable {cmdlines : List Str} {charSigned : Bool}

variable {args : List ℕ} {m : ℕ}

variable {argv0 v : ℕ}

lemma count_lines (hascii : ∀ l ∈ cmdlines, Ascii l.bytes) (hv : v ≤ m) :
    splitLines charSigned m cmdlines ⟨v, none⟩ = some (cmdlines.map (·.bytes ++ [0]),
      ⟨min m (v + (cmdlines.flatMap wordPtrs).length), none⟩) := by
  induction cmdlines generalizing v with
  | nil => simp [splitLines, hv]
  | cons l cmdlines ih =>
    have hline : splitLine charSigned m true l.addr (l.bytes ++ [0]) ⟨v, none⟩ = _ :=
      count_line (hascii l mem_cons_self) l.nonul hv
    have hrest := ih (fun l' hl' => hascii l' (mem_cons_of_mem _ hl'))
      (Nat.min_le_left m (v + (wordPtrs l).length))
    have hmin : ∀ a b : ℕ, min m (min m (v + a) + b) = min m (v + (a + b)) := by
      intro a b
      omega
    rw [Bool.not_true, Bool.toNat_false, Nat.add_zero, ← wordPtrs_eq] at hline
    rw [hmin] at hrest
    simp [splitLines, hline, hrest]

lemma count_args (hv : v ≤ m) :
    addArgs m args ⟨v, none⟩ = some ⟨min m (v + args.length), none⟩ := by
  induction args generalizing v with
  | nil => simp [addArgs, hv]
  | cons arg args ih =>
    rw [addArgs, length_cons]
    rcases hv.eq_or_lt with heq | hlt
    · rw [if_neg (by simp [heq]), Nat.min_eq_left (by omega), heq]
    · rw [if_pos (by exact_mod_cast hlt)]
      simp only [Pass.store, Option.bind_eq_bind, Option.bind_some]
      rw [ih hlt, show v + 1 + args.length = v + (args.length + 1) by omega]

lemma fill_lines (charSigned : Bool) {done rest : List ℕ} (hascii : ∀ l ∈ cmdlines, Ascii l.bytes)
    (hroom : done.length + (cmdlines.flatMap wordPtrs).length ≤ m)
    (hrest : done.length + rest.length = m + 1) :
    ∃ rest', done.length + (cmdlines.flatMap wordPtrs).length + rest'.length = m + 1 ∧
      splitLines charSigned m cmdlines ⟨done.length, some (done ++ rest)⟩ =
        some (cmdlines.map fun l => cut isspace 0 true l.bytes ++ [0],
          ⟨done.length + (cmdlines.flatMap wordPtrs).length,
            some (done ++ cmdlines.flatMap wordPtrs ++ rest')⟩) := by
  induction cmdlines generalizing done rest with
  | nil => exact ⟨rest, hrest, by simp [splitLines]⟩
  | cons l cmdlines ih =>
    rw [flatMap_cons, length_append] at hroom
    have hfills : Fills charSigned m true l.addr l.bytes done [] := by
      refine fill_line (hascii l mem_cons_self) l.nonul rfl ?_
      rw [← wordPtrs_eq, length_nil]
      omega
    obtain ⟨rest1, hlen1, hline⟩ := hfills rest hrest
    rw [← wordPtrs_eq, length_nil, Nat.add_zero, append_nil, ← length_append] at hline
    rw [← wordPtrs_eq, length_nil, Nat.add_zero, ← length_append] at hlen1
    obtain ⟨rest', hlen, hlines⟩ := ih (fun l' hl' => hascii l' (mem_cons_of_mem _ hl'))
      (by rw [length_append]; omega) hlen1
    rw [length_append] at hlen hlines
    refine ⟨rest', by rw [flatMap_cons, length_append]; omega, ?_⟩
    rw [splitLines, hline]
    simp only [Option.bind_eq_bind, Option.bind_some, length_append]
    rw [hlines]
    simp [Nat.add_assoc]

lemma fill_args {done rest : List ℕ} (hroom : done.length + args.length ≤ m)
    (hrest : done.length + rest.length = m + 1) :
    ∃ rest', done.length + args.length + rest'.length = m + 1 ∧
      addArgs m args ⟨done.length, some (done ++ rest)⟩ =
        some ⟨done.length + args.length, some (done ++ args ++ rest')⟩ := by
  induction args generalizing done rest with
  | nil => exact ⟨rest, hrest, by simp [addArgs]⟩
  | cons arg args ih =>
    rw [length_cons] at hroom
    have hne : rest ≠ [] := by
      rintro rfl
      rw [length_nil] at hrest
      omega
    obtain ⟨x, rest, rfl⟩ := exists_cons_of_ne_nil hne
    have hdone : (done ++ [arg]).length = done.length + 1 := length_append
    rw [length_cons] at hrest
    obtain ⟨rest', hlen, hargs⟩ := ih
      (by rw [hdone]; omega : (done ++ [arg]).length + args.length ≤ m)
      (by rw [hdone]; omega : (done ++ [arg]).length + rest.length = m + 1)
    rw [hdone] at hlen hargs
    refine ⟨rest', by rw [length_cons]; omega, ?_⟩
    have hlt : done.length < m := by omega
    rw [addArgs, if_pos (by exact_mod_cast hlt), fill_store rfl hne, set_cons_zero]
    simp only [Option.bind_eq_bind, Option.bind_some]
    rw [append_assoc, singleton_append] at hargs
    rw [hargs, length_cons]
    simp
    omega

/-! ### The result -/

/-- A line as the second pass leaves it, with its zero byte: each word is a string there. -/
def Terminated (l : Str) (b : List UInt8) : Prop :=
  b.length = l.bytes.length + 1 ∧
    ∀ o w, IsWord isspace l.bytes o w → (b.drop o).take (w.length + 1) = w ++ [0]

lemma terminated_cut (l : Str) : Terminated l (cut isspace 0 true l.bytes ++ [0]) := by
  refine ⟨?_, fun o w hw => cut_word hw⟩
  rw [length_append, length_cut]
  rfl

def wordCount (cmdlines : List Str) : ℕ :=
  (cmdlines.map fun l => (words isspace l.bytes).length).sum

lemma length_wordPtrs (cmdlines : List Str) :
    (cmdlines.flatMap wordPtrs).length = wordCount cmdlines := by
  rw [length_flatMap, wordCount]
  simp [wordPtrs]

lemma first_pass (hascii : ∀ l ∈ cmdlines, Ascii l.bytes) :
    splitCmdline charSigned intMax none argv0 cmdlines args = some (cmdlines.map (·.bytes ++ [0]),
      ⟨min (2 ^ 31 - 1) (1 + wordCount cmdlines + args.length), none⟩) := by
  have hmax : intMax = ((2 ^ 31 - 1 : ℕ) : ℤ) := rfl
  have hone : 1 ≤ 2 ^ 31 - 1 := by omega
  rw [hmax]
  generalize 2 ^ 31 - 1 = m at *
  have hlines : splitLines charSigned m cmdlines ⟨1, none⟩ = _ := count_lines hascii hone
  have hargs : addArgs m args ⟨min m (1 + (cmdlines.flatMap wordPtrs).length), none⟩ = _ :=
    count_args (Nat.min_le_left m _)
  have hmin : min m (min m (1 + wordCount cmdlines) + args.length) =
      min m (1 + wordCount cmdlines + args.length) := by omega
  rw [length_wordPtrs] at hlines hargs
  rw [hmin] at hargs
  simp [splitCmdline, Pass.store, hlines, hargs]

lemma second_pass {cells : List ℕ} (hascii : ∀ l ∈ cmdlines, Ascii l.bytes)
    (hm : m = 1 + wordCount cmdlines + args.length) (hcells : cells.length = m + 1) :
    splitCmdline charSigned m (some cells) argv0 cmdlines args =
      some (cmdlines.map fun l => cut isspace 0 true l.bytes ++ [0],
        ⟨m, some (argv0 :: cmdlines.flatMap wordPtrs ++ args ++ [0])⟩) := by
  obtain ⟨x, cells, rfl⟩ := exists_cons_of_length_eq_add_one hcells
  rw [length_cons] at hcells
  have hwords := length_wordPtrs cmdlines
  -- the name of the program
  have hfirst : Pass.store ⟨1, some (x :: cells)⟩ 0 argv0 = some ⟨1, some ([argv0] ++ cells)⟩ := by
    simp [Pass.store]
  have hroom : [argv0].length + (cmdlines.flatMap wordPtrs).length ≤ m := by
    rw [length_singleton]
    omega
  have hrest : [argv0].length + cells.length = m + 1 := by
    rw [length_singleton]
    omega
  obtain ⟨rest1, hlen1, hlines⟩ := fill_lines charSigned hascii hroom hrest
  rw [← length_append] at hlen1 hlines hroom
  generalize hdone : [argv0] ++ cmdlines.flatMap wordPtrs = done at hlen1 hlines hroom
  have hlen : done.length = 1 + wordCount cmdlines := by
    rw [← hdone, length_append, hwords]
    rfl
  obtain ⟨rest2, hlen2, hargs⟩ := fill_args (by omega : done.length + args.length ≤ m) hlen1
  obtain ⟨y, rfl⟩ := length_eq_one_iff.1 (by omega : rest2.length = 1)
  rw [← length_append] at hargs
  have hlast : Pass.store ⟨(done ++ args).length, some (done ++ args ++ [y])⟩
      (done ++ args).length 0 = _ := fill_store rfl (cons_ne_nil y [])
  have htotal : (done ++ args).length = m := by
    rw [length_append]
    omega
  have hlines' : splitLines charSigned m cmdlines ⟨1, some ([argv0] ++ cells)⟩ = _ := hlines
  rw [htotal] at hargs hlast
  rw [splitCmdline, hfirst]
  simp only [Option.bind_eq_bind, Option.bind_some, hlines', hargs, hlast]
  rw [← hdone]
  rfl

/-- **The two passes agree and lose nothing.**  The first pass returns the number of words and
arguments, with the name of the program, and leaves the command lines alone. The second pass returns
the same number and fills a vector of so many pointers and a null pointer: it stores nothing
outside. The pointers to words are in order, and each word is a string where it was. -/
theorem split_cmdline_passes {charSigned : Bool} {argv0 c : ℕ} {cmdlines : List Str} {args : List ℕ}
    (hascii : ∀ l ∈ cmdlines, Ascii l.bytes) (hc : c = 1 + wordCount cmdlines + args.length)
    (hfit : c ≤ intMax) : splitCmdline charSigned intMax none argv0 cmdlines args =
      some (cmdlines.map (·.bytes ++ [0]), ⟨c, none⟩) ∧
    ∀ cells, cells.length = c + 1 → ∃ bs,
      splitCmdline charSigned c (some cells) argv0 cmdlines args =
        some (bs, ⟨c, some (argv0 :: cmdlines.flatMap wordPtrs ++ args ++ [0])⟩) ∧
      List.Forall₂ Terminated cmdlines bs := by
  have hle : c ≤ 2 ^ 31 - 1 := by
    have hmax : intMax = ((2 ^ 31 - 1 : ℕ) : ℤ) := rfl
    rw [hmax] at hfit
    exact_mod_cast hfit
  constructor
  · rw [first_pass hascii, ← hc, Nat.min_eq_right hle]
  · intro cells hcells
    refine ⟨_, second_pass hascii hc hcells, ?_⟩
    rw [List.forall₂_map_right_iff, List.forall₂_same]
    exact fun l _ => terminated_cut l

/-- A line of two words, an empty line and an argument. -/
theorem split_cmdline_two_lines : ∃ bs,
      splitCmdline true 4 (some [0, 0, 0, 0, 0]) 8
          [⟨100, [97, 32, 98], by decide⟩, ⟨200, [], by decide⟩] [9] =
        some (bs, ⟨4, some [8, 100, 102, 9, 0]⟩) ∧
      List.Forall₂ Terminated [⟨100, [97, 32, 98], by decide⟩, ⟨200, [], by decide⟩] bs :=
  (split_cmdline_passes (c := 4) (by unfold Ascii; decide +kernel) (by decide) (by decide)).2
    [0, 0, 0, 0, 0] rfl

def whiteSpace (c : UInt8) : Bool := (9 ≤ c && c ≤ 13) || c == 32

/-- A backspace separates words, though it is no white space; and the first pass counts no further
than `INT_MAX`. -/
theorem backspace_separates : words whiteSpace [97, 8, 98] = [(0, [97, 8, 98])] ∧
    splitCmdline true intMax none 8 [⟨100, [97, 8, 98], by decide⟩] [] =
      some ([[97, 8, 98, 0]], ⟨3, none⟩) ∧
    ∀ n, 2 ^ 31 ≤ n → splitCmdline true intMax none 8 [] (List.replicate n 9) =
      some ([], ⟨2 ^ 31 - 1, none⟩) := by
  refine ⟨by decide, by decide +kernel, fun n hn => ?_⟩
  rw [first_pass (by simp), length_replicate, Nat.min_eq_left (by omega)]
  rfl

end Klibc.Kinit.TwoPasses
