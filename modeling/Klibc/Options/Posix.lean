import Klibc.Options.Position

/-! # `getopt` decomposes the arguments as POSIX has it

A scan from a fresh state begins every argument at its first letter. -/

namespace Klibc.Options.Posix

open Lib.CString Lib.Machine Lib.Total Getopt Calls List OneCall Scan Position

/-! ### The decomposition -/

/-- The letters of a cluster that begins at the address `p`, and whether the next argument is the
argument of the last one. -/
def cluster (q : Query) (next : Option Str) : ℕ → List UInt8 → List Event × Bool
  | _, [] => ([], false)
  | p, c :: cs =>
    match declared q c with
    | none => ((question, 0) :: (cluster q next (p + 1) cs).1, (cluster q next (p + 1) cs).2)
    | some false => ((q.value c, 0) :: (cluster q next (p + 1) cs).1, (cluster q next (p + 1) cs).2)
    | some true =>
      if cs ≠ [] then ([(q.value c, p + 1)], false)
      else match next with
        | some arg => ([(q.value c, arg.addr)], true)
        | none => ([(question, 0)], false)

/-- The options of a list of arguments, the first of which may be the argument of an option, and the
number of arguments before the first operand. -/
def decompose (q : Query) : Bool → List Str → List Event × ℕ
  | _, [] => ([], 0)
  | true, _ :: rest => ((decompose q false rest).1, (decompose q false rest).2 + 1)
  | false, a :: rest =>
    match a.bytes with
    | [] => ([], 0)
    | c :: cs =>
      if c ≠ dash ∨ cs = [] then ([], 0)
      else if cs = [dash] then ([], 1)
      else
        let r := cluster q rest.head? (a.addr + 1) cs
        (r.1 ++ (decompose q r.2 rest).1, (decompose q r.2 rest).2 + 1)

section

variable {q : Query} {a : Str} {rest : List Str}

lemma decompose_operand (h : ∀ c cs, a.bytes ≠ dash :: c :: cs) :
    decompose q false (a :: rest) = ([], 0) := by
  unfold decompose
  cases ha : a.bytes with
  | nil => rfl
  | cons c cs =>
    have hoperand : c ≠ dash ∨ cs = [] := by
      cases cs with
      | nil => exact Or.inr rfl
      | cons c' cs =>
        refine Or.inl ?_
        rintro rfl
        exact h c' cs ha
    exact if_pos hoperand

lemma decompose_terminator (h : a.bytes = [dash, dash]) :
    decompose q false (a :: rest) = ([], 1) := by
  unfold decompose
  rw [h]
  rfl

lemma decompose_cluster {c : UInt8} {cs : List UInt8} (h : a.bytes = dash :: c :: cs)
    (hend : c :: cs ≠ [dash]) : decompose q false (a :: rest) =
      ((cluster q rest.head? (a.addr + 1) (c :: cs)).1 ++
        (decompose q (cluster q rest.head? (a.addr + 1) (c :: cs)).2 rest).1,
      (decompose q (cluster q rest.head? (a.addr + 1) (c :: cs)).2 rest).2 + 1) := by
  conv_lhs => unfold decompose
  rw [h]
  simp only [ne_eq, not_true_eq_false, reduceCtorEq, or_self, if_false, if_neg hend]

end

/-! ### The trace -/

lemma kind_short {a : Str} {c : UInt8} {cs : List UInt8} (hb : a.bytes = dash :: c :: cs) :
    Scanner.short.kind a = if c :: cs = [dash] then .terminator else .letters := by
  rw [kind_option hb]
  by_cases hc : c = dash
  · by_cases hcs : cs = []
    · simp [hc, hcs]
    · simp [hc, hcs]
  · simp [hc]

section

variable {q : Query} (hcolon : q.optstring.bytes.head? ≠ some colon)
  (hvalue : ∀ c ∈ q.optstring.bytes, q.value c ≠ -1)
include hcolon hvalue

lemma letterSteps_cluster (next : Option Str) (p : ℕ) (cs : List UInt8) :
    ((letterSteps q next p cs).1.map event, (letterSteps q next p cs).2) = cluster q next p cs ∧
      ¬ Stops (letterSteps q next p cs).1 := by
  induction cs generalizing p with
  | nil => exact ⟨rfl, stops_nil⟩
  | cons c cs ih =>
    obtain ⟨heq, hgo⟩ := ih (p + 1)
    have hmissing : missing q = question := if_neg hcolon
    have hquestion : question ≠ -1 := by decide
    unfold letterSteps cluster letterStep
    rw [← heq]
    cases hc : declared q c with
    | none =>
      simp only [reduceCtorEq, if_false, map_cons, stops_cons, not_or]
      exact ⟨rfl, hquestion, hgo⟩
    | some takes =>
      have hmem : c ∈ q.optstring.bytes := by
        by_contra h
        rw [declared, if_pos (Or.inr h)] at hc
        cases hc
      have hret := hvalue c hmem
      cases takes with
      | false =>
        simp only [Option.some.injEq, Bool.false_eq_true, if_false, map_cons, stops_cons, not_or]
        exact ⟨rfl, hret, hgo⟩
      | true =>
        by_cases hnil : cs = []
        · cases next with
          | none =>
            simp only [if_true, hnil, hmissing, stops_cons, stops_nil, or_false]
            exact ⟨rfl, hquestion⟩
          | some arg =>
            simp only [if_true, hnil, stops_cons, stops_nil, or_false]
            exact ⟨rfl, hret⟩
        · simp only [if_true, hnil, ne_eq, not_false_eq_true, decide_true, stops_cons, stops_nil,
            or_false]
          exact ⟨rfl, hret⟩

lemma trace_decompose {rest pre : List Str} (skip : Bool) {p : ℕ} (hargs : q.args = pre ++ rest)
    (hp : Behind q p rest) :
    (trace q .short skip p rest).steps.map event = (decompose q skip rest).1 ∧
      (trace q .short skip p rest).ends = some (decompose q skip rest).2 ∧
      ¬ Stops (trace q .short skip p rest).steps := by
  induction rest generalizing pre skip p with
  | nil =>
    rw [trace, decompose]
    exact ⟨rfl, rfl, stops_nil⟩
  | cons a rest ih =>
    have hsplit := split_next hargs
    cases skip with
    | true =>
      obtain ⟨h1, h2, h3⟩ := ih false hsplit hp.tail
      rw [trace, decompose]
      refine ⟨h1, ?_, h3⟩
      rw [Trace.after, h2]
      rfl
    | false =>
      have ha : a ∈ q.args := mem_of_split hargs
      have hresume : resume q a p = 1 := resume_away ha hp.inSpace (hp.away a mem_cons_self)
      by_cases hb : ∃ c cs, a.bytes = dash :: c :: cs
      · obtain ⟨c, cs, hb⟩ := hb
        have hkind := kind_short hb
        by_cases hend : c :: cs = [dash]
        · rw [if_pos hend] at hkind
          rw [trace_terminator hkind, decompose_terminator (by rw [hb, hend])]
          exact ⟨rfl, rfl, stops_nil⟩
        · rw [if_neg hend] at hkind
          have hlen : 1 < a.bytes.length := by
            rw [hb, length_cons, length_cons]
            omega
          have hdrop : a.bytes.drop 1 = c :: cs := by rw [hb]; rfl
          have hbehind := behind_letterSteps rest.head? p hargs hlen
          obtain ⟨heq, hgo⟩ := letterSteps_cluster hcolon hvalue rest.head? (a.addr + 1) (c :: cs)
          rw [trace_letters hkind hresume hlen, decompose_cluster hb hend, ← heq]
          rw [hdrop] at hbehind ⊢
          obtain ⟨h1, h2, h3⟩ :=
            ih (letterSteps q rest.head? (a.addr + 1) (c :: cs)).2 hsplit hbehind
          refine ⟨?_, ?_, fun h => (stops_append.1 h).elim hgo h3⟩
          · rw [Trace.after, map_append, h1]
          · rw [Trace.after, h2]
            rfl
      · have hno : ∀ c cs, a.bytes ≠ dash :: c :: cs := fun c cs h => hb ⟨c, cs, h⟩
        rw [trace_operand (kind_operand hno), decompose_operand hno]
        exact ⟨rfl, rfl, stops_nil⟩

end

/-! ### The result -/

/-- **A scan with `getopt` from a fresh state is the POSIX decomposition of the arguments.**  The
calls return, one after the other, the options of the decomposition with their arguments, and -1
when `optind` is the index of the first operand. -/
theorem getopt_posix {q : Query} {s : State} (hs : Fresh q s) (hargs : q.args ≠ [])
    (hcolon : q.optstring.bytes.head? ≠ some colon)
    (hvalue : ∀ c ∈ q.optstring.bytes, q.value c ≠ -1) : Returns (scan q .short) s fun es t =>
      es = (decompose q false q.args.tail).1 ∧
        t.optind = 1 + (decompose q false q.args.tail).2 := by
  obtain ⟨prog, rest, hsplit⟩ := exists_cons_of_ne_nil hargs
  have hbehind : Behind q 0 rest := behind_zero fun a ha => by
    rw [hsplit]
    exact mem_cons_of_mem _ ha
  have hargs' : q.args = [prog] ++ rest := hsplit
  obtain ⟨h1, h2, h3⟩ := trace_decompose hcolon hvalue false hargs' hbehind
  have hends : (trace q .short false 0 rest).Completes :=
    Or.inr (by rw [h2]; exact Option.some_ne_none _)
  rw [returns_scan_fresh hs hargs]
  refine (returns_scan (by simp) hargs' (on_initial q s) hends).mono ?_
  rintro es t ⟨hes, -, hind⟩
  rw [hsplit, tail_cons]
  refine ⟨?_, hind h3 _ h2⟩
  rw [hes, events_eq h3, h1]

/-- `prog -ab -ox file` with the option string `abo:`. -/
def clustered : Query where
  bits := 32
  charSigned := true
  argv := 4
  args := [⟨32, [112, 114, 111, 103], by decide⟩, ⟨40, [45, 97, 98], by decide⟩,
    ⟨48, [45, 111, 120], by decide⟩, ⟨56, [102, 105, 108, 101], by decide⟩]
  optstring := ⟨64, [97, 98, 111, 58], by decide⟩
  argv_ne := by decide
  optstring_ne := by decide
  inSpace := by decide
  apart := by decide

/-- The options are `a`, `b` and `o` with the argument at 50, and the operand is the third argument.
-/
theorem getopt_posix_clustered : Returns (scan clustered .short) start fun es t =>
    es = [(97, 0), (98, 0), (111, 50)] ∧ t.optind = 3 := by
  have hscan := getopt_posix (fresh_start clustered) (by decide) (by decide) (by decide +kernel)
  have hdec : decompose clustered false clustered.args.tail =
      ([(97, 0), (98, 0), (111, 50)], 2) := by decide
  rw [hdec] at hscan
  exact hscan

/-- `prog -ÿ` with the option string `ÿ`, on a machine where `char` is signed. -/
def lastLetter : Query where
  bits := 32
  charSigned := true
  argv := 4
  args := [⟨32, [112, 114, 111, 103], by decide⟩, ⟨40, [45, 255], by decide⟩]
  optstring := ⟨64, [255], by decide⟩
  argv_ne := by decide
  optstring_ne := by decide
  inSpace := by decide
  apart := by decide

def noArguments : Query where
  bits := 32
  charSigned := true
  argv := 4
  args := []
  optstring := ⟨64, [97], by decide⟩
  argv_ne := by decide
  optstring_ne := by decide
  inSpace := by decide
  apart := by decide

/-- The letter of value -1 ends the scan, although it is an option; and without the name of the
program the scan reads behind the end of `argv`. -/
theorem last_letter_ends : Returns (scan lastLetter .short) start (fun es _ => es = []) ∧
      (decompose lastLetter false lastLetter.args.tail).1 = [(-1, 0)] ∧
      ¬ Returns (scan noArguments .short) start fun _ _ => True := by
  refine ⟨?_, by decide, not_returns_scan_nil rfl⟩
  have htrace : trace lastLetter .short false 0 lastLetter.args.tail =
      ⟨[⟨-1, 0, some 42⟩], some 1⟩ := by decide +kernel
  have hends : (trace lastLetter .short false 0 lastLetter.args.tail).Completes := by
    exact Or.inr (Option.some_ne_none 1)
  have hsplit : lastLetter.args = [lastLetter.args.head (by decide)] ++ lastLetter.args.tail := rfl
  rw [returns_scan_fresh (fresh_start _) (by decide)]
  refine (returns_scan (by simp) hsplit (on_initial _ _) hends).mono ?_
  rintro es t ⟨hes, -⟩
  rw [hes, htrace]
  rfl

end Klibc.Options.Posix
