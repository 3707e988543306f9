import Klibc.Options.Calls
import Mathlib.Data.List.Basic

/-! # One call

What `getopt` and `getopt_long` do with the argument that `optind` is at: with a letter of it, or
with the whole of it. -/

namespace Klibc.Options.OneCall

open Lib.CString Lib.Machine Lib.Total Getopt Calls List

/-! ### Reads of memory -/

variable {q : Query} {s : State} {a : Str} {Q : ℤ → State → Prop} {cs : List UInt8}
  {pre rest : List Str} {sc : Scanner} {c : UInt8} {i p : ℕ}

lemma returns_access {α : Type} {x : Option α} {v : α} {Q : α → State → Prop}
    (hx : x = some v) : Returns (access x) s Q ↔ Q v s := by
  have he : access x s = some (v, s) := by
    rw [hx]
    rfl
  exact returns_iff_of_eq he

lemma mem_of_split (hargs : q.args = pre ++ a :: rest) : a ∈ q.args := by
  rw [hargs]
  exact mem_append_right _ mem_cons_self

lemma split_next (hargs : q.args = pre ++ a :: rest) : q.args = (pre ++ [a]) ++ rest := by
  rw [hargs, append_assoc]
  rfl

lemma arg_eq (h : q.args = pre ++ rest) : q.arg (pre.length : ℤ) = some rest.head? := by
  rw [Query.arg, if_pos (Int.natCast_nonneg _), h, Int.toNat_natCast, map_append, append_assoc,
    getElem?_append_right (by rw [length_map]), length_map, Nat.sub_self]
  cases rest <;> rfl

structure On (q : Query) (s : State) (i p : ℕ) : Prop where
  optstring : s.lastOptstring = q.optstring.addr
  argv : s.lastArgv = q.argv
  optind : s.optind = i
  optptr : s.optptr = p

def reset (s : State) : State := { s with optarg := 0 }

lemma On.reset (hs : On q s i p) : On q (reset s) i p :=
  ⟨hs.optstring, hs.argv, hs.optind, hs.optptr⟩

lemma restart_eq (hs : On q s i p) (h1 : 1 ≤ i)
    (hi : i ≤ q.args.length) : q.restart s = some ((), s) := by
  have hno : ¬ (q.optstring.addr ≠ s.lastOptstring ∨ q.argv ≠ s.lastArgv ∨ s.optind < 1 ∨
      (q.args.length : ℤ) < s.optind) := by
    rw [hs.optstring, hs.argv, hs.optind]
    omega
  have he : q.restart s = some ((), if q.optstring.addr ≠ s.lastOptstring ∨ q.argv ≠ s.lastArgv ∨
      s.optind < 1 ∨ (q.args.length : ℤ) < s.optind then _ else s) := rfl
  rw [he, if_neg hno]

/-! ### Which part of a call is reached -/

def dispatch (q : Query) (sc : Scanner) (carg : Str) : Call ℤ :=
  match sc.kind carg, sc with
  | .operand, _ => return -1
  | .terminator, _ => do
    addOptind 1
    return -1
  | .letters, _ => q.shortOption carg
  | .long, .long longopts longindex => do
    addOptind 1
    q.longOption longopts longindex carg
  | .long, .short => return -1 -- `getopt` has no long options

lemma dispatch_operand (h : sc.kind a = .operand) : dispatch q sc a = pure (-1) := by
  unfold dispatch
  rw [h]

lemma dispatch_terminator (h : sc.kind a = .terminator) :
    dispatch q sc a = (do addOptind 1; return -1) := by
  unfold dispatch
  rw [h]

lemma dispatch_letters (h : sc.kind a = .letters) : dispatch q sc a = q.shortOption a := by
  unfold dispatch
  rw [h]

lemma one_lt_length (h : sc.kind a ≠ .operand) : 1 < a.bytes.length := by
  unfold Scanner.kind at h
  split at h
  · rename_i hb
    rw [hb, length_cons, length_cons]
    omega
  · exact absurd rfl h

lemma dispatch_long (h : sc.kind a = .long) :
    2 ≤ a.bytes.length ∧ ∃ longindex, dispatch q sc a = (do
      addOptind 1
      q.longOption sc.longopts longindex a) := by
  refine ⟨one_lt_length (h.trans_ne (by decide)), ?_⟩
  cases sc with
  | short =>
    exfalso
    unfold Scanner.kind at h
    split at h
    · split_ifs at h
    · cases h
  | long longopts longindex =>
    refine ⟨longindex, ?_⟩
    unfold dispatch
    rw [h]
    rfl

def tests (a : Str) (k : Call ℤ) : Call ℤ := do
  if (← access (a.at 0)) ≠ dash then return -1
  else if (← access (a.at 1)) = 0 then return -1
  else k

lemma returns_tests_option {k : Call ℤ} (hb : a.bytes = dash :: c :: cs) :
    Returns (tests a k) s Q ↔ Returns k s Q := by
  have h0 : a.at 0 = some dash := by rw [Str.at, hb]; rfl
  have h1 : a.at 1 = some c := by rw [Str.at, hb]; rfl
  have hc : c ≠ 0 := by
    rintro rfl
    have hnonul := a.nonul
    rw [hb] at hnonul
    exact hnonul (mem_cons_of_mem _ mem_cons_self)
  rw [tests, returns_bind, returns_access h0, if_neg (not_not.2 rfl), returns_bind,
    returns_access h1, if_neg hc]

lemma returns_tests_operand {k : Call ℤ}
    (hb : ∀ c cs, a.bytes ≠ dash :: c :: cs) : Returns (tests a k) s Q ↔ Q (-1) s := by
  rw [tests, returns_bind]
  cases ha : a.bytes with
  | nil =>
    have h0 : a.at 0 = some 0 := by rw [Str.at, ha]; rfl
    rw [returns_access h0, if_pos (by decide), returns_pure]
  | cons c cs =>
    have h0 : a.at 0 = some c := by rw [Str.at, ha]; rfl
    rw [returns_access h0]
    by_cases hc : c = dash
    · subst hc
      cases cs with
      | nil =>
        have h1 : a.at 1 = some 0 := by rw [Str.at, ha]; rfl
        rw [if_neg (not_not.2 rfl), returns_bind, returns_access h1, if_pos rfl, returns_pure]
      | cons c' cs => exact absurd ha (hb c' cs)
    · rw [if_pos hc, returns_pure]

lemma kind_operand (hb : ∀ c cs, a.bytes ≠ dash :: c :: cs) : sc.kind a = .operand := by
  unfold Scanner.kind
  split
  · rename_i c c' cs ha
    have hc : c ≠ dash := by
      rintro rfl
      exact hb _ _ ha
    rw [if_pos hc]
  · rfl

lemma kind_option (hb : a.bytes = dash :: c :: cs) :
    sc.kind a = if c ≠ dash then .letters else if cs = [] then .terminator
      else match sc with
        | .short => .letters
        | .long _ _ => .long := by
  unfold Scanner.kind
  rw [hb]
  exact if_neg (not_not.2 rfl)

lemma at_two (hb : a.bytes = dash :: c :: cs) : ∃ b, a.at 2 = some b ∧ (b = 0 ↔ cs = []) := by
  cases cs with
  | nil => exact ⟨0, by rw [Str.at, hb]; rfl, by simp⟩
  | cons b cs =>
    refine ⟨b, by rw [Str.at, hb]; rfl, ?_⟩
    have hnonul := a.nonul
    rw [hb] at hnonul
    have hne : b ≠ 0 := by
      rintro rfl
      simp at hnonul
    simp [hne]

variable {k p i : ℕ}

lemma call_eq (hs : On q s pre.length p) (hpre : pre ≠ []) (hargs : q.args = pre ++ a :: rest) :
    Returns (call q sc) s Q ↔ Returns (dispatch q sc a) s Q := by
  have hlen : pre.length ≤ q.args.length := by
    rw [hargs, length_append]
    omega
  have hrestart := restart_eq hs (length_pos_iff.2 hpre) hlen
  have harg : q.arg s.optind = some (some a) := by rw [hs.optind, arg_eq hargs]; rfl
  have hcall : Returns (call q sc) s Q ↔ Returns (tests a (match sc with
      | .short => do
        if (← access (a.at 1)) = dash ∧ a.at 2 = some 0 then
          addOptind 1
          return -1
        else q.shortOption a
      | .long longopts longindex => do
        if (← access (a.at 1)) = dash then
          addOptind 1
          if (← access (a.at 2)) = 0 then return -1
          else q.longOption longopts longindex a
        else q.shortOption a)) s Q := by
    cases sc with
    | short =>
      rw [call, getopt, returns_bind, returns_iff_of_eq hrestart, returns_bind, returns_get,
        returns_bind, returns_access harg]
      rfl
    | long longopts longindex =>
      rw [call, getoptLong, returns_bind, returns_iff_of_eq hrestart, returns_bind, returns_get,
        returns_bind, returns_access harg]
      rfl
  rw [hcall]
  by_cases hb : ∃ c cs, a.bytes = dash :: c :: cs
  · obtain ⟨c, cs, hb⟩ := hb
    have h1 : a.at 1 = some c := by rw [Str.at, hb]; rfl
    obtain ⟨b, h2, hb2⟩ := at_two hb
    unfold dispatch
    rw [returns_tests_option hb, kind_option hb]
    cases sc with
    | short =>
      rw [returns_bind, returns_access h1, h2]
      simp only [Option.some_inj, hb2]
      by_cases hc : c = dash <;> by_cases hcs : cs = [] <;> simp [hc, hcs]
    | long longopts longindex =>
      rw [returns_bind, returns_access h1]
      by_cases hc : c = dash
      · rw [if_pos hc, returns_bind]
        simp only [hc, ne_eq, not_true_eq_false, if_false]
        by_cases hcs : cs = []
        · rw [if_pos hcs]
          simp only [returns_bind, addOptind, returns_modify, returns_access h2, if_pos (hb2.2 hcs)]
        · rw [if_neg hcs]
          simp only [returns_bind, addOptind, returns_modify, returns_access h2,
            if_neg (fun h => hcs (hb2.1 h))]
      · rw [if_neg hc]
        simp [hc]
  · have hno : ∀ c cs, a.bytes ≠ dash :: c :: cs := fun c cs h => hb ⟨c, cs, h⟩
    unfold dispatch
    rw [returns_tests_operand hno, kind_operand hno]
    exact returns_pure.symm

lemma call_end (hs : On q s q.args.length p)
    (hne : q.args ≠ []) : Returns (call q sc) s Q ↔ Q (-1) s := by
  have hrestart := restart_eq hs (length_pos_iff.2 hne) le_rfl
  have harg : q.arg s.optind = some none := by
    rw [hs.optind, arg_eq (append_nil q.args).symm]
    rfl
  cases sc with
  | short =>
    rw [call, getopt, returns_bind, returns_iff_of_eq hrestart, returns_bind, returns_get,
      returns_bind, returns_access harg, returns_pure]
  | long longopts longindex =>
    rw [call, getoptLong, returns_bind, returns_iff_of_eq hrestart, returns_bind, returns_get,
      returns_bind, returns_access harg, returns_pure]

/-! ### A letter -/

lemma resume_eq (ha : a ∈ q.args) (p : ℕ) :
    (if unsigned q.bits (p - a.addr) > a.bytes.length then a.addr + 1 else p) =
      a.addr + resume q a p := by
  unfold resume
  split_ifs with h
  · rfl
  · -- an address below the argument would be too far up
    have hle : a.addr ≤ p := by
      by_contra hlt
      have hlast := (q.inSpace a ha).2
      rw [Str.last] at hlast
      have hneg : (p : ℤ) - a.addr = -((a.addr - p : ℕ) : ℤ) := by omega
      rw [hneg, unsigned_neg (by omega) (by omega)] at h
      omega
    omega

lemma resume_add (ha : a ∈ q.args) (hk : k ≤ a.bytes.length) : resume q a (a.addr + k) = k := by
  have hlast := (q.inSpace a ha).2
  rw [Str.last] at hlast
  have hdiff : ((a.addr + k : ℕ) : ℤ) - a.addr = k := by omega
  rw [resume, hdiff, unsigned_eq (by omega), if_neg (by omega)]
  omega

lemma at_drop (hcs : a.bytes.drop k = cs)
    (hk : k ≤ a.bytes.length) : a.at k = some (cs.headD 0) ∧ (cs.headD 0 = 0 ↔ cs = []) := by
  have hat : a.at k = (cs ++ [0]).head? := by
    rw [Str.at, ← head?_drop, drop_append_of_le_length hk, hcs]
  cases cs with
  | nil => exact ⟨hat, by simp⟩
  | cons c cs =>
    have hmem : c ∈ a.bytes := mem_of_mem_drop (hcs ▸ mem_cons_self)
    have hc : c ≠ 0 := by
      rintro rfl
      exact a.nonul hmem
    exact ⟨hat, by simp [hc]⟩

lemma returns_lookup (hc : c ≠ 0) {x y z : Call ℤ} :
    Returns (match if c ≠ colon then strchr q.optstring c else none with
      | some osptr => do if (← access (q.optstring.at (osptr + 1))) = colon then x else y
      | none => z) s Q ↔
    Returns (match declared q c with
      | some true => x
      | some false => y
      | none => z) s Q := by
  by_cases hfind : c = colon ∨ c ∉ q.optstring.bytes
  · have hnone : (if c ≠ colon then strchr q.optstring c else none) = none := by
      by_cases hcolon : c = colon
      · exact if_neg (not_not.2 hcolon)
      · have hmem := hfind.resolve_left hcolon
        have hidx : q.optstring.bytes.length < (q.optstring.bytes ++ [0]).idxOf c := by
          rw [idxOf_append_of_notMem hmem, idxOf_cons_ne _ hc.symm]
          omega
        rw [if_pos hcolon, strchr]
        exact if_neg (by omega)
    rw [hnone, declared, if_pos hfind]
  · have hcolon : c ≠ colon := fun h => hfind (Or.inl h)
    have hmem : c ∈ q.optstring.bytes := by
      by_contra h
      exact hfind (Or.inr h)
    have hlt : q.optstring.bytes.idxOf c < q.optstring.bytes.length := idxOf_lt_length_iff.2 hmem
    have hsome : (if c ≠ colon then strchr q.optstring c else none) =
        some (q.optstring.bytes.idxOf c) := by
      rw [if_pos hcolon, strchr, idxOf_append_of_mem hmem]
      exact if_pos hlt.le
    obtain ⟨hat, -⟩ := at_drop (a := q.optstring) (k := q.optstring.bytes.idxOf c + 1) rfl hlt
    rw [hsome, declared, if_neg hfind, returns_bind, returns_access hat, ← head?_drop]
    cases q.optstring.bytes.drop (q.optstring.bytes.idxOf c + 1) with
    | nil => rfl
    | cons b bs =>
      by_cases hb : b = colon
      · simp [hb]
      · simp [hb]

def Found (q : Query) (st : Step) (i p : ℕ) (ret : ℤ) (t : State) : Prop :=
  ret = st.ret ∧ t.optarg = st.optarg ∧ On q t i p

lemma returns_peek {Q : UInt8 → State → Prop}
    (hptr : s.optptr = a.addr + k) (hk : k ≤ a.bytes.length) (hcs : a.bytes.drop k = cs) :
    Returns (peek a) s Q ↔ Q (cs.headD 0) s := by
  have hoff : s.optptr - a.addr = k := by omega
  rw [peek, returns_bind, returns_get, hoff, returns_access (at_drop hcs hk).1]

lemma On.advance (hs : On q s i p) (n : ℕ) : On q { s with optind := s.optind + n } (i + n) p :=
  ⟨hs.optstring, hs.argv, by simp [hs.optind], hs.optptr⟩

lemma returns_nextIfDone
    (hs : On q s i (a.addr + k)) (hk : k ≤ a.bytes.length) (hcs : a.bytes.drop k = cs) :
    Returns (nextIfDone a) s fun _ t =>
      t.optarg = s.optarg ∧ On q t (if cs = [] then i + 1 else i) (a.addr + k) := by
  rw [nextIfDone, returns_bind, returns_peek hs.optptr hk hcs]
  have hend := (at_drop hcs hk).2
  by_cases hnil : cs = []
  · rw [if_pos (hend.2 hnil), addOptind, returns_modify, if_pos hnil]
    exact ⟨rfl, hs.advance 1⟩
  · rw [if_neg (fun h => hnil (hend.1 h)), returns_pure, if_neg hnil]
    exact ⟨rfl, hs⟩

lemma returns_takeArgument (hs : On q s pre.length (a.addr + (k + 1)))
    (hoptarg : s.optarg = 0) (hargs : q.args = pre ++ a :: rest) (hk : k + 1 ≤ a.bytes.length)
    (hcs : a.bytes.drop (k + 1) = cs) (hc : declared q c = some true) :
    Returns (q.takeArgument a c) s (Found q (letterStep q rest.head? (a.addr + k) c (cs ≠ [])).1
      (pre.length + 1 + (letterStep q rest.head? (a.addr + k) c (cs ≠ [])).2.toNat)
      (a.addr + (k + 1))) := by
  rw [Query.takeArgument, returns_bind, returns_peek hs.optptr hk hcs]
  unfold letterStep
  simp only [hc]
  have hend := (at_drop hcs hk).2
  by_cases hnil : cs = []
  · rw [if_neg (not_not.2 (hend.2 hnil))]
    have hnext : q.arg (s.optind + 1) = some rest.head? := by
      have hsplit := split_next hargs
      have harg := arg_eq hsplit
      rw [length_append] at harg
      rw [hs.optind]
      exact harg
    rw [returns_bind, returns_get, returns_bind, returns_access hnext]
    simp only [hnil, ne_eq, not_true_eq_false, decide_false, Bool.false_eq_true, if_false]
    cases rest with
    | nil =>
      have hat := (at_drop (a := q.optstring) (k := 0) rfl (Nat.zero_le _)).1
      simp only [head?_nil, returns_bind, addOptind, returns_modify, returns_access hat,
        returns_pure]
      refine ⟨?_, hoptarg, hs.advance 1⟩
      rw [missing, drop_zero]
      cases q.optstring.bytes with
      | nil => rfl
      | cons b bs => simp
    | cons arg rest =>
      simp only [head?_cons, returns_bind, addOptind, returns_modify, returns_pure]
      exact ⟨rfl, rfl, hs.optstring, hs.argv, by simp [hs.optind]; omega, hs.optptr⟩
  · rw [if_pos (fun h => hnil (hend.1 h))]
    simp only [hnil, ne_eq, not_false_eq_true, decide_true, if_true, returns_bind, addOptind,
      returns_modify, returns_pure]
    exact ⟨rfl, hs.optptr, (hs.advance 1).optstring, hs.argv, (hs.advance 1).optind, hs.optptr⟩

lemma moved_eq (hs : On q s i p) (ha : a ∈ q.args) :
    ∃ t, On q t i (a.addr + resume q a p) ∧ t.optarg = s.optarg ∧
      (if unsigned q.bits (s.optptr - a.addr) > a.bytes.length then
        { s with optptr := a.addr + 1 } else s) = t := by
  have hptr := resume_eq ha p
  rw [← hs.optptr] at hptr ⊢
  refine ⟨_, ?_, ?_, rfl⟩
  · split_ifs at hptr ⊢
    · exact ⟨hs.optstring, hs.argv, hs.optind, hptr⟩
    · exact ⟨hs.optstring, hs.argv, hs.optind, hptr⟩
  · split_ifs <;> rfl

lemma shortOption_eq (hs : On q s i p) (ha : a ∈ q.args) (hresume : resume q a p = k)
    (hcs : a.bytes.drop k = c :: cs) (hk : k < a.bytes.length) :
    ∃ t, On q t i (a.addr + (k + 1)) ∧ t.optarg = s.optarg ∧ ∀ Q : ℤ → State → Prop,
      Returns (q.shortOption a) s Q ↔ Returns (match declared q c with
        | some true => q.takeArgument a c
        | some false => do
          nextIfDone a
          return q.value c
        | none => do
          modify fun s => { s with optopt := q.value c }
          nextIfDone a
          return question) t Q := by
  have hc : c ≠ 0 := fun h => by simpa using (at_drop hcs hk.le).2.1 h
  obtain ⟨s1, hs1, hoptarg1, hmodify1⟩ := moved_eq hs ha
  rw [hresume] at hs1
  refine ⟨{ s1 with optptr := s1.optptr + 1 }, ?_, hoptarg1, fun Q => ?_⟩
  · refine ⟨hs1.optstring, hs1.argv, hs1.optind, ?_⟩
    simp only [hs1.optptr]
    omega
  · rw [Query.shortOption, returns_bind, returns_modify, hmodify1, returns_bind,
      returns_peek hs1.optptr hk.le hcs, headD_cons, returns_bind, returns_modify]
    exact returns_lookup hc

lemma of_drop_eq_cons {l : List UInt8} (h : l.drop k = c :: cs) :
    k < l.length ∧ l.drop (k + 1) = cs := by
  constructor
  · by_contra hle
    rw [drop_eq_nil_of_le (by omega)] at h
    cases h
  · rw [← drop_drop, h]
    rfl

/-- **A call on a letter.** -/
theorem returns_letter (hs : On q s pre.length p) (hoptarg : s.optarg = 0)
    (hargs : q.args = pre ++ a :: rest) (hresume : resume q a p = k)
    (hcs : a.bytes.drop k = c :: cs) :
    Returns (q.shortOption a) s (Found q (letterStep q rest.head? (a.addr + k) c (cs ≠ [])).1
      (if declared q c = some true ∨ cs = [] then pre.length + 1 +
        (letterStep q rest.head? (a.addr + k) c (cs ≠ [])).2.toNat else pre.length)
      (a.addr + (k + 1))) := by
  have ha : a ∈ q.args := mem_of_split hargs
  obtain ⟨hk, hcs'⟩ := of_drop_eq_cons hcs
  obtain ⟨t, ht, hoptargt, hoption⟩ := shortOption_eq hs ha hresume hcs hk
  rw [hoption]
  rw [hoptarg] at hoptargt
  -- a letter without an argument leaves the argument when it is the last one
  have hnext : ∀ u : State, On q u pre.length (a.addr + (k + 1)) → u.optarg = 0 →
      declared q c ≠ some true → ∀ st : Step, st.optarg = 0 →
      Returns (do nextIfDone a; return st.ret) u (Found q st
        (if declared q c = some true ∨ cs = [] then pre.length + 1 + false.toNat else pre.length)
        (a.addr + (k + 1))) := by
    intro u hu hzero hno st hst
    have hiff : (declared q c = some true ∨ cs = []) ↔ cs = [] := or_iff_right hno
    rw [returns_bind]
    refine (returns_nextIfDone hu hk hcs').mono fun _ v hv => ?_
    rw [returns_pure]
    refine ⟨rfl, hv.1.trans (hzero.trans hst.symm), ?_⟩
    simp only [hiff]
    exact hv.2
  unfold letterStep
  cases hc : declared q c with
  | none =>
    rw [hc] at hnext
    have hu : On q { t with optopt := q.value c } pre.length (a.addr + (k + 1)) :=
      ⟨ht.optstring, ht.argv, ht.optind, ht.optptr⟩
    exact hnext _ hu hoptargt (by simp) ⟨question, 0, _⟩ rfl
  | some takes =>
    cases takes with
    | true =>
      have hret := returns_takeArgument ht hoptargt hargs hk hcs' hc
      unfold letterStep at hret
      simp only [hc] at hret
      exact hret
    | false =>
      rw [hc] at hnext
      exact hnext t ht hoptargt (by simp) ⟨q.value c, 0, _⟩ rfl

lemma not_returns_access {α : Type} {x : Option α} {Q : α → State → Prop}
    (hx : x = none) : ¬ Returns (access x) s Q := by
  have he : access x s = none := by
    rw [hx]
    rfl
  exact not_returns_of_eq_none he

/-- At the end of an argument the zero byte is found at the end of the option string, and the byte
behind that is read. -/
theorem not_returns_letter (hs : On q s i p) (ha : a ∈ q.args)
    (hk : a.bytes.length ≤ resume q a p) : ¬ Returns (q.shortOption a) s Q := by
  obtain ⟨t, ht, -, hmodify⟩ := moved_eq hs ha
  rw [Query.shortOption, returns_bind, returns_modify, hmodify, returns_bind]
  rcases hk.eq_or_lt with heq | hlt
  · have hfind : strchr q.optstring 0 = some q.optstring.bytes.length := by
      have hidx : (q.optstring.bytes ++ [0]).idxOf 0 = q.optstring.bytes.length := by
        rw [idxOf_append_of_notMem q.optstring.nonul]
        rfl
      rw [strchr, hidx]
      exact if_pos le_rfl
    have hout : q.optstring.at (q.optstring.bytes.length + 1) = none := by
      rw [Str.at, getElem?_eq_none (by simp)]
    rw [returns_peek ht.optptr heq.ge (drop_eq_nil_of_le hk), headD_nil, returns_bind,
      returns_modify, if_pos (by decide), hfind]
    simp only [returns_bind]
    exact not_returns_access hout
  · have hoff : t.optptr - a.addr = resume q a p := by
      rw [ht.optptr]
      omega
    have hout : a.at (resume q a p) = none := by rw [Str.at, getElem?_eq_none (by simp; omega)]
    rw [peek, returns_bind, returns_get, hoff]
    exact not_returns_access hout

/-! ### A long option -/

/-- The name in the text behind `--`. -/
def nameOf (text : List UInt8) : List UInt8 := text.takeWhile (· ≠ equals)

lemma optionMatches_eq (arg name : List UInt8) :
    optionMatches arg name = if name = nameOf arg then some name.length else none := by
  induction arg generalizing name with
  | nil =>
    rw [optionMatches, nameOf, takeWhile_nil]
    split_ifs with h
    · rw [h, length_nil]
    · rfl
  | cons c arg ih =>
    unfold optionMatches
    by_cases hc : c = equals
    · rw [if_pos hc, nameOf, takeWhile_cons_of_neg (by simp [hc])]
      split_ifs with h
      · rw [h, length_nil]
      · rfl
    · rw [if_neg hc, nameOf, takeWhile_cons_of_pos (by simp [hc])]
      cases name with
      | nil => rfl
      | cons n name =>
        simp only [cons.injEq, ih, nameOf]
        split_ifs <;> simp_all

lemma findOption_eq_none {text : List UInt8} {los : List LongOption}
    (h : findOption text los = none) : ∀ lo ∈ los, lo.name ≠ nameOf text := by
  induction los with
  | nil => simp
  | cons lo los ih =>
    rw [findOption, optionMatches_eq] at h
    by_cases hname : lo.name = nameOf text
    · simp [hname] at h
    · simp only [if_neg hname, Option.map_eq_none_iff] at h
      exact forall_mem_cons.2 ⟨hname, ih h⟩

lemma findOption_eq_some {text : List UInt8} {los : List LongOption} {lo : LongOption} {n : ℕ}
    (h : findOption text los = some (lo, i, n)) :
    los[i]? = some lo ∧ lo.name = nameOf text ∧ n = (nameOf text).length := by
  induction los generalizing i with
  | nil => cases h
  | cons lo' los ih =>
    rw [findOption, optionMatches_eq] at h
    by_cases hname : lo'.name = nameOf text
    · simp only [if_pos hname] at h
      cases h
      exact ⟨rfl, hname, congrArg length hname⟩
    · simp only [if_neg hname] at h
      obtain ⟨⟨lo1, i1, n1⟩, hfind, he⟩ := Option.map_eq_some_iff.1 h
      cases he
      exact ih hfind

lemma returns_finish {lo : LongOption} (hs : On q s i p) : Returns lo.finish s fun ret t =>
      ret = LongOption.ret lo ∧ t.optarg = s.optarg ∧ On q t i p := by
  rw [LongOption.finish, LongOption.ret]
  cases lo.flag with
  | none => exact returns_pure.2 ⟨rfl, rfl, hs⟩
  | some f =>
    simp only [returns_bind, returns_modify, returns_pure]
    exact ⟨rfl, trivial, hs.optstring, hs.argv, hs.optind, hs.optptr⟩

/-- **A call on a long option.** -/
theorem returns_longOption {longopts : List LongOption} {longindex : Bool}
    (hs : On q s pre.length p) (hoptarg : s.optarg = 0)
    (hargs : q.args = pre ++ a :: rest) (hlen : 2 ≤ a.bytes.length) :
    Returns (do addOptind 1; q.longOption longopts longindex a) s
      (Found q (longStep longopts a rest.head?).1
        (pre.length + 1 + (longStep longopts a rest.head?).2.toNat) p) := by
  rw [returns_bind, addOptind, returns_modify]
  have hs1 := hs.advance 1
  have hoptarg1 : { s with optind := s.optind + (1 : ℕ) }.optarg = 0 := hoptarg
  generalize { s with optind := s.optind + (1 : ℕ) } = s1 at *
  unfold Query.longOption longStep
  cases hfind : findOption (a.bytes.drop 2) longopts with
  | none => exact returns_pure.2 ⟨rfl, hoptarg1, hs1⟩
  | some r =>
    obtain ⟨lo, i, n⟩ := r
    obtain ⟨-, -, hname⟩ := findOption_eq_some hfind
    have hn := (List.takeWhile_prefix (· ≠ equals) (l := a.bytes.drop 2)).length_le
    rw [length_drop, ← nameOf, ← hname] at hn
    obtain ⟨hat, -⟩ := at_drop (a := a) (k := 2 + n) rfl (by omega)
    generalize (a.bytes.drop (2 + n)).headD 0 = b at hat
    obtain ⟨s2, hs2, hoptarg2, hmodify⟩ : ∃ s2, On q s2 (pre.length + 1) p ∧ s2.optarg = 0 ∧
        (if longindex then { s1 with longindex := i } else s1) = s2 := by
      refine ⟨_, ?_, ?_, rfl⟩
      · split_ifs
        · exact ⟨hs1.optstring, hs1.argv, hs1.optind, hs1.optptr⟩
        · exact hs1
      · split_ifs <;> exact hoptarg1
    simp only [returns_bind, returns_modify, hmodify, returns_access hat]
    simp only [hat, Option.some_inj]
    have hgiven : ∀ addr, On q { s2 with optarg := addr } (pre.length + 1) p := fun addr =>
      ⟨hs2.optstring, hs2.argv, hs2.optind, hs2.optptr⟩
    by_cases hb : b = equals
    · rw [if_pos hb, if_pos hb]
      by_cases hno : lo.hasArg = 0
      · rw [if_neg (not_not.2 hno), if_neg (not_not.2 hno)]
        exact returns_pure.2 ⟨rfl, hoptarg2, hs2⟩
      · rw [if_pos hno, if_pos hno, returns_bind, returns_modify]
        exact returns_finish (hgiven _)
    · rw [if_neg hb, if_neg hb]
      by_cases hone : lo.hasArg = 1
      · rw [if_pos hone, if_pos hone]
        have hnext : q.arg s2.optind = some rest.head? := by
          have hsplit := split_next hargs
          have harg := arg_eq hsplit
          rw [length_append] at harg
          rw [hs2.optind]
          exact harg
        rw [returns_bind, returns_get, returns_bind, returns_access hnext]
        cases rest with
        | nil => exact returns_pure.2 ⟨rfl, rfl, hgiven 0⟩
        | cons arg rest => exact returns_finish ((hgiven arg.addr).advance 1)
      · rw [if_neg hone, if_neg hone]
        refine (returns_finish hs2).mono ?_
        rintro ret t ⟨hret, harg, ht⟩
        exact ⟨hret, harg.trans hoptarg2, ht⟩

end Klibc.Options.OneCall
