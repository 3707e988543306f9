import Klibc.Options.OneCall

/-! # A scan follows its trace

Each call of `getopt` or `getopt_long` does what the next step of the trace says, so that a whole
scan returns the events of the trace. -/

namespace Klibc.Options.Scan

open Lib.CString Lib.Machine Lib.Total Getopt Calls List OneCall

/-! ### Steps -/

structure Makes (q : Query) (sc : Scanner) (s : State) (st : Step) (t : State) : Prop where
  call : call q sc (reset s) = some (st.ret, t)
  optarg : t.optarg = st.optarg
  optptr : t.optptr = st.ptr s.optptr
  optstring : t.lastOptstring = s.lastOptstring
  argv : t.lastArgv = s.lastArgv

inductive Path (q : Query) (sc : Scanner) : State → List Step → State → Prop
  | nil (s : State) : Path q sc s [] s
  | cons {s t u : State} {st : Step} {ss : List Step} :
    Makes q sc s st t → Path q sc t ss u → Path q sc s (st :: ss) u

variable {q : Query} {sc : Scanner} {Q : List Event → State → Prop} {s : State} {next : Option Str}
  {ss : List Step} {p : ℕ} {es : List Event} {pre rest : List Str} {st : Step}

variable {s t : State} {ss ss' : List Step}

lemma Path.append {s t u : State}
    (h : Path q sc s ss t) (h' : Path q sc t ss' u) : Path q sc s (ss ++ ss') u := by
  induction h with
  | nil => exact h'
  | cons hm _ ih => exact .cons hm (ih h')

lemma makes_of_found {i i' p p' : ℕ}
    (hs : On q s i p) (hcall : Returns (call q sc) (reset s) (Found q st i' p'))
    (hptr : st.ptr p = p') : ∃ t, Makes q sc s st t ∧ On q t i' p' := by
  obtain ⟨ret, t, he, hret, hoptarg, ht⟩ := hcall
  refine ⟨t, ⟨by rw [he, hret], hoptarg, ?_, ?_, ?_⟩, ht⟩
  · rw [ht.optptr, hs.optptr, hptr]
  · rw [ht.optstring, hs.optstring]
  · rw [ht.argv, hs.argv]

/-! ### The caller's loop -/

lemma stops_nil : ¬ Stops [] := by simp [Stops]

lemma stops_cons : Stops (st :: ss) ↔ st.ret = -1 ∨ Stops ss := by simp [Stops]

lemma stops_append : Stops (ss ++ ss') ↔ Stops ss ∨ Stops ss' := by
  simp [Stops, or_and_right, exists_or]

lemma returns_loop_makes (h : Makes q sc s st t) : Returns (Loop.run ⟨turn q sc⟩ es) s Q ↔
      if st.ret = -1 then Q es t
      else Returns (Loop.run ⟨turn q sc⟩ (es ++ [(st.ret, st.optarg)])) t Q := by
  have hcall : ∀ R : ℤ → State → Prop, Returns (call q sc) (reset s) R ↔ R st.ret t :=
    fun R => returns_iff_of_eq h.call
  have hreset : { s with optarg := 0 } = reset s := rfl
  rw [returns_loop, turn, returns_bind, returns_modify, hreset, returns_bind, hcall]
  by_cases hret : st.ret = -1
  · rw [if_pos hret, if_pos hret, returns_pure]
    rfl
  · rw [if_neg hret, if_neg hret, returns_bind, returns_get, returns_pure, h.optarg]
    rfl

lemma returns_loop_path (h : Path q sc s ss t) (hgo : ¬ Stops ss) :
    Returns (Loop.run ⟨turn q sc⟩ es) s Q ↔
      Returns (Loop.run ⟨turn q sc⟩ (es ++ events ss)) t Q := by
  induction h generalizing es with
  | nil => rw [events, append_nil]
  | @cons s t u st ss hm _ ih =>
    obtain ⟨hret, hrest⟩ := not_or.1 (stops_cons.not.1 hgo)
    rw [returns_loop_makes hm, if_neg hret, ih hrest, events, if_neg hret, append_assoc]
    rfl

structure After (q : Query) (s : State) (p : ℕ) : Prop where
  optstring : s.lastOptstring = q.optstring.addr
  argv : s.lastArgv = q.argv
  optptr : s.optptr = p

lemma after_of_on {i p : ℕ} (hs : On q s i p) : After q s p := ⟨hs.optstring, hs.argv, hs.optptr⟩

lemma Makes.after (h : Makes q sc s st t) (hs : After q s p) : After q t (st.ptr p) :=
  ⟨h.optstring.trans hs.optstring, h.argv.trans hs.argv, by rw [h.optptr, hs.optptr]⟩

lemma returns_loop_stops (h : Path q sc s ss t) (hs : After q s p) (hstop : Stops ss) :
    Returns (Loop.run ⟨turn q sc⟩ es) s fun es' u =>
      es' = es ++ events ss ∧ After q u (stopPtr p ss) := by
  induction h generalizing p es with
  | nil => exact absurd hstop stops_nil
  | @cons s t u st ss hm _ ih =>
    rw [returns_loop_makes hm, events, stopPtr]
    by_cases hret : st.ret = -1
    · rw [if_pos hret, if_pos hret, if_pos hret, append_nil]
      exact ⟨rfl, hm.after hs⟩
    · have hrest : Stops ss := (stops_cons.1 hstop).resolve_left hret
      rw [if_neg hret, if_neg hret, if_neg hret]
      refine (ih (hm.after hs) hrest).mono ?_
      rintro es' u ⟨rfl, hu⟩
      exact ⟨by rw [append_assoc]; rfl, hu⟩

lemma stopPtr_eq (hgo : ¬ Stops ss) : stopPtr p ss = endPtr p ss := by
  induction ss generalizing p with
  | nil => rfl
  | cons st ss ih =>
    obtain ⟨hret, hrest⟩ := not_or.1 (stops_cons.not.1 hgo)
    rw [stopPtr, if_neg hret, ih hrest]
    rfl

def event (st : Step) : Event := (st.ret, st.optarg)

lemma events_eq (hgo : ¬ Stops ss) : events ss = ss.map event := by
  induction ss with
  | nil => rfl
  | cons st ss ih =>
    obtain ⟨hret, hrest⟩ := not_or.1 (stops_cons.not.1 hgo)
    rw [events, if_neg hret, ih hrest]
    rfl

/-! ### The letters of an argument -/

variable {more : Bool} {a : Str} {c : UInt8}

lemma letterStep_optptr : (letterStep q next p c more).1.optptr = some (p + 1) := by
  unfold letterStep
  split
  · split
    · rfl
    · split <;> rfl
  · rfl
  · rfl

lemma endPtr_letterStep {p p' : ℕ} :
    endPtr p' ((letterStep q next p c more).1 :: ss) = endPtr (p + 1) ss := by
  rw [endPtr, foldl_cons, Step.ptr, letterStep_optptr]
  rfl

lemma letterStep_taken
    (hc : declared q c ≠ some true) : (letterStep q next p c more).2 = false := by
  unfold letterStep
  split
  · rename_i h
    exact absurd h hc
  · rfl
  · rfl

/-- **The calls for the letters of an argument.** -/
theorem path_letters (hpre : pre ≠ []) (hargs : q.args = pre ++ a :: rest)
    (hkind : sc.kind a = .letters) {cs : List UInt8} {p k : ℕ} (hs : On q s pre.length p)
    (hresume : resume q a p = k) (hcs : a.bytes.drop k = cs) (hne : cs ≠ []) : ∃ t,
    Path q sc s (letterSteps q rest.head? (a.addr + k) cs).1 t ∧
      On q t (pre.length + 1 + (letterSteps q rest.head? (a.addr + k) cs).2.toNat)
        (endPtr p (letterSteps q rest.head? (a.addr + k) cs).1) := by
  induction cs generalizing s p k with
  | nil => exact absurd rfl hne
  | cons c cs ih =>
    have hcall : Returns (call q sc) (reset s) (Found q
        (letterStep q rest.head? (a.addr + k) c (cs ≠ [])).1
        (if declared q c = some true ∨ cs = [] then pre.length + 1 +
          (letterStep q rest.head? (a.addr + k) c (cs ≠ [])).2.toNat else pre.length)
        (a.addr + (k + 1))) := by
      rw [call_eq hs.reset hpre hargs, dispatch_letters hkind]
      exact returns_letter hs.reset rfl hargs hresume hcs
    have hptr : (letterStep q rest.head? (a.addr + k) c (cs ≠ [])).1.ptr p = a.addr + (k + 1) := by
      rw [Step.ptr, letterStep_optptr]
      rfl
    obtain ⟨t, hmakes, ht⟩ := makes_of_found hs hcall hptr
    unfold letterSteps
    by_cases hc : declared q c = some true
    · rw [if_pos (Or.inl hc)] at ht
      rw [if_pos hc]
      refine ⟨t, .cons hmakes (.nil t), ?_⟩
      rw [← hptr] at ht
      exact ht
    · rw [if_neg hc]
      by_cases hnil : cs = []
      · rw [if_pos (Or.inr hnil), letterStep_taken hc, ← hptr] at ht
        subst hnil
        exact ⟨t, .cons hmakes (.nil t), ht⟩
      · rw [if_neg (not_or.2 ⟨hc, hnil⟩)] at ht
        have ha : a ∈ q.args := mem_of_split hargs
        obtain ⟨hk, hcs'⟩ := of_drop_eq_cons hcs
        obtain ⟨u, hpath, hu⟩ := ih ht (resume_add ha hk) hcs' hnil
        refine ⟨u, .cons hmakes hpath, ?_⟩
        rw [endPtr_letterStep]
        exact hu

lemma endPtr_append : endPtr p (ss ++ ss') = endPtr (endPtr p ss) ss' := foldl_append

lemma letterSteps_taken {cs : List UInt8}
    (h : (letterSteps q next p cs).2 = true) : next ≠ none := by
  induction cs generalizing p with
  | nil => cases h
  | cons c cs ih =>
    unfold letterSteps at h
    simp only at h
    split_ifs at h with hc
    · rintro rfl
      unfold letterStep at h
      simp only [hc] at h
      split_ifs at h
    · exact ih h

lemma longStep_taken {longopts : List LongOption}
    (h : (longStep longopts a next).2 = true) : next ≠ none := by
  rintro rfl
  unfold longStep at h
  split at h
  · cases h
  · split_ifs at h

lemma longStep_optptr {longopts : List LongOption} :
    (longStep longopts a next).1.optptr = none := by
  unfold longStep
  split
  · rfl
  · split_ifs
    · rfl
    · rfl
    · split <;> rfl
    · rfl

/-! ### A whole scan -/

def Last (q : Query) (sc : Scanner) (t : State) (i p : ℕ) : Option ℕ → Prop
  | some n => Returns (call q sc) (reset t) fun ret u => ret = -1 ∧ On q u (i + n) p
  | none => ∀ Q, ¬ Returns (call q sc) (reset t) Q

lemma path_after {tr : Trace} {i p : ℕ} (h : Path q sc s ss t) (h' : ∃ u, Path q sc t tr.steps u ∧
      Last q sc u (i + 1) (endPtr (endPtr p ss) tr.steps) tr.ends) :
    ∃ u, Path q sc s (tr.after ss).steps u ∧
      Last q sc u i (endPtr p (tr.after ss).steps) (tr.after ss).ends := by
  obtain ⟨u, hpath, hlast⟩ := h'
  refine ⟨u, h.append hpath, ?_⟩
  rw [Trace.after, endPtr_append]
  cases hends : tr.ends with
  | none =>
    rw [hends] at hlast
    exact hlast
  | some n =>
    rw [hends] at hlast
    refine hlast.mono ?_
    rintro ret v ⟨hret, hv⟩
    refine ⟨hret, ?_⟩
    rw [show i + (n + 1) = i + 1 + n by omega]
    exact hv

lemma path_long {rest pre : List Str} (hpre : pre ≠ []) (hargs : q.args = pre ++ a :: rest)
    (hkind : sc.kind a = .long) (hs : On q s pre.length p) : ∃ t,
    Path q sc s [(longStep sc.longopts a rest.head?).1] t ∧
      On q t (pre.length + 1 + (longStep sc.longopts a rest.head?).2.toNat) p ∧
      endPtr p [(longStep sc.longopts a rest.head?).1] = p := by
  obtain ⟨hlong, longindex, hdispatch⟩ := dispatch_long (q := q) hkind
  have hcall : Returns (call q sc) (reset s) (Found q (longStep sc.longopts a rest.head?).1
      (pre.length + 1 + (longStep sc.longopts a rest.head?).2.toNat) p) := by
    rw [call_eq hs.reset hpre hargs, hdispatch]
    exact returns_longOption hs.reset rfl hargs hlong
  have hptr : (longStep sc.longopts a rest.head?).1.ptr p = p := by
    rw [Step.ptr, longStep_optptr]
    rfl
  obtain ⟨t, hmakes, ht⟩ := makes_of_found hs hcall hptr
  exact ⟨t, .cons hmakes (.nil t), ht, hptr⟩

/-- **The calls of a scan are those of its trace.** -/
theorem path_trace (sc : Scanner) {rest pre : List Str} (skip : Bool) (hpre : pre ≠ [])
    (hargs : q.args = pre ++ rest) (hskip : skip = true → rest ≠ [])
    (hs : On q s (pre.length + skip.toNat) p) : ∃ t, Path q sc s (trace q sc skip p rest).steps t ∧
      Last q sc t pre.length (endPtr p (trace q sc skip p rest).steps)
        (trace q sc skip p rest).ends := by
  induction rest generalizing pre skip p s with
  | nil =>
    have hno : skip = false := by
      cases skip with
      | false => rfl
      | true => exact absurd rfl (hskip rfl)
    subst hno
    rw [append_nil] at hargs
    rw [← hargs] at hs hpre ⊢
    exact ⟨s, .nil s, (call_end hs.reset hpre).2 ⟨rfl, hs.reset⟩⟩
  | cons a rest ih =>
    have hsplit := split_next hargs
    have hlen : (pre ++ [a]).length = pre.length + 1 := by rw [length_append]; rfl
    have hpre' : pre ++ [a] ≠ [] := by simp
    have hnext : ∀ {taken : Bool} {p' : ℕ} {t : State}, (taken = true → rest.head? ≠ none) →
        On q t (pre.length + 1 + taken.toNat) p' →
        ∃ u, Path q sc t (trace q sc taken p' rest).steps u ∧ Last q sc u (pre.length + 1)
          (endPtr p' (trace q sc taken p' rest).steps) (trace q sc taken p' rest).ends := by
      intro taken p' t htaken ht
      rw [← hlen] at ht ⊢
      refine ih taken hpre' hsplit ?_ ht
      rintro h rfl
      exact htaken h rfl
    cases skip with
    | true =>
      rw [trace]
      exact path_after (.nil s) (hnext (by simp) hs)
    | false =>
      cases hkind : sc.kind a with
      | operand =>
        rw [trace_operand hkind]
        refine ⟨s, .nil s, ?_⟩
        refine (call_eq hs.reset hpre hargs).2 ?_
        rw [dispatch_operand hkind, returns_pure]
        exact ⟨rfl, hs.reset⟩
      | terminator =>
        rw [trace_terminator hkind]
        refine ⟨s, .nil s, ?_⟩
        refine (call_eq hs.reset hpre hargs).2 ?_
        rw [dispatch_terminator hkind, returns_bind, addOptind, returns_modify, returns_pure]
        exact ⟨rfl, hs.reset.advance 1⟩
      | letters =>
        by_cases hk : resume q a p < a.bytes.length
        · have hne : a.bytes.drop (resume q a p) ≠ [] := by
            rw [Ne, drop_eq_nil_iff]
            omega
          obtain ⟨t, hpath, ht⟩ := path_letters hpre hargs hkind hs rfl rfl hne
          rw [trace_letters hkind rfl hk]
          exact path_after hpath (hnext letterSteps_taken ht)
        · have ha : a ∈ q.args := mem_of_split hargs
          rw [trace_stuck hkind (by omega)]
          refine ⟨s, .nil s, fun Q hcall => ?_⟩
          rw [call_eq hs.reset hpre hargs, dispatch_letters hkind] at hcall
          exact not_returns_letter hs.reset ha (by omega) hcall
      | long =>
        obtain ⟨t, hpath, ht, hend⟩ := path_long hpre hargs hkind hs
        rw [trace_long hkind]
        refine path_after hpath ?_
        rw [hend]
        exact hnext longStep_taken ht

lemma not_returns_loop (h : ∀ Q, ¬ Returns (call q sc) (reset s) Q) :
    ¬ Returns (Loop.run ⟨turn q sc⟩ es) s Q := by
  rw [returns_loop, turn, returns_bind, returns_modify, returns_bind]
  exact h _

section
variable (hpre : pre ≠ []) (hargs : q.args = pre ++ rest) (hs : On q s pre.length p)
include hpre hargs hs

/-- **A scan that comes to an end returns the events of its trace.** -/
theorem returns_scan (hends : (trace q sc false p rest).Completes) :
    Returns (scan q sc) s fun es t => es = events (trace q sc false p rest).steps ∧
      After q t (stopPtr p (trace q sc false p rest).steps) ∧
      (¬ Stops (trace q sc false p rest).steps →
        ∀ n, (trace q sc false p rest).ends = some n → t.optind = pre.length + n) := by
  obtain ⟨t, hpath, hlast⟩ := path_trace sc false hpre hargs (by simp) hs
  generalize trace q sc false p rest = tr at *
  rw [scan]
  by_cases hstop : Stops tr.steps
  · refine (returns_loop_stops hpath (after_of_on hs) hstop).mono ?_
    rintro es u ⟨hes, hu⟩
    exact ⟨hes, hu, fun hgo => absurd hstop hgo⟩
  · obtain ⟨n, hn⟩ := Option.ne_none_iff_exists'.1 (hends.resolve_left hstop)
    rw [hn] at hlast
    obtain ⟨ret, u, hcall, rfl, hu⟩ := hlast
    rw [returns_loop_path hpath hstop, returns_loop, turn, returns_bind, returns_modify,
      returns_bind]
    refine (returns_iff_of_eq hcall).2 ?_
    rw [if_pos rfl, returns_pure, stopPtr_eq hstop]
    refine ⟨rfl, after_of_on hu, fun _ m hm => ?_⟩
    rw [hn] at hm
    cases hm
    rw [hu.optind]
    push_cast
    rfl

lemma not_returns_scan (hends : ¬ (trace q sc false p rest).Completes) :
    ¬ Returns (scan q sc) s Q := by
  obtain ⟨t, hpath, hlast⟩ := path_trace sc false hpre hargs (by simp) hs
  obtain ⟨hgo, hnone⟩ := not_or.1 hends
  rw [not_not.1 hnone] at hlast
  rw [scan, returns_loop_path hpath hgo]
  exact not_returns_loop hlast

end

/-! ### The first call -/

/-- The state does not belong to the query, as at the start of the program. -/
def Fresh (q : Query) (s : State) : Prop :=
  q.optstring.addr ≠ s.lastOptstring ∨ q.argv ≠ s.lastArgv ∨ s.optind < 1 ∨
    (q.args.length : ℤ) < s.optind

instance (q : Query) (s : State) : Decidable (Fresh q s) :=
  inferInstanceAs (Decidable (_ ∨ _ ∨ _ ∨ _))

def start : State := ⟨0, 0, 0, 0, 0, 0, 0, fun _ => 0⟩

lemma fresh_start (q : Query) : Fresh q start := Or.inl q.optstring_ne

def initial (q : Query) (s : State) : State :=
  { s with lastOptstring := q.optstring.addr, lastArgv := q.argv, optind := 1, optptr := 0 }

lemma on_initial (q : Query) (s : State) : On q (initial q s) 1 0 := ⟨rfl, rfl, rfl, rfl⟩

lemma restart_fresh (hs : Fresh q s) : q.restart s = some ((), initial q s) := by
  have he : q.restart s = some ((), if Fresh q s then initial q s else s) := rfl
  rw [he, if_pos hs]

lemma call_congr {s s' t : State} (hs : q.restart s = some ((), t))
    (hs' : q.restart s' = some ((), t)) {Q : ℤ → State → Prop} :
    Returns (call q sc) s Q ↔ Returns (call q sc) s' Q := by
  cases sc with
  | short =>
    rw [call, getopt, returns_bind, returns_bind, returns_iff_of_eq hs, returns_iff_of_eq hs']
  | long longopts longindex =>
    rw [call, getoptLong, returns_bind, returns_bind, returns_iff_of_eq hs, returns_iff_of_eq hs']

/-- **The first call of a scan initializes the query state.** -/
theorem returns_scan_fresh (hs : Fresh q s) (hargs : q.args ≠ []) :
    Returns (scan q sc) s Q ↔ Returns (scan q sc) (initial q s) Q := by
  have hlen := length_pos_iff.2 hargs
  have hfirst : q.restart (reset s) = some ((), reset (initial q s)) := restart_fresh hs
  have hsecond : q.restart (reset (initial q s)) = some ((), reset (initial q s)) :=
    restart_eq (on_initial q s).reset le_rfl hlen
  have hreset : ∀ u : State, { u with optarg := 0 } = reset u := fun _ => rfl
  rw [scan, returns_loop, returns_loop, turn, returns_bind, returns_bind, returns_modify,
    returns_modify, returns_bind, returns_bind, hreset, hreset]
  exact call_congr hfirst hsecond

lemma not_returns_scan_nil (hargs : q.args = []) : ¬ Returns (scan q sc) s Q := by
  have hfresh : Fresh q (reset s) := by
    unfold Fresh
    rw [hargs, length_nil]
    omega
  have hout : q.arg 1 = none := by
    rw [Query.arg, hargs]
    rfl
  refine not_returns_loop fun R => ?_
  cases sc with
  | short =>
    rw [call, getopt, returns_bind, returns_iff_of_eq (restart_fresh hfresh), returns_bind,
      returns_get, returns_bind]
    exact not_returns_access hout
  | long longopts longindex =>
    rw [call, getoptLong, returns_bind, returns_iff_of_eq (restart_fresh hfresh), returns_bind,
      returns_get, returns_bind]
    exact not_returns_access hout

end Klibc.Options.Scan
