import Klibc.Options.Position

/-! # A second scan of the same arguments

The position pointer of the first scan stays where it is when `optind` is set back. The second scan
takes it for a place in the first argument with short options if it lies there. -/

namespace Klibc.Options.Rescan

open Lib.CString Lib.Machine Lib.Total Getopt Calls List OneCall Scan Position

/-- The arguments are scanned, `optind` is set back, and they are scanned again. -/
def rescan (q : Query) (sc : Scanner) : Call (List Event × List Event) := do
  let es ← scan q sc
  modify fun s => { s with optind := 1 }
  let es' ← scan q sc
  return (es, es')

/-! ### Two traces -/

/-- The position pointer after a scan of some arguments from a fresh state. -/
def leftPtr (q : Query) (sc : Scanner) (rest : List Str) : ℕ :=
  stopPtr 0 (trace q sc false 0 rest).steps

lemma returns_rescan {q : Query} {sc : Scanner} {s : State} {prog : Str} {rest : List Str}
    (hs : Fresh q s) (hargs : q.args = prog :: rest) :
    Returns (rescan q sc) s (fun r _ => r.1 = r.2) ↔
      (trace q sc false (leftPtr q sc rest) rest).Completes ∧
        events (trace q sc false 0 rest).steps =
          events (trace q sc false (leftPtr q sc rest) rest).steps := by
  have hne : q.args ≠ [] := by simp [hargs]
  have hargs' : q.args = [prog] ++ rest := hargs
  have hbehind : Behind q 0 rest := behind_zero fun a ha => by
    rw [hargs]
    exact mem_cons_of_mem _ ha
  have hends : (trace q sc false 0 rest).Completes := Or.inr (trace_tidy sc false hargs' hbehind).1
  obtain ⟨es, t, hscan, hes, hafter, -⟩ := returns_scan (by simp) hargs' (on_initial q s) hends
  have ht : On q { t with optind := 1 } 1 (leftPtr q sc rest) :=
    ⟨hafter.optstring, hafter.argv, rfl, hafter.optptr⟩
  rw [rescan, returns_bind, returns_scan_fresh hs hne, returns_iff_of_eq hscan, returns_bind,
    returns_modify, returns_bind, hes]
  by_cases hcomplete : (trace q sc false (leftPtr q sc rest) rest).Completes
  · obtain ⟨es', u, hscan', hes', -⟩ := returns_scan (by simp) hargs' ht hcomplete
    rw [returns_iff_of_eq hscan', returns_pure, hes']
    exact (and_iff_right hcomplete).symm
  · refine iff_of_false (not_returns_scan (by simp) hargs' ht hcomplete) ?_
    exact fun h => hcomplete h.1

/-! ### An argument with short options -/

lemma stopPtr_mem (p : ℕ) (ss : List Step) :
    stopPtr p ss = p ∨ ∃ st ∈ ss, st.optptr = some (stopPtr p ss) := by
  induction ss generalizing p with
  | nil => exact Or.inl rfl
  | cons st ss ih =>
    have hst : st.ptr p = p ∨ st.optptr = some (st.ptr p) := by
      rw [Step.ptr]
      cases st.optptr with
      | none => exact Or.inl rfl
      | some x => exact Or.inr rfl
    have hhead : ∀ x, st.ptr p = x → x = p ∨ ∃ st' ∈ st :: ss, st'.optptr = some x := by
      rintro x rfl
      exact hst.imp_right fun h => ⟨st, mem_cons_self, h⟩
    rw [stopPtr]
    split_ifs
    · exact hhead _ rfl
    · rcases ih (st.ptr p) with h | ⟨st', hmem, h⟩
      · exact hhead _ h.symm
      · exact Or.inr ⟨st', mem_cons_of_mem _ hmem, h⟩

lemma stopPtr_stored {st : Step} {x : ℕ} (hst : st.optptr = some x) (p : ℕ) (ss : List Step) :
    ∃ st' ∈ st :: ss, st'.optptr = some (stopPtr p (st :: ss)) := by
  have hx : st.ptr p = x := by rw [Step.ptr, hst, Option.getD_some]
  rw [stopPtr, hx]
  split_ifs
  · exact ⟨st, mem_cons_self, hst⟩
  · rcases stopPtr_mem x ss with h | ⟨st', hmem, h⟩
    · exact ⟨st, mem_cons_self, by rw [h, hst]⟩
    · exact ⟨st', mem_cons_of_mem _ hmem, h⟩

lemma append_of_stops {ss : List Step} (h : Stops ss) (p : ℕ) (ss' : List Step) :
    events (ss ++ ss') = events ss ∧ stopPtr p (ss ++ ss') = stopPtr p ss := by
  induction ss generalizing p with
  | nil => exact absurd h stops_nil
  | cons st ss ih =>
    rw [cons_append, events, events, stopPtr, stopPtr]
    split_ifs with hret
    · exact ⟨rfl, rfl⟩
    · obtain ⟨hevents, hptr⟩ := ih ((stops_cons.1 h).resolve_left hret) (st.ptr p)
      exact ⟨by rw [hevents], hptr⟩

lemma append_of_not_stops {ss : List Step} (h : ¬Stops ss) (p : ℕ) (ss' : List Step) :
    events (ss ++ ss') = ss.map event ++ events ss' ∧
      stopPtr p (ss ++ ss') = stopPtr (endPtr p ss) ss' := by
  induction ss generalizing p with
  | nil => exact ⟨rfl, rfl⟩
  | cons st ss ih =>
    obtain ⟨hret, hrest⟩ := not_or.1 (stops_cons.not.1 h)
    obtain ⟨hevents, hptr⟩ := ih hrest (st.ptr p)
    rw [cons_append, events, stopPtr, if_neg hret, if_neg hret, hevents, hptr]
    exact ⟨rfl, rfl⟩

lemma letterSteps_head (q : Query) (next : Option Str) (p : ℕ) {cs : List UInt8} (hne : cs ≠ []) :
    ∃ st ss, (letterSteps q next p cs).1 = st :: ss ∧ st.optptr = some (p + 1) := by
  obtain ⟨c, cs, rfl⟩ := exists_cons_of_ne_nil hne
  rw [letterSteps]
  split_ifs
  · exact ⟨_, _, rfl, letterStep_optptr⟩
  · exact ⟨_, _, rfl, letterStep_optptr⟩

/-- What the first scan stores last points to the end of the argument, or to the argument of its
last option. -/
theorem endPtr_attached (q : Query) (next : Option Str) {cs : List UInt8} (p p' : ℕ)
    (hne : cs ≠ []) : endPtr p' (letterSteps q next p cs).1 = p + cs.length ∨
      ∃ st ∈ (letterSteps q next p cs).1, st.optarg = endPtr p' (letterSteps q next p cs).1 := by
  induction cs generalizing p p' with
  | nil => exact absurd rfl hne
  | cons c cs ih =>
    have hone : endPtr (p + 1) [] = p + 1 := rfl
    rw [letterSteps, length_cons]
    by_cases hnil : cs = []
    · subst hnil
      refine Or.inl ?_
      split_ifs
      · simp [endPtr_letterStep, hone]
      · simp [endPtr_letterStep, letterSteps, hone]
    · split_ifs with hc
      · refine Or.inr ⟨_, mem_singleton_self _, ?_⟩
        simp only [endPtr_letterStep, hone]
        unfold letterStep
        simp [hc, hnil]
      · simp only [endPtr_letterStep]
        rcases ih (p + 1) (p + 1) hnil with h | ⟨st, hmem, h⟩
        · exact Or.inl (by rw [h]; omega)
        · exact Or.inr ⟨st, mem_cons_of_mem _ hmem, h⟩

lemma mem_events {e : Event} {ss : List Step} (h : e ∈ events ss) : ∃ st ∈ ss, e = event st := by
  induction ss with
  | nil => cases h
  | cons st ss ih =>
    rw [events] at h
    split_ifs at h
    · cases h
    · rcases mem_cons.1 h with h | h
      · exact ⟨st, mem_cons_self, h⟩
      · obtain ⟨st', hmem, he⟩ := ih h
        exact ⟨st', mem_cons_of_mem _ hmem, he⟩

section

variable {q : Query} {sc : Scanner} {pre rest : List Str} {a : Str}
  (hargs : q.args = pre ++ a :: rest) (hkind : sc.kind a = .letters)
include hargs hkind

variable {p : ℕ}

lemma trace_away (hp : p < 2 ^ q.bits) (h : p < a.addr ∨ a.last < p) :
    trace q sc false p (a :: rest) = trace q sc false 0 (a :: rest) := by
  have ha : a ∈ q.args := mem_of_split hargs
  have hlen := length_of_letters hkind
  have hzero : resume q a 0 = 1 := resume_away ha (Nat.two_pow_pos _) (Or.inl (q.inSpace a ha).1)
  have hne : a.bytes.drop 1 ≠ [] := by
    rw [Ne, drop_eq_nil_iff]
    omega
  rw [trace_letters hkind (resume_away ha hp h) hlen, trace_letters hkind hzero hlen,
    endPtr_letterSteps_eq q rest.head? (a.addr + 1) hne]

lemma not_completes_last : ¬ (trace q sc false a.last (a :: rest)).Completes := by
  have ha : a ∈ q.args := mem_of_split hargs
  have hresume : resume q a a.last = a.bytes.length := resume_add ha le_rfl
  rw [trace_stuck hkind hresume.ge]
  exact fun h => h.elim stops_nil fun h => h rfl

omit hkind in
lemma not_inside {x : ℕ} (h1 : a.addr ≤ x) (h2 : x ≤ a.last) : ¬ Inside rest x := by
  rintro ⟨b, hb, hx⟩
  rcases (behind_of_mem hargs h1 h2).away b hb with h | h <;> omega

section
variable (h1 : a.addr ≤ p) (h2 : p < a.last)
include h1 h2

lemma trace_inside : ∃ taken p', Behind q p' rest ∧ trace q sc false p (a :: rest) =
      (trace q sc taken p' rest).after
        (letterSteps q rest.head? p (a.bytes.drop (p - a.addr))).1 := by
  have ha : a ∈ q.args := mem_of_split hargs
  obtain ⟨k, rfl⟩ := Nat.exists_eq_add_of_le h1
  have hk : k < a.bytes.length := by
    rw [Str.last] at h2
    omega
  rw [trace_letters hkind (resume_add ha hk.le) hk, Nat.add_sub_cancel_left]
  exact ⟨_, _, behind_letterSteps _ _ hargs hk, rfl⟩

lemma completes_inside : (trace q sc false p (a :: rest)).Completes := by
  obtain ⟨taken, p', hbehind, htrace⟩ := trace_inside hargs hkind h1 h2
  have hsplit := split_next hargs
  rw [htrace]
  exact Or.inr (by simpa [Trace.after] using (trace_tidy sc taken hsplit hbehind).1)

lemma optarg_ne {e : Event} (he : e ∈ events (trace q sc false p (a :: rest)).steps) : e.2 ≠ p := by
  have ha : a ∈ q.args := mem_of_split hargs
  have hpos := (q.inSpace a ha).1
  have hout := not_inside hargs h1 h2.le
  have hsplit := split_next hargs
  obtain ⟨taken, p', hbehind, htrace⟩ := trace_inside hargs hkind h1 h2
  rw [htrace] at he
  obtain ⟨st, hmem, rfl⟩ := mem_events he
  have hst : (event st).2 = st.optarg := rfl
  rw [hst]
  rcases mem_append.1 hmem with h | h
  · rcases (letterSteps_stores h).optarg with h | h | ⟨arg, hnext, harg⟩
    · omega
    · omega
    · rintro rfl
      rw [harg] at hout
      exact hout (inside_next hnext)
  · rcases ((trace_tidy sc taken hsplit hbehind).2 st h).optarg with h | h
    · omega
    · rintro rfl
      exact hout h

end

end

/-! ### The first argument with short options -/

/-- The first argument with short options that a scan comes to, and the arguments behind it. -/
def firstCluster (sc : Scanner) : Bool → List Str → Option (Str × List Str)
  | _, [] => none
  | true, _ :: rest => firstCluster sc false rest
  | false, a :: rest =>
    match sc.kind a with
    | .letters => some (a, rest)
    | .long =>
      if (longStep sc.longopts a rest.head?).1.ret = -1 then none
      else firstCluster sc (longStep sc.longopts a rest.head?).2 rest
    | .operand => none
    | .terminator => none

/-- Up to some events, two traces are the same to a scan. -/
structure Leads (es : List Event) (p : ℕ) (tr tr' : Trace) : Prop where
  events : events tr.steps = es ++ events tr'.steps
  optptr : stopPtr p tr.steps = stopPtr p tr'.steps
  stops : Stops tr.steps ↔ Stops tr'.steps
  ends : tr.ends = none ↔ tr'.ends = none

variable {p : ℕ} {es : List Event}

lemma leads_refl {tr : Trace} : Leads [] p tr tr := ⟨rfl, rfl, Iff.rfl, Iff.rfl⟩

lemma Leads.skip {tr tr' : Trace} (h : Leads es p tr tr') : Leads es p (tr.after []) tr' :=
  ⟨h.events, h.optptr, h.stops, by rw [← h.ends, Trace.after, Option.map_eq_none_iff]⟩

lemma Leads.after {tr tr' : Trace} {st : Step} (hret : st.ret ≠ -1)
    (hptr : st.ptr p = p) (h : Leads es p tr tr') :
    Leads (event st :: es) p (tr.after [st]) tr' where
  events := by
    have hsteps : (tr.after [st]).steps = st :: tr.steps := rfl
    rw [hsteps, Calls.events, if_neg hret, h.events]
    rfl
  optptr := by
    have hsteps : (tr.after [st]).steps = st :: tr.steps := rfl
    rw [hsteps, stopPtr, if_neg hret, hptr, h.optptr]
  stops := by
    have hsteps : (tr.after [st]).steps = st :: tr.steps := rfl
    rw [hsteps, stops_cons, or_iff_right hret, h.stops]
  ends := by rw [← h.ends, Trace.after, Option.map_eq_none_iff]

lemma Leads.completes {tr tr' : Trace} (h : Leads es p tr tr') :
    tr.Completes ↔ tr'.Completes := or_congr h.stops h.ends.not

variable {sc : Scanner} {q : Query} {a : Str}

lemma longStep_ptr {longopts : List LongOption} {next : Option Str} :
    (longStep longopts a next).1.ptr p = p := by
  rw [Step.ptr, longStep_optptr]
  rfl

/-- Before its first argument with short options a scan has nothing to do with the position pointer.
-/
theorem leads_firstCluster {rest rest' : List Str}
    {skip : Bool} (h : firstCluster sc skip rest = some (a, rest')) :
    sc.kind a = .letters ∧ (∃ pre, rest = pre ++ a :: rest') ∧
      ∃ es, ∀ p, Leads es p (trace q sc skip p rest) (trace q sc false p (a :: rest')) := by
  induction rest generalizing skip with
  | nil =>
    cases h
  | cons b rest ih =>
    cases skip with
    | true =>
      obtain ⟨hkind, ⟨pre, rfl⟩, es, hes⟩ := ih h
      refine ⟨hkind, ⟨b :: pre, rfl⟩, es, fun p => ?_⟩
      rw [trace]
      exact (hes p).skip
    | false =>
      unfold firstCluster at h
      cases hkind : sc.kind b with
      | operand =>
        rw [hkind] at h
        cases h
      | terminator =>
        rw [hkind] at h
        cases h
      | letters =>
        rw [hkind] at h
        cases h
        exact ⟨hkind, ⟨[], rfl⟩, [], fun p => leads_refl⟩
      | long =>
        rw [hkind] at h
        simp only at h
        split_ifs at h with hret
        obtain ⟨hkind', ⟨pre, hpre⟩, es, hes⟩ := ih h
        refine ⟨hkind', ⟨b :: pre, congrArg (b :: ·) hpre⟩,
          event (longStep sc.longopts b rest.head?).1 :: es, fun p => ?_⟩
        rw [trace_long hkind]
        exact (hes p).after hret longStep_ptr

lemma trace_of_no_cluster {rest : List Str} {skip : Bool} (h : firstCluster sc skip rest = none) :
    ∃ es, ∀ p, (trace q sc skip p rest).Completes ∧ events (trace q sc skip p rest).steps = es ∧
      stopPtr p (trace q sc skip p rest).steps = p := by
  induction rest generalizing skip with
  | nil =>
    refine ⟨[], fun p => ?_⟩
    rw [trace]
    exact ⟨Or.inr (Option.some_ne_none 0), rfl, rfl⟩
  | cons b rest ih =>
    cases skip with
    | true =>
      rw [firstCluster] at h
      obtain ⟨es, hes⟩ := ih h
      refine ⟨es, fun p => ?_⟩
      have hskip : Leads [] p (trace q sc true p (b :: rest)) (trace q sc false p rest) := by
        rw [trace]
        exact leads_refl.skip
      obtain ⟨hends, hevents, hptr⟩ := hes p
      exact ⟨hskip.completes.2 hends, hskip.events.trans hevents, hskip.optptr.trans hptr⟩
    | false =>
      unfold firstCluster at h
      cases hkind : sc.kind b with
      | operand =>
        refine ⟨[], fun p => ?_⟩
        rw [trace_operand hkind]
        exact ⟨Or.inr (Option.some_ne_none 0), rfl, rfl⟩
      | terminator =>
        refine ⟨[], fun p => ?_⟩
        rw [trace_terminator hkind]
        exact ⟨Or.inr (Option.some_ne_none 1), rfl, rfl⟩
      | letters =>
        rw [hkind] at h
        cases h
      | long =>
        rw [hkind] at h
        simp only at h
        split_ifs at h with hret
        · refine ⟨[], fun p => ?_⟩
          rw [trace_long hkind]
          refine ⟨Or.inl (stops_cons.2 (Or.inl hret)), if_pos hret, ?_⟩
          exact (if_pos hret).trans longStep_ptr
        · obtain ⟨es, hes⟩ := ih h
          refine ⟨event (longStep sc.longopts b rest.head?).1 :: es, fun p => ?_⟩
          have hlong : Leads [event (longStep sc.longopts b rest.head?).1] p
              (trace q sc false p (b :: rest))
              (trace q sc (longStep sc.longopts b rest.head?).2 p rest) := by
            rw [trace_long hkind]
            exact leads_refl.after hret longStep_ptr
          obtain ⟨hends, hevents, hptr⟩ := hes p
          exact ⟨hlong.completes.2 hends, hlong.events.trans (by rw [hevents]; rfl),
            hlong.optptr.trans hptr⟩

/-! ### The result -/

/-- The calls for the first argument with short options, and whether they take the next one. -/
def clusterSteps (q : Query) (a : Str) (rest : List Str) : List Step × Bool :=
  letterSteps q rest.head? (a.addr + 1) (a.bytes.drop 1)

/-- There is a second argument with short options behind `a`. Or an option of `a` ends the scan, by
its value -1, and what is read from there on, which is not the end of the argument, is what is read
before. -/
def Rescans (q : Query) (sc : Scanner) (a : Str) (rest : List Str) : Prop :=
  ¬Stops (clusterSteps q a rest).1 ∧
      (firstCluster sc (clusterSteps q a rest).2 rest).isSome ∨
    Stops (clusterSteps q a rest).1 ∧ stopPtr 0 (clusterSteps q a rest).1 < a.last ∧
      events (clusterSteps q a rest).1 =
        events (trace q sc false (stopPtr 0 (clusterSteps q a rest).1) (a :: rest)).steps

section
variable {pre rest : List Str} (hargs : q.args = pre ++ a :: rest) (hkind : sc.kind a = .letters)
include hargs hkind

lemma trace_cluster : trace q sc false 0 (a :: rest) =
    (trace q sc (clusterSteps q a rest).2 (endPtr 0 (clusterSteps q a rest).1) rest).after
      (clusterSteps q a rest).1 :=
  trace_letters hkind (resume_away (mem_of_split hargs) (Nat.two_pow_pos _)
    (Or.inl (q.inSpace a (mem_of_split hargs)).1)) (length_of_letters hkind)

omit hargs in
lemma cluster_ne : a.bytes.drop 1 ≠ [] := by
  have hlen := length_of_letters hkind
  rw [Ne, drop_eq_nil_iff]
  omega

variable (q rest) in
omit hargs in
lemma stopPtr_cluster : a.addr ≤ stopPtr 0 (clusterSteps q a rest).1 ∧
    stopPtr 0 (clusterSteps q a rest).1 ≤ a.last := by
  obtain ⟨st, ss, heq, hst⟩ := letterSteps_head q rest.head? (a.addr + 1) (cluster_ne hkind)
  obtain ⟨st', hmem, hptr⟩ := stopPtr_stored hst 0 ss
  have hstores := (letterSteps_stores (heq ▸ hmem)).optptr _ hptr
  have hlen := length_of_letters hkind
  rw [length_drop] at hstores
  rw [clusterSteps, heq, Str.last]
  omega

/-- The position pointer is left in the cluster or in an argument behind it. -/
lemma inside_stopPtr (hp : Behind q p (a :: rest)) :
    Inside (a :: rest) (stopPtr p (trace q sc false p (a :: rest)).steps) := by
  obtain ⟨st, ss, heq, hst⟩ := letterSteps_head q rest.head? (a.addr + 1) (cluster_ne hkind)
  have htrace : trace q sc false p (a :: rest) = _ :=
    trace_letters hkind (resume_away (mem_of_split hargs) hp.inSpace (hp.away a mem_cons_self))
      (length_of_letters hkind)
  have htidy := (trace_tidy sc false hargs hp).2
  rw [htrace, Trace.after, heq, cons_append] at htidy ⊢
  obtain ⟨st', hmem, hptr⟩ := stopPtr_stored hst p _
  exact (htidy st' hmem).optptr _ hptr

/-- **The only argument with short options** is not read again as at first: its last option has an
argument there, at the position that was left, or nothing is left to read. -/
theorem not_rescans (hgo : ¬Stops (clusterSteps q a rest).1)
    (hp : endPtr 0 (clusterSteps q a rest).1 = p) :
    ¬((trace q sc false p (a :: rest)).Completes ∧
      events (trace q sc false 0 (a :: rest)).steps =
        events (trace q sc false p (a :: rest)).steps) := by
  rintro ⟨hcompletes, heq⟩
  have hlast : a.addr + 1 + (a.bytes.drop 1).length = a.last := by
    have hlen := length_of_letters hkind
    rw [length_drop, Str.last]
    omega
  obtain ⟨h1, h2⟩ := stopPtr_cluster q rest hkind
  rw [stopPtr_eq hgo, hp] at h1 h2
  rcases endPtr_attached q rest.head? (a.addr + 1) 0 (cluster_ne hkind) with h | ⟨st, hst, h⟩
  · rw [hlast] at h
    exact not_completes_last hargs hkind ((hp.symm.trans h) ▸ hcompletes)
  · rcases h2.eq_or_lt with rfl | hlt
    · exact not_completes_last hargs hkind hcompletes
    have hevent : event st ∈ events (trace q sc false 0 (a :: rest)).steps := by
      rw [trace_cluster hargs hkind, Trace.after, (append_of_not_stops hgo 0 _).1]
      exact mem_append_left _ (mem_map_of_mem hst)
    rw [heq] at hevent
    exact optarg_ne hargs hkind h1 hlt hevent (h.trans hp)

lemma rescans_iff (hp : stopPtr 0 (trace q sc false 0 (a :: rest)).steps = p) :
    (trace q sc false p (a :: rest)).Completes ∧
      events (trace q sc false 0 (a :: rest)).steps =
        events (trace q sc false p (a :: rest)).steps ↔ Rescans q sc a rest := by
  have htrace := congrArg Trace.steps (trace_cluster hargs hkind)
  rw [Trace.after] at htrace
  unfold Rescans
  by_cases hstop : Stops (clusterSteps q a rest).1
  · obtain ⟨h1, h2⟩ := stopPtr_cluster q rest hkind
    obtain ⟨hevents, hptr⟩ := append_of_stops hstop 0
      (trace q sc (clusterSteps q a rest).2 (endPtr 0 (clusterSteps q a rest).1) rest).steps
    rw [htrace, hptr] at hp
    rw [htrace, hevents, hp] at *
    simp only [hstop, not_true_eq_false, false_and, false_or, true_and]
    rcases h2.eq_or_lt with rfl | hlt
    · exact iff_of_false (fun h => not_completes_last hargs hkind h.1) fun h => lt_irrefl _ h.1
    · exact and_congr_left fun _ => iff_of_true (completes_inside hargs hkind h1 hlt) hlt
  · obtain ⟨-, hptr⟩ := append_of_not_stops hstop 0
      (trace q sc (clusterSteps q a rest).2 (endPtr 0 (clusterSteps q a rest).1) rest).steps
    rw [htrace, hptr] at hp
    simp only [hstop, not_false_eq_true, true_and, false_and, or_false]
    have hbehind := behind_letterSteps rest.head? 0 hargs (length_of_letters hkind)
    cases hnext : firstCluster sc (clusterSteps q a rest).2 rest with
    | none =>
      obtain ⟨es, hes⟩ := trace_of_no_cluster (q := q) hnext
      rw [(hes _).2.2] at hp
      exact iff_of_false (not_rescans hargs hkind hstop hp) (by simp)
    | some r =>
      obtain ⟨b, rest'⟩ := r
      obtain ⟨hkind', ⟨mid, rfl⟩, es, hes⟩ := leads_firstCluster (q := q) hnext
      have hargs' : q.args = (pre ++ a :: mid) ++ b :: rest' := by simp [hargs]
      have hinside := inside_stopPtr hargs' hkind' ⟨hbehind.inSpace, fun c hc =>
        hbehind.away c (mem_append_right _ hc)⟩
      rw [← (hes _).optptr] at hinside
      have hin : Inside (b :: rest') p := hp ▸ hinside
      obtain ⟨c, hc, hc1, hc2⟩ := hin
      have hmem : c ∈ mid ++ b :: rest' := mem_append_right _ hc
      have hspace : p < 2 ^ q.bits :=
        hc2.trans_lt (q.inSpace c (by rw [hargs]; simp [hmem])).2
      have haway : p < a.addr ∨ a.last < p := by
        by_contra hno
        rw [not_or, not_lt, not_lt] at hno
        exact not_inside hargs hno.1 hno.2 ⟨c, hmem, hc1, hc2⟩
      have hzero : Behind q 0 (a :: (mid ++ b :: rest')) := behind_zero fun d hd => by
        rw [hargs]
        exact mem_append_right _ hd
      rw [trace_away hargs hkind hspace haway]
      exact iff_of_true ⟨Or.inr (trace_tidy sc false hargs hzero).1, rfl⟩ rfl

end

/-- **When a second scan is like the first.**  There is a program name, and not just one argument
with short options, unless an option in it ends the scan. -/
theorem rescan_iff {q : Query} {sc : Scanner} {s : State} (hs : Fresh q s) :
    Returns (rescan q sc) s (fun r _ => r.1 = r.2) ↔
      q.args ≠ [] ∧ ∀ a rest, firstCluster sc false q.args.tail = some (a, rest) →
        Rescans q sc a rest := by
  by_cases hne : q.args = []
  · refine iff_of_false (fun h => ?_) (fun h => h.1 hne)
    rw [rescan, returns_bind] at h
    exact not_returns_scan_nil hne h
  · obtain ⟨prog, rest, hargs⟩ := exists_cons_of_ne_nil hne
    rw [returns_rescan hs hargs, and_iff_right hne, hargs, tail_cons]
    cases hfirst : firstCluster sc false rest with
    | none =>
      obtain ⟨es, hes⟩ := trace_of_no_cluster (q := q) hfirst
      refine iff_of_true ⟨(hes _).1, ?_⟩ (fun a rest' h => by cases h)
      rw [(hes 0).2.1, (hes _).2.1]
    | some r =>
      obtain ⟨a, rest'⟩ := r
      obtain ⟨hkind, ⟨pre, hpre⟩, es, hes⟩ := leads_firstCluster (q := q) hfirst
      have hargs' : q.args = (prog :: pre) ++ a :: rest' := by rw [hargs, hpre]; rfl
      have hp : stopPtr 0 (trace q sc false 0 (a :: rest')).steps = leftPtr q sc rest :=
        (hes 0).optptr.symm
      rw [(hes _).completes, (hes 0).events, (hes _).events, append_cancel_left_eq,
        rescans_iff hargs' hkind hp]
      constructor
      · rintro h b rest'' ⟨⟩
        exact h
      · exact fun h => h a rest' rfl

/-- `prog -x -y` with the option string `xy`. -/
def twoClusters : Query where
  bits := 32
  charSigned := true
  argv := 8
  args := [⟨32, [112], by decide⟩, ⟨40, [45, 120], by decide⟩, ⟨48, [45, 121], by decide⟩]
  optstring := ⟨96, [120, 121], by decide⟩
  argv_ne := by decide
  optstring_ne := by decide
  inSpace := by decide
  apart := by decide

/-- The first scan leaves the position pointer in the second argument. -/
theorem rescan_two_clusters : Returns (rescan twoClusters .short) start fun r _ => r.1 = r.2 := by
  refine (rescan_iff (fresh_start twoClusters)).2 ⟨by decide, ?_⟩
  intro a rest hfirst
  have hsecond : ∀ r, firstCluster .short false twoClusters.args.tail = some r →
      (¬∃ st ∈ (clusterSteps twoClusters r.1 r.2).1, st.ret = -1) ∧
        (firstCluster .short (clusterSteps twoClusters r.1 r.2).2 r.2).isSome := by
    decide +kernel
  exact Or.inl (hsecond _ hfirst)

/-- `prog -of` with the option string `o:`. -/
def attached : Query where
  bits := 32
  charSigned := true
  argv := 8
  args := [⟨32, [112], by decide⟩, ⟨40, [45, 111, 102], by decide⟩]
  optstring := ⟨96, [111, 58], by decide⟩
  argv_ne := by decide
  optstring_ne := by decide
  inSpace := by decide
  apart := by decide

/-- The second scan takes the argument of the option for a cluster of options. -/
theorem argument_rescanned :
    events (trace attached .short false 0 attached.args.tail).steps = [(111, 42)] ∧
      events (trace attached .short false 42 attached.args.tail).steps = [(63, 0)] ∧
      ¬ Returns (rescan attached .short) start fun r _ => r.1 = r.2 := by
  refine ⟨by decide +kernel, by decide +kernel, ?_⟩
  rw [returns_rescan (fresh_start attached) rfl]
  rintro ⟨-, heq⟩
  revert heq
  decide +kernel

end Klibc.Options.Rescan
