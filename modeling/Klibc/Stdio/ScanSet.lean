import Klibc.Stdio.ScanLoop

/-! # Scan sets

`%[set]` and `%[^set]`. The set that a specification denotes is stated on its own (`denotes`), and
compared with the one that the states `st_match_init`, `st_match` and `st_match_range` build
(`built`). There a range begins with the `-` itself and does not contain its end, all carets at the
beginning are taken for the inversion, and the scanner stays in these states behind the `]`.
`scanSet_iff` says when a conversion does what its specification says nevertheless. -/

namespace Klibc.Stdio.ScanSet

open Lib.Machine Vsscanf ScanLoop
open Vsnprintf (chr isDigit)

/-! ### What a specification denotes -/

/-- What is between the brackets. A `]` can only be the first character of the set. -/
structure SetSpec where
  caret : Bool
  set : List UInt8
  ne_nil : set ≠ []
  closed : chr ']' ∉ set.tail
  nonul : 0 ∉ set
  first : caret = false → set.head? ≠ some (chr '^')

/-- The text behind the `[`. -/
def SetSpec.text (spec : SetSpec) : List UInt8 :=
  (if spec.caret then [chr '^'] else []) ++ (spec.set ++ [chr ']'])

/-- A `-` that is neither first nor last. -/
def dash (set : List UInt8) (i : ℕ) : Bool :=
  0 < i && i + 1 < set.length && set[i]? == some (chr '-')

/-- The range around a `-`, with both ends. -/
def inRange (set : List UInt8) (i : ℕ) (c : UInt8) : Bool :=
  match set[i - 1]?, set[i + 1]? with
  | some a, some b => a ≤ c && c ≤ b
  | _, _ => false

/-- A character that stands for itself: it is not the `-` of a range, and not an end of one unless
it is a `-`. -/
def listed (set : List UInt8) (i : ℕ) (c : UInt8) : Bool :=
  set[i]? == some c && (c == chr '-' || !dash set (i - 1) && !dash set (i + 1))

def denotes (set : List UInt8) (c : UInt8) : Bool :=
  (List.range set.length).any fun i => if dash set i then inRange set i c else listed set i c

def SetSpec.wanted (spec : SetSpec) (c : UInt8) : Bool := denotes spec.set c ^^ spec.caret

/-! ### What the code makes of it -/

/-- The bits that are set between `st_match` and the `]`. -/
def built : List UInt8 → (UInt8 → Bool) → UInt8 → Bool
  | [], m => m
  | [ch], m => Function.update m ch true
  | ch :: ch' :: set, m =>
    if ch = chr '-' then built set fun i => m i || (chr '-' ≤ i && i < ch')
    else built (ch' :: set) (Function.update m ch true)

/-- The state at the `]`: behind a `-`, the end of its range is missing. -/
def endState : List UInt8 → St
  | [] => .matching
  | [ch] => if ch = chr '-' then .matchRange else .matching
  | ch :: ch' :: set => if ch = chr '-' then endState set else endState (ch' :: set)

lemma endState_ne_normal : ∀ set : List UInt8, endState set ≠ .normal
  | [] => St.noConfusion
  | [ch] => by
    rw [endState]
    split_ifs <;> exact St.noConfusion
  | ch :: ch' :: set => by
    rw [endState]
    split_ifs
    · exact endState_ne_normal set
    · exact endState_ne_normal (ch' :: set)

def SetSpec.taken (spec : SetSpec) (c : UInt8) : Bool :=
  match spec.set.dropWhile (· == chr '^') with
  | [] => false
  | ch :: set => built set (Function.update (fun _ => false) ch true) c ^^ spec.caret

section
variable {bits : ℕ} {buffer : List UInt8} {s : Scan bits}

lemma step_close (hs : s.state = .matching) : step buffer (chr ']') s = matchRun s := by
  simp only [step, hs, stepMatch, if_true]

lemma step_dash (hs : s.state = .matching) :
    step buffer (chr '-') s = some { s with rangeStart := chr '-', state := .matchRange } := by
  simp only [step, hs, stepMatch, if_neg (show chr '-' ≠ chr ']' by decide), if_true]

variable {ch : UInt8}

lemma step_member (hs : s.state = .matching) (hclose : ch ≠ chr ']')
    (hdash : ch ≠ chr '-') : step buffer ch s = some (s.setBit ch) := by
  simp only [step, hs, stepMatch, if_neg hclose, if_neg hdash]

lemma step_range_close (hs : s.state = .matchRange) :
    step buffer (chr ']') s = matchRun (s.setBit (chr '-')) := by
  simp only [step, hs, stepMatchRange, if_true]

lemma step_range (hs : s.state = .matchRange) (hclose : ch ≠ chr ']') :
    step buffer ch s = some { s with
      matchmap := fun i => s.matchmap i || (s.rangeStart ≤ i && i < ch)
      state := .matching } := by
  simp only [step, hs, stepMatchRange, if_neg hclose]

/-- **From `st_match` to the `]`.** -/
theorem loop_built (rest : List UInt8) : ∀ (set : List UInt8) (s : Scan bits), chr ']' ∉ set →
    0 ∉ set → s.state = .matching → s.bail = .none →
    ∃ rs, loop buffer (set ++ chr ']' :: rest) s =
      matchRun { s with matchmap := built set s.matchmap, state := endState set, rangeStart := rs }
        >>= loop buffer rest
  | [], s, _, _, hs, hbail => by
    refine ⟨s.rangeStart, ?_⟩
    rw [List.nil_append, loop_cons (by decide) hbail, step_close hs, endState, ← hs]
    rfl
  | [ch], s, hclose, hnul, hs, hbail => by
    have hch : ch ≠ chr ']' := fun h => hclose (h ▸ List.mem_cons_self)
    have hch0 : ch ≠ 0 := fun h => hnul (h ▸ List.mem_cons_self)
    by_cases hdash : ch = chr '-'
    · subst hdash
      refine ⟨chr '-', ?_⟩
      rw [List.singleton_append, loop_cons_of_step hch0 hbail _ (step_dash hs),
        loop_cons (by decide) (by exact hbail), step_range_close rfl, endState, if_pos rfl]
      rfl
    · refine ⟨s.rangeStart, ?_⟩
      rw [List.singleton_append, loop_cons_of_step hch0 hbail _ (step_member hs hch hdash),
        loop_cons (by decide) (by exact hbail), step_close (by exact hs), endState, if_neg hdash,
        ← hs]
      rfl
  | ch :: ch' :: set, s, hclose, hnul, hs, hbail => by
    have hch : ch ≠ chr ']' := fun h => hclose (h ▸ List.mem_cons_self)
    have hch0 : ch ≠ 0 := fun h => hnul (h ▸ List.mem_cons_self)
    have hclose' : chr ']' ∉ ch' :: set := fun h => hclose (List.mem_cons_of_mem _ h)
    have hnul' : 0 ∉ ch' :: set := fun h => hnul (List.mem_cons_of_mem _ h)
    by_cases hdash : ch = chr '-'
    · subst hdash
      have hch' : ch' ≠ chr ']' := fun h => hclose' (h ▸ List.mem_cons_self)
      have hch0' : ch' ≠ 0 := fun h => hnul' (h ▸ List.mem_cons_self)
      obtain ⟨rs, hloop⟩ := loop_built rest set { s with
          matchmap := fun i => s.matchmap i || (chr '-' ≤ i && i < ch')
          rangeStart := chr '-'
          state := .matching }
        (fun h => hclose' (List.mem_cons_of_mem _ h)) (fun h => hnul' (List.mem_cons_of_mem _ h))
        rfl hbail
      refine ⟨rs, ?_⟩
      rw [List.cons_append, List.cons_append, loop_cons_of_step hch0 hbail _ (step_dash hs),
        loop_cons_of_step hch0' (by exact hbail) _ (step_range rfl hch'), hloop, built, if_pos rfl,
        endState, if_pos rfl]
    · obtain ⟨rs, hloop⟩ := loop_built rest (ch' :: set) (s.setBit ch) hclose' hnul' hs hbail
      refine ⟨rs, ?_⟩
      rw [List.cons_append, loop_cons_of_step hch0 hbail _ (step_member hs hch hdash), hloop, built,
        if_neg hdash, endState, if_neg hdash]
      rfl

/-- **The carets**: `FL_INV` is never set, so that each of them is taken for the inversion. -/
theorem loop_carets (rest : List UInt8) : ∀ (carets : List UInt8) (s : Scan bits),
    (∀ ch ∈ carets, ch = chr '^') → s.state = .matchInit → s.inv = false → s.bail = .none →
    loop buffer (carets ++ rest) s =
      loop buffer rest { s with matchinv := s.matchinv || decide (carets ≠ []) }
  | [], s, _, _, _, _ => by
    have hinv : (s.matchinv || decide (([] : List UInt8) ≠ [])) = s.matchinv := Bool.or_false _
    rw [hinv]
    rfl
  | ch :: carets, s, h, hs, hinv, hbail => by
    have hch := h ch List.mem_cons_self
    obtain ⟨s1, hs1⟩ : ∃ s1, s1 = { s with matchinv := true } := ⟨_, rfl⟩
    have hstep : step buffer ch s = some s1 := by simp [hs1, step, hs, stepMatchInit, hch, hinv]
    have hbail1 : s1.bail = .none := by rw [hs1]; exact hbail
    rw [List.cons_append, loop_cons_of_step (by rw [hch]; decide) hbail _ hstep,
      loop_carets rest carets s1 (fun c hc => h c (List.mem_cons_of_mem _ hc))
        (by rw [hs1]; exact hs) (by rw [hs1]; exact hinv) hbail1]
    simp [hs1]

/-- **From the `[` to the `]`** there is one call of `match_run`, if some character of the set is
not a caret. -/
theorem loop_set {carets set : List UInt8} (hcarets : ∀ c ∈ carets, c = chr '^')
    (hch : ch ≠ chr '^') (hch0 : ch ≠ 0) (hclose : chr ']' ∉ set) (hnul : 0 ∉ set)
    (rest : List UInt8) (hs : s.state = .matchInit) (hinv : s.inv = false)
    (hbail : s.bail = .none) (hmap : s.matchmap = fun _ => false) (hminv : s.matchinv = false) :
    ∃ rs, loop buffer (carets ++ ch :: (set ++ chr ']' :: rest)) s =
      matchRun
        { s with
          matchinv := carets ≠ []
          matchmap := built set (Function.update (fun _ => false) ch true)
          state := endState set
          rangeStart := rs } >>=
        loop buffer rest := by
  obtain ⟨s1, hs1⟩ : ∃ s1, s1 = { s with matchinv := s.matchinv || decide (carets ≠ []) } :=
    ⟨_, rfl⟩
  obtain ⟨s2, hs2⟩ : ∃ s2, s2 = { s1.setBit ch with state := .matching } := ⟨_, rfl⟩
  have hbail1 : s1.bail = .none := by rw [hs1]; exact hbail
  have hbail2 : s2.bail = .none := by rw [hs2]; exact hbail1
  have hstate1 : s1.state = .matchInit := by rw [hs1]; exact hs
  have hstep : step buffer ch s1 = some s2 := by simp [step, hstate1, stepMatchInit, hch, hs2]
  obtain ⟨rs, hloop⟩ := loop_built rest set s2 hclose hnul (by rw [hs2]) hbail2
  refine ⟨rs, ?_⟩
  rw [loop_carets _ carets s hcarets hs hinv hbail, ← hs1, loop_cons_of_step hch0 hbail1 _ hstep,
    hloop, hs2, hs1]
  simp [Scan.setBit, hmap, hminv]

end

/-! ### When the two agree -/

/-- What a conversion is to do with the string `I`, if `rest` follows it in the format: read the
longest run of characters of the set, give up if there is none, store it and a NUL otherwise, and go
on with the rest in the ground state. -/
structure Scans {bits : ℕ} (spec : SetSpec) (rest I r : List UInt8) (p : ℕ) (s t : Scan bits) :
    Prop where
  read : t.q = I.drop (I.takeWhile spec.wanted).length ++ 0 :: r
  failed : I.takeWhile spec.wanted = [] →
    t.bail ≠ .none ∧ t.stores = s.stores ∧ t.converted = s.converted
  stored : I.takeWhile spec.wanted ≠ [] →
    t.stores = s.stores ++ [(p, .bytes (I.takeWhile spec.wanted ++ [0]))] ∧
      t.converted = wrap 32 (s.converted + 1)
  goesOn : I.takeWhile spec.wanted ≠ [] → rest ≠ [] → t.bail = .none ∧ t.state = .normal

/-- The exact condition: the `]` is not lost, the set that is built takes the same characters, and
nothing comes behind the conversion. -/
structure Agrees (spec : SetSpec) (rest I : List UInt8) : Prop where
  ends : spec.set.dropWhile (· == chr '^') ≠ []
  same : I.takeWhile spec.taken = I.takeWhile spec.wanted
  last : rest = [] ∨ I.takeWhile spec.wanted = []

section
variable {bits : ℕ} {buffer : List UInt8} {s t : Scan bits} {spec : SetSpec}
variable {rest I r : List UInt8} {p : ℕ}

def SetSpec.carets (spec : SetSpec) : List UInt8 :=
  (if spec.caret then [chr '^'] else []) ++ spec.set.takeWhile (· == chr '^')

lemma text_eq (spec : SetSpec) : spec.text =
    spec.carets ++ (spec.set.dropWhile (· == chr '^') ++ [chr ']']) := by
  have hset := List.takeWhile_append_dropWhile (p := (· == chr '^')) (l := spec.set)
  rw [SetSpec.text, SetSpec.carets, List.append_assoc]
  congr 1
  rw [← List.append_assoc, hset]

lemma zero_notMem_setText (spec : SetSpec) : 0 ∉ spec.text := by
  have hcaret : (0 : UInt8) ∉ (if spec.caret then [chr '^'] else []) := by
    cases spec.caret <;> decide
  have hclose : (0 : UInt8) ≠ chr ']' := by decide
  simp only [SetSpec.text, List.mem_append, List.mem_singleton, not_or]
  exact ⟨hcaret, spec.nonul, hclose⟩

variable {u : Scan bits} {ch : UInt8}

lemma mem_carets (h : ch ∈ spec.carets) : ch = chr '^' := by
  rcases List.mem_append.1 h with h | h
  · split_ifs at h
    · exact List.mem_singleton.1 h
    · exact absurd h List.not_mem_nil
  · exact eq_of_beq (List.all_eq_true.1 List.all_takeWhile ch h)

lemma carets_ne_nil (spec : SetSpec) : decide (spec.carets ≠ []) = spec.caret := by
  cases hcaret : spec.caret with
  | true => simp [SetSpec.carets, hcaret]
  | false =>
    obtain ⟨ch, set, hset⟩ := List.exists_cons_of_ne_nil spec.ne_nil
    have hch : ch ≠ chr '^' := fun h => spec.first hcaret (by rw [hset, h]; rfl)
    simp [SetSpec.carets, hcaret, hset, hch]

lemma takeWhile_eq_of_drop {f g : UInt8 → Bool}
    (h : I.drop (I.takeWhile f).length ++ 0 :: r = I.drop (I.takeWhile g).length ++ 0 :: r) :
    I.takeWhile f = I.takeWhile g := by
  have hf : I.takeWhile f <+: I := List.takeWhile_prefix f
  have hg : I.takeWhile g <+: I := List.takeWhile_prefix g
  have hlen := congrArg List.length h
  simp only [List.length_append, List.length_drop, List.length_cons] at hlen
  have hle := hf.length_le
  have hle' := hg.length_le
  refine (List.prefix_of_prefix_length_le hf hg (by omega)).eq_of_length (by omega)

lemma scans_iff_of_matchRun (hI : u.q = I ++ 0 :: r) (hnul : 0 ∉ I) (hsarg : u.sarg = some p)
    (hwidth : u.width ≠ 0) (hstate : u.state ≠ .normal) (hhit : hit u = spec.taken)
    (hstores : u.stores = s.stores) (hconv : u.converted = s.converted) :
    ∃ t, matchRun u = some t ∧ (Scans spec rest I r p s t ↔
      I.takeWhile spec.taken = I.takeWhile spec.wanted ∧
        (rest = [] ∨ I.takeWhile spec.wanted = [])) := by
  have hmatched : matched u I = I.takeWhile spec.taken := by rw [matched, if_pos hwidth, hhit]
  by_cases hnil : I.takeWhile spec.taken = []
  · refine ⟨_, matchRun_nil hI hnul (hmatched.trans hnil), ?_⟩
    constructor
    · intro h
      have hread : I.drop (I.takeWhile spec.taken).length ++ 0 :: r =
          I.drop (I.takeWhile spec.wanted).length ++ 0 :: r := by
        rw [← h.read, hnil]
        exact hI.symm
      have hsame := takeWhile_eq_of_drop hread
      exact ⟨hsame, Or.inr (hsame ▸ hnil)⟩
    · rintro ⟨hsame, -⟩
      rw [hnil] at hsame
      refine ⟨?_, fun _ => ⟨?_, hstores, hconv⟩, fun hne => absurd hsame.symm hne,
        fun hne => absurd hsame.symm hne⟩
      · rw [← hsame]
        exact hI
      · cases atEnd u I <;> simp
  · refine ⟨_, matchRun_store hI hnul hsarg (by rwa [hmatched]), ?_⟩
    rw [hmatched, hstores, hconv]
    constructor
    · intro h
      have hsame := takeWhile_eq_of_drop h.read
      refine ⟨hsame, or_iff_not_imp_left.2 fun hrest => ?_⟩
      by_contra hne
      exact hstate (h.goesOn hne hrest).2
    · rintro ⟨hsame, hlast⟩
      rw [hsame] at hnil ⊢
      exact ⟨rfl, fun h => absurd h hnil, fun _ => ⟨rfl, rfl⟩,
        fun hne hrest => absurd (hlast.resolve_left hrest) hne⟩

/-- The variables behind the `[`, with the argument `p`. -/
structure Begun (p : ℕ) (s u : Scan bits) : Prop where
  state : u.state = .matchInit
  inv : u.inv = false
  bail : u.bail = .none
  matchmap : u.matchmap = fun _ => false
  matchinv : u.matchinv = false
  width : u.width ≠ 0
  q : u.q = s.q
  sarg : u.sarg = some p
  stores : u.stores = s.stores
  converted : u.converted = s.converted

lemma scans_of_carets (hu : Begun p s u) (hset : spec.set.dropWhile (· == chr '^') = []) :
    ∃ t, loop buffer spec.text u = some t ∧ ¬ Scans spec rest I r p s t := by
  obtain ⟨v, hv⟩ : ∃ v, v = { u with matchinv := u.matchinv || decide (spec.carets ≠ []) } :=
    ⟨_, rfl⟩
  obtain ⟨t, ht⟩ : ∃ t, t = { v.setBit (chr ']') with state := .matching } := ⟨_, rfl⟩
  have hbail : v.bail = .none := by rw [hv]; exact hu.bail
  have hstate : v.state = .matchInit := by rw [hv]; exact hu.state
  have hstep : step buffer (chr ']') v = some t := by
    simp only [step, hstate, stepMatchInit, show chr ']' ≠ chr '^' by decide, false_and, if_false,
      ht]
  refine ⟨t, ?_, fun h => ?_⟩
  · rw [text_eq, hset, List.nil_append, loop_carets _ spec.carets u (fun c hc => mem_carets hc)
      hu.state hu.inv hu.bail, ← hv, loop_cons_of_step (by decide) hbail _ hstep]
    rfl
  · have hbail' : t.bail = .none := by rw [ht]; exact hbail
    have hstores : t.stores = s.stores := by rw [ht, ← hu.stores, hv]; rfl
    by_cases hwanted : I.takeWhile spec.wanted = []
    · exact (h.failed hwanted).1 hbail'
    · have hlen := congrArg List.length (h.stored hwanted).1
      rw [hstores, List.length_append, List.length_singleton] at hlen
      omega

lemma scans_iff_of_first (hu : Begun p s u) (hI : s.q = I ++ 0 :: r)
    (hnul : 0 ∉ I) {set : List UInt8} (hset : spec.set.dropWhile (· == chr '^') = ch :: set) :
    ∃ t, loop buffer spec.text u = some t ∧ (Scans spec rest I r p s t ↔
      I.takeWhile spec.taken = I.takeWhile spec.wanted ∧
        (rest = [] ∨ I.takeWhile spec.wanted = [])) := by
  have hsplit := List.takeWhile_append_dropWhile (p := (· == chr '^')) (l := spec.set)
  rw [hset] at hsplit
  have hmem : ∀ c ∈ ch :: set, c ∈ spec.set := fun c hc => hsplit ▸ List.mem_append_right _ hc
  have hch : ch ≠ chr '^' := by
    have := List.head?_dropWhile_not (· == chr '^') spec.set
    rw [hset] at this
    simpa using this
  have hch0 : ch ≠ 0 := fun h => spec.nonul (hmem 0 (h ▸ List.mem_cons_self))
  have hnul' : 0 ∉ set := fun h => spec.nonul (hmem 0 (List.mem_cons_of_mem _ h))
  have hclose : chr ']' ∉ set := by
    refine fun h => spec.closed ?_
    rw [← hsplit]
    cases spec.set.takeWhile (· == chr '^') with
    | nil => exact h
    | cons c l => exact List.mem_append_right _ (List.mem_cons_of_mem _ h)
  have hcarets : ∀ c ∈ spec.carets, c = chr '^' := fun c hc => mem_carets hc
  obtain ⟨rs, hloop⟩ : ∃ rs, loop buffer (spec.carets ++ ch :: (set ++ [chr ']'])) u = _ :=
    loop_set hcarets hch hch0 hclose hnul' [] hu.state hu.inv hu.bail hu.matchmap hu.matchinv
  obtain ⟨v, hv⟩ : ∃ v, v = { u with
    matchinv := spec.carets ≠ []
    matchmap := built set (Function.update (fun _ => false) ch true)
    state := endState set
    rangeStart := rs } := ⟨_, rfl⟩
  have hhit : hit v = spec.taken := by
    funext c
    rw [SetSpec.taken, hset, ← carets_ne_nil, hv]
    rfl
  obtain ⟨t, ht, hiff⟩ : ∃ t, matchRun v = some t ∧ (Scans spec rest I r p s t ↔ _) :=
    scans_iff_of_matchRun (by rw [hv, ← hI]; exact hu.q) hnul (by rw [hv]; exact hu.sarg)
      (by rw [hv]; exact hu.width) (by rw [hv]; exact endState_ne_normal set) hhit
      (by rw [hv]; exact hu.stores) (by rw [hv]; exact hu.converted)
  refine ⟨t, ?_, hiff⟩
  rw [text_eq, hset, List.cons_append, hloop, ← hv, ht]
  rfl

end

/-- **Scan sets.**  For every specification, every rest of the format and every input: the
conversion `%[` without a width does what its specification says if and only if one of its
characters is not a caret, the set the code builds takes the same characters from the input, and
there are none or nothing follows in the format. -/
theorem scanSet_iff {bits : ℕ} {buffer format I r : List UInt8} {ap ap' : List ℕ} {s : Scan bits}
    {p : ℕ} (hs : Reached buffer format ap s) (hI : s.q = I ++ 0 :: r) (hnul : 0 ∉ I)
    (hap : s.ap = p :: ap') (D : Directive) (hD : D.digits = []) (hletter : D.letter = chr '[')
    (spec : SetSpec) (rest : List UInt8) :
    ∃ t, loop buffer (D.text false ++ spec.text) s = some t ∧
      loop buffer ((D.text false ++ spec.text) ++ rest) s = loop buffer rest t ∧
      (Scans spec rest I r p s t ↔ Agrees spec rest I) := by
  have hwidth : (D.begun false (some p) ap' s).width ≠ 0 := by
    rw [show (D.begun false (some p) ap' s).width = D.width from rfl, Directive.width, if_pos hD]
    decide
  have hu : Begun p s (D.begun false (some p) ap' s) :=
    ⟨rfl, rfl, hs.goesOn, rfl, rfl, hwidth, rfl, rfl, rfl, rfl⟩
  have hbegun : loop buffer (D.text false ++ spec.text) s =
      loop buffer spec.text (D.begun false (some p) ap' s) := by
    rw [loop_directive D false _ hs.normal hs.goesOn, hletter, convert_set_store D hap]
    rfl
  have hnul' : 0 ∉ D.text false ++ spec.text := fun h =>
    (List.mem_append.1 h).elim (zero_notMem_text D false) (zero_notMem_setText spec)
  -- what follows the conversion starts with the variables that it leaves
  have hrest : ∀ t, loop buffer (D.text false ++ spec.text) s = some t →
      loop buffer ((D.text false ++ spec.text) ++ rest) s = loop buffer rest t := fun t ht => by
    rw [loop_append rest s hnul', ht]
    rfl
  cases hset : spec.set.dropWhile (· == chr '^') with
  | nil =>
    obtain ⟨t, ht, hnot⟩ : ∃ t, loop buffer spec.text (D.begun false (some p) ap' s) = some t ∧
      ¬ Scans spec rest I r p s t := scans_of_carets hu hset
    rw [← hbegun] at ht
    exact ⟨t, ht, hrest t ht, iff_of_false hnot fun h => h.ends hset⟩
  | cons ch set =>
    obtain ⟨t, ht, hiff⟩ : ∃ t, loop buffer spec.text (D.begun false (some p) ap' s) = some t ∧
      (Scans spec rest I r p s t ↔ _) := scans_iff_of_first hu hI hnul hset
    rw [← hbegun] at ht
    refine ⟨t, ht, hrest t ht, hiff.trans ⟨fun h => ⟨?_, h.1, h.2⟩, fun h => ⟨h.same, h.last⟩⟩⟩
    rw [hset]
    exact List.cons_ne_nil _ _

/-- The string `abc`. -/
def abc : List UInt8 := [chr 'a', chr 'b', chr 'c', 0]

/-- `%[`. -/
def plainSet : Directive := .set [] digits_nil

/-- `[ab]`. -/
def specTwo : SetSpec where
  caret := false
  set := [chr 'a', chr 'b']
  ne_nil := by decide
  closed := by decide
  nonul := by decide
  first := fun _ => by decide

/-- `[a-c]`. -/
def specRange : SetSpec where
  caret := false
  set := [chr 'a', chr '-', chr 'c']
  ne_nil := by decide
  closed := by decide
  nonul := by decide
  first := fun _ => by decide

theorem scanSet_iff_two : ∃ t,
    loop abc (plainSet.text false ++ specTwo.text) (Scan.init 64 abc [1000]) = some t ∧
      Scans specTwo [] [chr 'a', chr 'b', chr 'c'] [] 1000 (Scan.init 64 abc [1000]) t := by
  have hreached : Reached abc [] [1000] (Scan.init 64 abc [1000]) := ⟨rfl, rfl, rfl⟩
  obtain ⟨t, ht, -, hiff⟩ := scanSet_iff (I := [chr 'a', chr 'b', chr 'c']) (r := []) hreached rfl
    (by decide) rfl plainSet rfl rfl specTwo []
  exact ⟨t, ht, hiff.2 ⟨by decide, by decide, Or.inl rfl⟩⟩

/-- `%[a-c]` stores the first two characters of `abc` only. -/
theorem range_without_end : ∃ t,
    loop abc (plainSet.text false ++ specRange.text) (Scan.init 64 abc [1000]) = some t ∧
      t.stores = [(1000, .bytes [chr 'a', chr 'b', 0])] ∧
      ¬ Scans specRange [] [chr 'a', chr 'b', chr 'c'] [] 1000 (Scan.init 64 abc [1000]) t := by
  refine ⟨_, rfl, rfl, fun h => ?_⟩
  have hread := h.read
  exact absurd (congrArg List.length hread) (by decide)

end Klibc.Stdio.ScanSet
