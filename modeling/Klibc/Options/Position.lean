import Klibc.Options.Scan

/-! # The position pointer

The position pointer stays in the last argument whose letters were scanned. Strings lie apart, so
that a later argument is begun at its first letter. -/

namespace Klibc.Options.Position

open Lib.CString Lib.Machine Getopt Calls List OneCall Scan

/-- The position pointer lies in none of the arguments. -/
structure Behind (q : Query) (p : ℕ) (rest : List Str) : Prop where
  inSpace : p < 2 ^ q.bits
  away : ∀ a ∈ rest, p < a.addr ∨ a.last < p

variable {rest : List Str} {q : Query} {a : Str} {cs : List UInt8} {p : ℕ}

lemma resume_away (ha : a ∈ q.args) (hp : p < 2 ^ q.bits)
    (h : p < a.addr ∨ a.last < p) : resume q a p = 1 := by
  have hlast := (q.inSpace a ha).2
  have hle : a.last = a.addr + a.bytes.length := rfl
  rw [resume]
  refine if_pos ?_
  rcases h with h | h
  · have hneg : (p : ℤ) - a.addr = -((a.addr - p : ℕ) : ℤ) := by omega
    rw [hneg, unsigned_neg (by omega) (by omega)]
    omega
  · have hpos : (p : ℤ) - a.addr = ((p - a.addr : ℕ) : ℤ) := by omega
    rw [hpos, unsigned_eq (by omega)]
    omega

lemma endPtr_letterSteps (q : Query) (next : Option Str) (p p' : ℕ)
    (hne : cs ≠ []) : p < endPtr p' (letterSteps q next p cs).1 ∧
      endPtr p' (letterSteps q next p cs).1 ≤ p + cs.length := by
  induction cs generalizing p p' with
  | nil => exact absurd rfl hne
  | cons c cs ih =>
    have hone : endPtr (p + 1) [] = p + 1 := rfl
    rw [letterSteps, length_cons]
    split_ifs with hc
    · simp only [endPtr_letterStep, hone]
      omega
    · simp only [endPtr_letterStep]
      by_cases hnil : cs = []
      · subst hnil
        exact ⟨Nat.lt_succ_self p, le_rfl⟩
      · have hih := ih (p + 1) (p + 1) hnil
        omega

lemma endPtr_letterSteps_eq (q : Query) (next : Option Str) (p : ℕ) {p1 p2 : ℕ} (hne : cs ≠ []) :
    endPtr p1 (letterSteps q next p cs).1 = endPtr p2 (letterSteps q next p cs).1 := by
  obtain ⟨c, cs, rfl⟩ := exists_cons_of_ne_nil hne
  rw [letterSteps]
  split_ifs with hc
  · simp only [endPtr_letterStep]
  · simp only [endPtr_letterStep]

lemma behind_zero (h : ∀ a ∈ rest, a ∈ q.args) : Behind q 0 rest :=
  ⟨Nat.two_pow_pos _, fun a ha => Or.inl (q.inSpace a (h a ha)).1⟩

lemma Behind.tail (h : Behind q p (a :: rest)) :
    Behind q p rest := ⟨h.inSpace, fun b hb => h.away b (mem_cons_of_mem _ hb)⟩

lemma behind_of_mem {pre rest : List Str}
    (hargs : q.args = pre ++ a :: rest) (h1 : a.addr ≤ p) (h2 : p ≤ a.last) : Behind q p rest := by
  have ha : a ∈ q.args := mem_of_split hargs
  have hapart := q.apart
  rw [hargs, pairwise_append, pairwise_cons] at hapart
  refine ⟨lt_of_le_of_lt h2 (q.inSpace a ha).2, fun b hb => ?_⟩
  rcases hapart.2.1.1 b hb with h | h
  · exact Or.inl (lt_of_le_of_lt h2 h)
  · exact Or.inr (lt_of_lt_of_le h h1)

lemma length_of_letters {sc : Scanner} (h : sc.kind a = .letters) : 1 < a.bytes.length :=
  one_lt_length (h.trans_ne (by decide))

variable {next : Option Str} {st : Step} {k x : ℕ}

lemma behind_letterSteps {pre rest : List Str} (next : Option Str)
    (p : ℕ) (hargs : q.args = pre ++ a :: rest) (hk : k < a.bytes.length) :
    Behind q (endPtr p (letterSteps q next (a.addr + k) (a.bytes.drop k)).1) rest := by
  have hne : a.bytes.drop k ≠ [] := by
    rw [Ne, drop_eq_nil_iff]
    omega
  obtain ⟨h1, h2⟩ := endPtr_letterSteps q next (a.addr + k) p hne
  rw [length_drop] at h2
  have hlast : a.last = a.addr + a.bytes.length := rfl
  exact behind_of_mem hargs (by omega) (by omega)

/-! ### Where the pointers of a step point -/

def Inside (rest : List Str) (x : ℕ) : Prop := ∃ a ∈ rest, a.addr ≤ x ∧ x ≤ a.last

lemma Inside.cons (h : Inside rest x) : Inside (a :: rest) x := by
  obtain ⟨b, hb, hx⟩ := h
  exact ⟨b, mem_cons_of_mem _ hb, hx⟩

lemma inside_head (h1 : a.addr ≤ x) (h2 : x ≤ a.last) :
    Inside (a :: rest) x := ⟨a, mem_cons_self, h1, h2⟩

lemma inside_next {arg : Str} (h : rest.head? = some arg) : Inside rest arg.addr :=
  ⟨arg, mem_of_head? h, le_rfl, Nat.le_add_right _ _⟩

structure Tidy (rest : List Str) (st : Step) : Prop where
  optarg : st.optarg = 0 ∨ Inside rest st.optarg
  optptr : ∀ x, st.optptr = some x → Inside rest x

lemma Tidy.cons (h : Tidy rest st) : Tidy (a :: rest) st :=
  ⟨h.optarg.imp_right Inside.cons, fun x hx => (h.optptr x hx).cons⟩

/-- What the call for a letter between two addresses stores, as `optarg` and as the position
pointer. -/
structure Stores (next : Option Str) (p last : ℕ) (st : Step) : Prop where
  optarg : st.optarg = 0 ∨ (p < st.optarg ∧ st.optarg ≤ last) ∨
    ∃ arg, next = some arg ∧ st.optarg = arg.addr
  optptr : ∀ x, st.optptr = some x → p < x ∧ x ≤ last

lemma letterStep_stores {p last : ℕ} {c : UInt8} {more : Bool}
    (h : p < last) : Stores next p last (letterStep q next p c more).1 := by
  have hptr : ∀ x, some (p + 1) = some x → p < x ∧ x ≤ last := by
    rintro x ⟨⟩
    exact ⟨Nat.lt_succ_self p, h⟩
  unfold letterStep
  split
  · split
    · exact ⟨Or.inr (Or.inl ⟨Nat.lt_succ_self p, h⟩), hptr⟩
    · split
      · exact ⟨Or.inr (Or.inr ⟨_, rfl, rfl⟩), hptr⟩
      · exact ⟨Or.inl rfl, hptr⟩
  · exact ⟨Or.inl rfl, hptr⟩
  · exact ⟨Or.inl rfl, hptr⟩

lemma letterSteps_stores
    (h : st ∈ (letterSteps q next p cs).1) : Stores next p (p + cs.length) st := by
  induction cs generalizing p with
  | nil => cases h
  | cons c cs ih =>
    have hone : Stores next p (p + (c :: cs).length) (letterStep q next p c (cs ≠ [])).1 :=
      letterStep_stores (by rw [length_cons]; omega)
    unfold letterSteps at h
    split_ifs at h
    · rw [mem_singleton] at h
      exact h ▸ hone
    · rcases mem_cons.1 h with rfl | h
      · exact hone
      · have hlen : p + (c :: cs).length = p + 1 + cs.length := by rw [length_cons]; omega
        obtain ⟨harg, hptr⟩ := ih h
        rw [hlen]
        refine ⟨?_, fun x hx => ⟨by have := (hptr x hx).1; omega, (hptr x hx).2⟩⟩
        exact harg.imp_right (Or.imp_left fun h => ⟨by omega, h.2⟩)

lemma letterSteps_tidy (hk : k < a.bytes.length)
    (h : st ∈ (letterSteps q rest.head? (a.addr + k) (a.bytes.drop k)).1) :
    Tidy (a :: rest) st := by
  have hlast : a.addr + k + (a.bytes.drop k).length = a.last := by
    rw [length_drop, Str.last]
    omega
  obtain ⟨harg, hptr⟩ := letterSteps_stores h
  rw [hlast] at harg hptr
  refine ⟨?_, fun x hx => inside_head (by have := (hptr x hx).1; omega) (hptr x hx).2⟩
  rcases harg with h | ⟨h1, h2⟩ | ⟨arg, hnext, h⟩
  · exact Or.inl h
  · exact Or.inr (inside_head (by omega) h2)
  · rw [h]
    exact Or.inr (inside_next hnext).cons

lemma lt_of_at {b : UInt8} (h : a.at k = some b) (hb : b ≠ 0) : k < a.bytes.length := by
  by_contra hge
  rw [Str.at, getElem?_append_right (by omega)] at h
  have hmem : b ∈ [0] := mem_of_getElem? h
  exact hb (mem_singleton.1 hmem)

lemma longStep_tidy {longopts : List LongOption} :
    Tidy (a :: rest) (longStep longopts a rest.head?).1 := by
  refine ⟨?_, fun x hx => ?_⟩
  · unfold longStep
    split
    · exact Or.inl rfl
    · rename_i n _
      split_ifs with hat hno hone
      · have hlt := lt_of_at hat (by decide)
        have hlast : a.last = a.addr + a.bytes.length := rfl
        exact Or.inr (inside_head (x := a.addr + (2 + n) + 1) (by omega) (by omega))
      · exact Or.inl rfl
      · cases hnext : rest.head? with
        | none => exact Or.inl rfl
        | some arg => exact Or.inr (inside_next hnext).cons
      · exact Or.inl rfl
  · rw [longStep_optptr] at hx
    cases hx

/-- **A scan from behind the arguments comes to an end, and its pointers stay in the arguments.** -/
theorem trace_tidy (sc : Scanner) {rest pre : List Str} (skip : Bool)
    (hargs : q.args = pre ++ rest) (hp : Behind q p rest) :
    (trace q sc skip p rest).ends ≠ none ∧ ∀ st ∈ (trace q sc skip p rest).steps, Tidy rest st := by
  induction rest generalizing pre skip p with
  | nil =>
    rw [trace]
    exact ⟨Option.some_ne_none 0, by simp⟩
  | cons a rest ih =>
    have hsplit := split_next hargs
    -- the steps of `a`, then those of the rest
    have hafter : ∀ {taken : Bool} {p' : ℕ} {ss : List Step}, Behind q p' rest → (∀ st ∈ ss,
        Tidy (a :: rest) st) → ((trace q sc taken p' rest).after ss).ends ≠ none ∧
          ∀ st ∈ ((trace q sc taken p' rest).after ss).steps, Tidy (a :: rest) st := by
      intro taken p' ss hbehind hss
      obtain ⟨hends, hsteps⟩ := ih taken hsplit hbehind
      refine ⟨by simpa [Trace.after] using hends, fun st hst => ?_⟩
      rcases mem_append.1 hst with h | h
      · exact hss st h
      · exact (hsteps st h).cons
    cases skip with
    | true =>
      rw [trace]
      exact hafter hp.tail (by simp)
    | false =>
      have ha : a ∈ q.args := mem_of_split hargs
      cases hkind : sc.kind a with
      | operand =>
        rw [trace_operand hkind]
        exact ⟨Option.some_ne_none 0, by simp⟩
      | terminator =>
        rw [trace_terminator hkind]
        exact ⟨Option.some_ne_none 1, by simp⟩
      | letters =>
        have hlen := length_of_letters hkind
        have hresume := resume_away ha hp.inSpace (hp.away a mem_cons_self)
        rw [trace_letters hkind hresume hlen]
        exact hafter (behind_letterSteps rest.head? p hargs hlen) fun st hst =>
          letterSteps_tidy hlen hst
      | long =>
        rw [trace_long hkind]
        refine hafter hp.tail fun st hst => ?_
        rw [mem_singleton.1 hst]
        exact longStep_tidy

end Klibc.Options.Position
