import Klibc.Lib.Total
import Klibc.Lib.Words

/-! # `strsep` and `strtok_r`

Both write a NUL over the delimiter behind what they return. `strsep` returns every field of the
string, and `strtok_r` those that are not empty. -/

namespace Klibc.Mem.Strtok

open Lib.Total Lib.Words List

/-! ### The code -/

/-- The memory of the string, and the pointer that the calls share. -/
structure State where
  mem : List UInt8
  holder : Option ℕ

def matchmap (map : List UInt8) (parity : Bool) : UInt8 → Bool :=
  Function.update (map.foldl (fun m c => Function.update m c true) fun _ => false) 0 parity

/-- `__strxspn`, on the memory from `s` on. -/
def strxspn (map : List UInt8) (parity : Bool) : List UInt8 → Option ℕ
  | [] => none
  | c :: s => if matchmap map parity c ^^ parity then (strxspn map parity s).map (· + 1) else some 0

def strpbrk (mem : List UInt8) (s : ℕ) (accept : List UInt8) : Option (Option ℕ) := do
  let ss := s + (← strxspn accept true (mem.drop s))
  return if (← mem[ss]?) ≠ 0 then some ss else none

variable (delim : List UInt8)

def strsep : StateT State Option (Option ℕ) := fun st =>
  match st.holder with
  | none => some (none, st)
  | some s => (strpbrk st.mem s delim).map fun
    | some e => (some s, ⟨st.mem.set e 0, some (e + 1)⟩)
    | none => (some s, ⟨st.mem, none⟩)

def strtokTurn : StateT State Option (Unit ⊕ Option ℕ) := do
  match ← strsep delim with
  | none => return .inr none
  | some s => return if (← (← get).mem[s]?) = 0 then .inl () else .inr (some s)

def strtokR (s : Option ℕ) : StateT State Option (Option ℕ) := do
  if s.isSome then modify fun st => { st with holder := s }
  Loop.run ⟨fun _ => strtokTurn delim⟩ ()

/-- What `k` calls return. -/
def calls (f : StateT State Option (Option ℕ)) : ℕ → StateT State Option (List (Option ℕ))
  | 0 => return []
  | k + 1 => return (← f) :: (← calls f k)

/-- The first of `k` calls of `strtok_r` gets the string, and the others get `NULL`. -/
def tokens (s : ℕ) : ℕ → StateT State Option (List (Option ℕ))
  | 0 => return []
  | k + 1 => return (← strtokR delim (some s)) :: (← calls (strtokR delim none) k)

/-! ### What is asked of it -/

structure Str where
  chars : List UInt8
  nul_notMem : 0 ∉ chars

def isDelim (c : UInt8) : Bool := delim.contains c

abbrev Field := ℕ × List UInt8

def offsets : ℕ → List (List UInt8) → List Field
  | _, [] => []
  | p, f :: fs => (p, f) :: offsets (p + f.length + 1) fs

/-- The fields of a string that begins at `p`, with their offsets. -/
def fields (p : ℕ) (t : List UInt8) : List Field := offsets p (t.splitOnP (isDelim delim))

/-- A string stands at its offset, with its NUL. -/
def Terminated (mem : List UInt8) (f : Field) : Prop :=
  ∃ a b, mem = a ++ (f.2 ++ 0 :: b) ∧ a.length = f.1

/-- **The calls return the strings `l`** in their order and `NULL` from then on; each is terminated
where it stands. -/
def Yields (c : ℕ → StateT State Option (List (Option ℕ))) (st : State) (l : List Field) : Prop :=
  ∀ k, Returns (c k) st fun rs st' =>
    rs = (List.range k).map (fun i => l[i]?.map Prod.fst) ∧ ∀ f ∈ l.take k, Terminated st'.mem f

/-! ### One call -/

variable {delim}

lemma foldl_update {map : List UInt8} {m : UInt8 → Bool} {c : UInt8} :
    map.foldl (fun m c => Function.update m c true) m c = (m c || map.contains c) := by
  induction map generalizing m with
  | nil => simp
  | cons d map ih =>
    rw [foldl_cons, ih, Function.update_apply, contains_cons]
    by_cases h : c = d
    · simp [h]
    · simp [h, beq_false_of_ne h]

section
variable {pre w rest : List UInt8} {c : UInt8} (hw : ∀ d ∈ w, d ≠ 0 ∧ isDelim delim d = false)
  (hc : c = 0 ∨ isDelim delim c = true)
include hw hc

lemma strxspn_eq : strxspn delim true (w ++ c :: rest) = some w.length := by
  have hmap (d : UInt8) : (matchmap delim true d ^^ true) = true ↔
      d ≠ 0 ∧ isDelim delim d = false := by
    rw [matchmap, Function.update_apply, foldl_update]
    by_cases h : d = 0
    · simp [h]
    · simp [h, isDelim]
  induction w with
  | nil =>
    rw [nil_append, strxspn, if_neg fun h => ?_]
    · rfl
    · rcases hc with hc | hc
      · exact ((hmap c).1 h).1 hc
      · exact Bool.false_ne_true (((hmap c).1 h).2.symm.trans hc)
  | cons d w ih =>
    rw [forall_mem_cons] at hw
    rw [cons_append, strxspn, if_pos ((hmap d).2 hw.1), ih hw.2]
    rfl

lemma strpbrk_eq : strpbrk (pre ++ (w ++ c :: rest)) pre.length delim =
      some (if c ≠ 0 then some (pre.length + w.length) else none) := by
  simp [strpbrk, strxspn_eq hw hc]

end

variable (delim) in
/-- The variables between two calls of `strsep`: the strings `done` were returned, and the fields
`todo` are left. -/
inductive View : List Field → List Field → State → Prop
  | ended {mem : List UInt8} {done : List Field} :
    (∀ f ∈ done, Terminated mem f) → View done [] ⟨mem, none⟩
  | next {pre t post : List UInt8} {done todo : List Field} : 0 ∉ t →
    (∀ f ∈ done, Terminated pre f) → todo = fields delim pre.length t →
    View done todo ⟨pre ++ (t ++ 0 :: post), some pre.length⟩

lemma Terminated.append {mem l : List UInt8} {f : Field} (h : Terminated mem f) :
    Terminated (mem ++ l) f := by
  obtain ⟨a, b, rfl, ha⟩ := h
  exact ⟨a, b ++ l, by simp, ha⟩

variable {done todo : List Field} {f : Field} {st : State}

lemma View.terminated (h : View delim done todo st) : ∀ f ∈ done, Terminated st.mem f := by
  cases h with
  | ended h => exact h
  | next _ h => exact fun f hf => (h f hf).append

lemma strsep_over (h : View delim done [] st) : strsep delim st = some (none, st) := by
  cases h with
  | ended => rfl
  | next ht hdone htodo =>
    exfalso
    obtain ⟨g, gs, hsplit⟩ := exists_cons_of_ne_nil (splitOnP_ne_nil (isDelim delim) _)
    rw [fields, hsplit] at htodo
    cases htodo

/-- A call of `strsep` returns the next field, and terminates it. -/
theorem strsep_next (h : View delim done (f :: todo) st) : ∃ st', 0 ∉ f.2 ∧
    strsep delim st = some (some f.1, st') ∧ View delim (done ++ [f]) todo st' := by
  cases h with
  | @next pre t post _ _ ht hdone htodo =>
    have hplain {w : List UInt8} (hsub : w ⊆ t) (hw : ∀ d ∈ w, (!isDelim delim d) = true) :
        ∀ d ∈ w, d ≠ 0 ∧ isDelim delim d = false :=
      fun d hd => ⟨fun h0 => ht (h0 ▸ hsub hd), by simpa using hw d hd⟩
    cases hfind : t.find? (isDelim delim) with
    | none =>
      have hplain := hplain (Subset.refl t) (by simpa using hfind)
      rw [fields, splitOnP_eq_singleton fun d hd => (hplain d hd).2] at htodo
      cases htodo
      refine ⟨⟨pre ++ (t ++ 0 :: post), none⟩, ht, ?_, .ended ?_⟩
      · simp only [strsep, strpbrk_eq hplain (Or.inl rfl)]
        rfl
      · rw [forall_mem_append, forall_mem_singleton]
        exact ⟨fun f hf => (hdone f hf).append, pre, post, rfl, rfl⟩
    | some d =>
      obtain ⟨hd, w, t', rfl, hw⟩ := find?_eq_some_iff_append.1 hfind
      have hplain := hplain (subset_append_left w _) hw
      rw [mem_append, mem_cons, not_or, not_or] at ht
      rw [fields, splitOnP_append_cons_of_forall_mem (fun d hd => (hplain d hd).2) _ hd] at htodo
      cases htodo
      have hlen : pre.length + w.length + 1 = (pre ++ (w ++ [0])).length := by simp; omega
      refine ⟨⟨pre ++ (w ++ [0]) ++ (t' ++ 0 :: post), some (pre.length + w.length + 1)⟩, ht.1, ?_,
        ?_⟩
      · rw [append_assoc w, cons_append, strsep]
        simp only [strpbrk_eq hplain (Or.inr hd), if_pos (Ne.symm ht.2.1), Option.map_some]
        simp [set_append_right]
      · rw [hlen]
        refine .next ht.2.2 ?_ rfl
        rw [forall_mem_append, forall_mem_singleton]
        exact ⟨fun f hf => (hdone f hf).append, pre, [], rfl, rfl⟩

lemma returns_calls {c : StateT State Option (Option ℕ)}
    {I : List Field → List Field → State → Prop}
    (hc : ∀ done l st, I done l st → Returns c st fun r st' =>
      r = l.head?.map Prod.fst ∧ I (done ++ l.head?.toList) l.tail st') (k : ℕ)
    (done l : List Field) (st : State) (h : I done l st) :
    Returns (calls c k) st fun rs st' =>
      rs = (List.range k).map (fun i => l[i]?.map Prod.fst) ∧
        I (done ++ l.take k) (l.drop k) st' := by
  induction k generalizing done l st with
  | zero => exact returns_pure.2 ⟨rfl, by simpa using h⟩
  | succ k ih =>
    rw [calls, returns_bind]
    refine (hc _ _ _ h).mono fun r st' ⟨hr, h⟩ => ?_
    rw [returns_bind]
    refine (ih _ _ _ h).mono fun rs st' ⟨hrs, h⟩ => returns_pure.2 ?_
    cases l with
    | nil => simp_all [range_succ_eq_map, Function.comp_def]
    | cons f l => simp_all [range_succ_eq_map, Function.comp_def]

/-- A call of `strtok_r` passes over the empty fields. -/
theorem returns_strtokR (h : View delim done todo st) : Returns (strtokR delim none) st fun r st' =>
      r = (todo.filter (·.2 ≠ [])).head?.map Prod.fst ∧ ∃ done' todo', View delim done' todo' st' ∧
        todo'.filter (·.2 ≠ []) = (todo.filter (·.2 ≠ [])).tail ∧ done ⊆ done' ∧
        (todo.filter (·.2 ≠ [])).head?.toList ⊆ done' := by
  change Returns (Loop.run ⟨fun _ => strtokTurn delim⟩ ()) st _
  induction todo generalizing done st with
  | nil =>
    rw [returns_loop, strtokTurn, returns_bind, returns_iff_of_eq (strsep_over h)]
    exact returns_pure.2 ⟨rfl, done, [], h, rfl, Subset.refl _, nil_subset _⟩
  | cons f todo ih =>
    obtain ⟨st', hnul, hsep, h⟩ := strsep_next h
    rw [returns_loop, strtokTurn, returns_bind, returns_iff_of_eq hsep]
    obtain ⟨a, b, hmem, ha⟩ := h.terminated f (by simp)
    have hchar : st'.mem[f.1]? = some (f.2.headD 0) := by
      rw [hmem, ← ha]
      cases f.2 <;> simp
    have hread : (liftM st'.mem[f.1]? : StateT State Option UInt8) st' =
        some (f.2.headD 0, st') := by
      rw [hchar]
      rfl
    simp only [returns_bind, returns_get, returns_iff_of_eq hread]
    cases hf : f.2 with
    | nil =>
      simp only [headD_nil, if_pos, returns_pure, Sum.elim_inl]
      refine (ih h).mono ?_
      rintro r t ⟨hr, done', todo', hview, htodo, hdone, hhead⟩
      rw [filter_cons_of_neg (by simp [hf])]
      exact ⟨hr, done', todo', hview, htodo, List.Subset.trans (subset_append_left _ _) hdone,
        hhead⟩
    | cons c w =>
      have hc : c ≠ 0 := by
        rintro rfl
        exact hnul (by simp [hf])
      rw [headD_cons, if_neg hc, returns_pure, filter_cons_of_pos (by simp [hf])]
      exact ⟨rfl, _, todo, h, rfl, subset_append_left _ _, by simp⟩

/-! ### All calls -/

lemma head?_splitOnP (sep : UInt8 → Bool) (t : List UInt8) :
    ∃ fs, t.splitOnP sep = t.takeWhile (fun c => !sep c) :: fs := by
  induction t with
  | nil => exact ⟨[], rfl⟩
  | cons c t ih =>
    obtain ⟨fs, hfs⟩ := ih
    rw [splitOnP_cons_eq_if_modifyHead]
    cases hc : sep c with
    | true => exact ⟨t.splitOnP sep, by simp [hc]⟩
    | false => exact ⟨fs, by simp [hc, hfs]⟩

/-- The words are the fields that are not empty; inside a word, its rest is the first field. -/
theorem filter_offsets {sep : UInt8 → Bool} (was : Bool) (p : ℕ) (t : List UInt8) :
    (((offsets p (t.splitOnP sep)).drop (if was then 0 else 1)).filter (·.2 ≠ [])) =
      (starts sep was p t).map fun o => (o, (t.drop (o - p)).takeWhile fun c => !sep c) := by
  induction t generalizing was p with
  | nil => cases was <;> rfl
  | cons c t ih =>
    have hshift (was : Bool) : ((starts sep was (p + 1) t).map fun o =>
        (o, ((c :: t).drop (o - p)).takeWhile fun c => !sep c)) =
        (starts sep was (p + 1) t).map fun o =>
          (o, (t.drop (o - (p + 1))).takeWhile fun c => !sep c) := by
      refine map_congr_left fun o ho => ?_
      have hle := le_of_mem_starts ho
      rw [show o - p = o - (p + 1) + 1 by omega, drop_succ_cons]
    rw [splitOnP_cons_eq_if_modifyHead]
    cases hc : sep c with
    | true =>
      rw [starts_sep hc, hshift, ← ih true (p + 1), if_pos rfl, offsets]
      cases was <;> simp
    | false =>
      obtain ⟨fs, hfs⟩ := head?_splitOnP sep t
      have hinside := ih false (p + 1)
      rw [hfs, offsets] at hinside
      rw [if_neg Bool.false_ne_true, hfs, modifyHead_cons, offsets, length_cons,
        ← Nat.add_assoc, Nat.add_right_comm p]
      cases was with
      | false =>
        rw [starts_inside hc, hshift, ← hinside]
        rfl
      | true =>
        rw [starts_begin hc, map_cons, hshift, ← hinside]
        simp [hc]

lemma map_snd_offsets (p : ℕ) (fs : List (List UInt8)) : (offsets p fs).map Prod.snd = fs := by
  induction fs generalizing p with
  | nil => rfl
  | cons f fs ih => rw [offsets, List.map_cons, ih]

lemma length_splitOnP {sep : UInt8 → Bool} (t : List UInt8) :
    (t.splitOnP sep).length = t.countP sep + 1 := by
  induction t with
  | nil => rfl
  | cons c t ih =>
    rw [splitOnP_cons_eq_if_modifyHead, countP_cons]
    split_ifs
    · rw [length_cons, ih]
    · rw [length_modifyHead, ih]

/-- **`strtok_r` returns the words of a string, and `strsep` its fields**, one more than there are
delimiters; both return `NULL` from then on. -/
theorem strtok_r_strsep (s : Str) (delim post : List UInt8) (h : Option ℕ) :
    (∃ toks, (∀ o w, (o, w) ∈ toks ↔ IsWord (isDelim delim) s.chars o w) ∧
      toks.Pairwise (fun v w => v.1 < w.1) ∧
      Yields (tokens delim 0) ⟨s.chars ++ 0 :: post, h⟩ toks) ∧
    (fields delim 0 s.chars).map Prod.snd = s.chars.splitOnP (isDelim delim) ∧
    (fields delim 0 s.chars).length = s.chars.countP (isDelim delim) + 1 ∧
    Yields (calls (strsep delim)) ⟨s.chars ++ 0 :: post, some 0⟩ (fields delim 0 s.chars) := by
  have hstart : View delim [] (fields delim 0 s.chars) ⟨s.chars ++ 0 :: post, some 0⟩ :=
    @View.next delim [] _ _ _ _ s.nul_notMem (by simp) rfl
  have hsnd := map_snd_offsets 0 (s.chars.splitOnP (isDelim delim))
  refine ⟨⟨words (isDelim delim) s.chars, fun o w => mem_words, words_sorted, ?_⟩, hsnd, ?_, ?_⟩
  · have hwords : (fields delim 0 s.chars).filter (·.2 ≠ []) = words (isDelim delim) s.chars :=
      filter_offsets true 0 s.chars
    intro k
    have hrun := returns_calls (c := strtokR delim none)
      (I := fun done l st => ∃ done' todo, View delim done' todo st ∧
        todo.filter (·.2 ≠ []) = l ∧ done ⊆ done') ?_ k [] _ _ ⟨[], _, hstart, hwords, by simp⟩
    · cases k with
      | zero => exact returns_pure.2 ⟨rfl, by simp⟩
      | succ k =>
        refine hrun.mono fun rs st' ⟨hrs, done', todo, hview, _, hdone⟩ => ⟨hrs, fun f hf => ?_⟩
        exact hview.terminated f (hdone (by simpa using hf))
    · rintro done l st ⟨done', todo, hview, rfl, hdone⟩
      refine (returns_strtokR hview).mono
        fun r st' ⟨hr, done1, todo1, hview, htodo, hle, hhead⟩ => ?_
      exact ⟨hr, done1, todo1, hview, htodo, append_subset.2 ⟨List.Subset.trans hdone hle, hhead⟩⟩
  · rw [← length_splitOnP, ← hsnd, length_map]
    rfl
  · intro k
    refine (returns_calls (I := View delim) ?_ k [] _ _ hstart).mono ?_
    · intro done l st h
      cases l with
      | nil => exact (returns_iff_of_eq (strsep_over h)).2 ⟨rfl, by simpa using h⟩
      | cons f l =>
        obtain ⟨st', -, hsep, h⟩ := strsep_next h
        exact (returns_iff_of_eq hsep).2 ⟨rfl, h⟩
    · exact fun rs st' ⟨hrs, h⟩ => ⟨hrs, h.terminated⟩

/-- The string `a,,b`. -/
def commas : Str := ⟨[97, 44, 44, 98], by decide⟩

theorem strtok_r_strsep_commas :
    Yields (calls (strsep [44])) ⟨[97, 44, 44, 98, 0], some 0⟩ (fields [44] 0 commas.chars) ∧
      (fields [44] 0 commas.chars).map Prod.snd = [[97], [], [98]] := by
  obtain ⟨-, hfields, -, hcalls⟩ := strtok_r_strsep commas [44] [] none
  exact ⟨hcalls, hfields.trans (by decide +kernel)⟩

end Klibc.Mem.Strtok
