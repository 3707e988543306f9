import Klibc.Env.Environ

/-! # The entries of the environment

`Wf s es` says that the environment of `s` has the entries `es`, and what holds of the variables of
`__put_env.c` in every state the functions lead to. `returns_putEnv` says what `__put_env` does to
the entries: it replaces the first one that matches, or appends a new one (`put`). It does so if the
array has the room the variables promise (`Safe`), and faults if not. -/

namespace Klibc.Env.Entries

open Lib.Total Environ List

/-! ### Comparing strings -/

lemma strncmp_cons (a b : UInt8) (s t : List UInt8) (n : ℕ) : strncmp (a :: s) (b :: t) (n + 1) =
      if (a.toNat : ℤ) - b.toNat ≠ 0 ∨ a = 0 then (a.toNat : ℤ) - b.toNat else strncmp s t n := rfl

lemma strncmp_cons_nil (a : UInt8) (s : List UInt8) (n : ℕ) : strncmp (a :: s) [] (n + 1) =
      if (a.toNat : ℤ) - 0 ≠ 0 ∨ a = 0 then (a.toNat : ℤ) - 0 else strncmp s [] n := rfl

lemma toNat_ne_zero {a : UInt8} {s : List UInt8} (h : 0 ∉ a :: s) : a ≠ 0 ∧ a.toNat ≠ 0 := by
  have ha : a ≠ 0 := fun ha => h (by simp [ha])
  exact ⟨ha, fun h0 => ha (UInt8.toNat_inj.1 h0)⟩

lemma strncmp_eq_zero : ∀ (n : ℕ) {s t : List UInt8}, 0 ∉ s → 0 ∉ t →
    (strncmp s t n = 0 ↔ s.take n = t.take n)
  | 0, s, t, _, _ => by simp [strncmp]
  | n + 1, [], [], _, _ => by simp [strncmp]
  | n + 1, [], b :: t, _, ht => by
    have hb := (toNat_ne_zero ht).2
    have hne : strncmp [] (b :: t) (n + 1) ≠ 0 := by
      show (0 : ℤ) - b.toNat ≠ 0
      omega
    simp [hne]
  | n + 1, a :: s, [], hs, _ => by
    have ha := (toNat_ne_zero hs).2
    have hd : (a.toNat : ℤ) - 0 ≠ 0 := by omega
    rw [strncmp_cons_nil, if_pos (Or.inl hd)]
    simp [ha]
  | n + 1, a :: s, b :: t, hs, ht => by
    have ih := strncmp_eq_zero n (fun h => hs (mem_cons_of_mem a h))
      (fun h => ht (mem_cons_of_mem b h))
    have ha := (toNat_ne_zero hs).1
    rw [strncmp_cons, take_succ_cons, take_succ_cons, List.cons.injEq]
    by_cases hab : a = b
    · subst hab
      rw [if_neg (by simp [ha]), ih]
      simp
    · have hd : (a.toNat : ℤ) - b.toNat ≠ 0 := fun h => hab (UInt8.toNat_inj.1 (by omega))
      rw [if_pos (Or.inl hd)]
      simp [hd, hab]

/-! ### The array -/

section
variable {hit : CString → Bool} {slots : List Slot}

lemma scan_hit {l r : List CString} {y : CString} (hl : ∀ x ∈ l, ¬ hit x) (hy : hit y) :
    scan hit ((l ++ y :: r).map .str ++ slots) = some (l.length, true) := by
  induction l with
  | nil => simp [scan, hy]
  | cons x l ih =>
    have hx : ¬ hit x := hl x mem_cons_self
    have ih' := ih fun z hz => hl z (mem_cons_of_mem x hz)
    simp only [cons_append, map_cons, scan, if_neg hx, ih', Option.map_some, length_cons]

lemma scan_miss {es : List CString} (hes : ∀ x ∈ es, ¬ hit x) :
    scan hit (es.map .str ++ .null :: slots) = some (es.length, false) := by
  induction es with
  | nil => rfl
  | cons x es ih =>
    have hx : ¬ hit x := hes x mem_cons_self
    have ih' := ih fun z hz => hes z (mem_cons_of_mem x hz)
    simp [scan, if_neg hx, ih']

lemma first_hit (hit : CString → Bool) (es : List CString) : (∀ x ∈ es, ¬ hit x) ∨
    ∃ l y r, es = l ++ y :: r ∧ (∀ x ∈ l, ¬ hit x) ∧ hit y := by
  cases h : es.find? hit with
  | none => exact Or.inl fun x hx hh => find?_eq_none.1 h x hx hh
  | some y =>
    obtain ⟨hy, l, r, rfl, hl⟩ := find?_eq_some_iff_append.1 h
    exact Or.inr ⟨l, y, r, rfl, fun x hx => by simpa using hl x hx, hy⟩

end

/-- Replaces the first entry with a hit, if `overwrite`, or appends a new one. -/
def put (hit : CString → Bool) (str : CString) (overwrite : Bool) : List CString → List CString
  | [] => [str]
  | q :: es => if hit q then (if overwrite then str else q) :: es else q :: put hit str overwrite es

section
variable {hit : CString → Bool} {str : CString} {overwrite : Bool}

lemma put_hit {l r : List CString} {y : CString} (hl : ∀ x ∈ l, ¬ hit x) (hy : hit y) :
    put hit str overwrite (l ++ y :: r) = l ++ (if overwrite then str else y) :: r := by
  induction l with
  | nil => simp [put, hy]
  | cons x l ih =>
    rw [cons_append, put, if_neg (hl x mem_cons_self),
      ih fun z hz => hl z (mem_cons_of_mem x hz), cons_append]

lemma put_miss {es : List CString} (hes : ∀ x ∈ es, ¬ hit x) :
    put hit str overwrite es = es ++ [str] := by
  induction es with
  | nil => rfl
  | cons x es ih =>
    rw [put, if_neg (hes x mem_cons_self), ih fun z hz => hes z (mem_cons_of_mem x hz), cons_append]

end

/-- **The environment of `s` has the entries `es`.**  Nothing ever sets `__environ_alloc`, and the
array is as large as `__environ_size` says unless it is `__null_environ`. -/
structure Wf (s : Sys) (es : List CString) : Prop where
  alloc : s.environAlloc = none
  null : s.mem .nullEnviron = [.null]
  unset : s.environ = none → es = []
  slots : ∀ a, s.environ = some a → ∃ extra, s.mem a = es.map .str ++ .null :: extra
  room : ∀ a, s.environ = some a → a ≠ .nullEnviron → s.environSize ≤ (s.mem a).length

lemma Wf.allocated {s : Sys} {es : List CString} (h : Wf s es) :
    Wf { s with allocs := fun i => s.allocs (i + 1) } es :=
  ⟨h.alloc, h.null, h.unset, h.slots, h.room⟩

/-- There is an array, and room in it for what `__put_env` may write. -/
def Safe (s : Sys) : Prop := s.environ ≠ none ∧ (s.environ = some .nullEnviron → s.environSize ≤ 1)

/-! ### `__put_env` -/

section
variable {s : Sys} {es : List CString}

lemma Wf.eq_nil_of_null (h : Wf s es) (ha : s.environ = some .nullEnviron) : es = [] := by
  obtain ⟨extra, he⟩ := h.slots _ ha
  rw [h.null] at he
  cases es with
  | nil => rfl
  | cons q es => cases he

variable {a : Arr}

lemma Wf.update (h : Wf s es) (ha : s.environ = some a) (hnull : a ≠ .nullEnviron)
    {m : List Slot} (hlen : m.length = (s.mem a).length) {fs : List CString}
    (hm : ∃ extra, m = fs.map .str ++ .null :: extra) :
    Wf { s with mem := Function.update s.mem a m } fs := by
  refine ⟨h.alloc, ?_, fun h0 => ?_, fun b hb => ?_, fun b hb hnull' => ?_⟩
  · rw [← h.null]
    exact Function.update_of_ne (Ne.symm hnull) _ _
  · rw [ha] at h0
    cases h0
  · obtain rfl : a = b := Option.some.inj (ha.symm.trans hb)
    obtain ⟨extra, hm⟩ := hm
    exact ⟨extra, (Function.update_self _ _ _).trans hm⟩
  · obtain rfl : a = b := Option.some.inj (ha.symm.trans hb)
    show s.environSize ≤ (Function.update s.mem a m a).length
    rw [Function.update_self, hlen]
    exact h.room a ha hnull

lemma set_middle {α : Type} (l r : List α) (x y : α) :
    (l ++ x :: r).set l.length y = l ++ y :: r := by
  rw [set_append_right _ _ (Nat.le_refl _), Nat.sub_self, set_cons_zero]

/-- What a call of `__put_env` leaves: the entries after `put`, or before it if an allocation
failed. -/
structure Put (hit : CString → Bool) (str : CString) (overwrite : Bool) (s : Sys)
    (es : List CString) (rv : ℤ) (s' : Sys) : Prop where
  wf : Wf s' (if rv = 0 then put hit str overwrite es else es)
  safe : Safe s'
  result : rv = 0 ∨ rv = -1 ∧ s.allocs 0 = false
  allocs : ∃ k, ∀ i, s'.allocs i = s.allocs (k + i)

/-- The strings that `__put_env` takes for the same variable. -/
def sameKey (str : CString) (len : ℕ) (q : CString) : Bool := strncmp q.bytes str.bytes len = 0

variable {Q : Option Arr → Sys → Prop} {n : ℕ}

lemma returns_extend_fail (h0 : s.allocs 0 = false) : Returns (extend a n) s Q ↔
      Q none { s with allocs := fun i => s.allocs (i + 1) } := by
  simp [extend, returns_bind, returns_get, returns_allocate, h0, returns_pure]

lemma returns_extend (h0 : s.allocs 0 = true) (halloc : s.environAlloc = none)
    (hn : n ≤ (s.mem a).length) (hQ : Q (some (.heap s.fresh)) { s with
      allocs := fun i => s.allocs (i + 1), fresh := s.fresh + 1, environSize := n + 32,
      mem := Function.update s.mem (.heap s.fresh)
        ((s.mem a).take n ++ List.replicate 32 .junk) }) :
    Returns (extend a n) s Q := by
  simp only [extend, returns_bind, returns_get, returns_allocate, h0, if_true]
  split
  · next b hb =>
    rw [halloc] at hb
    cases hb
  · simp only [returns_bind]
    refine Iff.mpr (returns_load ?_) ?_
    · exact hn
    simpa only [returns_newArray, returns_modify, returns_pure] using hQ

lemma returns_freeStale (halloc : s.environAlloc = none) {Q : Unit → Sys → Prop} :
    Returns (freeStale a) s Q ↔ Q () s := by
  simp only [freeStale, returns_bind, returns_get, halloc, returns_pure]

lemma returns_store_at {l r : List Slot} {x z : Slot}
    (hmem : s.mem a = l ++ x :: r) (hn : l.length = n) {Q : Unit → Sys → Prop} :
    Returns (store a n z) s Q ↔ Q () { s with mem := Function.update s.mem a (l ++ z :: r) } := by
  subst hn
  rw [returns_store (by rw [hmem, length_append, length_cons]; omega), hmem, set_middle]

lemma Safe.of_environ {t : Sys} (hs : Safe s) (he : t.environ = s.environ)
    (hsize : t.environSize = s.environSize) : Safe t := by
  unfold Safe
  rwa [he, hsize]

lemma returns_append_in_place (h : Wf s es) (hs : Safe s) (ha : s.environ = some a)
    (hlt : es.length + 1 < s.environSize) (str : CString) :
    Returns (do store a (es.length + 1) .null; store a es.length (.str str); return 0) s
      fun (rv : ℤ) s' => rv = 0 ∧ Wf s' (es ++ [str]) ∧ Safe s' ∧ s'.allocs = s.allocs := by
  obtain ⟨extra, hmem⟩ := h.slots a ha
  have hnull : a ≠ .nullEnviron := by
    rintro rfl
    have := hs.2 ha
    omega
  have hroom := h.room a ha hnull
  match extra, hmem with
  | [], hmem =>
    rw [hmem, length_append, length_map, length_singleton] at hroom
    omega
  | x :: extra, hmem =>
    have hmem1 : s.mem a = (es.map .str ++ [.null]) ++ x :: extra := by
      rw [hmem, append_assoc]
      rfl
    have hmem2 : Function.update s.mem a ((es.map .str ++ [.null]) ++ .null :: extra) a =
        es.map .str ++ .null :: .null :: extra := by
      rw [Function.update_self, append_assoc]
      rfl
    rw [returns_bind, returns_store_at hmem1 (by simp), returns_bind]
    refine Iff.mpr (returns_store_at hmem2 (length_map _)) ?_
    rw [returns_pure]
    simp only [Function.update_idem]
    exact ⟨trivial, h.update ha hnull (by simp [hmem]) ⟨extra, by simp⟩, hs.of_environ rfl rfl,
      trivial⟩

lemma returns_append_extended (h : Wf s es) (hs : Safe s) (ha : s.environ = some a)
    (str : CString) : Returns (do
      match ← extend a (es.length + 1) with
      | none => return -1
      | some newenv =>
        store newenv (es.length + 1 - 1) (.str str)
        store newenv (es.length + 1) .null
        modify fun s => { s with environ := some newenv }
        return 0) s
      fun (rv : ℤ) s' => (rv = 0 ∧ Wf s' (es ++ [str]) ∨ rv = -1 ∧ s.allocs 0 = false ∧ Wf s' es) ∧
        Safe s' ∧ ∀ i, s'.allocs i = s.allocs (1 + i) := by
  obtain ⟨extra, hmem⟩ := h.slots a ha
  rw [returns_bind]
  cases h0 : s.allocs 0 with
  | false =>
    rw [returns_extend_fail h0, returns_pure]
    exact ⟨Or.inr ⟨rfl, rfl, h.alloc, h.null, h.unset, h.slots, h.room⟩,
      hs.of_environ rfl rfl, fun i => by rw [Nat.add_comm]⟩
  | true =>
    refine returns_extend h0 h.alloc (by rw [hmem]; simp) ?_
    simp only [returns_bind, Nat.add_sub_cancel]
    have hold : (s.mem a).take (es.length + 1) ++ List.replicate 32 .junk =
        es.map .str ++ .null :: .junk :: List.replicate 31 .junk := by
      rw [hmem, append_cons, take_left' (by simp), append_assoc]
      rfl
    have hnew : ∀ m : Arr → List Slot, Function.update m (.heap s.fresh)
        (es.map .str ++ .str str :: .junk :: List.replicate 31 .junk) (.heap s.fresh) =
        (es.map .str ++ [.str str]) ++ .junk :: List.replicate 31 .junk := by
      intro m
      rw [Function.update_self, append_assoc]
      rfl
    rw [hold]
    refine Iff.mpr (returns_store_at (Function.update_self _ _ _) (length_map _)) ?_
    refine Iff.mpr (returns_store_at (hnew _) (by simp)) ?_
    rw [returns_modify, returns_pure]
    simp only [Function.update_idem]
    have hset : some (Arr.heap s.fresh) ≠ none := Option.some_ne_none _
    refine ⟨Or.inl ⟨trivial, h.alloc, ?_, fun ha => absurd ha hset, ?_, ?_⟩,
      ⟨hset, fun ha => absurd (Option.some.inj ha) Arr.noConfusion⟩, fun i => ?_⟩
    · simp [h.null]
    · rintro b hb
      cases hb
      exact ⟨List.replicate 31 .junk, by simp⟩
    · rintro b hb -
      cases hb
      simp
    · rw [Nat.add_comm]

/-- **`__put_env` on an array with room** replaces the first entry with the same key, or appends the
new one; it fails only if an allocation does. -/
theorem returns_putEnv (h : Wf s es) (hs : Safe s) (str : CString) (len : ℕ) (overwrite : Bool) :
    Returns (putEnv str len overwrite) s (Put (sameKey str len) str overwrite s es) := by
  obtain ⟨a, ha⟩ := Option.ne_none_iff_exists'.1 hs.1
  obtain ⟨extra, hmem⟩ := h.slots a ha
  simp only [putEnv, returns_bind, returns_get, ha, returns_deref]
  rcases first_hit (sameKey str len) es with hmiss | ⟨l, y, r, rfl, hl, hy⟩
  · refine Iff.mpr (returns_scanArray (by rw [hmem]; exact scan_miss hmiss)) ?_
    simp only [Bool.false_eq_true, if_false, returns_bind, returns_freeStale h.alloc, returns_get]
    by_cases hlt : es.length + 1 < s.environSize
    · rw [if_pos hlt]
      refine (returns_append_in_place h hs ha hlt str).mono ?_
      rintro rv s' ⟨rfl, hwf, hsafe, hallocs⟩
      refine ⟨?_, hsafe, Or.inl rfl, 0, fun i => by rw [hallocs, Nat.zero_add]⟩
      rwa [if_pos rfl, put_miss hmiss]
    · rw [if_neg hlt]
      refine (returns_append_extended h hs ha str).mono ?_
      rintro rv s' ⟨⟨rfl, hwf⟩ | ⟨rfl, h0, hwf⟩, hsafe, hallocs⟩
      · refine ⟨?_, hsafe, Or.inl rfl, 1, hallocs⟩
        rwa [if_pos rfl, put_miss hmiss]
      · exact ⟨hwf, hsafe, Or.inr ⟨rfl, h0⟩, 1, hallocs⟩
  · refine Iff.mpr (returns_scanArray (by rw [hmem]; exact scan_hit hl hy)) ?_
    have hnull : a ≠ .nullEnviron := by
      rintro rfl
      exact absurd (h.eq_nil_of_null ha) (by simp)
    simp only [if_true]
    cases overwrite with
    | false =>
      simp only [Bool.false_eq_true, if_false, returns_pure]
      refine ⟨?_, hs, Or.inl rfl, 0, fun i => by rw [Nat.zero_add]⟩
      rwa [if_pos rfl, put_hit hl hy]
    | true =>
      have hmem' : s.mem a = l.map .str ++ .str y :: (r.map .str ++ .null :: extra) := by
        rw [hmem, map_append, append_assoc]
        rfl
      simp only [if_true, returns_bind]
      refine Iff.mpr (returns_store_at hmem' (length_map _)) ?_
      rw [returns_pure]
      refine ⟨?_, hs.of_environ rfl rfl, Or.inl rfl, 0, fun i => by rw [Nat.zero_add]⟩
      rw [if_pos rfl, put_hit hl hy]
      exact h.update ha hnull (by simp [hmem]) ⟨extra, by simp⟩

/-- **Without room `__put_env` leaves the array**: it reads through a null pointer, or writes behind
the only slot of `__null_environ`. -/
theorem not_returns_putEnv (h : Wf s es) (hs : ¬ Safe s) (str : CString) (len : ℕ)
    (overwrite : Bool) {Q : ℤ → Sys → Prop} : ¬ Returns (putEnv str len overwrite) s Q := by
  simp only [putEnv, returns_bind, returns_get]
  cases ha : s.environ with
  | none => exact not_returns_deref
  | some a =>
    obtain ⟨rfl, hsize⟩ : a = .nullEnviron ∧ ¬ s.environSize ≤ 1 := by
      by_contra hno
      refine hs ⟨by simp [ha], fun hnull => ?_⟩
      rw [ha, Option.some.injEq] at hnull
      by_contra hsize
      exact hno ⟨hnull, hsize⟩
    have hscan : scan (sameKey str len) (s.mem .nullEnviron) = some (0, false) := by
      rw [h.null]
      rfl
    have hstore : ¬ 0 + 1 < (s.mem .nullEnviron).length := by
      rw [h.null]
      decide
    rw [returns_deref]
    intro hret
    have hret := Iff.mp (returns_scanArray hscan) hret
    simp only [Bool.false_eq_true, if_false, returns_bind, returns_freeStale h.alloc, returns_get,
      if_pos (show 0 + 1 < s.environSize by omega)] at hret
    exact not_returns_store hstore hret

end

/-! ### `setenv` and `putenv` -/

/-- The arguments that `setenv` passes to `__put_env`, if its own are valid. -/
def setArgs (name : Option CString) (val : CString) (overwrite : Bool) :
    Option (CString × ℕ × Bool) :=
  (validName name).map fun n => (assignment n val, n.bytes.length + 1, overwrite)

/-- The arguments that `putenv` passes to `__put_env`, if its own is valid. -/
def putArgs (str : Option CString) : Option (CString × ℕ × Bool) :=
  str.bind fun q => (lastEquals q.bytes 0 none).map fun e => (q, e, true)

/-- What the two functions have in common: an allocation, and the call of `__put_env`. -/
def putCall : Option (CString × ℕ × Bool) → Call ℤ
  | none => invalid
  | some (str, len, overwrite) => do
    if ← allocate then putEnv str len overwrite else return -1

lemma setenv_eq (name : Option CString) (val : CString) (overwrite : Bool) :
    setenv name val overwrite = putCall (setArgs name val overwrite) := by
  unfold setenv setArgs
  cases validName name <;> rfl

lemma putenv_eq (str : Option CString) : putenv str = putCall (putArgs str) := by
  cases str with
  | none => rfl
  | some q =>
    unfold putenv putArgs
    simp only [Option.bind_some]
    cases lastEquals q.bytes 0 none <;> rfl

section
variable {s : Sys} {es : List CString} {args : Option (CString × ℕ × Bool)}

variable {Q : ℤ → Sys → Prop}

lemma returns_putCall_none : Returns (putCall none) s Q ↔ Q (-1) { s with errno := EINVAL } := by
  simp only [putCall, invalid, returns_bind, returns_modify, returns_pure]

lemma returns_putCall_fail {x : CString × ℕ × Bool} (h0 : s.allocs 0 = false) :
    Returns (putCall (some x)) s Q ↔ Q (-1) { s with allocs := fun i => s.allocs (i + 1) } := by
  simp [putCall, returns_bind, returns_allocate, h0, returns_pure]

lemma returns_putCall {str : CString} {len : ℕ} {overwrite : Bool} (h0 : s.allocs 0 = true) :
    Returns (putCall (some (str, len, overwrite))) s Q ↔
      Returns (putEnv str len overwrite) { s with allocs := fun i => s.allocs (i + 1) } Q := by
  simp only [putCall, returns_bind, returns_allocate, h0, if_true]

end

/-! ### `unsetenv` -/

lemma shift_strings (extra : List Slot) : ∀ (r : List CString) (y : CString),
    shift ((y :: r).map .str ++ .null :: extra) = some (r.map .str ++ .null :: .null :: extra)
  | [], _ => rfl
  | x :: r, y => by
    have ih := shift_strings extra r x
    simp only [map_cons, cons_append] at ih
    simp [shift, ih]

section
variable {s : Sys} {es : List CString}

/-- **`unsetenv` removes the first entry of its name**, and touches nothing but the array. -/
theorem returns_unsetenv (h : Wf s es) {name : Option CString} {n : CString}
    (hn : validName name = some n) :
    Returns (unsetenv name) s fun rv s' => rv = 0 ∧ Wf s' (es.eraseP (isVar n)) ∧
      s'.environ = s.environ ∧ s'.environSize = s.environSize ∧ s'.allocs = s.allocs := by
  simp only [unsetenv, hn, returns_bind, returns_get]
  cases ha : s.environ with
  | none =>
    rw [returns_pure, h.unset ha]
    exact ⟨rfl, by rw [eraseP_nil, ← h.unset ha]; exact h, ha, rfl, rfl⟩
  | some a =>
    obtain ⟨extra, hmem⟩ := h.slots a ha
    simp only [returns_bind]
    rcases first_hit (isVar n) es with hmiss | ⟨l, y, r, rfl, hl, hy⟩
    · -- nothing to remove: the loop stops at the end of the array
      have hshift : shift ((s.mem a).drop es.length) = some (.null :: extra) := by
        rw [hmem, drop_left' (length_map _)]
        rfl
      refine Iff.mpr (returns_scanArray (by rw [hmem]; exact scan_miss hmiss)) ?_
      refine Iff.mpr (returns_shiftArray hshift) ?_
      have hsame : (s.mem a).take es.length ++ .null :: extra = s.mem a := by
        rw [hmem, take_left' (length_map _)]
      rw [returns_pure, hsame, Function.update_eq_self, eraseP_of_forall_not hmiss]
      exact ⟨rfl, h, ha, rfl, rfl⟩
    · have hnull : a ≠ .nullEnviron := by
        rintro rfl
        exact absurd (h.eq_nil_of_null ha) (by simp)
      have hmem' : s.mem a = l.map .str ++ ((y :: r).map .str ++ .null :: extra) := by
        rw [hmem, map_append, append_assoc]
      have hshift : shift ((s.mem a).drop l.length) =
          some (r.map .str ++ .null :: .null :: extra) := by
        rw [hmem', drop_left' (length_map _), shift_strings]
      refine Iff.mpr (returns_scanArray (by rw [hmem]; exact scan_hit hl hy)) ?_
      refine Iff.mpr (returns_shiftArray hshift) ?_
      have htake : (s.mem a).take l.length = l.map .str := by rw [hmem', take_left' (length_map _)]
      rw [returns_pure, htake, eraseP_append_right _ hl, eraseP_cons_of_pos hy]
      refine ⟨rfl, h.update ha hnull ?_ ⟨.null :: extra, by simp⟩, ha, rfl, rfl⟩
      simp only [hmem, length_append, length_map, length_cons]
      omega

end

end Klibc.Env.Entries
