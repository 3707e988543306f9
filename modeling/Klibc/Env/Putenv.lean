import Klibc.Env.Map
import Mathlib.Data.List.TakeWhile

/-! # The variable that `putenv` sets

`putenv` hands `__put_env` the offset of the last `=` as the length of the key, which `__put_env`
takes to include an `=`. So the entry that is replaced is the first that starts with what stands
before the last `=` (`stemOf`), whatever its name is. `putenv_sets_iff`: the call sets the variable
`NAME` of `NAME=value` and no other one, if and only if that entry is the one of `NAME`. -/

namespace Klibc.Env.Putenv

open Lib.Assoc Lib.Total Environ Entries Slots List Map

/-! ### The key of `putenv` -/

/-- What stands before the last `=`. -/
def stemOf (q : CString) : List UInt8 := (q.bytes.reverse.dropWhile (· ≠ equals)).tail.reverse

section
variable {q str : CString} {l r : List UInt8}

lemma stemOf_eq (hr : equals ∉ r) (hq : q.bytes = l ++ equals :: r) : stemOf q = l := by
  have hall : ∀ b ∈ r.reverse, decide (b ≠ equals) = true := fun b hb =>
    decide_eq_true fun h => hr (h ▸ mem_reverse.1 hb)
  have hrev : q.bytes.reverse = r.reverse ++ equals :: l.reverse := by simp [hq]
  rw [stemOf, hrev, dropWhile_append_of_pos hall, dropWhile_cons_of_neg (by simp),
    tail_cons, reverse_reverse]

lemma lastEquals_of_not_mem (hr : equals ∉ r) (i : ℕ) (e : Option ℕ) : lastEquals r i e = e := by
  induction r generalizing i with
  | nil => rfl
  | cons z r ih =>
    rw [mem_cons, not_or] at hr
    rw [lastEquals, if_neg (Ne.symm hr.1), ih hr.2]

lemma lastEquals_append (hr : equals ∉ r) (i : ℕ) (e : Option ℕ) :
    lastEquals (l ++ equals :: r) i e = some (i + l.length) := by
  induction l generalizing i e with
  | nil => rw [nil_append, lastEquals, if_pos rfl, lastEquals_of_not_mem hr]; rfl
  | cons z l ih =>
    rw [cons_append, lastEquals, ih, length_cons]
    congr 1
    omega

lemma exists_last_equals (hq : equals ∈ q.bytes) :
    ∃ l r, q.bytes = l ++ equals :: r ∧ equals ∉ r := by
  obtain ⟨l, r, hlr, hl⟩ := eq_append_cons_of_mem (mem_reverse.2 hq)
  refine ⟨r.reverse, l.reverse, ?_, by simpa using hl⟩
  rw [← reverse_reverse q.bytes, hlr]
  simp

section
variable (hstr : equals ∈ str.bytes)
include hstr

lemma putArgs_eq : putArgs (some str) = some (str, (stemOf str).length, true) := by
  obtain ⟨l, r, hlr, hr⟩ := exists_last_equals hstr
  rw [putArgs, Option.bind_some, hlr, lastEquals_append hr, stemOf_eq hr hlr, Nat.zero_add,
    Option.map_some]

lemma stemOf_starts : stemOf str <+: str.bytes := by
  obtain ⟨l, r, hlr, hr⟩ := exists_last_equals hstr
  rw [stemOf_eq hr hlr, hlr]
  exact prefix_append _ _

lemma sameKey_stemOf :
    sameKey str (stemOf str).length = fun q => (stemOf str).isPrefixOf q.bytes := by
  funext q
  have htake : str.bytes.take (stemOf str).length = stemOf str :=
    (prefix_iff_eq_take.1 (stemOf_starts hstr)).symm
  rw [Bool.eq_iff_iff, sameKey, decide_eq_true_eq, strncmp_eq_zero _ q.nulFree str.nulFree, htake,
    isPrefixOf_iff_prefix, prefix_iff_eq_take]
  exact eq_comm

end

end

/-! ### What a replaced entry does to the map -/

section
variable {es : List CString} {str : CString} {hit : CString → Bool}

lemma eq_of_name_value {q : CString} (hq : equals ∈ q.bytes) (hstr : equals ∈ str.bytes)
    (hname : nameOf q = nameOf str) (hvalue : valueOf q = valueOf str) : q = str := by
  have hbytes : q.bytes = str.bytes := by rw [bytes_eq hq, bytes_eq hstr, hname, hvalue]
  cases q
  cases str
  cases hbytes
  rfl

/-- The map after `put` is the updated one for the names of variables. -/
def Sets (es : List CString) (str : CString) (fs : List CString) : Prop :=
  ∀ k : CString, equals ∉ k.bytes → mapOf fs k.bytes =
    if k.bytes = nameOf str then some (valueOf str) else mapOf es k.bytes

def nameStr (q : CString) : CString := ⟨nameOf q, fun h => q.nulFree (takeWhile_subset _ h)⟩

lemma equals_not_mem_nameOf (q : CString) : equals ∉ nameOf q := fun h => by
  have hne := mem_takeWhile_imp h
  simp at hne

lemma sets_miss (h : Distinct es) (hstr : equals ∈ str.bytes) (hhit : hit str)
    (hmiss : ∀ q ∈ es, ¬ hit q) : Sets es str (es ++ [str]) ↔ nameOf str ∉ es.map nameOf := by
  constructor
  · intro hsets hmem
    obtain ⟨y, hy, hname⟩ := mem_map.1 hmem
    obtain ⟨l, r, rfl⟩ := append_of_mem hy
    have hvalue := hsets (nameStr str) (equals_not_mem_nameOf str)
    rw [nameStr, if_pos rfl, mapOf, append_assoc, cons_append,
      lookup_append_cons (nodup_keys_middle h.nodup).1, if_pos hname.symm,
      Option.some.injEq] at hvalue
    have hystr := eq_of_name_value (h.equals y hy) hstr hname hvalue
    exact hmiss y hy (hystr ▸ hhit)
  · intro hnew k _
    rw [mapOf, lookup_concat hnew]
    rfl

lemma sets_hit {l r : List CString} {y : CString} (h : Distinct (l ++ y :: r)) :
    Sets (l ++ y :: r) str (l ++ str :: r) ↔ nameOf y = nameOf str := by
  constructor
  · intro hsets
    by_contra hne
    obtain ⟨hl, hr⟩ := nodup_keys_middle h.nodup
    have hgone : mapOf (l ++ str :: r) (nameOf y) = none := by
      refine lookup_eq_none.2 fun hmem => ?_
      rw [map_append, map_cons, mem_append, mem_cons] at hmem
      rcases hmem with hmem | hmem | hmem
      · exact hl hmem
      · exact hne hmem
      · exact hr hmem
    have hkept := hsets (nameStr y) (equals_not_mem_nameOf y)
    rw [nameStr, if_neg hne, hgone, mapOf, lookup_append_cons hl, if_pos rfl] at hkept
    cases hkept
  · intro hname k _
    rw [mapOf, lookup_replace h.nodup hname.symm]
    rfl

/-- **`put` sets one variable** if and only if the first entry that it takes for it is the one of
that name. -/
theorem sets_put_iff (h : Distinct es) (hstr : equals ∈ str.bytes) (hhit : hit str) :
    Sets es str (put hit str true es) ↔
      es.find? hit = es.find? (fun q => nameOf q = nameOf str) := by
  rcases first_hit hit es with hmiss | ⟨l, y, r, rfl, hl, hy⟩
  · have hnone : es.find? hit = none := find?_eq_none.2 hmiss
    rw [put_miss hmiss, sets_miss h hstr hhit hmiss, hnone, eq_comm, find?_eq_none]
    simp
  · have hfirst : (l ++ y :: r).find? hit = some y := by
      rw [find?_append, find?_eq_none.2 hl, Option.none_or, find?_cons_of_pos hy]
    rw [put_hit hl hy, if_pos rfl, sets_hit h, hfirst]
    constructor
    · intro hname
      have hnew := (nodup_keys_middle h.nodup).1
      have hnone : l.find? (fun q => nameOf q = nameOf str) = none := by
        refine find?_eq_none.2 fun q hq hqname => hnew ?_
        rw [hname, ← of_decide_eq_true hqname]
        exact mem_map_of_mem hq
      rw [find?_append, hnone, Option.none_or, find?_cons_of_pos (by simp [hname])]
    · intro hsome
      simpa using find?_some hsome.symm

end

/-! ### `putenv` -/

section
variable {s s' : Sys} {es : List CString} {str : CString}

lemma wf_of_putenv (h : Wf s es) (hstr : equals ∈ str.bytes)
    (hret : putenv (some str) s = some (0, s')) :
    Wf s' (put (fun q => (stemOf str).isPrefixOf q.bytes) str true es) := by
  rw [putenv_eq, putArgs_eq hstr] at hret
  -- any success is a call of `__put_env`, and one with room
  have hputs : s.allocs 0 = true := by
    by_contra h0
    rw [Bool.not_eq_true] at h0
    have hfail : Returns (putCall (some (str, (stemOf str).length, true))) s fun rv _ => rv = -1 :=
      (returns_putCall_fail h0).2 rfl
    exact absurd (hfail.elim hret) (by decide)
  have hsafe : Safe s := by
    by_contra hs
    have hsome : Returns (putCall (some (str, (stemOf str).length, true))) s fun _ _ => True :=
      ⟨0, s', hret, trivial⟩
    exact not_returns_putCall h ⟨by simp, hputs⟩ hs hsome
  have hput := (returns_putCall hputs).2
    (returns_putEnv h.allocated (hsafe.of_environ rfl rfl) str (stemOf str).length true)
  have hwf' := (hput.elim hret).wf
  rwa [if_pos rfl, sameKey_stemOf hstr] at hwf'

lemma mem_put {hit : CString → Bool} {q : CString} (hq : q ∈ put hit str true es) :
    q = str ∨ q ∈ es := by
  rcases first_hit hit es with hmiss | ⟨l, y, r, rfl, hl, hy⟩
  · rw [put_miss hmiss, mem_append, mem_singleton] at hq
    exact hq.symm
  · rw [put_hit hl hy, if_pos rfl, mem_append, mem_cons] at hq
    rcases hq with hq | rfl | hq <;> simp_all

lemma mapOf_long {k : List UInt8} (hes : ∀ q ∈ es, (nameOf q).length < 2 ^ 31)
    (hk : ¬k.length < 2 ^ 31) : mapOf es k = none := by
  refine lookup_eq_none.2 fun hmem => ?_
  obtain ⟨q, hq, rfl⟩ := mem_map.1 hmem
  exact hk (hes q hq)

/-- **What `putenv` sets.**  In any environment of entries with distinct names, after a successful
`putenv` of `NAME=value`, `getenv` gives `value` for `NAME` and what it gave before for every other
name, if and only if the first entry that starts with what stands before the last `=` of the string
is the entry of `NAME`, or there is neither. All names have lengths that fit in an `int`. -/
theorem putenv_sets_iff (h : Wf s es) (hes : Distinct es) (hstr : equals ∈ str.bytes)
    (hlen : ∀ q ∈ str :: es, (nameOf q).length < 2 ^ 31)
    (hret : putenv (some str) s = some (0, s')) :
    (∀ k : CString, equals ∉ k.bytes → k.bytes.length < 2 ^ 31 → getenv k s' =
      if k.bytes = nameOf str then some (some (valueOf str)) else getenv k s) ↔
    es.find? (fun q => (stemOf str).isPrefixOf q.bytes) =
      es.find? (fun q => nameOf q = nameOf str) := by
  have hwf := wf_of_putenv h hstr hret
  have hentries : ∀ q ∈ put (fun q => (stemOf str).isPrefixOf q.bytes) str true es,
      equals ∈ q.bytes := by
    intro q hq
    rcases mem_put hq with rfl | hq
    · exact hstr
    · exact hes.equals q hq
  rw [← sets_put_iff hes hstr (List.isPrefixOf_iff_prefix.2 (stemOf_starts hstr))]
  refine forall_congr' fun k => forall_congr' fun hk => ?_
  by_cases hshort : k.bytes.length < 2 ^ 31
  · rw [getenv_eq hwf hentries hk hshort, getenv_eq h hes.equals hk hshort,
      forall_prop_of_true hshort]
    split_ifs <;> exact Option.some_inj
  · -- no entry has such a name
    have hname : k.bytes ≠ nameOf str := fun hname => hshort (hname ▸ hlen str (by simp))
    refine iff_of_true (fun h => absurd h hshort) ?_
    rw [if_neg hname, mapOf_long (fun q hq => hlen q (mem_cons.2 (mem_put hq))) hshort,
      mapOf_long (fun q hq => hlen q (mem_cons_of_mem _ hq)) hshort]

end

/-! ### Three calls -/

def startedWith (es : List CString) : Sys := started (some .initial) (es.map .str ++ [.null])

lemma startedWith_wf (es : List CString) : Wf (startedWith es) es :=
  Start.wf ⟨rfl, rfl, rfl, Or.inr ⟨rfl, [], rfl⟩⟩

/-- The entries `A=1`, `A=2`, `AB=2` and `A=1=2`. -/
def entryA1 : CString := ⟨[65, 61, 49], by decide⟩

def entryA2 : CString := ⟨[65, 61, 50], by decide⟩

def entryAB2 : CString := ⟨[65, 66, 61, 50], by decide⟩

def entryA12 : CString := ⟨[65, 61, 49, 61, 50], by decide⟩

/-- `A=1` replaces `A=2`, and `AB=2` stays. -/
theorem putenv_sets_iff_replace : ∃ s',
    putenv (some entryA1) (startedWith [entryA2, entryAB2]) = some (0, s') ∧
      ∀ k : CString, equals ∉ k.bytes → k.bytes.length < 2 ^ 31 → getenv k s' =
        if k.bytes = nameOf entryA1 then some (some (valueOf entryA1))
        else getenv k (startedWith [entryA2, entryAB2]) :=
  ⟨_, rfl, (putenv_sets_iff (startedWith_wf [entryA2, entryAB2]) ⟨by decide, by decide⟩
    (by decide) (by decide) rfl).2 (by decide)⟩

/-- `A=1` replaces `AB=2`, and `A=1=2` does not replace `A=2`. -/
theorem putenv_wrong_variable :
    (∃ s', putenv (some entryA1) (startedWith [entryAB2]) = some (0, s') ∧
      getenv (nameStr entryAB2) (startedWith [entryAB2]) = some (some [50]) ∧
      getenv (nameStr entryAB2) s' = some none) ∧
    ∃ s', putenv (some entryA12) (startedWith [entryA2]) = some (0, s') ∧
      getenv (nameStr entryA12) s' = some (some [50]) ∧ valueOf entryA12 = [49, 61, 50] :=
  ⟨⟨_, rfl, by decide, by decide⟩, ⟨_, rfl, by decide, by decide⟩⟩

end Klibc.Env.Putenv
