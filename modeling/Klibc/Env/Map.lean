import Klibc.Env.Slots
import Klibc.Lib.Assoc
import Mathlib.Data.List.GetD

/-! # The environment as a finite map

The entries `NAME=value` with distinct names are an association list. `getenv` looks a name up in it
(`getenv_eq`), if its length is an `int`; `setenv` and `unsetenv` are the updates of the map that
they should be (`returns_update`), and so is any sequence of them (`environment_is_map_iff`). -/

namespace Klibc.Env.Map

open Lib.Assoc Lib.Machine Lib.Total Environ Entries Slots List

/-! ### Names and values -/

/-- What stands before the first `=`. -/
def nameOf (q : CString) : List UInt8 := q.bytes.takeWhile (· ≠ equals)

/-- What stands after the first `=`. -/
def valueOf (q : CString) : List UInt8 := q.bytes.drop ((nameOf q).length + 1)

def mapOf (es : List CString) (k : List UInt8) : Option (List UInt8) := lookup nameOf valueOf es k

/-- The entries are of the form `NAME=value`, with distinct names. -/
structure Distinct (es : List CString) : Prop where
  equals : ∀ q ∈ es, equals ∈ q.bytes
  nodup : (es.map nameOf).Nodup

section
variable {q n : CString} {k v : List UInt8}

lemma nameOf_eq (hk : equals ∉ k) (hq : q.bytes = k ++ equals :: v) : nameOf q = k := by
  have hall : ∀ b ∈ k, (decide (b ≠ equals)) = true := fun b hb =>
    decide_eq_true fun h => hk (h ▸ hb)
  unfold nameOf
  rw [hq, takeWhile_append_of_pos hall, takeWhile_cons_of_neg (by simp), append_nil]

lemma valueOf_eq (hk : equals ∉ k) (hq : q.bytes = k ++ equals :: v) : valueOf q = v := by
  unfold valueOf
  rw [nameOf_eq hk hq, hq, append_cons]
  exact drop_left' (by simp)

lemma bytes_eq (hq : equals ∈ q.bytes) : q.bytes = nameOf q ++ equals :: valueOf q := by
  obtain ⟨l, r, hlr, hl⟩ := eq_append_cons_of_mem hq
  rw [nameOf_eq hl hlr, valueOf_eq hl hlr, hlr]

lemma isVar_iff : isVar n q ↔ ∃ v, q.bytes = n.bytes ++ equals :: v := by
  simp only [isVar, decide_eq_true_eq, strncmp_eq_zero _ n.nulFree q.nulFree, take_length,
    CString.get]
  constructor
  · rintro ⟨htake, hget⟩
    have hlt : n.bytes.length < q.bytes.length := by
      by_contra hge
      rw [getD_eq_default _ _ (by omega)] at hget
      exact absurd hget (by decide)
    rw [getD_eq_getElem _ _ hlt] at hget
    refine ⟨q.bytes.drop (n.bytes.length + 1), ?_⟩
    calc q.bytes = q.bytes.take n.bytes.length ++ q.bytes.drop n.bytes.length :=
          (take_append_drop _ _).symm
      _ = _ := by rw [← htake, drop_eq_getElem_cons hlt, hget]
  · rintro ⟨v, hv⟩
    rw [hv]
    exact ⟨take_left.symm, by simp⟩

lemma sameKey_assignment {v : CString} :
    sameKey (assignment n v) (n.bytes.length + 1) q ↔ isVar n q := by
  have htake : (assignment n v).bytes.take (n.bytes.length + 1) = n.bytes ++ [equals] := by
    simp only [assignment]
    rw [append_cons]
    exact take_left' (by simp)
  rw [isVar_iff, sameKey, decide_eq_true_eq,
    strncmp_eq_zero _ q.nulFree (assignment n v).nulFree, htake]
  constructor
  · intro hq
    refine ⟨q.bytes.drop (n.bytes.length + 1), ?_⟩
    rw [append_cons, ← hq, take_append_drop]
  · rintro ⟨w, hw⟩
    rw [hw, append_cons]
    exact take_left' (by simp)

lemma isVar_iff_nameOf (hn : equals ∉ n.bytes) (hq : equals ∈ q.bytes) :
    isVar n q ↔ nameOf q = n.bytes := by
  rw [isVar_iff]
  constructor
  · rintro ⟨v, hv⟩
    exact nameOf_eq hn hv
  · intro hname
    exact ⟨valueOf q, hname ▸ bytes_eq hq⟩

end

/-! ### `getenv` -/

/-- **The name that `getenv` looks for**: as many bytes as the low 32 bits of its length say; none,
if these are a negative number. -/
def sought (k : CString) : Option (List UInt8) :=
  if getenvLen k < 0 then none else some (k.bytes.take (getenvLen k).toNat)

section
variable {k q : CString}

lemma sought_eq (hk : k.bytes.length < 2 ^ 31) : sought k = some k.bytes := by
  have hlen : getenvLen k = k.bytes.length := wrap_eq (by decide) (by omega) (by omega)
  rw [sought, hlen, if_neg (by omega), Int.toNat_natCast, take_length]

lemma toNat_getenvLen_le (k : CString) : (getenvLen k).toNat ≤ k.bytes.length := by
  simp only [getenvLen, wrap, Int.bmod]
  omega

lemma exists_take (k : CString) (i : ℕ) : ∃ n : CString, n.bytes = k.bytes.take i :=
  ⟨⟨k.bytes.take i, fun h => k.nulFree (mem_of_mem_take h)⟩, rfl⟩

lemma getenvStops_iff (hk : equals ∉ k.bytes) (hq : equals ∈ q.bytes) :
    getenvStops k q ↔ sought k = some (nameOf q) := by
  rw [getenvStops, decide_eq_true_eq, strncmp_eq_zero _ k.nulFree q.nulFree, sought, getenvSize]
  by_cases hlen : getenvLen k < 0
  · -- the whole strings are compared, and only `q` has a `=`
    rw [if_pos hlen, if_pos hlen, take_of_length_le (Nat.le_succ _)]
    refine iff_of_false (fun hstops => hk ?_) (by simp)
    have hlength := congrArg List.length hstops.1
    rw [length_take] at hlength
    rw [hstops.1]
    rwa [take_of_length_le (by omega)]
  · -- the name is `n`
    obtain ⟨n, hn⟩ := exists_take k (getenvLen k).toNat
    have hlength : n.bytes.length = (getenvLen k).toNat := by
      rw [hn, length_take_of_le (toNat_getenvLen_le k)]
    have hequals : equals ∉ n.bytes := by
      rw [hn]
      exact fun h => hk (mem_of_mem_take h)
    have hvar := isVar_iff_nameOf hequals hq
    rw [isVar, decide_eq_true_eq, strncmp_eq_zero _ n.nulFree q.nulFree, hlength,
      take_of_length_le hlength.le, hn] at hvar
    rw [if_neg hlen, if_neg hlen, or_iff_right hlen, Option.some.injEq]
    exact hvar.trans eq_comm

end

/-- **`getenv` is the lookup** of the name that it looks for. -/
theorem getenv_eq_sought {s : Sys} {es : List CString} (h : Wf s es)
    (hes : ∀ q ∈ es, equals ∈ q.bytes) {k : CString} (hk : equals ∉ k.bytes) :
    getenv k s = some ((sought k).bind (mapOf es)) := by
  unfold getenv
  cases ha : s.environ with
  | none =>
    rw [h.unset ha]
    cases sought k <;> rfl
  | some a =>
    obtain ⟨extra, hmem⟩ := h.slots a ha
    rcases first_hit (getenvStops k) es with hmiss | ⟨l, y, r, rfl, hl, hy⟩
    · have hnone : (sought k).bind (mapOf es) = none := by
        refine Option.bind_eq_none_iff.2 fun n hn => lookup_eq_none.2 fun hmem => ?_
        obtain ⟨q, hq, rfl⟩ := mem_map.1 hmem
        exact hmiss q hq ((getenvStops_iff hk (hes q hq)).2 hn)
      simp only [hmem, scan_miss hmiss, hnone]
      rfl
    · have hyeq : equals ∈ y.bytes := hes y (by simp)
      have hname : sought k = some (nameOf y) := (getenvStops_iff hk hyeq).1 hy
      have hnew : nameOf y ∉ l.map nameOf := by
        intro hmem
        obtain ⟨q, hq, hqname⟩ := mem_map.1 hmem
        exact hl q hq ((getenvStops_iff hk (hes q (by simp [hq]))).2 (hqname ▸ hname))
      have hslot : (s.mem a)[l.length]? = some (.str y) := by simp [hmem]
      have hvalue : mapOf (l ++ y :: r) (nameOf y) = some (valueOf y) := by
        rw [mapOf, lookup_append_cons hnew, if_pos rfl]
      have hscan : scan (getenvStops k) (s.mem a) = some (l.length, true) := by
        rw [hmem]
        exact scan_hit hl hy
      unfold sought at hname
      split_ifs at hname with hlen
      have hsize : getenvSize k = (nameOf y).length := by
        rw [← Option.some.inj hname, length_take, getenvSize, if_neg hlen,
          min_eq_left (toNat_getenvLen_le k)]
      simp [hscan, hslot, sought, hlen, Option.some.inj hname, hvalue, hsize, valueOf]

lemma getenv_eq {s : Sys} {es : List CString} (h : Wf s es) (hes : ∀ q ∈ es, equals ∈ q.bytes)
    {k : CString} (hk : equals ∉ k.bytes) (hlen : k.bytes.length < 2 ^ 31) :
    getenv k s = some (mapOf es k.bytes) := by
  rw [getenv_eq_sought h hes hk, sought_eq hlen]
  rfl

/-! ### `setenv` and `unsetenv` -/

/-- A name that `setenv` and `unsetenv` accept. -/
structure Name where
  str : CString
  nonempty : str.bytes ≠ []
  noEquals : equals ∉ str.bytes

lemma Name.valid (n : Name) : validName (some n.str) = some n.str := by
  simp [validName, Option.filter, n.nonempty, n.noEquals]

inductive Update
  | setenv (n : Name) (val : CString) (overwrite : Bool)
  | unsetenv (n : Name)

def Update.exec : Update → Call ℤ
  | .setenv n val overwrite => Environ.setenv (some n.str) val overwrite
  | .unsetenv n => Environ.unsetenv (some n.str)

def Update.apply (m : List UInt8 → Option (List UInt8)) : Update → List UInt8 → Option (List UInt8)
  | .setenv n val overwrite =>
    if overwrite ∨ m n.str.bytes = none then Function.update m n.str.bytes (some val.bytes) else m
  | .unsetenv n => Function.update m n.str.bytes none

section
variable {s : Sys} {es : List CString}

lemma nameOf_assignment (n : Name) (v : CString) : nameOf (assignment n.str v) = n.str.bytes :=
  nameOf_eq n.noEquals rfl

lemma valueOf_assignment (n : Name) (v : CString) : valueOf (assignment n.str v) = v.bytes :=
  valueOf_eq n.noEquals rfl

lemma Distinct.split (h : Distinct es) (n : Name) :
    (∀ q ∈ es, ¬ isVar n.str q) ∧ n.str.bytes ∉ es.map nameOf ∨
    ∃ l y r, es = l ++ y :: r ∧ (∀ q ∈ l, ¬ isVar n.str q) ∧ isVar n.str y ∧
      nameOf y = n.str.bytes := by
  rcases first_hit (isVar n.str) es with hmiss | ⟨l, y, r, rfl, hl, hy⟩
  · refine Or.inl ⟨hmiss, fun hmem => ?_⟩
    obtain ⟨q, hq, hname⟩ := mem_map.1 hmem
    exact hmiss q hq ((isVar_iff_nameOf n.noEquals (h.equals q hq)).2 hname)
  · exact Or.inr ⟨l, y, r, rfl, hl, hy, (isVar_iff_nameOf n.noEquals (h.equals y (by simp))).1 hy⟩

lemma put_update (h : Distinct es) (n : Name) (v : CString) (overwrite : Bool) :
    Distinct (put (isVar n.str) (assignment n.str v) overwrite es) ∧
      mapOf (put (isVar n.str) (assignment n.str v) overwrite es) =
        (Update.setenv n v overwrite).apply (mapOf es) := by
  have heq : equals ∈ (assignment n.str v).bytes := by simp [assignment]
  have hname := nameOf_assignment n v
  have hvalue := valueOf_assignment n v
  rcases h.split n with ⟨hmiss, hnew⟩ | ⟨l, y, r, rfl, hl, hy, hyname⟩
  · rw [put_miss hmiss]
    refine ⟨⟨?_, ?_⟩, ?_⟩
    · intro q hq
      rcases mem_append.1 hq with hq | hq
      · exact h.equals q hq
      · rw [mem_singleton.1 hq]
        exact heq
    · rw [map_append, map_singleton, hname]
      exact List.Nodup.append h.nodup (nodup_singleton _) (by simpa using hnew)
    · have hnone : mapOf es n.str.bytes = none := lookup_eq_none.2 hnew
      funext k
      simp only [Update.apply, hnone, or_true, if_true]
      rw [mapOf, lookup_concat (by rw [hname]; exact hnew), hname, hvalue, Function.update_apply]
      rfl
  · rw [put_hit hl hy]
    have hsome : mapOf (l ++ y :: r) n.str.bytes ≠ none := by
      rw [mapOf, ne_eq, lookup_eq_none, not_not, ← hyname]
      simp
    cases overwrite with
    | false =>
      refine ⟨h, ?_⟩
      simp [Update.apply, hsome]
    | true =>
      refine ⟨⟨?_, ?_⟩, ?_⟩
      · intro q hq
        rcases mem_append.1 hq with hq | hq
        · exact h.equals q (by simp [hq])
        · rcases mem_cons.1 hq with rfl | hq
          · exact heq
          · exact h.equals q (by simp [hq])
      · have hnodup := h.nodup
        rw [map_append, map_cons, hyname] at hnodup
        rwa [map_append, map_cons, if_pos rfl, hname]
      · funext k
        simp only [Update.apply, true_or, if_true]
        rw [mapOf, lookup_replace h.nodup (hname.trans hyname.symm), hname, hvalue,
          Function.update_apply]
        rfl

lemma eraseP_update (h : Distinct es) (n : Name) : Distinct (es.eraseP (isVar n.str)) ∧
      mapOf (es.eraseP (isVar n.str)) = (Update.unsetenv n).apply (mapOf es) := by
  rcases h.split n with ⟨hmiss, hnew⟩ | ⟨l, y, r, rfl, hl, hy, hyname⟩
  · rw [eraseP_of_forall_not hmiss]
    refine ⟨h, ?_⟩
    have hnone : mapOf es n.str.bytes = none := lookup_eq_none.2 hnew
    rw [Update.apply, ← hnone, Function.update_eq_self]
  · rw [eraseP_append_right _ hl, eraseP_cons_of_pos hy]
    refine ⟨⟨fun q hq => h.equals q ?_, ?_⟩, ?_⟩
    · rcases mem_append.1 hq with hq | hq <;> simp [hq]
    · have hnodup := h.nodup
      rw [map_append, map_cons, nodup_middle, nodup_cons] at hnodup
      rw [map_append]
      exact hnodup.2
    · funext k
      rw [mapOf, lookup_remove h.nodup, hyname, Update.apply, Function.update_apply]
      rfl

lemma sameKey_setenv (n : Name) (v : CString) :
    sameKey (assignment n.str v) (n.str.bytes.length + 1) = isVar n.str := by
  funext q
  exact Bool.eq_iff_iff.2 sameKey_assignment

/-- The environment holds the map `m`, there is an array, and allocations succeed. -/
structure Holds (m : List UInt8 → Option (List UInt8)) (s : Sys) (es : List CString) : Prop where
  wf : Wf s es
  safe : Safe s
  allocs : ∀ i, s.allocs i = true
  distinct : Distinct es
  map : mapOf es = m

/-- **One call is one update of the map.** -/
theorem returns_update {m : List UInt8 → Option (List UInt8)} (h : Holds m s es) (u : Update) :
    Returns u.exec s fun rv s' => rv = 0 ∧ ∃ fs, Holds (u.apply m) s' fs := by
  cases u with
  | setenv n val overwrite =>
    obtain ⟨hdistinct, hmap⟩ := put_update h.distinct n val overwrite
    have hargs : setArgs (some n.str) val overwrite =
        some (assignment n.str val, n.str.bytes.length + 1, overwrite) := by
      rw [setArgs, n.valid, Option.map_some]
    rw [Update.exec, setenv_eq, hargs, returns_putCall (h.allocs 0)]
    refine (returns_putEnv h.wf.allocated (h.safe.of_environ rfl rfl) _ _ _).mono
      fun rv s' hput => ?_
    obtain rfl : rv = 0 := by
      rcases hput.result with h0 | ⟨-, hfail⟩
      · exact h0
      · exact absurd hfail (by simp [h.allocs])
    obtain ⟨k, hallocs⟩ := hput.allocs
    have hwf' := hput.wf
    rw [if_pos rfl, sameKey_setenv] at hwf'
    exact ⟨rfl, _, hwf', hput.safe, fun i => (hallocs i).trans (h.allocs _), hdistinct,
      hmap.trans (by rw [h.map])⟩
  | unsetenv n =>
    obtain ⟨hdistinct, hmap⟩ := eraseP_update h.distinct n
    refine (returns_unsetenv h.wf n.valid).mono ?_
    rintro rv s' ⟨hrv, hwf, he, hsize, hallocs⟩
    exact ⟨hrv, _, hwf, h.safe.of_environ he hsize, fun i => by rw [hallocs, h.allocs],
      hdistinct, hmap.trans (by rw [h.map])⟩

def runUpdates : List Update → Call (List ℤ)
  | [] => pure []
  | u :: us => do
    let rv ← u.exec
    let rvs ← runUpdates us
    return rv :: rvs

/-- **A run of calls is a run of updates.** -/
theorem returns_runUpdates (us : List Update) : ∀ {m : List UInt8 → Option (List UInt8)} {s : Sys}
    {es : List CString}, Holds m s es → Returns (runUpdates us) s fun rvs s' =>
      (∀ rv ∈ rvs, rv = 0) ∧ ∃ fs, Holds (us.foldl Update.apply m) s' fs := by
  induction us with
  | nil =>
    intro m s es h
    rw [runUpdates, returns_pure]
    exact ⟨nofun, es, h⟩
  | cons u us ih =>
    intro m s es h
    rw [runUpdates, returns_bind]
    refine (returns_update h u).mono ?_
    rintro rv s' ⟨hrv, fs, h'⟩
    rw [returns_bind]
    refine (ih h').mono ?_
    rintro rvs t ⟨hrvs, ft, ht⟩
    rw [returns_pure]
    exact ⟨forall_mem_cons.2 ⟨hrv, hrvs⟩, ft, ht⟩

/-- **The environment is a finite map.**  The process starts with any array of entries `NAME=value`
with distinct names, and all allocations succeed. After any calls of `setenv` and `unsetenv` with
valid names, all of which succeed, the array is still one of entries with distinct names and a NULL
behind them, and `getenv` gives what the updates of the map give for the name that it looks for. -/
theorem returns_environment (hs : Start s es) (ha : s.environ = some .initial) (hes : Distinct es)
    (hallocs : ∀ i, s.allocs i = true) (us : List Update) :
    Returns (runUpdates us) s fun rvs s' => (∀ rv ∈ rvs, rv = 0) ∧
      (∀ k : CString, equals ∉ k.bytes →
        getenv k s' = some ((sought k).bind (us.foldl Update.apply (mapOf es)))) ∧
      ∃ a fs extra, s'.environ = some a ∧ s'.mem a = fs.map .str ++ .null :: extra ∧
        Distinct fs := by
  have hsafe : Safe s := ⟨by simp [ha], by simp [ha]⟩
  refine (returns_runUpdates us ⟨hs.wf, hsafe, hallocs, hes, rfl⟩).mono ?_
  rintro rvs s' ⟨hrvs, fs, h⟩
  obtain ⟨a, ha'⟩ := Option.ne_none_iff_exists'.1 h.safe.1
  obtain ⟨extra, hmem⟩ := h.wf.slots a ha'
  refine ⟨hrvs, fun k hk => ?_, a, fs, extra, ha', hmem, h.distinct⟩
  rw [getenv_eq_sought h.wf h.distinct.equals hk, h.map]

/-- **Where `getenv` is the map**: for every name that is shorter than `2 ^ 31` bytes, and for a
longer one iff the map has the same for what is left of it. -/
theorem environment_is_map_iff (hs : Start s es) (ha : s.environ = some .initial)
    (hes : Distinct es) (hallocs : ∀ i, s.allocs i = true) (us : List Update) :
    Returns (runUpdates us) s fun rvs s' => (∀ rv ∈ rvs, rv = 0) ∧
      (∀ k : CString, equals ∉ k.bytes →
        (getenv k s' = some (us.foldl Update.apply (mapOf es) k.bytes) ↔
          k.bytes.length < 2 ^ 31 ∨ (sought k).bind (us.foldl Update.apply (mapOf es)) =
            us.foldl Update.apply (mapOf es) k.bytes)) ∧
      ∃ a fs extra, s'.environ = some a ∧ s'.mem a = fs.map .str ++ .null :: extra ∧
        Distinct fs := by
  refine (returns_environment hs ha hes hallocs us).mono ?_
  rintro rvs s' ⟨hrvs, hget, harray⟩
  refine ⟨hrvs, fun k hk => ?_, harray⟩
  rw [hget k hk, Option.some_inj, or_iff_right_of_imp]
  intro hlen
  rw [sought_eq hlen]
  rfl

end

/-- The name `A`. -/
def nameA : Name := ⟨strA, by decide, by decide⟩

/-- With `AB=1` in the environment, `A` is set, set again and removed. -/
theorem environment_is_map_iff_abbrev :
    Returns (runUpdates [.setenv nameA str1 false, .setenv nameA strA true, .unsetenv nameA])
      (started (some .initial) [.str ⟨[65, 66, 61, 49], by decide⟩, .null]) fun _ s' =>
        getenv strA s' = some none ∧ getenv ⟨[65, 66], by decide⟩ s' = some (some [49]) := by
  have hstart : Start (started (some .initial) [.str ⟨[65, 66, 61, 49], by decide⟩, .null])
      [⟨[65, 66, 61, 49], by decide⟩] := ⟨rfl, rfl, rfl, Or.inr ⟨rfl, [], rfl⟩⟩
  refine (environment_is_map_iff hstart rfl ⟨by decide, by decide⟩ (fun _ => rfl) _).mono ?_
  rintro rvs s' ⟨-, hget, -⟩
  exact ⟨(hget strA (by decide)).2 (.inl (by decide)),
    (hget ⟨[65, 66], by decide⟩ (by decide)).2 (.inl (by decide))⟩

/-- A name of `2 ^ 31` times `A`. -/
def longName : Name where
  str := ⟨replicate (2 ^ 31) 65, fun h => absurd (eq_of_mem_replicate h) (by decide)⟩
  nonempty h := absurd (congrArg List.length h) (by rw [length_replicate]; decide)
  noEquals h := absurd (eq_of_mem_replicate h) (by decide)

/-- The long name is set in an empty environment, and `getenv` does not find it. -/
theorem environment_misses_long : Returns (runUpdates [.setenv longName str1 true])
    (started (some .initial) [.null]) fun rvs s' => (∀ rv ∈ rvs, rv = 0) ∧
      getenv longName.str s' = some none ∧
      (Update.setenv longName str1 true).apply (mapOf []) longName.str.bytes =
        some str1.bytes := by
  have hstart : Start (started (some .initial) [.null]) [] := ⟨rfl, rfl, rfl, Or.inr ⟨rfl, [], rfl⟩⟩
  refine (returns_environment hstart rfl ⟨nofun, nodup_nil⟩ (fun _ => rfl) _).mono ?_
  rintro rvs s' ⟨hrvs, hget, -⟩
  have hnone : sought longName.str = none := by
    rw [sought, getenvLen, longName, length_replicate]
    exact if_pos (by decide)
  refine ⟨hrvs, ?_, ?_⟩
  · rw [hget _ longName.noEquals, hnone]
    rfl
  · simp [Update.apply]

end Klibc.Env.Map
