import Mathlib.Data.List.TakeWhile
import Klibc.Options.OneCall

/-! # Long options

What a call of `getopt_long` should do with an argument `--name`, `--name=value` or `--name` with
its value behind it, and when it does: `optarg` is stored if there is a value, but an option without
one leaves there what an earlier call has stored. -/

namespace Klibc.Options.LongOptions

open Lib.CString Lib.Total Getopt Calls OneCall List

/-! ### What is asked of a call -/

/-- A call on a long option: `a` is the argument that `optind` is at, once the query state was
checked. -/
structure Asked where
  q : Query
  longopts : List LongOption
  longindex : Bool
  s : State
  s₀ : State
  pre : List Str
  a : Str
  rest : List Str
  text : List UInt8
  distinct : (longopts.map LongOption.name).Nodup
  restart : q.restart s = some ((), s₀)
  args : q.args = pre ++ a :: rest
  optind : s₀.optind = pre.length
  bytes : a.bytes = dash :: dash :: text
  option : text ≠ []

variable (x : Asked)

/-- The value that `optarg` is to get and the number of arguments consumed, if the use of the option
is right. -/
def Asked.use (lo : LongOption) : Option (ℕ × ℕ) :=
  if equals ∈ x.text then
    if lo.hasArg = 0 then none else some (x.a.addr + (2 + (nameOf x.text).length) + 1, 1)
  else if lo.hasArg = 1 then x.rest.head?.map fun b => (b.addr, 2)
  else some (0, 1)

def Asked.Refuses (ret : ℤ) (t : State) : Prop := ret = question ∧ t.optind = (x.pre.length + 1 : ℕ)

def Asked.Accepts (lo : LongOption) (use : ℕ × ℕ) (ret : ℤ) (t : State) : Prop :=
  ret = LongOption.ret lo ∧ (∀ f ∈ lo.flag, t.flags f = lo.val) ∧ t.optarg = use.1 ∧
    t.optind = (x.pre.length + use.2 : ℕ)

/-- **What a call should do.** -/
def Asked.Proper (ret : ℤ) (t : State) : Prop :=
  ((∀ lo ∈ x.longopts, lo.name ≠ nameOf x.text) → x.Refuses ret t) ∧
    ∀ i lo, x.longopts[i]? = some lo → lo.name = nameOf x.text →
      (x.longindex = true → t.longindex = i) ∧ (x.use lo = none → x.Refuses ret t) ∧
        ∀ use, x.use lo = some use → x.Accepts lo use ret t

/-! ### The table -/

variable {x}

/-- Names are distinct. -/
theorem Asked.unique {i j : ℕ} {lo lo' : LongOption} (hi : x.longopts[i]? = some lo)
    (hj : x.longopts[j]? = some lo') (h : lo.name = lo'.name) : i = j ∧ lo = lo' := by
  have hlt : i < (x.longopts.map LongOption.name).length := by
    rw [length_map]
    exact (List.getElem?_eq_some_iff.1 hi).1
  obtain rfl : i = j := (getElem?_inj hlt x.distinct).1 (by simp [hi, hj, h])
  exact ⟨rfl, Option.some.inj (hi.symm.trans hj)⟩

lemma Asked.proper_iff {i : ℕ} {lo : LongOption} {ret : ℤ} {t : State}
    (hi : x.longopts[i]? = some lo) (h : lo.name = nameOf x.text) :
    x.Proper ret t ↔ (x.longindex = true → t.longindex = i) ∧
      (x.use lo = none → x.Refuses ret t) ∧
      ∀ use, x.use lo = some use → x.Accepts lo use ret t := by
  constructor
  · exact fun hproper => hproper.2 i lo hi h
  · intro hlo
    refine ⟨fun hno => absurd h (hno lo (mem_of_getElem? hi)), fun j lo' hj h' => ?_⟩
    obtain ⟨rfl, rfl⟩ := Asked.unique hi hj (h.trans h'.symm)
    exact hlo

lemma Asked.forall_iff {i : ℕ} {lo : LongOption} (hi : x.longopts[i]? = some lo)
    (h : lo.name = nameOf x.text) {P : LongOption → Prop} :
    (∀ lo ∈ x.longopts, lo.name = nameOf x.text → P lo) ↔ P lo := by
  refine ⟨fun hall => hall lo (mem_of_getElem? hi) h, fun hP lo' hlo' h' => ?_⟩
  obtain ⟨j, hj⟩ := mem_iff_getElem?.1 hlo'
  obtain ⟨-, rfl⟩ := Asked.unique hi hj (h.trans h'.symm)
  exact hP

/-! ### The call -/

lemma Asked.optarg_kept (x : Asked) : x.s₀.optarg = x.s.optarg := by
  have h : some ((), if _ then _ else _) = some ((), x.s₀) := x.restart
  rw [← (Prod.mk.inj (Option.some.inj h)).2]
  split_ifs <;> rfl

lemma Asked.returns_iff {Q : ℤ → State → Prop} :
    Returns (getoptLong x.q x.longopts x.longindex) x.s Q ↔
      Returns (x.q.longOption x.longopts x.longindex x.a)
        { x.s₀ with optind := x.s₀.optind + 1 } Q := by
  obtain ⟨c, text, htext⟩ := exists_cons_of_ne_nil x.option
  have hbytes : x.a.bytes = dash :: dash :: c :: text := by rw [x.bytes, htext]
  have harg : x.q.arg x.s₀.optind = some (some x.a) := by
    rw [x.optind]
    exact arg_eq x.args
  have h0 : x.a.at 0 = some dash := by rw [Str.at, hbytes]; rfl
  have h1 : x.a.at 1 = some dash := by rw [Str.at, hbytes]; rfl
  have h2 : x.a.at 2 = some c := by rw [Str.at, hbytes]; rfl
  have hc : c ≠ 0 := by
    rintro rfl
    exact x.a.nonul (by rw [hbytes]; simp)
  rw [getoptLong, returns_bind, returns_iff_of_eq x.restart, returns_bind, returns_get,
    returns_bind, returns_access harg]
  rw [returns_bind, returns_access h0, if_neg (not_not.2 rfl), returns_bind, returns_access h1,
    if_neg (by decide), returns_bind, returns_access h1, if_pos rfl, returns_bind, addOptind,
    returns_modify, returns_bind, returns_access h2, if_neg hc]

/-- The byte behind the name. -/
theorem Asked.at_name (x : Asked) : ∃ b, x.a.at (2 + (nameOf x.text).length) = some b ∧
    (b = equals ↔ equals ∈ x.text) := by
  obtain ⟨behind, hbehind⟩ : ∃ l, x.text.dropWhile (· ≠ equals) = l := ⟨_, rfl⟩
  have hsplit : x.text = nameOf x.text ++ behind := by
    rw [← hbehind, nameOf, takeWhile_append_dropWhile]
  have hdrop : x.a.bytes.drop (2 + (nameOf x.text).length) = behind := by
    rw [← drop_drop, x.bytes, drop_succ_cons, drop_succ_cons, drop_zero]
    nth_rewrite 2 [hsplit]
    exact drop_left
  have hlen : 2 + (nameOf x.text).length ≤ x.a.bytes.length := by
    have hle := congrArg List.length hsplit
    rw [length_append] at hle
    rw [x.bytes, length_cons, length_cons]
    omega
  refine ⟨_, (at_drop hdrop hlen).1, ?_⟩
  cases behind with
  | nil =>
    rw [append_nil] at hsplit
    refine iff_of_false (by decide) fun h => ?_
    rw [hsplit] at h
    simpa using mem_takeWhile_imp h
  | cons c behind =>
    have hc : c = equals := by
      have hhead := head?_dropWhile_not (· ≠ equals) x.text
      rw [hbehind] at hhead
      simpa using hhead
    exact iff_of_true hc (by rw [hsplit, hc]; simp)

lemma returns_finish_iff {lo : LongOption} {s : State} {Q : ℤ → State → Prop} :
    Returns lo.finish s Q ↔ Q (LongOption.ret lo)
      (lo.flag.elim s fun f => { s with flags := Function.update s.flags f lo.val }) := by
  rw [LongOption.finish, LongOption.ret]
  cases lo.flag with
  | none => exact returns_pure
  | some f => simp only [returns_bind, returns_modify, returns_pure, Option.elim_some]; rfl

section
variable {i : ℕ} {lo : LongOption} {s : State} (hi : x.longopts[i]? = some lo)
  (hname : lo.name = nameOf x.text) (hindex : x.longindex = true → s.longindex = i)
include hi hname hindex

lemma Asked.returns_refuse (huse : x.use lo = none)
    (hoptind : s.optind = (x.pre.length + 1 : ℕ)) : Returns (pure question) s x.Proper := by
  rw [returns_pure, Asked.proper_iff hi hname, huse]
  exact ⟨hindex, fun _ => ⟨rfl, hoptind⟩, fun _ h => by cases h⟩

lemma Asked.returns_finish {use : ℕ × ℕ} (huse : x.use lo = some use)
    (hoptind : s.optind = (x.pre.length + use.2 : ℕ)) :
    Returns lo.finish s x.Proper ↔ s.optarg = use.1 := by
  rw [returns_finish_iff, Asked.proper_iff hi hname, huse]
  cases h : lo.flag <;> simp_all [Asked.Accepts]

end

/-- **`getopt_long` on a long option** does what it should iff there is a value, or the option is
refused, or no call before has left anything in `optarg`. -/
theorem getopt_long_iff (x : Asked) : Returns (getoptLong x.q x.longopts x.longindex) x.s x.Proper ↔
      ∀ lo ∈ x.longopts, lo.name = nameOf x.text → equals ∉ x.text → lo.hasArg ≠ 1 →
        x.s.optarg = 0 := by
  have hdrop : x.a.bytes.drop 2 = x.text := by
    rw [x.bytes]
    rfl
  rw [Asked.returns_iff, Query.longOption, hdrop]
  cases hfind : findOption x.text x.longopts with
  | none =>
    have hno := findOption_eq_none hfind
    refine iff_of_true (returns_pure.2 ⟨fun _ => ⟨rfl, ?_⟩, fun i lo hi h => ?_⟩) ?_
    · change x.s₀.optind + 1 = _
      rw [x.optind]
      rfl
    · exact absurd h (hno lo (mem_of_getElem? hi))
    · exact fun lo hlo h => absurd h (hno lo hlo)
  | some r =>
    obtain ⟨lo, i, n⟩ := r
    obtain ⟨hi, hname, rfl⟩ := findOption_eq_some hfind
    obtain ⟨b, hat, hequals⟩ := x.at_name
    obtain ⟨s2, hs2, hindex, hoptarg, hoptind⟩ : ∃ s2 : State, (if x.longindex then
        { x.s₀ with optind := x.s₀.optind + 1, longindex := i } else
        { x.s₀ with optind := x.s₀.optind + 1 }) = s2 ∧ (x.longindex = true → s2.longindex = i) ∧
        s2.optarg = x.s.optarg ∧ s2.optind = (x.pre.length + 1 : ℕ) := by
      refine ⟨_, rfl, ?_, ?_, ?_⟩
      · intro h
        rw [if_pos h]
      · split_ifs <;> exact x.optarg_kept
      · split_ifs <;> simp [x.optind]
    simp only [returns_bind, returns_modify, hs2, returns_access hat, hequals,
      Asked.forall_iff hi hname]
    by_cases hvalue : equals ∈ x.text
    · rw [if_pos hvalue]
      refine iff_of_true ?_ fun h => absurd hvalue h
      by_cases hno : lo.hasArg = 0
      · have huse : x.use lo = none := by rw [Asked.use, if_pos hvalue, if_pos hno]
        rw [if_neg (not_not.2 hno)]
        exact Asked.returns_refuse hi hname hindex huse hoptind
      · have huse : x.use lo = some (x.a.addr + (2 + (nameOf x.text).length) + 1, 1) := by
          rw [Asked.use, if_pos hvalue, if_neg hno]
        rw [if_pos hno, returns_bind, returns_modify]
        exact (Asked.returns_finish
          (s := { s2 with optarg := x.a.addr + (2 + (nameOf x.text).length) + 1 }) hi hname hindex
          huse hoptind).2 rfl
    rw [if_neg hvalue]
    by_cases hone : lo.hasArg = 1
    · rw [if_pos hone]
      refine iff_of_true ?_ fun _ h => absurd hone h
      have huse : x.use lo = x.rest.head?.map fun b => (b.addr, 2) := by
        rw [Asked.use, if_neg hvalue, if_pos hone]
      have hnext : x.q.arg s2.optind = some x.rest.head? := by
        rw [hoptind, ← arg_eq (split_next x.args), length_append]
        rfl
      rw [returns_bind, returns_get, returns_bind, returns_access hnext]
      cases hrest : x.rest with
      | nil =>
        rw [hrest] at huse
        rw [head?_nil, returns_bind, returns_modify]
        exact Asked.returns_refuse hi hname hindex huse hoptind
      | cons b rest =>
        rw [hrest] at huse
        refine (Asked.returns_finish (s := { s2 with optarg := b.addr, optind := s2.optind + 1 })
          hi hname hindex huse ?_).2 rfl
        change s2.optind + 1 = _
        rw [hoptind]
        rfl
    · have huse : x.use lo = some (0, 1) := by rw [Asked.use, if_neg hvalue, if_neg hone]
      rw [if_neg hone, Asked.returns_finish hi hname hindex huse hoptind, hoptarg]
      exact ⟨fun h _ _ => h, fun h => h hvalue hone⟩

/-- `q --f=x --v`. -/
def staleQuery : Query where
  bits := 32
  charSigned := true
  argv := 12
  args := [⟨32, [113], by decide⟩, ⟨40, [45, 45, 102, 61, 120], by decide⟩,
    ⟨48, [45, 45, 118], by decide⟩]
  optstring := ⟨80, [], by decide⟩
  argv_ne := by decide
  optstring_ne := by decide
  inSpace := by decide
  apart := by decide

def staleOptions : List LongOption := [⟨[102], 1, none, 102⟩, ⟨[118], 0, none, 118⟩]

/-- The call on `--f=x`. -/
def valued : Asked where
  q := staleQuery
  longopts := staleOptions
  longindex := false
  s := ⟨0, 0, 0, 0, 0, 0, 0, fun _ => 0⟩
  s₀ := ⟨0, 1, 0, 0, 80, 12, 0, fun _ => 0⟩
  pre := [⟨32, [113], by decide⟩]
  a := ⟨40, [45, 45, 102, 61, 120], by decide⟩
  rest := [⟨48, [45, 45, 118], by decide⟩]
  text := [102, 61, 120]
  distinct := by decide
  restart := rfl
  args := rfl
  optind := rfl
  bytes := rfl
  option := by decide

theorem getopt_long_iff_valued :
    Returns (getoptLong staleQuery staleOptions false) valued.s valued.Proper :=
  (getopt_long_iff valued).2 fun _ _ _ h => absurd (by decide) h

/-- The call on `--v` after it, with `optarg` at the `x`. -/
def stale : Asked where
  q := staleQuery
  longopts := staleOptions
  longindex := false
  s := ⟨44, 2, 0, 0, 80, 12, 0, fun _ => 0⟩
  s₀ := ⟨44, 2, 0, 0, 80, 12, 0, fun _ => 0⟩
  pre := [⟨32, [113], by decide⟩, ⟨40, [45, 45, 102, 61, 120], by decide⟩]
  a := ⟨48, [45, 45, 118], by decide⟩
  rest := []
  text := [118]
  distinct := by decide
  restart := rfl
  args := rfl
  optind := rfl
  bytes := rfl
  option := by decide

/-- After `--f=x`, the option `--v` without argument returns with `optarg` still at the `x`. -/
theorem getoptLong_stale :
    getoptLong staleQuery staleOptions false valued.s = some (102, stale.s) ∧
      (getoptLong staleQuery staleOptions false stale.s).map (fun r => (r.1, r.2.optarg)) =
        some (118, 44) ∧
      ¬Returns (getoptLong staleQuery staleOptions false) stale.s stale.Proper := by
  have hcall : (getoptLong staleQuery staleOptions false stale.s).map
      (fun r => (r.1, r.2.optarg)) = some (118, 44) := by
    decide +kernel
  refine ⟨rfl, hcall, ?_⟩
  rintro ⟨ret, t, he, hproper⟩
  rw [he, Option.map_some, Option.some.injEq, Prod.mk.injEq] at hcall
  have haccepts := (hproper.2 1 ⟨[118], 0, none, 118⟩ rfl rfl).2.2 (0, 1) rfl
  exact absurd (hcall.2.symm.trans haccepts.2.2.1) (by decide)

end Klibc.Options.LongOptions
