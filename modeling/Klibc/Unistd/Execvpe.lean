import Klibc.Stdio.Vsnprintf

/-! # `execvpe`

A file name without a slash is tried with every entry of the `PATH`. An entry that makes the name
too long is left out by `continue`, which goes to the test of the loop and not past the entry: if
another one follows, the loop stays where it is. -/

namespace Klibc.Unistd.Execvpe

open List
open Stdio.Vsnprintf (chr)

/-! ### The code -/

inductive Errno
  | ENOENT | E2BIG | ENOEXEC | ENOMEM | ETXTBSY | other (e : ℕ)
  deriving DecidableEq, Repr

def PATH_MAX : ℕ := 4096

def DEFAULT_PATH : List UInt8 := "/bin:/usr/bin:.".toList.map chr

def strchr (c : UInt8) : List UInt8 → Option (List UInt8)
  | [] => none
  | x :: s => if x = c then some (x :: s) else strchr c s

def stops (errno : Errno) : Bool :=
  errno == .E2BIG || errno == .ENOEXEC || errno == .ENOMEM || errno == .ETXTBSY

section
variable (bits : ℕ) (fails : ℕ → Errno) (file : List UInt8)

/-- The loop, with the paths that `execve` has been called on; the `n`-th call fails with `fails n`.
There is no result if the turns do not suffice. -/
def search : ℕ → List UInt8 → List (List UInt8) → Option (ℤ × List (List UInt8))
  | 0, _, _ => none
  | turns + 1, searchpath, calls =>
    let esp := strchr (chr ':') searchpath
    let prefixlen := esp.elim searchpath.length fun esp => searchpath.length - esp.length
    let bare := prefixlen = 0 ∨ searchpath[prefixlen - 1]? = some (chr '/')
    let totallen := if bare then (prefixlen + file.length) % 2 ^ bits
      else (prefixlen + file.length + 1) % 2 ^ bits
    if PATH_MAX ≤ totallen then
      -- `continue`
      if esp.isSome then search turns searchpath calls else some (-1, calls)
    else
      let path := searchpath.take prefixlen ++ (if bare then file else chr '/' :: file)
      let errno := fails calls.length
      let calls := calls ++ [path]
      if stops errno then some (-1, calls)
      else esp.elim (some (-1, calls)) fun esp => search turns esp.tail calls

/-- `execvpe`, with the value of `PATH`, if it is set. -/
def execvpe (turns : ℕ) (PATH : Option (List UInt8)) : Option (ℤ × List (List UInt8)) :=
  if (strchr (chr '/') file).isSome then some (-1, [file])
  else search bits fails file turns (PATH.getD DEFAULT_PATH) []

end

/-! ### The entries -/

/-- A name without a slash and a `PATH`, both in a memory of `2 ^ bits` bytes. -/
structure Call (bits : ℕ) where
  file : List UInt8
  PATH : Option (List UInt8)
  noSlash : chr '/' ∉ file
  apart : file.length + (PATH.getD DEFAULT_PATH).length + 2 ≤ 2 ^ bits

/-- The entries of the `PATH`. -/
def entries (searchpath : List UInt8) : List (List UInt8) := searchpath.splitOn (chr ':')

def joined (file entry : List UInt8) : List UInt8 :=
  if entry = [] ∨ entry.getLast? = some (chr '/') then entry ++ file
  else entry ++ chr '/' :: file

def TooLong (file entry : List UInt8) : Prop := PATH_MAX ≤ (joined file entry).length

instance (file entry : List UInt8) : Decidable (TooLong file entry) :=
  inferInstanceAs (Decidable (_ ≤ _))

/-- The paths to try, in their order, up to the first failure that ends the search. -/
def attempts (fails : ℕ → Errno) : ℕ → List (List UInt8) → List (List UInt8)
  | _, [] => []
  | n, path :: paths => path :: if stops (fails n) then [] else attempts fails (n + 1) paths

/-- The paths of the entries that are not too long. -/
def candidates (file : List UInt8) (es : List (List UInt8)) : List (List UInt8) :=
  (es.filter fun e => ¬TooLong file e).map (joined file)

/-- As far as the search comes, only the last entry is too long. -/
def OnlyLastTooLong (fails : ℕ → Errno) (file : List UInt8) : ℕ → List (List UInt8) → Prop
  | n, e :: e' :: es => ¬TooLong file e ∧
    (stops (fails n) = false → OnlyLastTooLong fails file (n + 1) (e' :: es))
  | _, _ => True

lemma strchr_eq_none {c : UInt8} : ∀ {s : List UInt8}, c ∉ s → strchr c s = none
  | [], _ => rfl
  | x :: s, h => by
    rw [mem_cons, not_or] at h
    rw [strchr, if_neg (Ne.symm h.1), strchr_eq_none h.2]

lemma strchr_append {c : UInt8} : ∀ {s : List UInt8} (r : List UInt8), c ∉ s →
    strchr c (s ++ c :: r) = some (c :: r)
  | [], r, _ => if_pos rfl
  | x :: s, r, h => by
    rw [mem_cons, not_or] at h
    rw [cons_append, strchr, if_neg (Ne.symm h.1), strchr_append r h.2]

lemma entries_cases (searchpath : List UInt8) :
    (entries searchpath = [searchpath] ∧ strchr (chr ':') searchpath = none) ∨
      ∃ e r, searchpath = e ++ chr ':' :: r ∧ entries searchpath = e :: entries r ∧
        strchr (chr ':') searchpath = some (chr ':' :: r) := by
  by_cases hcolon : chr ':' ∈ searchpath
  · obtain ⟨e, r, rfl, he⟩ := eq_append_cons_of_mem hcolon
    have hfront : ∀ x ∈ e, (x == chr ':') = false := by
      intro x hx
      rw [beq_eq_false_iff_ne]
      exact fun h => he (h ▸ hx)
    exact .inr ⟨e, r, rfl, splitOnP_append_cons_of_forall_mem hfront _ (by simp) _,
      strchr_append r he⟩
  · exact .inl ⟨splitOn_eq_singleton hcolon, strchr_eq_none hcolon⟩

/-! ### One turn -/

section
variable {bits : ℕ} {fails : ℕ → Errno} {file e r : List UInt8} {calls : List (List UInt8)}
  {turns : ℕ}

lemma length_joined (file e : List UInt8) : (joined file e).length =
    if e = [] ∨ e.getLast? = some (chr '/') then e.length + file.length
    else e.length + file.length + 1 := by
  rw [joined]
  split_ifs
  · rw [length_append]
  · rw [length_append, length_cons, Nat.add_assoc]

lemma bare_iff (tail : List UInt8) : e.length = 0 ∨ (e ++ tail)[e.length - 1]? = some (chr '/') ↔
      e = [] ∨ e.getLast? = some (chr '/') := by
  rw [length_eq_zero_iff]
  by_cases hnil : e = []
  · simp [hnil]
  · have hpos : 0 < e.length := length_pos_of_ne_nil hnil
    rw [getElem?_append_left (by omega), getLast?_eq_getElem?]

lemma tooLong_iff (hfit : file.length + e.length + 2 ≤ 2 ^ bits) :
    PATH_MAX ≤ (if e = [] ∨ e.getLast? = some (chr '/') then (e.length + file.length) % 2 ^ bits
      else (e.length + file.length + 1) % 2 ^ bits) ↔ TooLong file e := by
  rw [TooLong, length_joined, Nat.mod_eq_of_lt (by omega), Nat.mod_eq_of_lt (by omega)]

lemma joined_eq (file e : List UInt8) :
    e ++ (if e = [] ∨ e.getLast? = some (chr '/') then file else chr '/' :: file) =
      joined file e := by
  rw [joined]
  split_ifs <;> rfl

lemma search_last (hlast : strchr (chr ':') e = none)
    (hfit : file.length + e.length + 2 ≤ 2 ^ bits) : search bits fails file (turns + 1) e calls =
      some (-1, if TooLong file e then calls else calls ++ [joined file e]) := by
  have hbare := bare_iff (e := e) []
  rw [append_nil] at hbare
  rw [search]
  simp only [hlast, Option.elim_none, hbare, tooLong_iff hfit, take_length, joined_eq]
  by_cases hlong : TooLong file e
  · rw [if_pos hlong, if_pos hlong]
    rfl
  · rw [if_neg hlong, if_neg hlong, ite_self]

lemma search_more (hcolon : strchr (chr ':') (e ++ chr ':' :: r) = some (chr ':' :: r))
    (hfit : file.length + e.length + 2 ≤ 2 ^ bits) :
    search bits fails file (turns + 1) (e ++ chr ':' :: r) calls =
      if TooLong file e then search bits fails file turns (e ++ chr ':' :: r) calls
      else if stops (fails calls.length) then some (-1, calls ++ [joined file e])
      else search bits fails file turns r (calls ++ [joined file e]) := by
  have hlen : (e ++ chr ':' :: r).length - (chr ':' :: r).length = e.length := by
    rw [length_append, Nat.add_sub_cancel]
  rw [search]
  simp only [hcolon, Option.elim_some, hlen, bare_iff, tooLong_iff hfit, take_left, joined_eq,
    Option.isSome_some, if_true, tail_cons]

end

/-! ### The search -/

section
variable {bits : ℕ} {fails : ℕ → Errno} {file : List UInt8}

lemma candidates_cons (file e : List UInt8) (es : List (List UInt8)) : candidates file (e :: es) =
    if TooLong file e then candidates file es else joined file e :: candidates file es := by
  rw [candidates, filter_cons]
  by_cases hlong : TooLong file e <;> simp [hlong, candidates]

lemma attempts_append (calls : List (List UInt8)) (path : List UInt8)
    (paths : List (List UInt8)) : calls ++ attempts fails calls.length (path :: paths) =
    if stops (fails calls.length) then calls ++ [path]
    else (calls ++ [path]) ++ attempts fails (calls ++ [path]).length paths := by
  rw [attempts, length_append, length_singleton]
  split_ifs <;> simp

lemma search_stays {e r : List UInt8} {calls : List (List UInt8)}
    (hcolon : strchr (chr ':') (e ++ chr ':' :: r) = some (chr ':' :: r))
    (hfit : file.length + e.length + 2 ≤ 2 ^ bits) (hlong : TooLong file e) (turns : ℕ) :
    search bits fails file turns (e ++ chr ':' :: r) calls = none := by
  induction turns with
  | zero => rfl
  | succ turns ih => rw [search_more hcolon hfit, if_pos hlong, ih]

lemma search_spec : ∀ (es : List (List UInt8)) {searchpath : List UInt8}
    (calls : List (List UInt8)), entries searchpath = es →
    file.length + searchpath.length + 2 ≤ 2 ^ bits →
    (OnlyLastTooLong fails file calls.length es → ∃ turns, search bits fails file turns searchpath
      calls = some (-1, calls ++ attempts fails calls.length (candidates file es))) ∧
    (¬OnlyLastTooLong fails file calls.length es → ∀ turns,
      search bits fails file turns searchpath calls = none) := by
  intro es
  induction es with
  | nil => exact fun _ h => absurd h (splitOn_ne_nil _ _)
  | cons e es ih =>
    intro searchpath calls hes hfit
    rcases entries_cases searchpath with ⟨hone, hlast⟩ | ⟨e, r, rfl, hmore, hcolon⟩
    · rw [hone, List.cons.injEq] at hes
      obtain ⟨rfl, rfl⟩ := hes
      refine ⟨fun _ => ⟨1, ?_⟩, fun honly => absurd trivial honly⟩
      rw [search_last hlast hfit, candidates_cons]
      by_cases hlong : TooLong file searchpath
      · rw [if_pos hlong, if_pos hlong]
        exact congrArg (fun l => some (-1, l)) (append_nil calls).symm
      · rw [if_neg hlong, if_neg hlong, attempts_append]
        split_ifs
        · rfl
        · exact congrArg (fun l => some (-1, l)) (append_nil _).symm
    · rw [hmore, List.cons.injEq] at hes
      obtain ⟨rfl, rfl⟩ := hes
      obtain ⟨e', es', hr⟩ := exists_cons_of_ne_nil (splitOn_ne_nil (chr ':') r)
      have hr : entries r = e' :: es' := hr
      rw [length_append, length_cons] at hfit
      have hfit' : file.length + e.length + 2 ≤ 2 ^ bits := by omega
      have hrest := ih (calls ++ [joined file e]) rfl (by omega)
      rw [length_append, length_singleton, hr] at hrest
      rw [candidates_cons, hr, OnlyLastTooLong]
      by_cases hlong : TooLong file e
      · exact ⟨fun h => absurd hlong h.1, fun _ => search_stays hcolon hfit' hlong⟩
      rw [if_neg hlong, attempts_append]
      by_cases hstop : stops (fails calls.length) = true
      · exact ⟨fun _ => ⟨1, by rw [search_more hcolon hfit', if_neg hlong, if_pos hstop,
          if_pos hstop]⟩, fun h => absurd ⟨hlong, fun hs => by simp [hs] at hstop⟩ h⟩
      · rw [if_neg hstop]
        refine ⟨fun h => ?_, fun h turns => ?_⟩
        · obtain ⟨turns, hturns⟩ := hrest.1 (h.2 (by simpa using hstop))
          refine ⟨turns + 1, ?_⟩
          rw [search_more hcolon hfit', if_neg hlong, if_neg hstop, hturns, length_append]
          rfl
        · cases turns with
          | zero => rfl
          | succ turns =>
            rw [search_more hcolon hfit', if_neg hlong, if_neg hstop]
            exact hrest.2 (fun hnext => h ⟨hlong, fun _ => hnext⟩) turns

end

/-- **`execvpe`** ends, with an attempt at every entry that is not too long, iff only the last entry
that the search comes to is too long. -/
theorem execvpe_iff {bits : ℕ} (fails : ℕ → Errno) (c : Call bits) :
    (∃ turns, execvpe bits fails c.file turns c.PATH = some (-1,
      attempts fails 0 (candidates c.file (entries (c.PATH.getD DEFAULT_PATH))))) ↔
      OnlyLastTooLong fails c.file 0 (entries (c.PATH.getD DEFAULT_PATH)) := by
  have hfile : (strchr (chr '/') c.file).isSome = false := by
    rw [strchr_eq_none c.noSlash]
    rfl
  simp only [execvpe, hfile, Bool.false_eq_true, if_false]
  constructor
  · rintro ⟨turns, hturns⟩
    by_contra honly
    rw [(search_spec _ [] rfl c.apart).2 honly] at hturns
    exact absurd hturns (by simp)
  · exact (search_spec _ [] rfl c.apart).1

/-- An entry of 4100 bytes, and `/bin` behind it. -/
def longEntry : Call 64 where
  file := [chr 'x']
  PATH := some (List.replicate 4100 (chr 'a') ++ chr ':' :: "/bin".toList.map chr)
  noSlash := by decide
  apart := by
    rw [Option.getD_some, length_append, length_replicate]
    decide

/-- The search for a name of one byte does not come to `/bin`, however many turns it takes. -/
theorem execvpe_longEntry :
    (fun turns => execvpe 64 (fun _ => .ENOENT) longEntry.file turns longEntry.PATH) =
      fun _ => none := by
  have hcolon : chr ':' ∉ List.replicate 4100 (chr 'a') := by
    rw [mem_replicate]
    exact fun h => absurd h.2 (by decide)
  have hfile : ¬(strchr (chr '/') longEntry.file).isSome = true := by decide
  have hlong : TooLong longEntry.file (List.replicate 4100 (chr 'a')) := by
    rw [TooLong, length_joined, length_replicate]
    split_ifs <;> decide
  funext turns
  rw [execvpe, if_neg hfile]
  refine search_stays (strchr_append _ hcolon) ?_ hlong turns
  rw [length_replicate]
  decide

end Klibc.Unistd.Execvpe
