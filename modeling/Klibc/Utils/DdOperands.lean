import Klibc.Env.Entries
import Klibc.Unistd.Execvpe

/-! # The operands of `dd`

`parse_options` compares as many characters of an operand as stand in front of its `=`, and none if
it has none, with the names in the table: every beginning of a name will do for it, and the empty
one is a beginning of `bs`. -/

namespace Klibc.Utils.DdOperands

open Env.Environ Env.Entries List
open Unistd.Execvpe (strchr strchr_eq_none strchr_append)
open Stdio.Vsnprintf (chr)

/-! ### The code -/

/-- `options[i].opt`. -/
def options : List (List UInt8) :=
  ["bs", "cbs", "conv", "count", "ibs", "if", "obs", "of", "seek", "skip"].map (·.toList.map chr)

/-- The string at `s`, the whole operand if there is no `=`. -/
def sAt (arg : CString) : List UInt8 := (strchr equals arg.bytes).getD arg.bytes

/-- `s - argv[arg]`, as an `unsigned int`. -/
def len (arg : CString) : ℕ := (arg.bytes.length - (sAt arg).length) % 2 ^ 32

/-- The loop over the table. -/
def search (arg : CString) : Option ℕ :=
  options.findIdx? fun opt => strncmp opt arg.bytes (len arg) = 0

/-- The loop over the operands, with the fields `str`. A bad operand is reported. -/
def split (search : CString → Option ℕ) (value : CString → List UInt8) :
    List CString → List (Option (List UInt8)) → Except CString (List (Option (List UInt8)))
  | [], strs => .ok strs
  | arg :: argv, strs =>
    match search arg with
    | none => .error arg
    | some i => split search value argv (strs.set i (some (value arg)))

/-- The ten values. That of an empty operand is given as empty: `s + 1` is then behind its NUL. -/
def parseOptions (argv : List CString) : Except CString (List (Option (List UInt8))) :=
  split search (fun arg => (sAt arg).tail) argv (.replicate 10 none)

/-! ### What is asked of it -/

def name (arg : CString) : List UInt8 := arg.bytes.takeWhile (· ≠ equals)

def value (arg : CString) : List UInt8 := (arg.bytes.dropWhile (· ≠ equals)).tail

/-- The operand is `name=value`, with a name of the table. -/
def operand (arg : CString) : Option ℕ :=
  if equals ∈ arg.bytes then options.idxOf? (name arg) else none

/-- The first operand of another form is reported. Otherwise each name has the value that is given
for it last. -/
def specified (argv : List CString) : Except CString (List (Option (List UInt8))) :=
  match argv.find? fun arg => (operand arg).isNone with
  | some arg => .error arg
  | none => .ok ((List.range 10).map fun i => (argv.filter (operand · = some i)).getLast?.map value)

/-- The characters that are compared: the name, cut to a length that is an `unsigned int`, and none
if there is no `=`. -/
def compared (arg : CString) : List UInt8 :=
  if equals ∈ arg.bytes then (name arg).take ((name arg).length % 2 ^ 32) else []

/-! ### One operand -/

lemma parts {arg : CString} (h : equals ∈ arg.bytes) :
    arg.bytes = name arg ++ equals :: value arg ∧ sAt arg = equals :: value arg := by
  obtain ⟨n, v, hbytes, hn⟩ := eq_append_cons_of_mem h
  have hpos : ∀ c ∈ n, decide (c ≠ equals) = true := fun c hc =>
    decide_eq_true (ne_of_mem_of_not_mem hc hn)
  have hname : name arg = n := by
    rw [name, hbytes, takeWhile_append_of_pos hpos, takeWhile_cons_of_neg (by simp), append_nil]
  have hvalue : value arg = v := by
    rw [value, hbytes, dropWhile_append_of_pos hpos, dropWhile_cons_of_neg (by simp), tail_cons]
  rw [hname, hvalue, sAt, hbytes, strchr_append v hn]
  exact ⟨rfl, rfl⟩

lemma take_len (arg : CString) : arg.bytes.take (len arg) = compared arg ∧
    (compared arg).length = len arg := by
  unfold compared len
  split_ifs with h
  · obtain ⟨hbytes, hs⟩ := parts h
    have hlen : arg.bytes.length - (sAt arg).length = (name arg).length := by
      rw [hs, hbytes, length_append, Nat.add_sub_cancel]
    have hle := Nat.mod_le (name arg).length (2 ^ 32)
    rw [hlen, length_take, Nat.min_eq_left hle]
    refine ⟨?_, rfl⟩
    conv_lhs => rw [hbytes]
    exact take_append_of_le_length hle
  · rw [sAt, strchr_eq_none h]
    simp

lemma findIdx_congr {α : Type} {p q : α → Bool} : ∀ {l : List α}, (∀ x ∈ l, p x = q x) →
    l.findIdx? p = l.findIdx? q
  | [], _ => rfl
  | x :: l, h => by
    rw [findIdx?_cons, findIdx?_cons, h x mem_cons_self,
      findIdx_congr fun y hy => h y (mem_cons_of_mem x hy)]

/-- An operand is found under the first name that begins with what is compared. -/
theorem search_eq (arg : CString) :
    search arg = options.findIdx? fun opt => compared arg <+: opt := by
  have hnul : ∀ opt ∈ options, 0 ∉ opt := by decide
  obtain ⟨htake, hlen⟩ := take_len arg
  refine findIdx_congr fun opt hopt => ?_
  rw [decide_eq_decide, strncmp_eq_zero _ (hnul opt hopt) arg.nulFree, htake, prefix_iff_eq_take,
    hlen, eq_comm]

lemma search_eq_none_iff (arg : CString) :
    search arg = none ↔ ∀ opt ∈ options, ¬compared arg <+: opt := by
  rw [search_eq, findIdx?_eq_none_iff]
  simp

/-- None of the names begins with another one. -/
theorem search_of_operand {arg : CString} {i : ℕ} (h : operand arg = some i) :
    search arg = some i ∧ (sAt arg).tail = value arg := by
  unfold operand at h
  split_ifs at h with heq
  have hmem : name arg ∈ options := by
    by_contra hno
    rw [idxOf?_eq_none_iff.2 hno] at h
    cases h
  have hname : ∀ n ∈ options, n.take (n.length % 2 ^ 32) = n ∧
      options.findIdx? (fun opt => n <+: opt) = options.idxOf? n := by decide
  obtain ⟨htake, hfind⟩ := hname _ hmem
  rw [search_eq, compared, if_pos heq, htake, hfind, h, (parts heq).2]
  exact ⟨rfl, rfl⟩

/-! ### All of them -/

lemma search_of_error {argv : List CString} {strs : List (Option (List UInt8))} {arg : CString}
    {f : CString → Option ℕ} {v : CString → List UInt8} (h : split f v argv strs = .error arg) :
    f arg = none := by
  induction argv generalizing strs with
  | nil => cases h
  | cons a argv ih =>
    cases ha : f a with
    | none =>
      simp only [split, ha] at h
      cases h
      exact ha
    | some i =>
      simp only [split, ha] at h
      exact ih h

/-- The loop stops at the first operand that is not found, and the last value is kept. -/
theorem split_eq (f : CString → Option ℕ) (v : CString → List UInt8) (argv : List CString)
    (strs : List (Option (List UInt8))) : split f v argv strs =
      match argv.find? fun arg => (f arg).isNone with
      | some arg => .error arg
      | none => .ok (strs.mapIdx fun i str =>
          ((argv.filter (f · = some i)).getLast?.map v).or str) := by
  induction argv generalizing strs with
  | nil =>
    have hid : strs.mapIdx (fun _ str => str) = strs := by
      refine ext_getElem? fun j => ?_
      rw [getElem?_mapIdx, Option.map_id']
    simp [split, hid]
  | cons a argv ih =>
    cases ha : f a with
    | none => simp [split, ha]
    | some i =>
      simp only [split, ha, ih, find?_cons, Option.isNone_some]
      cases argv.find? fun arg => (f arg).isNone with
      | some arg => rfl
      | none =>
        simp only [Except.ok.injEq]
        refine ext_getElem? fun j => ?_
        rw [getElem?_mapIdx, getElem?_mapIdx, getElem?_set, filter_cons, ha]
        by_cases hj : i = j
        · subst hj
          rw [if_pos rfl, if_pos (decide_eq_true rfl), getLast?_cons]
          by_cases hlt : i < strs.length
          · rw [if_pos hlt, getElem?_eq_getElem hlt]
            cases (argv.filter fun arg => f arg = some i).getLast? <;> rfl
          · rw [if_neg hlt, getElem?_eq_none (not_lt.1 hlt)]
            rfl
        · rw [if_neg hj, if_neg (by simpa using hj)]

lemma split_operand (argv : List CString) :
    split operand value argv (.replicate 10 none) = specified argv := by
  have hnone (g : ℕ → Option (List UInt8)) :
      (List.replicate 10 none).mapIdx (fun i str => (g i).or str) = (List.range 10).map g := by
    refine ext_getElem? fun j => ?_
    rw [getElem?_mapIdx, getElem?_replicate, getElem?_map]
    by_cases hj : j < 10 <;> simp [hj]
  rw [split_eq, specified, hnone]

/-- **`parse_options` does what is asked** iff the first operand that is none of the ten, if there
is one, does not begin as one of the names does. -/
theorem parse_options_iff (argv : List CString) : parseOptions argv = specified argv ↔
      ∀ arg, argv.find? (fun arg => (operand arg).isNone) = some arg →
        ∀ opt ∈ options, ¬compared arg <+: opt := by
  rw [← split_operand, parseOptions]
  generalize List.replicate 10 none = strs
  induction argv generalizing strs with
  | nil => simp [split]
  | cons a argv ih =>
    cases ha : operand a with
    | some i =>
      obtain ⟨hsearch, hvalue⟩ := search_of_operand ha
      rw [find?_cons_of_neg (by simp [ha]), ← ih (strs.set i (some (value a)))]
      simp only [split, ha, hsearch, hvalue]
    | none =>
      rw [find?_cons_of_pos (by simp [ha])]
      simp only [Option.some.injEq, forall_eq', ← search_eq_none_iff, split, ha]
      cases hsearch : search a with
      | none => simp
      | some i =>
        refine iff_of_false (fun h => ?_) (by simp)
        exact absurd (hsearch.symm.trans (search_of_error h)) (by simp)

/-- `b=1`. -/
def abbreviated : CString := ⟨[chr 'b', equals, chr '1'], by decide⟩

/-- The operand `b=1` sets the block size. -/
theorem parse_options_abbreviated :
    parseOptions [abbreviated] = .ok (some [chr '1'] :: .replicate 9 none) ∧
      specified [abbreviated] = .error abbreviated := ⟨rfl, rfl⟩

end Klibc.Utils.DdOperands
