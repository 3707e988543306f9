import Mathlib.Data.List.Basic

/-! # Tokens of the shell

How a POSIX shell splits a text into tokens, with the quoting of each byte, and when a word is an
assignment. A byte that is not quoted may be special later on, in expansions. One that is quoted by
single quotes or a backslash stands for itself, and if all bytes of a value are quoted so, the value
is what quote removal leaves. -/

namespace Klibc.Lib.ShellWord

open List

def ascii (c : Char) : UInt8 := c.toNat.toUInt8

/-- How a byte of a word is quoted: not at all, by a backslash, by single or by double quotes. -/
inductive Quoting
  | bare | escaped | single | double
  deriving DecidableEq

abbrev Word := List (UInt8 × Quoting)

inductive Token
  | word (w : Word)
  | operator (c : UInt8)
  | newline
  deriving DecidableEq

inductive Mode
  | bare | escape | single | double | doubleEscape | comment
  deriving DecidableEq

def blank (c : UInt8) : Bool := c = ascii ' ' || c = ascii '\t'

def operator (c : UInt8) : Bool := c ∈ "&|;<>()".toList.map ascii

def push (w : Option Word) (c : UInt8) (q : Quoting) : Option Word := some (w.getD [] ++ [(c, q)])

def ended (w : Option Word) : List Token := w.toList.map .word

/-- **The tokens of a text**, unless it ends within quotes. `w` is the word that has been begun. -/
def tokens : Mode → Option Word → List UInt8 → Option (List Token)
  | .bare, w, [] => some (ended w)
  | .comment, w, [] => some (ended w)
  | _, _, [] => none
  | .bare, w, c :: cs =>
    if c = ascii '\'' then tokens .single (some (w.getD [])) cs
    else if c = ascii '"' then tokens .double (some (w.getD [])) cs
    else if c = ascii '\\' then tokens .escape w cs
    else if c = ascii '\n' then (tokens .bare none cs).map (ended w ++ .newline :: ·)
    else if blank c then (tokens .bare none cs).map (ended w ++ ·)
    else if operator c then (tokens .bare none cs).map (ended w ++ .operator c :: ·)
    else if c = ascii '#' ∧ w = none then tokens .comment none cs
    else tokens .bare (push w c .bare) cs
  | .escape, w, c :: cs =>
    -- A backslash in front of a newline continues the line.
    if c = ascii '\n' then tokens .bare w cs else tokens .bare (push w c .escaped) cs
  | .single, w, c :: cs =>
    if c = ascii '\'' then tokens .bare w cs else tokens .single (push w c .single) cs
  | .double, w, c :: cs =>
    if c = ascii '"' then tokens .bare w cs
    else if c = ascii '\\' then tokens .doubleEscape w cs
    else tokens .double (push w c .double) cs
  | .doubleEscape, w, c :: cs =>
    if c = ascii '\n' then tokens .double w cs
    else if c ∈ "$`\"\\".toList.map ascii then tokens .double (push w c .escaped) cs
    else tokens .double (push (push w (ascii '\\') .double) c .double) cs
  | .comment, w, c :: cs =>
    if c = ascii '\n' then (tokens .bare none cs).map (ended w ++ .newline :: ·)
    else tokens .comment w cs

/-! ### Assignments -/

def letter (c : UInt8) : Bool :=
  (ascii 'a' ≤ c && c ≤ ascii 'z') || (ascii 'A' ≤ c && c ≤ ascii 'Z') || c = ascii '_'

def digit (c : UInt8) : Bool := ascii '0' ≤ c && c ≤ ascii '9'

/-- A name: letters, underscores and digits, and not a digit first. -/
def isName : List UInt8 → Bool
  | [] => false
  | c :: cs => letter c && cs.all fun c => letter c || digit c

/-- The name and the value of a word that is an assignment: the name is in front of the first `=`
that is not quoted, and not quoted itself. -/
def assignment (w : Word) : Option (List UInt8 × Word) :=
  let name := w.takeWhile (· ≠ (ascii '=', .bare))
  match w.drop name.length with
  | [] => none
  | _ :: value =>
    if name.all (·.2 = .bare) && isName (name.map Prod.fst) then some (name.map Prod.fst, value)
    else none

lemma assignment_eq {name : List UInt8} (h : isName name) (heq : ascii '=' ∉ name) (value : Word) :
    assignment (name.map (·, .bare) ++ (ascii '=', .bare) :: value) = some (name, value) := by
  have hall : ∀ x ∈ name.map (·, Quoting.bare), decide (x ≠ (ascii '=', .bare)) = true := by
    rintro x hx
    obtain ⟨c, hc, rfl⟩ := mem_map.1 hx
    refine decide_eq_true fun he => heq ?_
    cases he
    exact hc
  have hname : (name.map (·, Quoting.bare) ++ (ascii '=', .bare) :: value).takeWhile
      (· ≠ (ascii '=', .bare)) = name.map (·, .bare) := by
    rw [takeWhile_append_of_pos hall, takeWhile_cons_of_neg (by simp), append_nil]
  have hbare : (name.map (·, Quoting.bare)).all (·.2 = .bare) = true := by
    rw [all_map]
    exact all_eq_true.2 fun _ _ => rfl
  have hfst : (name.map (·, Quoting.bare)).map Prod.fst = name := by
    rw [map_map]
    exact map_id name
  rw [assignment, hname, drop_left]
  change (if (name.map (·, Quoting.bare)).all (·.2 = .bare) &&
    isName ((name.map (·, Quoting.bare)).map Prod.fst) then _ else _) = _
  rw [hfst, hbare, h, Bool.and_true, if_pos rfl]

/-! ### Steps -/

section
variable {w : Word} {c : UInt8} {cs : List UInt8}

def ordinary (c : UInt8) : Bool := letter c || digit c || c = ascii '='

lemma ordinary_ne (h : ordinary c) (x : UInt8) (hx : ¬ ordinary x) : c ≠ x := by
  rintro rfl
  exact hx h

lemma tokens_ordinary (h : ordinary c) (w : Option Word) :
    tokens .bare w (c :: cs) = tokens .bare (push w c .bare) cs := by
  have hne := ordinary_ne h
  have hblank : ¬ blank c = true := by
    simp only [blank, Bool.or_eq_true, decide_eq_true_eq, not_or]
    exact ⟨hne _ (by decide), hne _ (by decide)⟩
  have hop : ¬ operator c = true := by
    rw [operator, decide_eq_true_eq]
    intro hmem
    have hall : ("&|;<>()".toList.map ascii).all (fun x => !ordinary x) = true := by decide
    have := all_eq_true.1 hall c hmem
    rw [h] at this
    cases this
  rw [tokens, if_neg (hne _ (by decide)), if_neg (hne _ (by decide)), if_neg (hne _ (by decide)),
    if_neg (hne _ (by decide)), if_neg hblank, if_neg hop, if_neg fun hc => hne _ (by decide) hc.1]

lemma tokens_ordinaries : ∀ (l : List UInt8) {w : Word}, (∀ c ∈ l, ordinary c) →
    tokens .bare (some w) (l ++ cs) = tokens .bare (some (w ++ l.map (·, .bare))) cs
  | [], w, _ => by rw [nil_append, map_nil, append_nil]
  | c :: l, w, h => by
    rw [cons_append, tokens_ordinary (h c mem_cons_self)]
    change tokens .bare (some (w ++ [(c, .bare)])) (l ++ cs) = _
    rw [tokens_ordinaries l fun c hc => h c (mem_cons_of_mem _ hc), append_assoc]
    rfl

lemma tokens_open : tokens .bare (some w) (ascii '\'' :: cs) = tokens .single (some w) cs := by
  rw [tokens, if_pos rfl]
  rfl

lemma tokens_single (h : c ≠ ascii '\'') :
    tokens .single (some w) (c :: cs) = tokens .single (some (w ++ [(c, .single)])) cs := by
  rw [tokens, if_neg h]
  rfl

lemma tokens_close : tokens .single (some w) (ascii '\'' :: cs) = tokens .bare (some w) cs := by
  rw [tokens, if_pos rfl]

lemma tokens_escape (h : c ≠ ascii '\n') : tokens .bare (some w) (ascii '\\' :: c :: cs) =
    tokens .bare (some (w ++ [(c, .escaped)])) cs := by
  rw [tokens, if_neg (by decide), if_neg (by decide), if_pos rfl, tokens, if_neg h]
  rfl

lemma tokens_newline : tokens .bare (some w) (ascii '\n' :: cs) =
    (tokens .bare none cs).map (.word w :: .newline :: ·) := by
  rw [tokens, if_neg (by decide), if_neg (by decide), if_neg (by decide), if_pos rfl]
  rfl

end

end Klibc.Lib.ShellWord
