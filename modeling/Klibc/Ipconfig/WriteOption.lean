import Klibc.Lib.ShellWord
import Klibc.Stdio.Vfprintf

/-! # `write_option`

`ipconfig` leaves what it has learned to shell scripts, as assignments in a file. `write_option`
writes one of them. It quotes the value, which may come from the network, and as long as the name
fits into the buffer of `vfprintf` what it writes is one assignment of that value
(`write_option_quotes`). -/

namespace Klibc.Ipconfig.WriteOption

open Lib.Machine Lib.ShellWord Lib.Total Stdio.Vsnprintf List
open Stdio.Iso Stdio.Plain Stdio.Stream Stdio.Output Stdio.Vfprintf

/-! ### The code -/

section

-- Plain `char` is signed on some machines and unsigned on others.
variable (C : Config) (signedChar : Bool)

/-- A `char` as an `int`. -/
def promote (c : UInt8) : BitVec 32 :=
  if signedChar then c.toBitVec.signExtend 32 else c.toBitVec.setWidth 32

/-- `"%s='"`. -/
def nameFormat : List UInt8 := [chr '%', chr 's', chr '=', chr '\'']

/-- `"'\\%c'"`. -/
def escapeFormat : List UInt8 := [chr '\'', chr '\\', chr '%', chr 'c', chr '\'']

/-- `"%c"`. -/
def charFormat : List UInt8 := [chr '%', chr 'c']

/-- `"'\n"`. -/
def endFormat : List UInt8 := [chr '\'', chr '\n']

/-- The bytes that `write_option` escapes. -/
def Escaped (c : UInt8) : Prop := c = chr '!' ∨ c = chr '\''

instance : DecidablePred Escaped := fun _ => inferInstanceAs (Decidable (_ ∨ _))

/-- `while (*chr)`, for the memory from `chr` on. -/
def writeChars : List UInt8 → Call Unit
  | [] => access none
  | c :: mem =>
    if c = 0 then return
    else do
      let _ ← fprintf C (if Escaped c then escapeFormat else charFormat)
        [.int (promote signedChar c)]
      writeChars mem

/-- `write_option`, for the memory at `name` and at `chr`. -/
def writeOption (name mem : List UInt8) : Call Unit := do
  let _ ← fprintf C nameFormat [.str (some name)]
  writeChars C signedChar mem
  let _ ← fprintf C endFormat []

end

/-! ### The texts -/

/-- Texts are handed to `_fwrite`, one after the other, whatever it returns. -/
def fwriteAll (C : Config) : List (List UInt8) → Call Unit
  | [] => return
  | p :: texts => do
    let _ ← fwrite C p
    fwriteAll C texts

section
variable {C : Config} {texts texts' : List (List UInt8)}

lemma fwriteAll_append : ∀ texts : List (List UInt8),
    (fwriteAll C texts >>= fun _ => fwriteAll C texts') = fwriteAll C (texts ++ texts')
  | [] => pure_bind _ _
  | p :: texts => by
    rw [cons_append, fwriteAll, fwriteAll, bind_assoc]
    simp only [fwriteAll_append texts]

lemma returns_fwriteAll : ∀ (texts : List (List UInt8)) {s : Sys}, Writable C s →
    Returns (fwriteAll C texts) s fun _ s' => Writable C s' ∧ total s' = total s ++ texts.flatten
  | [], s, h => returns_pure.2 ⟨h, (append_nil _).symm⟩
  | p :: texts, s, h => by
    rw [fwriteAll, returns_bind]
    refine (returns_fwrite h p).mono ?_
    rintro _ s1 ⟨-, h1, -⟩
    refine (returns_fwriteAll texts h1.writable).mono ?_
    rintro _ s2 ⟨h2, htotal2⟩
    refine ⟨h2, ?_⟩
    rw [htotal2, h1.total, append_assoc, flatten_cons]

/-- **A plain format** hands over its text, up to the size of the buffer. -/
theorem fprintf_plain (C : Config) (ps : List Piece)
    (hlen : (ps.flatMap Piece.text).length ≤ INT_MAX) (texts : List (List UInt8)) :
    (fprintf C (formatOf (items C.bits ps)) (argsOf (items C.bits ps)) >>= fun _ =>
      fwriteAll C texts) =
      fwriteAll C ((ps.flatMap Piece.text).take (BUFFER_SIZE - 1) :: texts) := by
  have htext := vfprintfText_plain C.toArch ps hlen
  rw [fprintf, htext, bind_assoc]
  change ((fwrite C _ >>= fun n => pure (wrap 32 n)) >>= fun _ => fwriteAll C texts) = _
  rw [bind_assoc]
  rfl

lemma fprintf_short (C : Config) (ps : List Piece) {F : List UInt8}
    (hF : ps.flatMap Piece.text = F) (hlen : F.length < BUFFER_SIZE) (texts : List (List UInt8)) :
    (fprintf C (formatOf (items C.bits ps)) (argsOf (items C.bits ps)) >>= fun _ =>
      fwriteAll C texts) = fwriteAll C (F :: texts) := by
  have hmax : INT_MAX = 2 ^ 31 - 1 := rfl
  have hsize : BUFFER_SIZE = 32768 := rfl
  rw [fprintf_plain C ps (by rw [hF]; omega), hF, take_of_length_le (by omega)]

/-! ### Quoting -/

def quote : Piece := .lit (chr '\'') (by decide) (by decide)

def charText (c : UInt8) : List UInt8 :=
  if Escaped c then [chr '\'', chr '\\', c, chr '\''] else [c]

/-- **What `write_option` hands over.** -/
def optionTexts (name v : List UInt8) : List (List UInt8) :=
  (name ++ [chr '=', chr '\'']).take (BUFFER_SIZE - 1) :: v.map charText ++ [endFormat]

lemma setWidth_promote (signedChar : Bool) (c : UInt8) :
    ((promote signedChar c).setWidth 8).toNat.toUInt8 = c := by
  have hbyte : (promote signedChar c).setWidth 8 = c.toBitVec := by
    rw [promote]
    split_ifs
    · ext i hi
      simp [BitVec.getLsbD_signExtend, hi]
      omega
    · ext i hi
      simp
  rw [hbyte]
  exact UInt8.ofNat_toNat

lemma fprintf_char (signedChar : Bool) (c : UInt8) (texts : List (List UInt8)) :
    (fprintf C (if Escaped c then escapeFormat else charFormat) [.int (promote signedChar c)] >>=
      fun _ => fwriteAll C texts) = fwriteAll C (charText c :: texts) := by
  have hchar : Piece.text (.char (promote signedChar c)) = [c] :=
    congrArg ([·]) (setWidth_promote signedChar c)
  by_cases h : Escaped c
  · rw [charText, if_pos h, if_pos h]
    refine fprintf_short C [quote, .lit (chr '\\') (by decide) (by decide),
      .char (promote signedChar c), quote] ?_ (by simp [BUFFER_SIZE]) texts
    rw [flatMap_cons, flatMap_cons, flatMap_cons, hchar]
    rfl
  · rw [charText, if_neg h, if_neg h]
    refine fprintf_short C [.char (promote signedChar c)] ?_ (by simp [BUFFER_SIZE]) texts
    rw [flatMap_cons, hchar]
    rfl

lemma writeChars_eq (signedChar : Bool) (mem : List UInt8) : ∀ {v : List UInt8}, 0 ∉ v →
    writeChars C signedChar (v ++ 0 :: mem) = fwriteAll C (v.map charText)
  | [], _ => if_pos rfl
  | c :: v, h => by
    rw [mem_cons, not_or] at h
    rw [cons_append, writeChars, if_neg (Ne.symm h.1), writeChars_eq signedChar mem h.2,
      fprintf_char, map_cons]

/-- **The texts of `write_option`.** -/
theorem writeOption_eq (C : Config) (signedChar : Bool) {name v : List UInt8} (hname : 0 ∉ name)
    (hlen : name.length + 2 ≤ INT_MAX) (hv : 0 ∉ v) :
    writeOption C signedChar (name ++ [0]) (v ++ [0]) = fwriteAll C (optionTexts name v) := by
  have hend : (fprintf C endFormat [] >>= fun _ => pure ()) = fwriteAll C [endFormat] :=
    fprintf_short C [quote, .lit (chr '\n') (by decide) (by decide)] rfl (by decide) []
  have htext : [.str name hname, .lit (chr '=') (by decide) (by decide), quote].flatMap Piece.text =
      name ++ [chr '=', chr '\''] := by
    simp [Piece.text, quote]
  have hfirst := fprintf_plain C [.str name hname, .lit (chr '=') (by decide) (by decide), quote]
    (by rw [htext]; simpa using hlen) (v.map charText ++ [endFormat])
  rw [writeOption, writeChars_eq signedChar [] hv, hend, fwriteAll_append]
  exact hfirst

end

/-! ### The assignment -/

def quoting (c : UInt8) : Quoting := if Escaped c then .escaped else .single

/-- The word that `write_option` makes. -/
def optionWord (name v : List UInt8) : Word :=
  name.map (·, .bare) ++ (ascii '=', .bare) :: v.map fun c => (c, quoting c)

section
variable {w : Word} {cs name v : List UInt8}

lemma tokens_charText (c : UInt8) : tokens .single (some w) (charText c ++ cs) =
    tokens .single (some (w ++ [(c, quoting c)])) cs := by
  by_cases h : Escaped c
  · have hne : c ≠ ascii '\n' := by rcases h with rfl | rfl <;> decide
    rw [charText, if_pos h, quoting, if_pos h]
    change tokens .single (some w) (ascii '\'' :: ascii '\\' :: c :: ascii '\'' :: cs) = _
    rw [tokens_close, tokens_escape hne, tokens_open]
  · have hne : c ≠ ascii '\'' := fun hc => h (Or.inr hc)
    rw [charText, if_neg h, quoting, if_neg h]
    exact tokens_single hne

lemma tokens_value : ∀ (v : List UInt8) {w : Word},
    tokens .single (some w) ((v.map charText).flatten ++ cs) =
      tokens .single (some (w ++ v.map fun c => (c, quoting c))) cs
  | [], w => by rw [map_nil, map_nil, append_nil]; rfl
  | c :: v, w => by
    rw [map_cons, flatten_cons, append_assoc, tokens_charText, tokens_value v, append_assoc]
    rfl

lemma ordinary_of_mem {c : UInt8} (h : isName name) (hc : c ∈ name) :
    (letter c || digit c) = true := by
  cases name with
  | nil => cases h
  | cons a name =>
    obtain ⟨hfirst, hrest⟩ := (Bool.and_eq_true _ _).mp h
    rcases mem_cons.1 hc with rfl | hc
    · rw [hfirst, Bool.true_or]
    · exact all_eq_true.1 hrest c hc

lemma not_mem_of_isName {c : UInt8} (h : isName name) (hc : (letter c || digit c) = false) :
    c ∉ name := by
  intro hmem
  rw [ordinary_of_mem h hmem] at hc
  cases hc

lemma tokens_name (h : isName name) : tokens .bare none (name ++ ascii '=' :: cs) =
    tokens .bare (some ((name ++ [ascii '=']).map (·, .bare))) cs := by
  have hord : ∀ c ∈ name ++ [ascii '='], ordinary c := by
    intro c hc
    rcases mem_append.1 hc with hc | hc
    · rw [ordinary, ordinary_of_mem h hc, Bool.true_or]
    · rw [mem_singleton.1 hc]
      decide
  have hsplit : name ++ ascii '=' :: cs = (name ++ [ascii '=']) ++ cs := by simp
  obtain ⟨c, l, hl⟩ : ∃ c l, name ++ [ascii '='] = c :: l := exists_cons_of_ne_nil (by simp)
  rw [hl] at hord
  rw [hsplit, hl, cons_append, tokens_ordinary (hord c mem_cons_self)]
  exact tokens_ordinaries l fun c hc => hord c (mem_cons_of_mem _ hc)

/-- **A line of the file.**  What `write_option` writes is one word and a newline, and what follows
is read as if it were alone. -/
theorem tokens_option (h : isName name) (hlen : name.length + 2 < BUFFER_SIZE) (v cs : List UInt8) :
    tokens .bare none ((optionTexts name v).flatten ++ cs) =
      (tokens .bare none cs).map (.word (optionWord name v) :: .newline :: ·) := by
  have htext : (optionTexts name v).flatten ++ cs =
      name ++ ascii '=' :: ascii '\'' :: ((v.map charText).flatten ++
        ascii '\'' :: ascii '\n' :: cs) := by
    have hroom : (name ++ [chr '=', chr '\'']).length ≤ BUFFER_SIZE - 1 := by
      rw [length_append]
      exact Nat.le_of_lt_succ hlen
    rw [optionTexts, take_of_length_le hroom]
    simp [endFormat, chr, ascii]
  have hword : (name ++ [ascii '=']).map (·, Quoting.bare) ++ v.map (fun c => (c, quoting c)) =
      optionWord name v := by
    simp [optionWord]
  rw [htext, tokens_name h, tokens_open, tokens_value, tokens_close, tokens_newline, hword]

/-- **One assignment.**  The text is one word and a newline. The word assigns `v` to `name`, and
every byte of the value is within single quotes, or a single quote or exclamation mark behind a
backslash. -/
def OneAssignment (name v text : List UInt8) : Prop :=
  ∃ w value, tokens .bare none text = some [.word w, .newline] ∧
    assignment w = some (name, value) ∧ value.map Prod.fst = v ∧
    ∀ x ∈ value, x.2 = .single ∨ x.2 = .escaped ∧ (x.1 = ascii '\'' ∨ x.1 = ascii '!')

lemma oneAssignment_option (h : isName name) (hlen : name.length + 2 < BUFFER_SIZE)
    (v : List UInt8) : OneAssignment name v (optionTexts name v).flatten := by
  refine ⟨optionWord name v, v.map fun c => (c, quoting c), ?_, ?_, ?_, ?_⟩
  · have := tokens_option h hlen v []
    rwa [append_nil] at this
  · exact assignment_eq h (not_mem_of_isName h (by decide)) _
  · rw [map_map]
    exact map_id v
  · intro x hx
    obtain ⟨c, -, rfl⟩ := mem_map.1 hx
    by_cases hc : Escaped c
    · exact Or.inr ⟨if_pos hc, hc.symm⟩
    · exact Or.inl (if_neg hc)

end

/-- **`write_option` quotes.**  For a name that leaves room in the buffer of `vfprintf`, and for
every value, the texts that `write_option` hands to `_fwrite` are together one assignment of the
value. They are what a stream that can be written gets. -/
theorem write_option_quotes (C : Config) (signedChar : Bool) (name v : List UInt8)
    (hname : isName name) (hlen : name.length ≤ 32765) (hv : 0 ∉ v) :
    ∃ texts, writeOption C signedChar (name ++ [0]) (v ++ [0]) = fwriteAll C texts ∧
      OneAssignment name v texts.flatten ∧
      ∀ s, Writable C s → Returns (writeOption C signedChar (name ++ [0]) (v ++ [0])) s fun _ s' =>
        Writable C s' ∧ total s' = total s ++ texts.flatten := by
  have hmax : INT_MAX = 2 ^ 31 - 1 := rfl
  have hsize : BUFFER_SIZE = 32768 := rfl
  have htexts := writeOption_eq C signedChar (not_mem_of_isName hname (by decide)) (by omega) hv
  refine ⟨optionTexts name v, htexts, oneAssignment_option hname (by omega) v, fun s hs => ?_⟩
  rw [htexts]
  exact returns_fwriteAll _ hs

/-- A value with a quote, an exclamation mark, a newline and a command. -/
theorem write_option_quotes_hostile : let name := "ROOTPATH".toList.map ascii
    let v := "/srv'; reboot\n!".toList.map ascii
    isName name ∧ name.length ≤ 32765 ∧ 0 ∉ v ∧
      ∃ texts, writeOption config64 true (name ++ [0]) (v ++ [0]) = fwriteAll config64 texts ∧
        OneAssignment name v texts.flatten ∧ ∀ s, Writable config64 s →
          Returns (writeOption config64 true (name ++ [0]) (v ++ [0])) s fun _ s' =>
            Writable config64 s' ∧ total s' = total s ++ texts.flatten :=
  ⟨by decide, by decide, by decide,
    write_option_quotes config64 true _ _ (by decide) (by decide) (by decide)⟩

/-! ### A name that is too long -/

lemma flatten_eq_of_fwriteAll {C : Config} {s : Sys} {texts texts' : List (List UInt8)}
    (h : Writable C s) (heq : fwriteAll C texts = fwriteAll C texts') :
    texts.flatten = texts'.flatten := by
  obtain ⟨_, s', he, -, htotal⟩ := returns_fwriteAll texts h
  rw [heq] at he
  obtain ⟨-, htotal'⟩ := (returns_fwriteAll texts' h).elim he
  exact append_cancel_left (htotal.symm.trans htotal')

/-- A name without room for `='` behind it. -/
def longName : List UInt8 := List.replicate 32766 (ascii 'A')

lemma isName_longName : isName longName := by
  have hrest : (List.replicate 32765 (ascii 'A')).all (fun c => letter c || digit c) = true := by
    refine all_eq_true.2 fun c hc => ?_
    rw [eq_of_mem_replicate hc]
    decide
  rw [longName, replicate_succ, isName, hrest]
  decide

lemma tokens_longName : tokens .bare none
      (optionTexts longName (";reboot '".toList.map ascii)).flatten =
    some [.word ((longName ++ [ascii '=']).map (·, .bare)), .operator (ascii ';'),
      .word ("reboot".toList.map fun c => (ascii c, .bare)), .word [(ascii '\\', .single)],
      .newline] := by
  have hfirst : (longName ++ [chr '=', chr '\'']).take (BUFFER_SIZE - 1) =
      longName ++ [chr '='] := by
    have hlen : (longName ++ [chr '=']).length = BUFFER_SIZE - 1 := by
      rw [length_append, longName, length_replicate]
      rfl
    have hsplit : longName ++ [chr '=', chr '\''] = (longName ++ [chr '=']) ++ [chr '\''] := by simp
    rw [hsplit, take_left' hlen]
  have htext : (optionTexts longName (";reboot '".toList.map ascii)).flatten =
      longName ++ ascii '=' :: ";reboot '\\'''\n".toList.map ascii := by
    rw [optionTexts, hfirst, cons_append, flatten_cons, append_assoc]
    rfl
  have hrest : ∀ w, tokens .bare (some w) (";reboot '\\'''\n".toList.map ascii) =
      some [.word w, .operator (ascii ';'), .word ("reboot".toList.map fun c => (ascii c, .bare)),
        .word [(ascii '\\', .single)], .newline] := fun _ => rfl
  rw [htext, tokens_name isName_longName, hrest]

/-- **A long name lets a value out.**  There are names and values for which `write_option` does not
write one assignment: here it writes the command `reboot`. -/
theorem write_option_long_name : ∃ name v, isName name ∧ 0 ∉ v ∧
    ¬ ∃ texts, writeOption config64 true (name ++ [0]) (v ++ [0]) = fwriteAll config64 texts ∧
      OneAssignment name v texts.flatten := by
  refine ⟨longName, ";reboot '".toList.map ascii, isName_longName, by decide, ?_⟩
  rintro ⟨texts, heq, w, value, htokens, -⟩
  have hlen : longName.length = 32766 := length_replicate
  have hmax : INT_MAX = 2 ^ 31 - 1 := rfl
  rw [writeOption_eq config64 true (not_mem_of_isName isName_longName (by decide)) (by omega)
    (by decide)] at heq
  have hw : Writable config64 slowStdout := writable_of_opened slowStdout_opened slowStdout_obliging
  rw [← flatten_eq_of_fwriteAll hw heq, tokens_longName] at htokens
  simp at htokens

end Klibc.Ipconfig.WriteOption
