import Klibc.Wildcard.Fnmatch

/-! # Bracket expressions

The loop over the items goes on behind the bracket at the first item for which `match ^ not` is
true. For `[items]` that is the first that has the character, for `[!items]` the first that has it
not. -/

namespace Klibc.Wildcard.Brackets

open Lib.Machine Fnmatch List
open Stdio.Vsnprintf (chr)

/-! ### Expressions -/

/-- A single character, or the characters from `a` to `b`. -/
inductive Item
  | single (a : UInt8)
  | range (a b : UInt8)
  deriving DecidableEq

def Item.text : Item → List UInt8
  | .single a => [a]
  | .range a b => [a, chr '-', b]

/-- A range has the characters between its ends in the order of `char`, which is signed on some
machines. -/
def Item.has (charSigned : Bool) (c : UInt8) : Item → Bool
  | .single a => a = c
  | .range a b => decide (charInt charSigned a ≤ charInt charSigned c ∧
      charInt charSigned c ≤ charInt charSigned b)

def itemsText (items : List Item) : List UInt8 := items.flatMap Item.text

/-- `[items]` or `[!items]`. -/
def expression (negated : Bool) (items : List Item) : List UInt8 :=
  chr '[' :: (if negated then [chr '!'] else []) ++ itemsText items ++ [chr ']']

/-- The text of the items reads as these items: a `]` can only come first, a `!` not first unless
the expression is negated, and behind a single character a `-` can only come last. -/
structure WellFormed (negated : Bool) (items : List Item) : Prop where
  nonempty : items ≠ []
  nul : 0 ∉ itemsText items
  bracket : chr ']' ∉ (itemsText items).tail
  bang : negated = false → (itemsText items).head? ≠ some (chr '!')
  dash : ∀ pre a post, items = pre ++ .single a :: post →
    (itemsText post).head? = some (chr '-') → post = [.single (chr '-')]

def InSet (charSigned negated : Bool) (items : List Item) (c : UInt8) : Prop :=
  if negated then ∀ i ∈ items, i.has charSigned c = false
  else ∃ i ∈ items, i.has charSigned c = true

/-- The items end in a single character and a `-`, which the loop takes for a range that ends with
the closing bracket. -/
def EndsOpen (items front : List Item) : Prop :=
  ∃ a, items = front ++ [.single a, .single (chr '-')]

/-! ### The loop -/

section
variable {charSigned not : Bool} {a b c : UInt8} {p q : List UInt8}

lemma closing_append {t : List UInt8} (h0 : 0 ∉ t) (hb : chr ']' ∉ t) :
    closing (t ++ q) = closing q := by
  induction t with
  | nil => rfl
  | cons a t ih =>
    rw [mem_cons, not_or] at h0 hb
    rw [cons_append, closing, if_neg (Ne.symm h0.1), if_neg (Ne.symm hb.1)]
    exact ih h0.2 hb.2

lemma closing_bracket : closing (chr ']' :: q) = some (some q) := by
  rw [closing, if_neg (by simp [chr]), if_pos rfl]

lemma bracket_bracket : bracket charSigned not c (chr ']' :: q) = some none := by
  rw [bracket.eq_def]
  simp

lemma bracket_nul : bracket charSigned not c (0 :: q) = some none := by
  rw [bracket.eq_def]
  simp

lemma bracket_single (ha : a ≠ 0) (hb : a ≠ chr ']') (h : b ≠ chr '-') :
    bracket charSigned not c (a :: b :: p) =
      if (Item.single a).has charSigned c ^^ not then closing (b :: p)
      else bracket charSigned not c (b :: p) := by
  rw [bracket.eq_def]
  simp [ha, hb, h, Item.has]

lemma bracket_range (ha : a ≠ 0) (hb : a ≠ chr ']') :
    bracket charSigned not c (a :: chr '-' :: b :: p) =
      if (Item.range a b).has charSigned c ^^ not then closing p
      else bracket charSigned not c p := by
  rw [bracket.eq_def]
  simp [ha, hb, Item.has]

lemma itemsText_cons (i : Item) (items : List Item) :
    itemsText (i :: items) = i.text ++ itemsText items := rfl

def Separated (items : List Item) (tail : List UInt8) : Prop :=
  ∀ pre a post, items = pre ++ .single a :: post → (itemsText post ++ tail).head? ≠ some (chr '-')

variable {items : List Item} {tail : List UInt8}

lemma Separated.of_cons {i : Item} (h : Separated (i :: items) tail) : Separated items tail :=
  fun pre a post hpost => h (i :: pre) a post (by rw [hpost, cons_append])

def Stops (charSigned negated : Bool) (items : List Item) (c : UInt8) : Prop :=
  ∃ i ∈ items, (i.has charSigned c ^^ negated) = true

/-- **The loop over items**: it goes on behind the bracket at the first one it is to stop at, and
else looks at what follows. -/
theorem bracket_items (charSigned not : Bool) (c : UInt8) (h0 : 0 ∉ itemsText items)
    (hb : chr ']' ∉ itemsText items) (hsep : Separated items tail) (ht : tail ≠ []) :
    (Stops charSigned not items c →
      bracket charSigned not c (itemsText items ++ tail) = closing tail) ∧
    (¬Stops charSigned not items c →
      bracket charSigned not c (itemsText items ++ tail) = bracket charSigned not c tail) := by
  induction items with
  | nil => simp [itemsText, Stops]
  | cons i items ih =>
    rw [itemsText_cons, mem_append, not_or] at h0 hb
    have ih := ih h0.2 hb.2 hsep.of_cons
    have hclose : closing (itemsText items ++ tail) = closing tail := closing_append h0.2 hb.2
    have hstep : bracket charSigned not c (itemsText (i :: items) ++ tail) =
        if i.has charSigned c ^^ not then closing (itemsText items ++ tail)
        else bracket charSigned not c (itemsText items ++ tail) := by
      rw [itemsText_cons, append_assoc]
      cases i with
      | single a =>
        have hnext := hsep [] a items rfl
        obtain ⟨b, p, hbp⟩ := exists_cons_of_ne_nil
          (append_ne_nil_of_right_ne_nil (itemsText items) ht)
        rw [hbp] at hnext ⊢
        exact bracket_single (by simpa [Item.text, eq_comm] using h0.1)
          (by simpa [Item.text, eq_comm] using hb.1) (by simpa using hnext)
      | range a b =>
        have ha0 : a ≠ 0 := fun h => h0.1 (by simp [Item.text, h])
        have hab : a ≠ chr ']' := fun h => hb.1 (by simp [Item.text, h])
        exact bracket_range ha0 hab
    rw [hstep, hclose, Stops, exists_mem_cons_iff]
    by_cases hi : (i.has charSigned c ^^ not) = true
    · simp [hi]
    · rw [if_neg hi, or_iff_right hi]
      exact ih

end

/-! ### A call at an expression -/

section
variable {charSigned negated : Bool} {items : List Item} {c : UInt8} {p s : List UInt8}

lemma WellFormed.itemsText_ne_nil (hw : WellFormed negated items) : itemsText items ≠ [] := by
  obtain ⟨i, items', rfl⟩ := exists_cons_of_ne_nil hw.nonempty
  cases i <;> simp [itemsText, Item.text]

variable {next : List UInt8 → Option ℤ}

lemma caseBracket_bang : caseBracket charSigned next c (chr '!' :: p) =
      (bracket charSigned true c p).bind fun r => r.elim (some 1) next := by
  rw [caseBracket]
  simp only [head?_cons, Option.bind_eq_bind, Option.bind_some, decide_true, if_pos, tail_cons]
  congr
  funext r
  cases r <;> rfl

lemma caseBracket_plain {b : UInt8} (hb : b ≠ chr '!') : caseBracket charSigned next c (b :: p) =
      (bracket charSigned false c (b :: p)).bind fun r => r.elim (some 1) next := by
  rw [caseBracket]
  simp only [head?_cons, Option.bind_eq_bind, Option.bind_some, hb, decide_false, if_false]
  congr
  funext r
  cases r <;> rfl

lemma flags_zero : Flags.of 0 = ⟨false, false, false⟩ := by decide

lemma WellFormed.bracket_notMem (hw : WellFormed negated items)
    (hfirst : (itemsText items).head? ≠ some (chr ']')) : chr ']' ∉ itemsText items := by
  obtain ⟨b, q, hbq⟩ := exists_cons_of_ne_nil hw.itemsText_ne_nil
  have htail := hw.bracket
  rw [hbq] at hfirst htail ⊢
  rw [mem_cons, not_or]
  exact ⟨fun h => hfirst (by rw [h, head?_cons]), htail⟩

section
variable (hw : WellFormed negated items) (hc : c ≠ 0)
include hw hc

lemma fnmatch_expression :
    fnmatch charSigned (expression negated items ++ p) (c :: s) 0 =
      (bracket charSigned negated c (itemsText items ++ chr ']' :: p)).bind fun r =>
        r.elim (some 1) fun q => fnmatch charSigned q s 0 := by
  have hf : ¬Flagged (Flags.of 0) c := by rw [flags_zero]; simp [Flagged]
  have he : ¬Escape (Flags.of 0) (chr '[') := by simp [Escape, chr]
  have htext : expression negated items ++ p =
      chr '[' :: ((if negated then [chr '!'] else []) ++ (itemsText items ++ chr ']' :: p)) := by
    simp [expression]
  rw [htext, fnmatch, fnmatchAt, attempt_ordinary hf he, if_neg hc, if_pos rfl]
  cases negated with
  | true => exact caseBracket_bang
  | false =>
    obtain ⟨b, q, hbq⟩ := exists_cons_of_ne_nil hw.itemsText_ne_nil
    have hb : b ≠ chr '!' := by simpa [hbq] using hw.bang rfl
    rw [hbq]
    exact caseBracket_plain hb

lemma fnmatch_first (hfirst : (itemsText items).head? = some (chr ']')) :
    fnmatch charSigned (expression negated items ++ p) (c :: s) 0 = some 1 := by
  obtain ⟨t, ht⟩ := head?_eq_some_iff.1 hfirst
  rw [fnmatch_expression hw hc, ht, cons_append, bracket_bracket]
  rfl

variable (hfirst : (itemsText items).head? ≠ some (chr ']'))
include hfirst

lemma fnmatch_closed (hclosed : ∀ front, ¬EndsOpen items front) :
    (Stops charSigned negated items c →
      fnmatch charSigned (expression negated items ++ p) (c :: s) 0 = fnmatch charSigned p s 0) ∧
    (¬Stops charSigned negated items c →
      fnmatch charSigned (expression negated items ++ p) (c :: s) 0 = some 1) := by
  have hsep : Separated items (chr ']' :: p) := by
    intro pre a post hitems hhead
    cases post with
    | nil => simp [itemsText, chr] at hhead
    | cons i post =>
      have htext : (itemsText (i :: post)).head? = some (chr '-') := by
        cases i <;> simpa [itemsText, Item.text] using hhead
      exact hclosed pre ⟨a, by rw [hitems, hw.dash pre a _ hitems htext]⟩
  have hloop := bracket_items charSigned negated c hw.nul (hw.bracket_notMem hfirst) hsep (by simp)
  rw [fnmatch_expression hw hc]
  refine ⟨fun hs => ?_, fun hs => ?_⟩
  · rw [hloop.1 hs, closing_bracket]
    rfl
  · rw [hloop.2 hs, bracket_bracket]
    rfl

lemma fnmatch_open {front : List Item} {a : UInt8}
    (hopen : items = front ++ [.single a, .single (chr '-')]) :
    (Stops charSigned negated front c →
      fnmatch charSigned (expression negated items ++ p) (c :: s) 0 = fnmatch charSigned p s 0) ∧
    (¬Stops charSigned negated front c →
      fnmatch charSigned (expression negated items ++ p) (c :: s) 0 =
        (if (Item.range a (chr ']')).has charSigned c ^^ negated then closing p
          else bracket charSigned negated c p).bind fun r =>
            r.elim (some 1) fun q => fnmatch charSigned q s 0) := by
  have htext : itemsText items = itemsText front ++ [a, chr '-'] := by
    simp [hopen, itemsText, Item.text]
  have hsep : Separated front (a :: chr '-' :: chr ']' :: p) := by
    intro pre b post hfront hhead
    have hitems : items = pre ++ .single b :: (post ++ [.single a, .single (chr '-')]) := by
      simp [hopen, hfront]
    have hrest : (itemsText (post ++ [.single a, .single (chr '-')])).head? = some (chr '-') := by
      cases post with
      | nil => simpa [itemsText, Item.text] using hhead
      | cons i post => cases i <;> simpa [itemsText, Item.text] using hhead
    have hlength := congrArg List.length (hw.dash pre b _ hitems hrest)
    simp at hlength
  have h0 := hw.nul
  have hb := hw.bracket_notMem hfirst
  rw [htext, mem_append, not_or] at h0 hb
  have ha0 : a ≠ 0 := fun h => h0.2 (by simp [h])
  have hab : a ≠ chr ']' := fun h => hb.2 (by simp [h])
  have hloop := bracket_items charSigned negated c h0.1 hb.1 hsep (by simp)
  have hclose : closing (a :: chr '-' :: chr ']' :: p) = some (some p) := by
    have h := closing_append (t := [a, chr '-']) (q := chr ']' :: p) h0.2 hb.2
    exact h.trans closing_bracket
  rw [fnmatch_expression hw hc, htext, append_assoc, cons_append, cons_append, nil_append]
  refine ⟨fun hs => ?_, fun hs => ?_⟩
  · rw [hloop.1 hs, hclose]
    rfl
  · rw [hloop.2 hs, bracket_range ha0 hab]

end

end

/-! ### When the expression stands for its set -/

/-- The call answers for the character as the set does, whatever follows. -/
def Agrees (charSigned negated : Bool) (items : List Item) (c : UInt8) : Prop :=
  ∀ p s, 0 ∉ p → 0 ∉ s →
    (fnmatch charSigned (expression negated items ++ (p ++ [0])) (c :: (s ++ [0])) 0 = some 0 ↔
      InSet charSigned negated items c ∧ fnmatch charSigned (p ++ [0]) (s ++ [0]) 0 = some 0)

lemma fnmatch_empty (charSigned : Bool) : fnmatch charSigned [0] [0] 0 = some 0 := by
  cases charSigned <;> rfl

section
variable {charSigned negated : Bool} {items : List Item} {c : UInt8}

lemma agrees_iff_of_fails
    (h : ∀ p s, fnmatch charSigned (expression negated items ++ p) (c :: s) 0 = some 1) :
    Agrees charSigned negated items c ↔ ¬InSet charSigned negated items c := by
  constructor
  · intro hagree hin
    have h0 := (hagree [] [] (by simp) (by simp)).2 ⟨hin, fnmatch_empty charSigned⟩
    rw [h] at h0
    simp at h0
  · intro hin p s _ _
    rw [h]
    simp [hin]

lemma agrees_iff_of_proceeds
    (h : ∀ p s, fnmatch charSigned (expression negated items ++ p) (c :: s) 0 =
      fnmatch charSigned p s 0) :
    Agrees charSigned negated items c ↔ InSet charSigned negated items c := by
  constructor
  · intro hagree
    have h0 := hagree [] [] (by simp) (by simp)
    rw [h] at h0
    exact (h0.1 (fnmatch_empty charSigned)).1
  · intro hin p s _ _
    rw [h]
    simp [hin]

lemma exists_closing_text (charSigned negated : Bool) (hc : c ≠ 0) :
    ∃ p, 0 ∉ p ∧ bracket charSigned negated c (p ++ [0]) = some (some [0]) := by
  have hsingle : ∀ d, d ≠ 0 → d ≠ chr ']' → ((Item.single d).has charSigned c ^^ negated) = true →
      bracket charSigned negated c ([d, chr ']'] ++ [0]) = some (some [0]) := by
    intro d hd0 hd h
    have hstep : bracket charSigned negated c ([d, chr ']'] ++ [0]) = _ :=
      bracket_single hd0 hd (by simp [chr])
    exact hstep.trans ((if_pos h).trans closing_bracket)
  cases negated with
  | false =>
    by_cases hcb : c = chr ']'
    · -- A closing bracket is only found in a range.
      have hhas : ((Item.range (chr '\\') (chr '^')).has charSigned c ^^ false) = true := by
        rw [hcb]
        cases charSigned <;> decide
      have hstep : bracket charSigned false c
          ([chr '\\', chr '-', chr '^', chr ']'] ++ [0]) = _ :=
        bracket_range (by simp [chr]) (by simp [chr])
      exact ⟨_, by decide, hstep.trans ((if_pos hhas).trans closing_bracket)⟩
    · exact ⟨[c, chr ']'], by simp [Ne.symm hc, chr], hsingle c hc hcb (by simp [Item.has])⟩
  | true =>
    by_cases hca : c = chr 'a'
    · exact ⟨_, by decide, hsingle (chr 'b') (by simp [chr]) (by simp [chr]) (by rw [hca]; rfl)⟩
    · exact ⟨_, by decide, hsingle (chr 'a') (by simp [chr]) (by simp [chr])
        (by simp [Item.has, Ne.symm hca])⟩

section
variable {front : List Item} (hw : WellFormed negated items) (hc : c ≠ 0)
  (hfirst : (itemsText items).head? ≠ some (chr ']'))
include hw hc hfirst

lemma not_agrees_open {a : UInt8} (hopen : items = front ++ [.single a, .single (chr '-')])
    (hs : ¬Stops charSigned negated front c) : ¬Agrees charSigned negated items c := by
  intro hagree
  have hcall : ∀ p s, fnmatch charSigned (expression negated items ++ p) (c :: s) 0 = _ :=
    fun p s => (fnmatch_open hw hc hfirst hopen).2 hs
  by_cases hin : InSet charSigned negated items c
  · -- Nothing follows: there is no closing bracket any more.
    have h0 := (hagree [] [] (by simp) (by simp)).2 ⟨hin, fnmatch_empty charSigned⟩
    rw [hcall] at h0
    split at h0
    · simp [closing] at h0
    · rw [nil_append, bracket_nul] at h0
      simp at h0
  · -- A text follows that closes the bracket once more.
    have hout : ∀ p, 0 ∉ p → fnmatch charSigned (expression negated items ++ (p ++ [0]))
        (c :: ([] ++ [0])) 0 ≠ some 0 := by
      intro p hp h0
      exact hin ((hagree p [] hp (by simp)).1 h0).1
    by_cases hhit : ((Item.range a (chr ']')).has charSigned c ^^ negated) = true
    · apply hout [chr ']'] (by simp [chr])
      rw [hcall, if_pos hhit, cons_append, closing_bracket]
      exact fnmatch_empty charSigned
    · obtain ⟨p, hp, htext⟩ := exists_closing_text charSigned negated hc
      apply hout p hp
      rw [hcall, if_neg hhit, htext]
      exact fnmatch_empty charSigned

lemma agrees_closed_iff (hclosed : ∀ front, ¬EndsOpen items front) :
    Agrees charSigned negated items c ↔
      (Stops charSigned negated items c ↔ InSet charSigned negated items c) := by
  by_cases hs : Stops charSigned negated items c
  · rw [agrees_iff_of_proceeds fun p s => (fnmatch_closed hw hc hfirst hclosed).1 hs]
    simp [hs]
  · rw [agrees_iff_of_fails fun p s => (fnmatch_closed hw hc hfirst hclosed).2 hs]
    simp [hs]

lemma agrees_open_iff (hopen : EndsOpen items front) :
    Agrees charSigned negated items c ↔
      Stops charSigned negated front c ∧ InSet charSigned negated items c := by
  obtain ⟨a, hitems⟩ := hopen
  by_cases hs : Stops charSigned negated front c
  · rw [agrees_iff_of_proceeds fun p s => (fnmatch_open hw hc hfirst hitems).1 hs]
    simp [hs]
  · simpa [hs] using not_agrees_open hw hc hfirst hitems hs

end

lemma stops_plain : Stops charSigned false items c ↔ InSet charSigned false items c := by
  simp [Stops, InSet]

lemma inSet_plain : InSet charSigned false items c ↔ ∃ i ∈ items, i.has charSigned c = true := by
  simp [InSet]

lemma stops_negated : Stops charSigned true items c ↔ ∃ i ∈ items, i.has charSigned c = false := by
  simp [Stops]

lemma inSet_negated : InSet charSigned true items c ↔ ∀ i ∈ items, i.has charSigned c = false := by
  simp [InSet]

lemma stops_iff_inSet_negated (hne : items ≠ []) :
    (Stops charSigned true items c ↔ InSet charSigned true items c) ↔
      InSet charSigned true items c ∨ ∀ i ∈ items, i.has charSigned c = true := by
  obtain ⟨i, hi⟩ := exists_mem_of_ne_nil items hne
  rw [stops_negated, inSet_negated]
  constructor
  · intro h
    by_cases hsome : ∃ i ∈ items, i.has charSigned c = false
    · exact .inl (h.1 hsome)
    · exact .inr (by simpa using hsome)
  · rintro (hnone | hall)
    · exact iff_of_true ⟨i, hi, hnone i hi⟩ hnone
    · refine iff_of_false ?_ fun hnone => ?_
      · rintro ⟨j, hj, hno⟩
        rw [hall j hj] at hno
        cases hno
      · have hno := hnone i hi
        rw [hall i hi] at hno
        cases hno

end

section
variable {items front front' : List Item}

lemma EndsOpen.unique (h : EndsOpen items front) (h' : EndsOpen items front') : front = front' := by
  obtain ⟨a, rfl⟩ := h
  obtain ⟨b, h'⟩ := h'
  exact append_inj_left' h' rfl

lemma EndsOpen.forall_iff (h : EndsOpen items front) (P : List Item → Prop) :
    (∀ front', EndsOpen items front' → P front') ↔ P front :=
  ⟨fun hall => hall front h, fun hP _ h' => h.unique h' ▸ hP⟩

lemma EndsOpen.mem (h : EndsOpen items front) {i : Item} (hi : i ∈ front) : i ∈ items := by
  obtain ⟨a, rfl⟩ := h
  exact mem_append_left _ hi

end

def Decided (charSigned negated : Bool) (items : List Item) (c : UInt8) : Prop :=
  if (itemsText items).head? = some (chr ']') then ¬InSet charSigned negated items c
  else if negated then
    (InSet charSigned negated items c ∧ ∀ front, EndsOpen items front → front ≠ []) ∨
      ((∀ front, ¬EndsOpen items front) ∧ ∀ i ∈ items, i.has charSigned c = true)
  else ∀ front, EndsOpen items front → ∃ i ∈ front, i.has charSigned c = true

/-- **Bracket expressions**: which of them stand for their set. -/
theorem bracket_iff (charSigned negated : Bool) {items : List Item} (hw : WellFormed negated items)
    {c : UInt8} (hc : c ≠ 0) : (∀ p s, 0 ∉ p → 0 ∉ s →
      (fnmatch charSigned (expression negated items ++ (p ++ [0])) (c :: (s ++ [0])) 0 = some 0 ↔
        InSet charSigned negated items c ∧
          fnmatch charSigned (p ++ [0]) (s ++ [0]) 0 = some 0)) ↔
      Decided charSigned negated items c := by
  show Agrees charSigned negated items c ↔ _
  rw [Decided]
  by_cases hfirst : (itemsText items).head? = some (chr ']')
  · rw [if_pos hfirst, agrees_iff_of_fails fun p s => fnmatch_first hw hc hfirst]
  rw [if_neg hfirst]
  by_cases hopen : ∃ front, EndsOpen items front
  · obtain ⟨front, hfront⟩ := hopen
    have hall := hfront.forall_iff
    rw [agrees_open_iff hw hc hfirst hfront]
    cases negated with
    | false =>
      simp only [Bool.false_eq_true, if_false, hall, stops_plain, inSet_plain]
      refine and_iff_left_of_imp ?_
      rintro ⟨i, hi, hhas⟩
      exact ⟨i, hfront.mem hi, hhas⟩
    | true =>
      simp only [if_true, hall, stops_negated, inSet_negated, false_and, or_false]
      rw [and_comm]
      refine and_congr_right fun hnone => ⟨?_, fun hne => ?_⟩
      · rintro ⟨i, hi, -⟩
        exact ne_nil_of_mem hi
      · obtain ⟨i, hi⟩ := exists_mem_of_ne_nil front hne
        exact ⟨i, hi, hnone i (hfront.mem hi)⟩
  · have hclosed : ∀ front, ¬EndsOpen items front := not_exists.1 hopen
    rw [agrees_closed_iff hw hc hfirst hclosed]
    cases negated with
    | false => simp [stops_plain, hclosed]
    | true =>
      rw [stops_iff_inSet_negated hw.nonempty]
      simp [hclosed]

lemma dash_of_head_ne {items : List Item} (h : ∀ i ∈ items, i.text.head? ≠ some (chr '-')) :
    ∀ pre a post, items = pre ++ .single a :: post →
      (itemsText post).head? = some (chr '-') → post = [.single (chr '-')] := by
  rintro pre a post rfl hhead
  cases post with
  | nil => simp [itemsText] at hhead
  | cons i post =>
    have hi := h i (by simp)
    cases i <;> exact absurd hhead (by simpa [itemsText, Item.text] using hi)

/-- `[!ab]` and the character `b`. -/
theorem negated_set_accepts_member : let items := [.single (chr 'a'), .single (chr 'b')]
    WellFormed true items ∧ expression true items = "[!ab]".toList.map chr ∧
      ¬InSet true true items (chr 'b') ∧
      fnmatch true (expression true items ++ ([] ++ [0])) (chr 'b' :: ([] ++ [0])) 0 = some 0 := by
  refine ⟨⟨by simp, by decide, by decide, by simp, dash_of_head_ne (by decide)⟩, by decide, ?_,
    by decide⟩
  simp [InSet, Item.has, chr]

/-- `[a-cx]` and the character `b`. -/
theorem bracket_iff_range : let items := [.range (chr 'a') (chr 'c'), .single (chr 'x')]
    (∀ p s, 0 ∉ p → 0 ∉ s →
      (fnmatch true (expression false items ++ (p ++ [0])) (chr 'b' :: (s ++ [0])) 0 = some 0 ↔
        InSet true false items (chr 'b') ∧ fnmatch true (p ++ [0]) (s ++ [0]) 0 = some 0)) ↔
      Decided true false items (chr 'b') :=
  bracket_iff true false
    ⟨by simp, by decide, by decide, fun _ => by decide, dash_of_head_ne (by decide)⟩ (by decide)

end Klibc.Wildcard.Brackets
