import Klibc.Stdio.ScanSet

/-! # Assignment suppression

A conversion with a `*` compared with the same one without it. The rest of a format only adds to
what was stored and counted before (`Adds`, `adds_loop`), so two scanners that differ in that go on
alike. `%*d` and its kin and `%*s` only leave out the assignment. `%*c` does not move on in the
buffer, and `%*[` gives up behind the characters it has read (`suppressed_iff`). -/

namespace Klibc.Stdio.Suppression

open Lib.Machine Vsscanf ScanLoop ScanSet List
open Vsnprintf (chr isDigit)

/-! ### What is stored and counted -/

section
variable {bits : ℕ} {buffer : List UInt8}

/-- Since they had the variables `t` and `t'`, two scanners have read, stored and counted the
same. -/
structure Alike (t t' s s' : Scan bits) : Prop where
  state : s'.state = s.state
  q : s'.q = s.q
  ap : s'.ap = s.ap
  bail : s'.bail = s.bail
  stores : ∃ σ, s.stores = t.stores ++ σ ∧ s'.stores = t'.stores ++ σ
  converted : ∃ k, s.converted = counted^[k] t.converted ∧ s'.converted = counted^[k] t'.converted

variable (buffer) in
/-- `splat` is set again before it is used. -/
lemma loop_splat (b : Bool) : ∀ (format : List UInt8) {s : Scan bits}, s.state = .normal →
    loop buffer format { s with splat := b } = loop buffer format s ∨
      loop buffer format { s with splat := b } =
        (loop buffer format s).map fun u => { u with splat := b }
  | [], s, _ => .inr rfl
  | ch :: format, s, hs => by
    by_cases hend : ch = 0 ∨ s.bail ≠ .none
    · rw [loop, loop, if_pos hend, if_pos hend]
      exact .inr rfl
    rw [loop, loop, if_neg hend, if_neg hend]
    simp only [step, hs, stepNormal]
    split_ifs with hpercent hspace
    · exact .inl rfl
    · cases skipspace s.q with
      | none => exact .inl rfl
      | some q => exact loop_splat b format (s := { s with state := .normal, q := q }) rfl
    · cases s.q.head? with
      | none => exact .inl rfl
      | some c =>
        simp only [Option.bind_eq_bind, Option.bind_some]
        split_ifs
        · exact loop_splat b format (s := { s with state := .normal, q := s.q.tail }) rfl
        · exact loop_splat b format (s := { s with state := .normal, bail := .err }) rfl

end

/-! ### With and without a `*` -/

/-- The text of a scan set as the code reads it: carets, a first character, the others, and `]`. -/
structure SetText where
  carets : ℕ
  first : UInt8
  set : List UInt8
  first_ne : first ≠ chr '^' ∧ first ≠ 0
  closed : chr ']' ∉ set
  nonul : 0 ∉ set

/-- The text behind the `[`. -/
def SetText.text (T : SetText) : List UInt8 :=
  List.replicate T.carets (chr '^') ++ T.first :: (T.set ++ [chr ']'])

def SetText.taken (T : SetText) (c : UInt8) : Bool :=
  built T.set (Function.update (fun _ => false) T.first true) c ^^ decide (T.carets ≠ 0)

def isInt (letter : UInt8) : Bool :=
  letter = chr 'd' || letter = chr 'i' || letter = chr 'o' || letter = chr 'u' ||
    letter = chr 'x' || letter = chr 'X' || letter = chr 'p' || letter = chr 'P'

inductive Kind
  | int (letter : UInt8) (h : isInt letter = true)
  | char
  | str
  | set (T : SetText)

def Kind.letter : Kind → UInt8
  | .int letter _ => letter
  | .char => chr 'c'
  | .str => chr 's'
  | .set _ => chr '['

def Kind.tail : Kind → List UInt8
  | .set T => T.text
  | _ => []

section
variable {bits : ℕ} {buffer : List UInt8} {s t t' : Scan bits}

/-- The variables `t'` behind a suppressed conversion, compared with `t` behind the same one without
a `*`: the same was read, the scan ends or goes on in either case, nothing was stored and counted,
no argument was used, and the rest of the format is processed alike with the arguments for it. -/
structure Suppressed (buffer rest : List UInt8) (s t t' : Scan bits) : Prop where
  q : t'.q = t.q
  bail : t'.bail = t.bail
  stores : t'.stores = s.stores
  converted : t'.converted = s.converted
  ap : t'.ap = s.ap
  rest : Option.Rel (Alike t t') (loop buffer rest t) (loop buffer rest { t' with ap := t.ap })

def Kind.Harmless (D : Directive) (I : List UInt8) : Kind → Prop
  | .int _ _ => True
  | .str => True
  | .char => D.charWidth = 0 ∨ I = []
  | .set T => D.width = 0 ∨ I.takeWhile T.taken = [] ∨ I.takeWhile T.taken = I

lemma rest_normal (rest : List UInt8) (hq : 0 ∈ t.q) (hstate : t.state = .normal)
    (h : put { t with splat := t'.splat, q := t'.q, bail := t'.bail } t'.stores t'.converted =
      { t' with ap := t.ap }) (heq : t'.q = t.q) (hbail : t'.bail = t.bail) :
    Option.Rel (Alike t t') (loop buffer rest t) (loop buffer rest { t' with ap := t.ap }) := by
  have hsplat := loop_splat buffer t'.splat rest hstate
  rw [← h, heq, hbail]
  obtain hnone | ⟨v, σ, k, -, hsome⟩ := adds_loop buffer rest
    (s := { t with splat := t'.splat }) hq
  · have ht : loop buffer rest { t with splat := t'.splat } = none := hnone t.stores t.converted
    rw [ht, eq_comm, eq_comm (a := none), Option.map_eq_none_iff, or_self] at hsplat
    rw [hnone, hsplat]
    exact .none
  · have ht : loop buffer rest { t with splat := t'.splat } =
      some (put v (t.stores ++ σ) (counted^[k] t.converted)) := hsome t.stores t.converted
    rw [hsome]
    rw [ht] at hsplat
    rcases hsplat with hsplat | hsplat
    · rw [← hsplat]
      exact .some ⟨rfl, rfl, rfl, rfl, ⟨σ, rfl, rfl⟩, k, rfl, rfl⟩
    · obtain ⟨u, hu, hv⟩ := Option.map_eq_some_iff.1 hsplat.symm
      have hget {α : Type} (f : Scan bits → α) := congrArg f hv.symm
      rw [hu]
      exact .some ⟨hget Scan.state, hget Scan.q, hget Scan.ap, hget Scan.bail,
        ⟨σ, (hget Scan.stores).symm, rfl⟩, k, (hget Scan.converted).symm, rfl⟩

lemma rest_bail (rest : List UInt8) (hgo : t.bail ≠ .none) (hstate : t'.state = t.state)
    (heq : t'.q = t.q) (hbail : t'.bail = t.bail) :
    Option.Rel (Alike t t') (loop buffer rest t) (loop buffer rest { t' with ap := t.ap }) := by
  have hgo' : ({ t' with ap := t.ap } : Scan bits).bail ≠ .none := by
    rw [show ({ t' with ap := t.ap } : Scan bits).bail = t.bail from hbail]
    exact hgo
  rw [loop_bail hgo, loop_bail hgo']
  exact .some ⟨hstate, heq, rfl, hbail, ⟨[], (append_nil _).symm, (append_nil _).symm⟩, 0, rfl, rfl⟩

variable (bits) in
lemma convert_int {letter : UInt8} (h : isInt letter = true) :
    ∃ (base : ℕ) (conv : ℤ → BitVec 64 → Stored bits), ∀ (buffer : List UInt8) (s : Scan bits),
      convert buffer letter s = scanInt base (conv s.rank) { s with state := .normal } := by
  let int (r : ℤ) (val : BitVec 64) : Stored bits := .int (Val.ofRank val (Vsnprintf.rankOf r))
  let pointer (_ : ℤ) (val : BitVec 64) : Stored bits := .pointer (val.setWidth bits)
  simp only [isInt, Bool.or_eq_true, decide_eq_true_eq] at h
  rcases h with ((((((rfl | rfl) | rfl) | rfl) | rfl) | rfl) | rfl) | rfl
  · exact ⟨10, int, fun _ _ => rfl⟩
  · exact ⟨0, int, fun _ _ => rfl⟩
  · exact ⟨8, int, fun _ _ => rfl⟩
  · exact ⟨10, int, fun _ _ => rfl⟩
  · exact ⟨16, int, fun _ _ => rfl⟩
  · exact ⟨16, int, fun _ _ => rfl⟩
  · exact ⟨0, pointer, fun _ _ => rfl⟩
  · exact ⟨0, pointer, fun _ _ => rfl⟩

variable {I r : List UInt8} {p : ℕ} {ap : List ℕ}

lemma suppressed_int {letter : UInt8} (h : isInt letter = true) (hq : 0 ∈ s.q)
    (hap : s.ap = p :: ap) (D : Directive) (buffer rest : List UInt8) :
    ∃ t t', convert buffer letter (D.apply false s) = some t ∧
      convert buffer letter (D.apply true s) = some t' ∧ Suppressed buffer rest s t t' := by
  obtain ⟨base, conv, hconvert⟩ := convert_int bits h
  have hready : ∀ splat, convert buffer letter (D.apply splat s) =
      scanInt base (conv (D.modifiers.foldl rankStep 0)) (D.ready splat s) := fun splat =>
    hconvert buffer (D.apply splat s)
  rw [hready, hready]
  obtain ⟨q', hreads, ⟨b, hb, hfail⟩ | ⟨val, hval⟩⟩ := scanInt_outcome bits base D.width hq
  · refine ⟨_, _, hfail _ _ rfl rfl, hfail _ _ rfl rfl, rfl, rfl, rfl, rfl, rfl, ?_⟩
    exact rest_bail rest hb rfl rfl rfl
  · have hsplat : ¬ (D.ready false s).splat = true := Bool.false_ne_true
    rw [hval _ (D.ready false s) rfl rfl, hval _ (D.ready true s) rfl rfl, if_pos hsplat,
      if_neg (not_not.2 (show (D.ready true s).splat = true from rfl))]
    refine ⟨_, _, setInteger_store (s := Scan.count { D.ready false s with q := q' }) rfl hap _ _,
      setInteger_splat rfl _ _, rfl, rfl, rfl, rfl, rfl, ?_⟩
    exact rest_normal rest (hreads.terminated hq) rfl rfl rfl rfl

lemma suppressed_str (hI : s.q = I ++ 0 :: r) (hnul : 0 ∉ I) (hap : s.ap = p :: ap) (D : Directive)
    (buffer rest : List UInt8) : ∃ t t', convert buffer (chr 's') (D.apply false s) = some t ∧
      convert buffer (chr 's') (D.apply true s) = some t' ∧ Suppressed buffer rest s t t' := by
  refine ⟨_, _, scanStr_store (s := D.ready false s) hI hnul rfl hap,
    scanStr_splat (s := D.ready true s) hI hnul rfl, rfl, rfl, rfl, rfl, rfl, ?_⟩
  have hq : 0 ∈ I.drop (word D.width I).length ++ 0 :: r := mem_append_right _ mem_cons_self
  exact rest_normal rest hq rfl rfl rfl rfl

lemma suppressed_char_iff (hgo : s.bail = .none) (hI : s.q = I ++ 0 :: r) (hnul : 0 ∉ I)
    (hap : s.ap = p :: ap) (D : Directive) (buffer rest : List UInt8) :
    ∃ t t', convert buffer (chr 'c') (D.apply false s) = some t ∧
      convert buffer (chr 'c') (D.apply true s) = some t' ∧
      (Suppressed buffer rest s t t' ↔ D.charWidth = 0 ∨ I = []) := by
  have hbail : ∀ splat, (D.ready splat s).bail = .none := fun _ => hgo
  refine ⟨_, _, scanChar_store (s := D.ready false s) hI hnul rfl hap,
    scanChar_splat (s := D.ready true s) hI hnul rfl, ?_⟩
  simp only [charWidth_ready, hbail]
  constructor
  · intro h
    have hq : I ++ 0 :: r = I.drop D.charWidth ++ 0 :: r := hI.symm.trans h.q
    have hlen := congrArg List.length hq
    simp only [length_append, length_drop, length_cons] at hlen
    by_cases hnil : I = []
    · exact Or.inr hnil
    · have := length_pos_of_ne_nil hnil
      omega
  · intro h
    have hq : I.drop D.charWidth = I := by
      rcases h with h | h
      · rw [h, drop_zero]
      · rw [h, drop_nil]
    have hend : I.length < D.charWidth ↔ I = [] ∧ D.charWidth ≠ 0 := by
      rcases h with h | h
      · simp [h]
      · simp [h, Nat.pos_iff_ne_zero]
    refine ⟨?_, ?_, rfl, rfl, rfl, rest_normal rest ?_ rfl rfl ?_ ?_⟩
    · rw [hq]
      exact hI
    · simp only [hend]
    · rw [hq]
      exact mem_append_right _ mem_cons_self
    · rw [hq]
      exact hI
    · simp only [hend]

lemma suppressed_matchRun_iff {u u' : Scan bits} (hI : u.q = I ++ 0 :: r) (hnul : 0 ∉ I)
    (hsarg : u.sarg = some p) (hq' : u'.q = u.q) (hsarg' : u'.sarg = none)
    (hbail : u.bail = .none) (hhit : hit u' = hit u) (hwidth : u'.width = u.width)
    (hstate : u'.state = u.state) (hstores : u'.stores = s.stores)
    (hconv : u'.converted = s.converted) (hap : u'.ap = s.ap) (buffer rest : List UInt8) :
    ∃ t t', matchRun u = some t ∧ matchRun u' = some t' ∧ (Suppressed buffer rest s t t' ↔
      u.width = 0 ∨ I.takeWhile (hit u) = [] ∨ I.takeWhile (hit u) = I) := by
  have hmatched : matched u' I = matched u I := by rw [matched, matched, hhit, hwidth]
  have hend : atEnd u' I = atEnd u I := by rw [atEnd, atEnd, hmatched, hwidth]
  have hcond : (u.width = 0 ∨ I.takeWhile (hit u) = [] ∨ I.takeWhile (hit u) = I) ↔
      matched u I = [] ∨ atEnd u I = true := by
    by_cases hw : u.width = 0
    · simp [matched, hw]
    · simp [matched, atEnd, hw]
  have hrun' := matchRun_none (hq'.trans hI) hnul hsarg'
  rw [hmatched, hend] at hrun'
  rw [hcond]
  by_cases hnil : matched u I = []
  · refine ⟨_, _, matchRun_nil hI hnul hnil, hrun', iff_of_true ?_ (Or.inl hnil)⟩
    have hq : I.drop (matched u I).length ++ 0 :: r = u.q := by
      rw [hnil, hI]
      rfl
    refine ⟨hq, rfl, hstores, hconv, hap, rest_bail rest ?_ hstate hq rfl⟩
    cases hat : atEnd u I <;> simp
  · refine ⟨_, _, matchRun_store hI hnul hsarg hnil, hrun', ?_⟩
    cases hat : atEnd u I with
    | true =>
      refine iff_of_true ⟨rfl, rfl, hstores, hconv, hap, ?_⟩ (Or.inr rfl)
      exact rest_bail rest (by simp) hstate rfl rfl
    | false =>
      refine iff_of_false (fun h => ?_) (by simp [hnil])
      have := h.bail
      simp [hbail] at this

lemma loop_setText (T : SetText) (u : Scan bits) (hstate : u.state = .matchInit)
    (hinv : u.inv = false) (hbail : u.bail = .none) (hmap : u.matchmap = fun _ => false)
    (hminv : u.matchinv = false) (buffer : List UInt8) :
    ∃ v, loop buffer T.text u = matchRun v ∧ hit v = T.taken ∧ v.state = endState T.set ∧
      v.q = u.q ∧ v.sarg = u.sarg ∧ v.bail = .none ∧ v.width = u.width ∧ v.stores = u.stores ∧
      v.converted = u.converted ∧ v.ap = u.ap := by
  have hcarets : ∀ c ∈ List.replicate T.carets (chr '^'), c = chr '^' := fun c hc =>
    eq_of_mem_replicate hc
  obtain ⟨rs, hloop⟩ : ∃ rs, loop buffer T.text u = _ :=
    loop_set hcarets T.first_ne.1 T.first_ne.2 T.closed T.nonul [] hstate hinv hbail hmap hminv
  have hend : ∀ o : Option (Scan bits), o >>= loop buffer [] = o := fun o => by cases o <;> rfl
  rw [hend] at hloop
  refine ⟨_, hloop, ?_, rfl, rfl, rfl, hbail, rfl, rfl, rfl, rfl⟩
  funext c
  simp [hit, SetText.taken]

lemma suppressed_set_iff (hgo : s.bail = .none) (hI : s.q = I ++ 0 :: r) (hnul : 0 ∉ I)
    (hap : s.ap = p :: ap) (D : Directive) (T : SetText) (buffer rest : List UInt8) :
    ∃ t t', convert buffer (chr '[') (D.apply false s) >>= loop buffer T.text = some t ∧
      convert buffer (chr '[') (D.apply true s) >>= loop buffer T.text = some t' ∧
      (Suppressed buffer rest s t t' ↔
        D.width = 0 ∨ I.takeWhile T.taken = [] ∨ I.takeWhile T.taken = I) := by
  rw [convert_set_store D hap, convert_set_splat D s]
  obtain ⟨v, hv, hhit, hstate, hq, hsarg, hbail, hwidth, -⟩ :=
    loop_setText T (D.begun false (some p) ap s) rfl rfl hgo rfl rfl buffer
  obtain ⟨v', hv', hhit', hstate', hq', hsarg', -, hwidth', hstores', hconv', hap'⟩ :=
    loop_setText T (D.begun true none s.ap s) rfl rfl hgo rfl rfl buffer
  obtain ⟨t, t', ht, ht', hiff⟩ := suppressed_matchRun_iff (s := s) (hq.trans hI) hnul hsarg
    (hq'.trans hq.symm) hsarg' hbail (hhit'.trans hhit.symm) (hwidth'.trans hwidth.symm)
    (hstate'.trans hstate.symm) hstores' hconv' hap' buffer rest
  rw [hhit, hwidth] at hiff
  exact ⟨t, t', hv.trans ht, hv'.trans ht', hiff⟩

end

/-- **Assignment suppression.**  For every input, every conversion and every rest of the format:
`%*` only leaves out the assignment of an integer, a pointer or a word. It does so for `%c` if and
only if no character is to be read or none is left, and for `%[` if and only if the width is zero,
no character matches, or all that are left do. -/
theorem suppressed_iff {bits : ℕ} {buffer format I r : List UInt8} {ap ap' : List ℕ} {s : Scan bits}
    {p : ℕ} (hs : Reached buffer format ap s) (hI : s.q = I ++ 0 :: r) (hnul : 0 ∉ I)
    (hap : s.ap = p :: ap') (k : Kind) (D : Directive) (hD : D.letter = k.letter)
    (rest : List UInt8) : ∃ t t', loop buffer (D.text false ++ k.tail) s = some t ∧
      loop buffer (D.text true ++ k.tail) s = some t' ∧
      (Suppressed buffer rest s t t' ↔ k.Harmless D I) := by
  have hq : 0 ∈ s.q := by
    rw [hI]
    exact mem_append_right _ mem_cons_self
  have hover : ∀ {o : Option (Scan bits)} {t : Scan bits}, o = some t →
      o >>= loop buffer [] = some t := fun h => by
    rw [h]
    rfl
  rw [loop_directive D false _ hs.normal hs.goesOn, loop_directive D true _ hs.normal hs.goesOn, hD]
  cases k with
  | int letter h =>
    obtain ⟨t, t', ht, ht', hsup⟩ := suppressed_int h hq hap D buffer rest
    exact ⟨t, t', hover ht, hover ht', iff_of_true hsup trivial⟩
  | char =>
    obtain ⟨t, t', ht, ht', hiff⟩ := suppressed_char_iff hs.goesOn hI hnul hap D buffer rest
    exact ⟨t, t', hover ht, hover ht', hiff⟩
  | str =>
    obtain ⟨t, t', ht, ht', hsup⟩ := suppressed_str hI hnul hap D buffer rest
    exact ⟨t, t', hover ht, hover ht', iff_of_true hsup trivial⟩
  | set T => exact suppressed_set_iff hs.goesOn hI hnul hap D T buffer rest

/-- `%c`. -/
def oneChar : Directive where
  digits := []
  modifiers := []
  letter := chr 'c'
  digits_ok := digits_nil
  modifiers_ok := modifiers_nil
  letter_ok := by decide

/-- `%d`. -/
def oneInt : Directive where
  digits := []
  modifiers := []
  letter := chr 'd'
  digits_ok := digits_nil
  modifiers_ok := modifiers_nil
  letter_ok := by decide

/-- The string `7x`. -/
def sevenX : List UInt8 := [chr '7', chr 'x', 0]

theorem suppressed_iff_int : ∃ t t',
    loop sevenX (oneInt.text false ++ []) (Scan.init 64 sevenX [1000]) = some t ∧
      loop sevenX (oneInt.text true ++ []) (Scan.init 64 sevenX [1000]) = some t' ∧
      Suppressed sevenX [] (Scan.init 64 sevenX [1000]) t t' := by
  have hreached : Reached sevenX [] [1000] (Scan.init 64 sevenX [1000]) := ⟨rfl, rfl, rfl⟩
  obtain ⟨t, t', ht, ht', hiff⟩ := suppressed_iff (I := [chr '7', chr 'x']) (r := []) hreached rfl
    (by decide) rfl (.int (chr 'd') (by decide)) oneInt rfl []
  exact ⟨t, t', ht, ht', hiff.2 trivial⟩

/-- `%c` reads the first character of `7x`, and `%*c` does not. -/
theorem suppressed_char_stays : ∃ t t',
    loop sevenX (oneChar.text false) (Scan.init 64 sevenX [1000]) = some t ∧
      loop sevenX (oneChar.text true) (Scan.init 64 sevenX [1000]) = some t' ∧
      t.q = [chr 'x', 0] ∧ t'.q = sevenX ∧
      ¬ Suppressed sevenX [] (Scan.init 64 sevenX [1000]) t t' := by
  refine ⟨_, _, rfl, rfl, rfl, rfl, fun h => ?_⟩
  exact absurd (congrArg List.length h.q) (by decide)

end Klibc.Stdio.Suppression
