import Klibc.Lib.CombSort
import Klibc.Lib.Machine
import Klibc.Lib.Slice
import Klibc.Lib.Total

/-! # `qsort`

The function is a comb sort: passes with smaller and smaller gaps, and with the gap one as long as
they exchange anything. The array is the memory at `base`, and `compar` is given the bytes of the
two elements. `qsort_sorts` says that the loop ends, with the elements in order, for every number of
elements there can be, also where the product in `newgap` wraps around. -/

namespace Klibc.Stdlib.Qsort

open Lib.CombSort Lib.Machine Lib.Slice Lib.Total List

/-! ### The code -/

/-- Calls on an array of bytes; an access out of bounds has no result. -/
abbrev Call := StateT (List UInt8) Option

/-- `*p`, for the offset `p` in the array. -/
def load (p : ℕ) : Call UInt8 := fun mem => mem[p]?.map fun c => (c, mem)

/-- `*p = c`. -/
def store (p : ℕ) (c : UInt8) : Call Unit := fun mem =>
  if p < mem.length then some ((), mem.set p c) else none

/-- The element of `size` bytes that `compar` reads at `p`. -/
def element (p size : ℕ) : Call (List UInt8) := fun mem => (slice mem p size).map fun x => (x, mem)

/-- `memswap`, as a recursion on `n`. -/
def memswap (p q : ℕ) : ℕ → Call Unit
  | 0 => return
  | n + 1 => do
    let tmp ← load p
    let c ← load q
    store p c
    store q tmp
    memswap (p + 1) (q + 1) n

section
variable (bits : ℕ) (compar : List UInt8 → List UInt8 → ℤ) (nmemb size : ℕ)

def newgap (gap : ℕ) : ℕ :=
  let gap := unsigned bits (gap * 10) / 13
  let gap := if gap = 9 ∨ gap = 10 then 11 else gap
  if gap < 1 then 1 else gap

/-- A turn of the inner loop, with `i`, `p1` and `swapped`. -/
def passTurn (gap : ℕ) : ℕ × ℕ × Bool → Call (ℕ × ℕ × Bool ⊕ Bool)
  | (i, p1, swapped) => do
    if i < unsigned bits (nmemb - gap) then
      let j := unsigned bits (i + gap)
      let p2 := unsigned bits (j * size)
      let x ← element p1 size
      let y ← element p2 size
      if compar x y > 0 then
        memswap p1 p2 size
        return .inl (i + 1, p1 + size, true)
      else return .inl (i + 1, p1 + size, swapped)
    else return .inr swapped

def turn (gap : ℕ) : Call (ℕ ⊕ Unit) := do
  let gap := newgap bits gap
  let swapped ← Loop.run ⟨passTurn bits compar nmemb size gap⟩ (0, 0, false)
  if gap > 1 ∨ swapped then return .inl gap
  else return .inr ()

/-- `qsort`, for the array at `base`. -/
def qsort : Call Unit :=
  if nmemb = 0 then return
  else Loop.run ⟨turn bits compar nmemb size⟩ nmemb

end

/-! ### `memswap` -/

section
variable {x r : List UInt8} {c d : UInt8}

lemma returns_load {Q : UInt8 → List UInt8 → Prop} :
    Returns (load x.length) (x ++ c :: r) Q ↔ Q c (x ++ c :: r) :=
  returns_iff_of_eq (by simp [load])

lemma returns_store {Q : Unit → List UInt8 → Prop} :
    Returns (store x.length d) (x ++ c :: r) Q ↔ Q () (x ++ d :: r) :=
  returns_iff_of_eq (by simp [store])

/-- **`memswap` exchanges two areas** that do not overlap. -/
theorem returns_memswap : ∀ (a b : List UInt8), a.length = b.length → ∀ (x y z : List UInt8)
    {Q : Unit → List UInt8 → Prop},
    Returns (memswap x.length (x ++ a ++ y).length a.length) (x ++ a ++ y ++ b ++ z) Q ↔
      Q () (x ++ b ++ y ++ a ++ z) := by
  intro a
  induction a with
  | nil =>
    intro b hlen x y z Q
    obtain rfl : b = [] := length_eq_zero_iff.1 hlen.symm
    exact returns_pure
  | cons c a ih =>
    intro b hlen x y z Q
    cases b with
    | nil => cases hlen
    | cons d b =>
      rw [length_cons, length_cons, Nat.add_right_cancel_iff] at hlen
      have hp : x ++ c :: a ++ y ++ d :: b ++ z = x ++ c :: (a ++ y ++ d :: b ++ z) := by simp
      have hq : x ++ c :: (a ++ y ++ d :: b ++ z) = (x ++ c :: a ++ y) ++ d :: (b ++ z) := by simp
      have hq' : x ++ d :: (a ++ y ++ d :: b ++ z) = (x ++ d :: a ++ y) ++ d :: (b ++ z) := by simp
      have hnext : (x ++ d :: a ++ y) ++ c :: (b ++ z) =
        (x ++ [d]) ++ a ++ (y ++ [c]) ++ b ++ z := by simp
      have hlast : (x ++ [d]) ++ b ++ (y ++ [c]) ++ a ++ z = x ++ d :: b ++ y ++ c :: a ++ z := by
        simp
      have hq1 : (x ++ c :: a ++ y).length = (x ++ d :: a ++ y).length := by simp
      have hp2 : x.length + 1 = (x ++ [d]).length := by simp
      have hq2 : (x ++ d :: a ++ y).length + 1 = ((x ++ [d]) ++ a ++ (y ++ [c])).length := by
        simp only [length_append, length_cons, length_nil]
        omega
      rw [length_cons, memswap, hp]
      simp only [returns_bind]
      rw [returns_load, hq, returns_load, ← hq, returns_store, hq', hq1, returns_store, hnext, hp2,
        hq2, ih b hlen, hlast]

end

/-! ### The gaps -/

lemma newgap_pos (bits gap : ℕ) : 0 < newgap bits gap := by
  simp only [newgap]
  split_ifs <;> omega

lemma unsigned_le (bits x : ℕ) : unsigned bits x ≤ x := by
  have h : unsigned bits x = x % 2 ^ bits := by
    unfold unsigned
    exact_mod_cast Int.toNat_natCast (x % 2 ^ bits)
  rw [h]
  exact Nat.mod_le x _

/-- **The gap shrinks to one**, whether the product wraps around or not. -/
theorem newgap_lt {bits gap : ℕ} (hbits : 8 ≤ bits) (h : 1 < gap) : newgap bits gap < gap := by
  have hle : unsigned bits (gap * 10 : ℕ) ≤ gap * 10 := unsigned_le bits (gap * 10)
  have hpow : 2 ^ 8 ≤ 2 ^ bits := Nat.pow_le_pow_right (by decide) hbits
  have hsmall : gap ≤ 11 → unsigned bits (gap * 10 : ℕ) = gap * 10 := fun hg =>
    unsigned_eq (by omega)
  push_cast at hle hsmall
  simp only [newgap]
  split_ifs <;> omega

lemma newgap_one {bits : ℕ} (hbits : 8 ≤ bits) : newgap bits 1 = 1 := by
  have hpow : 2 ^ 8 ≤ 2 ^ bits := Nat.pow_le_pow_right (by decide) hbits
  have hsmall : unsigned bits ((1 : ℕ) * 10) = 10 := unsigned_eq (by omega : 10 < 2 ^ bits)
  simp only [newgap, hsmall]
  decide

lemma newgap_le {bits gap : ℕ} (hbits : 8 ≤ bits) (h : 0 < gap) : newgap bits gap ≤ gap := by
  rcases Nat.lt_or_ge 1 gap with hlt | hge
  · exact (newgap_lt hbits hlt).le
  · obtain rfl : gap = 1 := by omega
    exact (newgap_one hbits).le

/-! ### A pass -/

/-- The order of `compar` on elements of `size` bytes is total and transitive. -/
structure TotalPreorder (compar : List UInt8 → List UInt8 → ℤ) (size : ℕ) : Prop where
  total : ∀ x y, x.length = size → y.length = size → compar x y ≤ 0 ∨ compar y x ≤ 0
  trans : ∀ x y z, x.length = size → y.length = size → z.length = size →
    compar x y ≤ 0 → compar y z ≤ 0 → compar x z ≤ 0

/-- `compar(x, y) > 0`. -/
def greater (compar : List UInt8 → List UInt8 → ℤ) (x y : List UInt8) : Bool := compar x y > 0

lemma length_flatten_const {n : ℕ} {u : List (List UInt8)} (h : ∀ x ∈ u, x.length = n) :
    u.flatten.length = u.length * n := by
  induction u with
  | nil => simp
  | cons x u ih =>
    rw [flatten_cons, length_append, h x mem_cons_self,
      ih fun y hy => h y (mem_cons_of_mem x hy), length_cons, Nat.succ_mul, Nat.add_comm]

lemma returns_element {x a r : List UInt8} {size : ℕ} (ha : a.length = size)
    {Q : List UInt8 → List UInt8 → Prop} :
    Returns (element x.length size) (x ++ a ++ r) Q ↔ Q a (x ++ a ++ r) := by
  have hle : x.length + size ≤ (x ++ a ++ r).length := by simp [ha]
  refine returns_iff_of_eq ?_
  rw [element, slice_eq hle]
  simp [← ha]

section
variable {bits : ℕ} {compar : List UInt8 → List UInt8 → ℤ} {nmemb size gap i : ℕ}
  {l l' : List (List UInt8)} {swapped : Bool}

section
variable (hcompar : TotalPreorder compar size) (hn : nmemb < 2 ^ bits)
  (hfit : nmemb * size < 2 ^ bits) (hl : l.length = nmemb) (hsize : ∀ x ∈ l, x.length = size)
  (hgap : 0 < gap)
include hcompar hn hfit hl hsize hgap

/-- **A turn of the inner loop** makes the next comparison. -/
theorem returns_passTurn (hi : i < nmemb - gap) (h : Pass (greater compar) gap i l l' swapped) :
    Returns (passTurn bits compar nmemb size gap (i, i * size, swapped)) l'.flatten fun r mem =>
      ∃ l'' swapped', r = .inl (i + 1, (i + 1) * size, swapped') ∧ mem = l''.flatten ∧
        Pass (greater compar) gap (i + 1) l l'' swapped' := by
  have hlen : i + gap < l'.length := by rw [h.perm.length_eq]; omega
  have hsize' : ∀ x ∈ l', x.length = size := fun x hx => hsize x (h.perm.mem_iff.1 hx)
  obtain ⟨u, a, v, b, w, rfl, rfl, rfl⟩ := exists_split hgap hlen
  have ha : a.length = size := hsize' a (by simp)
  have hb : b.length = size := hsize' b (by simp)
  have hu : u.flatten.length = u.length * size :=
    length_flatten_const fun x hx => hsize' x (by simp [hx])
  have hv : v.flatten.length = v.length * size :=
    length_flatten_const fun x hx => hsize' x (by simp [hx])
  have hflat : ∀ a b, (u ++ a :: (v ++ b :: w)).flatten =
      u.flatten ++ a ++ v.flatten ++ b ++ w.flatten := fun a b => by simp
  -- the places of the two elements
  have hj : (u.length + (v.length + 1)) * size = (u.flatten ++ a ++ v.flatten).length := by
    rw [length_append, length_append, hu, ha, hv]
    ring
  have hjle : (u.length + (v.length + 1)) * size ≤ nmemb * size :=
    Nat.mul_le_mul_right size (by omega)
  have h1 : unsigned bits ((nmemb : ℤ) - (v.length + 1 : ℕ)) = nmemb - (v.length + 1) := by
    rw [← Nat.cast_sub (by omega)]
    exact unsigned_eq (by omega)
  have h2 : unsigned bits ((u.length : ℤ) + (v.length + 1 : ℕ)) = u.length + (v.length + 1) := by
    rw [← Nat.cast_add]
    exact unsigned_eq (by omega)
  have h3 : unsigned bits (((u.length + (v.length + 1) : ℕ) : ℤ) * size) =
      (u.flatten ++ a ++ v.flatten).length := by
    rw [← Nat.cast_mul, unsigned_eq (by omega), hj]
  have hfirst : u.flatten ++ a ++ v.flatten ++ b ++ w.flatten =
      u.flatten ++ a ++ (v.flatten ++ b ++ w.flatten) := by simp
  have hnext : (u.length + 1) * size = u.flatten.length + size := by rw [hu, Nat.succ_mul]
  simp only [passTurn, h1, if_pos hi, h2, h3, returns_bind]
  rw [hflat, ← hu, hfirst, returns_element ha, ← hfirst, returns_element hb, hnext]
  by_cases hgt : compar a b > 0
  · have hasymm : ¬ compar b a > 0 := by rcases hcompar.total a b ha hb with hab | hba <;> omega
    rw [if_pos hgt, returns_bind]
    subst ha
    rw [returns_memswap a b hb.symm, returns_pure]
    exact ⟨_, true, rfl, (hflat b a).symm,
      h.exchange rfl (decide_eq_true hgt) (decide_eq_false hasymm)⟩
  · rw [if_neg hgt, returns_pure]
    exact ⟨_, swapped, rfl, (hflat a b).symm, h.keep rfl rfl (decide_eq_false hgt)⟩

/-- **A pass** makes all comparisons with its gap. -/
theorem returns_pass (hle : gap ≤ nmemb) :
    Returns (Loop.run ⟨passTurn bits compar nmemb size gap⟩ (0, 0, false)) l.flatten
      fun swapped mem => ∃ l', mem = l'.flatten ∧
        Pass (greater compar) gap (nmemb - gap) l l' swapped := by
  -- induction on the comparisons that are left
  have hrun : ∀ k i l' swapped, i + k = nmemb - gap → Pass (greater compar) gap i l l' swapped →
      Returns (Loop.run ⟨passTurn bits compar nmemb size gap⟩ (i, i * size, swapped)) l'.flatten
        fun swapped mem => ∃ l', mem = l'.flatten ∧
          Pass (greater compar) gap (nmemb - gap) l l' swapped := by
    intro k
    induction k with
    | zero =>
      intro i l' swapped hi h
      have hend : unsigned bits ((nmemb : ℤ) - gap) = nmemb - gap := by
        rw [← Nat.cast_sub hle]
        exact unsigned_eq (by omega)
      have hi' : i = nmemb - gap := hi
      rw [returns_loop, passTurn, hend, if_neg (by omega), returns_pure]
      exact ⟨l', rfl, hi' ▸ h⟩
    | succ k ih =>
      intro i l' swapped hi h
      rw [returns_loop]
      refine (returns_passTurn hcompar hn hfit hl hsize hgap (by omega) h).mono ?_
      rintro r mem ⟨l'', swapped', rfl, rfl, h''⟩
      exact ih (i + 1) l'' swapped' (by omega) h''
  have hstart := hrun (nmemb - gap) 0 l false (Nat.zero_add _) (Pass.start gap l)
  rwa [Nat.zero_mul] at hstart

end

end

/-! ### The whole sort -/

/-- The array holds a permutation of the elements `l`, and none of them compares greater than the
next one. -/
def Sorted (compar : List UInt8 → List UInt8 → ℤ) (l : List (List UInt8)) (mem : List UInt8) :
    Prop :=
  ∃ l' : List (List UInt8), mem = l'.flatten ∧ l'.Perm l ∧
    ∀ i x y, l'[i]? = some x → l'[i + 1]? = some y → compar x y ≤ 0

section
variable {bits : ℕ} {compar : List UInt8 → List UInt8 → ℤ} {nmemb size gap : ℕ}
  {l : List (List UInt8)}

section
variable (hbits : 8 ≤ bits) (hcompar : TotalPreorder compar size) (hn : nmemb < 2 ^ bits)
  (hfit : nmemb * size < 2 ^ bits)
include hbits hcompar hn hfit

/-- **A turn of the outer loop** ends it, with the elements in order, or goes on with a smaller gap
or with fewer inversions. -/
theorem returns_turn (hl : l.length = nmemb) (hsize : ∀ x ∈ l, x.length = size) (hgap : 0 < gap)
    (hle : gap ≤ nmemb) : Returns (turn bits compar nmemb size gap) l.flatten fun r mem =>
      ∃ l', mem = l'.flatten ∧ l'.Perm l ∧
        ((∃ gap', r = .inl gap' ∧ 0 < gap' ∧ gap' ≤ nmemb ∧ (gap' < gap ∨ gap' = gap ∧
          inversions (greater compar) l' < inversions (greater compar) l)) ∨
        r = .inr () ∧ Sorted compar l mem) := by
  have hpos := newgap_pos bits gap
  have hnew := newgap_le hbits hgap
  rw [turn, returns_bind]
  refine (returns_pass hcompar hn hfit hl hsize hpos (by omega)).mono ?_
  rintro swapped mem ⟨l', rfl, h⟩
  by_cases hon : newgap bits gap > 1 ∨ swapped = true
  · rw [if_pos hon, returns_pure]
    refine ⟨l', rfl, h.perm, Or.inl ⟨_, rfl, hpos, by omega, ?_⟩⟩
    rcases Nat.lt_or_ge 1 gap with hlt | hge
    · exact Or.inl (newgap_lt hbits hlt)
    · -- the gap was one before, so that something was exchanged
      obtain rfl : gap = 1 := by omega
      rw [newgap_one hbits] at h hon ⊢
      exact Or.inr ⟨rfl, h.fewer (hon.resolve_left (lt_irrefl 1)) rfl⟩
  · rw [if_neg hon, returns_pure]
    have hswapped : swapped = false := by simpa using fun hs => hon (Or.inr hs)
    have hone : newgap bits gap = 1 := by
      have := fun hlt => hon (Or.inl hlt)
      omega
    rw [hone] at h
    refine ⟨l', rfl, h.perm, Or.inr ⟨rfl, l', rfl, h.perm, fun i x y hx hy => ?_⟩⟩
    obtain rfl := h.same hswapped
    have hi : i + 1 < l'.length := (List.getElem?_eq_some_iff.1 hy).1
    exact not_lt.1 (of_decide_eq_false (h.ordered hswapped i (by omega) x y hx hy))

lemma returns_turns :
    ∀ (gap k : ℕ) {l : List (List UInt8)}, l.length = nmemb → (∀ x ∈ l, x.length = size) →
      0 < gap → gap ≤ nmemb → inversions (greater compar) l = k →
      Returns (Loop.run ⟨turn bits compar nmemb size⟩ gap) l.flatten fun _ => Sorted compar l := by
  -- induction on the gap, and for one gap on the inversions
  intro gap
  induction gap using Nat.strong_induction_on with
  | _ gap ihgap =>
    intro k
    induction k using Nat.strong_induction_on with
    | _ k ihk =>
      intro l hl hsize hgap hle hk
      rw [returns_loop]
      refine (returns_turn hbits hcompar hn hfit hl hsize hgap hle).mono ?_
      rintro r mem ⟨l', rfl, hperm, ⟨gap', rfl, hpos, hle', hless⟩ | ⟨rfl, hsorted⟩⟩
      · have hl' : l'.length = nmemb := hperm.length_eq.trans hl
        have hsize' : ∀ x ∈ l', x.length = size := fun x hx => hsize x (hperm.mem_iff.1 hx)
        have hrest : Returns (Loop.run ⟨turn bits compar nmemb size⟩ gap') l'.flatten
            fun _ => Sorted compar l' := by
          rcases hless with hlt | ⟨rfl, hfewer⟩
          · exact ihgap gap' hlt _ hl' hsize' hpos hle' rfl
          · exact ihk _ (by omega) hl' hsize' hgap hle rfl
        refine hrest.mono ?_
        rintro - mem ⟨l'', hmem, hperm', hordered⟩
        exact ⟨l'', hmem, hperm'.trans hperm, hordered⟩
      · exact hsorted

end

end

/-- **`qsort` ends and sorts.**  For every array of `nmemb` elements of `size` bytes in a memory of
`2 ^ bits` bytes and every comparison function whose order is total and transitive, the loop ends,
and the array is a permutation of what it was in which no element compares greater than the next
one. -/
theorem qsort_sorts {bits : ℕ} (hbits : 8 ≤ bits) {compar : List UInt8 → List UInt8 → ℤ}
    {nmemb size : ℕ} (hn : nmemb < 2 ^ bits) (hfit : nmemb * size < 2 ^ bits)
    (hcompar : TotalPreorder compar size) (l : List (List UInt8)) (hl : l.length = nmemb)
    (hsize : ∀ x ∈ l, x.length = size) :
    Returns (qsort bits compar nmemb size) l.flatten fun _ => Sorted compar l := by
  by_cases h0 : nmemb = 0
  · obtain rfl : l = [] := length_eq_zero_iff.1 (hl.trans h0)
    rw [qsort, if_pos h0, returns_pure]
    exact ⟨[], rfl, List.Perm.refl [], fun i x y hx => absurd hx (by simp)⟩
  · rw [qsort, if_neg h0]
    exact returns_turns hbits hcompar hn hfit nmemb _ hl hsize (by omega) le_rfl rfl

def byteOrder (x y : List UInt8) : ℤ := (x.headD 0).toNat - (y.headD 0).toNat

theorem qsort_sorts_bytes : Returns (qsort 64 byteOrder 3 1) [3, 1, 2]
    fun _ => Sorted byteOrder [[3], [1], [2]] :=
  qsort_sorts (by decide : 8 ≤ 64) (by decide) (by decide)
    ⟨fun x y _ _ => by unfold byteOrder; omega, fun x y z _ _ _ => by unfold byteOrder; omega⟩
    [[3], [1], [2]] rfl (by decide)

end Klibc.Stdlib.Qsort
