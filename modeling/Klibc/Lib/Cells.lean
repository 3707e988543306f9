import Mathlib.Logic.Function.Basic
import Mathlib.Data.Nat.Notation
import Mathlib.Tactic.SplitIfs

/-! # Programs over records in memory

A program reads and writes cells, each given by the address of a record and one of its fields. `Prog
φ α` is such a program as data, so that one text can be run on a concrete memory (`run`) and
reasoned about on a plain table of cells (`Wp`).  The two agree as long as the program keeps to a
set of cells that can be accessed and do not overlap in the concrete memory (`Wp.run`). -/

namespace Klibc.Lib.Cells

open Function

variable {φ M α β : Type}

/-- A program over cells with fields `φ`; `stuck` is a run that never ends. -/
inductive Prog (φ : Type) (α : Type) where
  | pure (x : α)
  | get (a : ℕ) (f : φ) (k : ℕ → Prog φ α)
  | set (a : ℕ) (f : φ) (v : ℕ) (k : Prog φ α)
  | stuck

namespace Prog

def bind : Prog φ α → (α → Prog φ β) → Prog φ β
  | pure x, q => q x
  | get a f k, q => get a f fun v => (k v).bind q
  | set a f v k, q => set a f v (k.bind q)
  | stuck, _ => stuck

instance : Monad (Prog φ) where
  pure := Prog.pure
  bind := Prog.bind

end Prog

def read (a : ℕ) (f : φ) : Prog φ ℕ := .get a f .pure

def write (a : ℕ) (f : φ) (v : ℕ) : Prog φ Unit := .set a f v (.pure ())

/-- How a concrete memory holds the cells. -/
structure Store (φ M : Type) where
  get : M → ℕ → φ → ℕ
  set : M → ℕ → φ → ℕ → M

/-- The run of a program: it ends at the first access of a cell that is not `ok`, without a result.
-/
def run (ok : ℕ → φ → Bool) (K : Store φ M) : Prog φ α → M → Option (α × M)
  | .pure x, m => some (x, m)
  | .get a f k, m => if ok a f then run ok K (k (K.get m a f)) m else none
  | .set a f v k, m => if ok a f then run ok K k (K.set m a f v) else none
  | .stuck, _ => none

lemma run_bind (ok : ℕ → φ → Bool) (K : Store φ M) (q : Prog φ α) (r : α → Prog φ β) (m : M) :
    run ok K (q >>= r) m = (run ok K q m).bind fun x => run ok K (r x.1) x.2 := by
  show run ok K (q.bind r) m = _
  induction q generalizing m with
  | pure x => rfl
  | get a f k ih =>
    simp only [Prog.bind, run]
    split_ifs
    · exact ih _ m
    · rfl
  | set a f v k ih =>
    simp only [Prog.bind, run]
    split_ifs
    · exact ih _
    · rfl
  | stuck => rfl

def Prog.ReadOnly : Prog φ α → Prop
  | .pure _ => True
  | .get _ _ k => ∀ v, (k v).ReadOnly
  | .set _ _ _ _ => False
  | .stuck => True

lemma Prog.ReadOnly.bind {q : Prog φ α} {r : α → Prog φ β} (hq : q.ReadOnly)
    (hr : ∀ x, (r x).ReadOnly) : (q >>= r).ReadOnly := by
  show (q.bind r).ReadOnly
  induction q with
  | pure x => exact hr x
  | get a f k ih => exact fun v => ih v (hq v)
  | set a f v k => exact hq.elim
  | stuck => trivial

lemma Prog.ReadOnly.run_eq {ok : ℕ → φ → Bool} {K : Store φ M} {q : Prog φ α} {m m' : M} {x : α}
    (hq : q.ReadOnly) (h : run ok K q m = some (x, m')) : m' = m := by
  induction q with
  | pure y => cases h; rfl
  | get a f k ih => exact ih _ (hq _) (Option.ite_none_right_eq_some.1 h).2
  | set a f v k => exact hq.elim
  | stuck => cases h

lemma readOnly_read (a : ℕ) (f : φ) : (read a f).ReadOnly := fun _ => trivial

/-- Whatever the program reads, `P` holds of the value it ends with. -/
def Prog.Yields (P : α → Prop) : Prog φ α → Prop
  | .pure x => P x
  | .get _ _ k => ∀ v, (k v).Yields P
  | .set _ _ _ k => k.Yields P
  | .stuck => True

lemma Prog.Yields.run {ok : ℕ → φ → Bool} {K : Store φ M} {P : α → Prop} {q : Prog φ α} {m m' : M}
    {x : α} (hq : q.Yields P) (h : run ok K q m = some (x, m')) : P x := by
  induction q generalizing m with
  | pure y => cases h; exact hq
  | get a f k ih => exact ih _ (hq _) (Option.ite_none_right_eq_some.1 h).2
  | set a f v k ih => exact ih hq (Option.ite_none_right_eq_some.1 h).2
  | stuck => cases h

/-! ### Tables of cells -/

abbrev Table (φ : Type) := ℕ → φ → ℕ

section

variable [DecidableEq φ] {H H' : Table φ} {a b : ℕ} {f g : φ} {v : ℕ}

def Table.put (H : Table φ) (a : ℕ) (f : φ) (v : ℕ) : Table φ := update H a (update (H a) f v)

lemma Table.put_apply : H.put a f v b g = if b = a ∧ g = f then v else H b g := by
  by_cases hb : b = a
  · subst hb
    by_cases hg : g = f <;> simp [put, hg]
  · simp [put, hb]

@[simp]
lemma Table.put_self : H.put a f v a f = v := by simp [put_apply]

def Table.col (H : Table φ) (f : φ) : ℕ → ℕ := fun a => H a f

omit [DecidableEq φ] in
@[simp]
lemma Table.col_apply : H.col f a = H a f := rfl

@[simp]
lemma Table.col_put : (H.put a f v).col f = update (H.col f) a v := by
  funext b
  by_cases hb : b = a <;> simp [col, put_apply, hb]

lemma Table.col_put_of_ne (h : g ≠ f) : (H.put a f v).col g = H.col g := by
  funext b
  simp [col, put_apply, h]

lemma Table.put_of_addr_ne (h : b ≠ a) : H.put a f v b g = H b g := by simp [put_apply, h]

lemma Table.put_of_field_ne (h : g ≠ f) : H.put a f v b g = H b g := by simp [put_apply, h]

/-! ### Weakest preconditions -/

/-- **What a program must meet to end in `Q`** when it keeps to the cells `S` and writes values
below `B`. -/
def Wp (S : ℕ → φ → Prop) (B : ℕ) : Prog φ α → Table φ → (α → Table φ → Prop) → Prop
  | .pure x, H, Q => Q x H
  | .get a f k, H, Q => S a f ∧ Wp S B (k (H a f)) H Q
  | .set a f v k, H, Q => S a f ∧ v < B ∧ Wp S B k (H.put a f v) Q
  | .stuck, _, _ => False

variable {S : ℕ → φ → Prop} {B : ℕ} {Q Q' : α → Table φ → Prop} {q : Prog φ α}

@[simp]
lemma wp_pure {x : α} : Wp S B (pure x : Prog φ α) H Q ↔ Q x H := Iff.rfl

@[simp]
lemma wp_read {Q : ℕ → Table φ → Prop} : Wp S B (read a f) H Q ↔ S a f ∧ Q (H a f) H := Iff.rfl

@[simp]
lemma wp_write {Q : Unit → Table φ → Prop} :
    Wp S B (write a f v) H Q ↔ S a f ∧ v < B ∧ Q () (H.put a f v) := Iff.rfl

@[simp]
lemma wp_bind {r : α → Prog φ β} {Q : β → Table φ → Prop} :
    Wp S B (q >>= r) H Q ↔ Wp S B q H fun x H' => Wp S B (r x) H' Q := by
  show Wp S B (q.bind r) H Q ↔ _
  induction q generalizing H with
  | pure x => rfl
  | get a f k ih => exact and_congr_right fun _ => ih _
  | set a f v k ih => exact and_congr_right fun _ => and_congr_right fun _ => ih
  | stuck => rfl

@[simp]
lemma wp_ite {c : Prop} [Decidable c] {r : Prog φ α} :
    Wp S B (if c then q else r) H Q ↔ if c then Wp S B q H Q else Wp S B r H Q := by
  split <;> rfl

lemma Wp.mono (h : Wp S B q H Q) (hQ : ∀ x H', Q x H' → Q' x H') : Wp S B q H Q' := by
  induction q generalizing H with
  | pure x => exact hQ x H h
  | get a f k ih => exact ⟨h.1, ih _ h.2⟩
  | set a f v k ih => exact ⟨h.1, h.2.1, ih h.2.2⟩
  | stuck => exact h

/-! ### Programs on a concrete memory -/

/-- The cells `S` of the memory behave as cells: a write changes the cell written and no other. -/
def Sound (K : Store φ M) (S : ℕ → φ → Prop) (B : ℕ) : Prop :=
  ∀ m a f v, S a f → v < B → K.get (K.set m a f v) a f = v ∧
      ∀ b g, S b g → ¬(b = a ∧ g = f) → K.get (K.set m a f v) b g = K.get m b g

/-- The memory holds the table on the cells `S`. -/
def Agree (K : Store φ M) (S : ℕ → φ → Prop) (m : M) (H : Table φ) : Prop :=
  ∀ a f, S a f → K.get m a f = H a f

variable {ok : ℕ → φ → Bool} {K : Store φ M} {m : M}

lemma Agree.put (hK : Sound K S B) (hm : Agree K S m H) (ha : S a f) (hv : v < B) :
    Agree K S (K.set m a f v) (H.put a f v) := by
  intro b g hb
  obtain ⟨hself, hother⟩ := hK m a f v ha hv
  rw [Table.put_apply]
  split_ifs with he
  · rw [he.1, he.2, hself]
  · rw [hother b g hb he, hm b g hb]

/-- **The concrete run follows the table**, and keeps whatever every write into `S` keeps. -/
theorem Wp.run (hok : ∀ a f, S a f → ok a f = true) (hK : Sound K S B) (hm : Agree K S m H)
    (h : Wp S B q H Q) {I : M → Prop} (hI : ∀ m a f v, S a f → I m → I (K.set m a f v))
    (h0 : I m) :
    ∃ x m' H', Cells.run ok K q m = some (x, m') ∧ Agree K S m' H' ∧ Q x H' ∧ I m' := by
  induction q generalizing H m with
  | pure x => exact ⟨x, m, H, rfl, hm, h, h0⟩
  | get a f k ih =>
    have := ih (H a f) hm h.2 h0
    rwa [Cells.run, if_pos (hok a f h.1), hm a f h.1]
  | set a f v k ih =>
    rw [Cells.run, if_pos (hok a f h.1)]
    exact ih (hm.put hK h.1 h.2.1) h.2.2 (hI m a f v h.1 h0)
  | stuck => exact h.elim

end

end Klibc.Lib.Cells
