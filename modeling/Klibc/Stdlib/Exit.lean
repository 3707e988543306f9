import Mathlib.Data.Int.Notation
import Mathlib.Data.Nat.Notation
import Mathlib.Tactic.Common

/-! # `exit` and its handlers

`on_exit` puts a handler in front of `__atexit_list`, and `exit` walks the list from the node that
was its first at the call. What a handler registers while `exit` is running stands in front of that
node and is not called. -/

namespace Klibc.Stdlib.Exit

open List

variable {φ α σ : Type}

/-! ### The code -/

/-- `struct atexit`, at an address of its own. -/
structure Node (φ α : Type) where
  addr : ℕ
  fctn : φ
  arg : α

/-- `__atexit_list`, the address that `malloc` returns next, and the other variables. -/
structure State (φ α σ : Type) where
  list : List (Node φ α)
  next : ℕ
  vars : σ

inductive Event (φ α : Type)
  | registered (n : Node φ α)
  | called (n : Node φ α) (rv : ℤ)
  | flushed

/-- What the handlers are: with the value of `exit` and its argument, a function registers others
and changes the variables. -/
abbrev Program (φ α σ : Type) := φ → ℤ → α → σ → List (φ × α) × σ

/-- Calls of `on_exit` that succeed, and `atexit` with them. -/
def onExit : List (φ × α) → State φ α σ → List (Event φ α) × State φ α σ
  | [], s => ([], s)
  | (fctn, arg) :: rs, s =>
    let as := ⟨s.next, fctn, arg⟩
    let (es, s') := onExit rs { s with list := as :: s.list, next := s.next + 1 }
    (.registered as :: es, s')

/-- The loop of `exit` from a node on. No node is changed once it is in the list, so that `ap->next`
is what it was before the call. -/
def walk (P : Program φ α σ) (rv : ℤ) :
    List (Node φ α) → State φ α σ → List (Event φ α) × State φ α σ
  | [], s => ([], s)
  | ap :: nexts, s =>
    let (rs, vars) := P ap.fctn rv ap.arg s.vars
    let (es, s₁) := onExit rs { s with vars := vars }
    let (es', s₂) := walk P rv nexts s₁
    (.called ap rv :: (es ++ es'), s₂)

/-- `exit`, up to `_exit`. -/
def exit (P : Program φ α σ) (rv : ℤ) (s : State φ α σ) : List (Event φ α) :=
  (walk P rv s.list s).1 ++ [.flushed]

/-- A program after its calls of `on_exit`. -/
def started (rs : List (φ × α)) (vars : σ) : State φ α σ := (onExit rs ⟨[], 0, vars⟩).2

/-! ### What is asked of it -/

/-- Each call is of the handler that was registered last among those not called yet, and the
streams are flushed when there is none. -/
def InOrder (rv : ℤ) : List (Event φ α) → List (Node φ α) → Prop
  | .registered n :: es, waiting => InOrder rv es (n :: waiting)
  | .called n v :: es, waiting => v = rv ∧ ∃ rest, waiting = n :: rest ∧ InOrder rv es rest
  | .flushed :: es, waiting => es = [] ∧ waiting = []
  | [], _ => False

def Quiet (P : Program φ α σ) (rv : ℤ) : List (Node φ α) → σ → Prop
  | [], _ => True
  | n :: l, vars => (P n.fctn rv n.arg vars).1 = [] ∧ Quiet P rv l (P n.fctn rv n.arg vars).2

section
variable {P : Program φ α σ} {rv : ℤ} {l : List (Node φ α)}

/-- What `on_exit` adds to the handlers that wait. -/
theorem onExit_spec (rv : ℤ) : ∀ (rs : List (φ × α)) (s : State φ α σ), ∃ ms : List (Node φ α),
    ms.length = rs.length ∧ (∀ m ∈ ms, s.next ≤ m.addr ∧ m.addr < (onExit rs s).2.next) ∧
    s.next ≤ (onExit rs s).2.next ∧ (onExit rs s).2.list = ms ++ s.list ∧
    ∀ es waiting, InOrder rv ((onExit rs s).1 ++ es) waiting ↔ InOrder rv es (ms ++ waiting)
  | [], s => ⟨[], rfl, by simp, Nat.le_refl _, rfl, fun _ _ => Iff.rfl⟩
  | (fctn, arg) :: rs, s => by
    obtain ⟨ms, hlen, haddr, hnext, hlist, horder⟩ :=
      onExit_spec rv rs { s with list := ⟨s.next, fctn, arg⟩ :: s.list, next := s.next + 1 }
    simp only at haddr hnext
    refine ⟨ms ++ [⟨s.next, fctn, arg⟩], by simp [hlen], ?_, Nat.le_of_succ_le hnext, ?_,
      fun es waiting => ?_⟩
    · intro m hm
      rcases mem_append.1 hm with hm | hm
      · exact ⟨Nat.le_of_succ_le (haddr m hm).1, (haddr m hm).2⟩
      · rw [mem_singleton.1 hm]
        exact ⟨Nat.le_refl _, hnext⟩
    · rw [append_assoc]
      exact hlist
    · rw [append_assoc]
      exact horder es _

/-- A handler that was registered meanwhile keeps the others from being called in order. -/
theorem not_inOrder_walk {m : Node φ α} {waiting : List (Node φ α)} {s : State φ α σ}
    (h : ∀ n ∈ l, n.addr ≠ m.addr) :
    ¬InOrder rv ((walk P rv l s).1 ++ [.flushed]) (m :: waiting) := by
  cases l with
  | nil => exact fun h => cons_ne_nil _ _ h.2
  | cons n l =>
    rintro ⟨-, rest, hrest, -⟩
    exact h n mem_cons_self (congrArg Node.addr (List.cons.inj hrest).1).symm

/-- The calls are in order iff no handler registers another one. -/
theorem inOrder_walk_iff {s : State φ α σ} (h : ∀ n ∈ l, n.addr < s.next) :
    InOrder rv ((walk P rv l s).1 ++ [.flushed]) l ↔ Quiet P rv l s.vars := by
  induction l generalizing s with
  | nil => exact ⟨fun _ => trivial, fun _ => ⟨rfl, rfl⟩⟩
  | cons n l ih =>
    rw [forall_mem_cons] at h
    have hcall : ∀ es, InOrder rv (.called n rv :: es) (n :: l) ↔ InOrder rv es l := by
      intro es
      exact ⟨fun ⟨_, _, hrest, hes⟩ => (List.cons.inj hrest).2 ▸ hes, fun hes => ⟨rfl, l, rfl, hes⟩⟩
    rw [walk, Quiet, cons_append, hcall, append_assoc]
    cases hrs : (P n.fctn rv n.arg s.vars).1 with
    | nil =>
      rw [and_iff_right rfl]
      exact ih (s := { s with vars := _ }) h.2
    | cons r rs =>
      obtain ⟨ms, hlen, haddr, -, -, horder⟩ :=
        onExit_spec rv (r :: rs) { s with vars := (P n.fctn rv n.arg s.vars).2 }
      rw [horder]
      cases ms with
      | nil => simp at hlen
      | cons m ms =>
        refine iff_of_false (not_inOrder_walk fun n hn heq => ?_) (by simp)
        have hlt := h.2 n hn
        have hge := (haddr m mem_cons_self).1
        simp only at hge
        omega

/-- **`exit` calls every handler once, the last one first**, iff none of them registers another. -/
theorem exit_iff (P : Program φ α σ) (rv : ℤ) (rs : List (φ × α)) (vars : σ) :
    InOrder rv (exit P rv (started rs vars)) (started rs vars).list ↔
      Quiet P rv (started rs vars).list (started rs vars).vars := by
  obtain ⟨ms, -, haddr, -, hlist, -⟩ := onExit_spec rv rs (⟨[], 0, vars⟩ : State φ α σ)
  refine inOrder_walk_iff fun n hn => (haddr n ?_).2
  rwa [started, hlist, append_nil] at hn

end

def nested : Program Bool Unit Unit := fun again _ _ _ => (if again then [(false, ())] else [], ())

/-- The other one is not called. -/
theorem exit_nested : exit nested 1 (started [(true, ())] ()) =
      [.called ⟨0, true, ()⟩ 1, .registered ⟨1, false, ()⟩, .flushed] ∧
    ¬InOrder 1 (exit nested 1 (started [(true, ())] ())) (started [(true, ())] ()).list := by
  refine ⟨rfl, ?_⟩
  rintro ⟨-, rest, -, hes, hnil⟩
  exact cons_ne_nil _ _ hnil

end Klibc.Stdlib.Exit
