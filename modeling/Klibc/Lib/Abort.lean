import Mathlib.Init

/-! # Invariants of calls that may be given up

A call is a computation in `OptionT (StateM σ)`: it returns a value or is given up, and what it did
to the state before that stays. `Keeps I c Q` says that the call keeps the invariant `I` either way,
and that `Q` holds of what it returns. -/

namespace Klibc.Lib.Abort

variable {σ α β : Type}

abbrev Call (σ : Type) := OptionT (StateM σ)

def access (f : σ → α × σ) : Call σ α := fun s => (some (f s).1, (f s).2)

def ofOption (x : Option α) : Call σ α := fun s => (x, s)

def exec (c : Call σ α) (s : σ) : Option α × σ := c s

/-- **A call keeps an invariant**, whether it returns or not. -/
def Keeps (I : σ → Prop) (c : Call σ α) (Q : α → Prop) : Prop :=
  ∀ s, I s → I (exec c s).2 ∧ ∀ x, (exec c s).1 = some x → Q x

variable {I : σ → Prop} {c : Call σ α} {Q : α → Prop} {R : β → Prop}

lemma keeps_pure {x : α} (h : Q x) : Keeps I (pure x) Q := by
  intro s hs
  refine ⟨hs, fun y hy => ?_⟩
  cases hy
  exact h

lemma keeps_failure : Keeps I (failure : Call σ α) Q := fun _ hs => ⟨hs, fun _ hx => nomatch hx⟩

lemma keeps_access {f : σ → α × σ} (h : ∀ s, I s → I (f s).2 ∧ Q (f s).1) :
    Keeps I (access f) Q := by
  intro s hs
  refine ⟨(h s hs).1, fun x hx => ?_⟩
  cases hx
  exact (h s hs).2

lemma keeps_ofOption {x : Option α} (h : ∀ y, x = some y → Q y) : Keeps I (ofOption x) Q :=
  fun _ hs => ⟨hs, h⟩

lemma exec_bind {d : α → Call σ β} {s : σ} : exec (c >>= d) s =
    (exec c s).1.elim (none, (exec c s).2) fun x => exec (d x) (exec c s).2 := by
  have hrun : exec (c >>= d) s =
      (match (exec c s).1 with | some x => d x | none => pure none : StateM σ (Option β))
        (exec c s).2 := rfl
  rw [hrun]
  cases (exec c s).1 <;> rfl

lemma Keeps.bind {d : α → Call σ β} (h : Keeps I c Q) (hd : ∀ x, Q x → Keeps I (d x) R) :
    Keeps I (c >>= d) R := by
  intro s hs
  obtain ⟨hI, hQ⟩ := h s hs
  rw [exec_bind]
  rcases hx : (exec c s).1 with _ | x
  · exact ⟨hI, fun _ hy => nomatch hy⟩
  · exact hd x (hQ x hx) _ hI

/-- **A loop over a list keeps what each turn keeps.** -/
theorem keeps_forM {f : α → Call σ PUnit} : ∀ {l : List α},
    (∀ x ∈ l, Keeps I (f x) fun _ => True) → Keeps I (l.forM f) fun _ => True
  | [], _ => keeps_pure trivial
  | x :: l, h => (h x (by simp)).bind fun _ _ =>
      keeps_forM fun y hy => h y (List.mem_cons_of_mem x hy)

end Klibc.Lib.Abort
