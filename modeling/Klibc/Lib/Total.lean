import Mathlib.Init

/-! # Total correctness of stateful calls

A call is a computation in `StateT σ Option`: it returns a value and a new state, or does not
return. `Returns c s Q` says that it does return, with `Q` of what it returns. A `Loop` takes turns
as long as they ask for another, which may be for ever. -/

namespace Klibc.Lib.Total

variable {σ α β : Type} {c : StateT σ Option α} {s : σ} {Q Q' : α → σ → Prop}

/-- **Total correctness.**  Run from `s`, the call returns a value and a state of which `Q` holds.
-/
def Returns (c : StateT σ Option α) (s : σ) (Q : α → σ → Prop) : Prop :=
  ∃ x s', c s = some (x, s') ∧ Q x s'

@[simp]
lemma returns_pure {x : α} : Returns (pure x : StateT σ Option α) s Q ↔ Q x s :=
  ⟨fun ⟨_, _, he, hq⟩ => by cases he; exact hq, fun hq => ⟨x, s, rfl, hq⟩⟩

@[simp]
lemma returns_bind {d : α → StateT σ Option β} {Q : β → σ → Prop} :
    Returns (c >>= d) s Q ↔ Returns c s fun x s' => Returns (d x) s' Q := by
  constructor
  · rintro ⟨y, t, he, hq⟩
    obtain ⟨⟨x, s'⟩, hc, hd⟩ := Option.bind_eq_some_iff.1 he
    exact ⟨x, s', hc, y, t, hd, hq⟩
  · rintro ⟨x, s', hc, y, t, hd, hq⟩
    exact ⟨y, t, Option.bind_eq_some_iff.2 ⟨⟨x, s'⟩, hc, hd⟩, hq⟩

lemma bind_eq_of_eq {d : α → StateT σ Option β} {x : α} {s' : σ} (he : c s = some (x, s')) :
    (c >>= d) s = d x s' := by
  show (c s).bind _ = _
  rw [he]
  rfl

lemma Returns.mono (h : Returns c s Q) (hQ : ∀ x s', Q x s' → Q' x s') : Returns c s Q' := by
  obtain ⟨x, s', he, hq⟩ := h
  exact ⟨x, s', he, hQ x s' hq⟩

lemma returns_iff_of_eq {x : α} {s' : σ} (he : c s = some (x, s')) : Returns c s Q ↔ Q x s' := by
  constructor
  · rintro ⟨y, t, he', hq⟩
    rw [he] at he'
    cases he'
    exact hq
  · exact fun hq => ⟨x, s', he, hq⟩

@[simp]
lemma returns_get {Q : σ → σ → Prop} : Returns (get : StateT σ Option σ) s Q ↔ Q s s :=
  returns_iff_of_eq rfl

@[simp]
lemma returns_set {t : σ} {Q : PUnit → σ → Prop} :
    Returns (set t : StateT σ Option PUnit) s Q ↔ Q ⟨⟩ t :=
  returns_iff_of_eq rfl

@[simp]
lemma returns_modify {g : σ → σ} {Q : PUnit → σ → Prop} :
    Returns (modify g : StateT σ Option PUnit) s Q ↔ Q ⟨⟩ (g s) :=
  returns_iff_of_eq rfl

lemma returns_and {p : Prop} : Returns c s (fun x s' => p ∧ Q x s') ↔ p ∧ Returns c s Q := by
  constructor
  · rintro ⟨x, s', he, hp, hq⟩
    exact ⟨hp, x, s', he, hq⟩
  · rintro ⟨hp, x, s', he, hq⟩
    exact ⟨x, s', he, hp, hq⟩

lemma not_returns_of_eq_none (he : c s = none) : ¬ Returns c s Q := by
  rintro ⟨x, s', he', -⟩
  rw [he] at he'
  cases he'

instance [∀ x s', Decidable (Q x s')] : Decidable (Returns c s Q) :=
  match he : c s with
  | none => isFalse (not_returns_of_eq_none he)
  | some _ => decidable_of_iff _ (returns_iff_of_eq he).symm

lemma Returns.elim (h : Returns c s Q) {x : α} {s' : σ} (he : c s = some (x, s')) : Q x s' :=
  (returns_iff_of_eq he).1 h

/-! ### Loops -/

/-- A loop: a turn asks for another one with a new value, or ends the loop with a result. -/
structure Loop (σ α β : Type) where
  turn : α → StateT σ Option (α ⊕ β)

def Loop.run (l : Loop σ α β) (a : α) : StateT σ Option β := do
  match ← l.turn a with
  | .inl a => l |>.run a
  | .inr b => return b
partial_fixpoint

/-- **The first turn of a loop.** -/
theorem returns_loop {turn : α → StateT σ Option (α ⊕ β)} {a : α} {Q : β → σ → Prop} :
    Returns (Loop.run ⟨turn⟩ a) s Q ↔ Returns (turn a) s fun r s' =>
      Sum.elim (fun a => Returns (Loop.run ⟨turn⟩ a) s' Q) (fun b => Q b s') r := by
  rw [Loop.run, returns_bind]
  constructor
  · refine fun h => h.mono fun r s' hr => ?_
    cases r with
    | inl a => exact hr
    | inr b => exact (returns_pure (Q := Q)).1 hr
  · refine fun h => h.mono fun r s' hr => ?_
    cases r with
    | inl a => exact hr
    | inr b => exact (returns_pure (Q := Q)).2 hr

/-- **A loop with an invariant and a measure** that every turn decreases. -/
theorem returns_loop_of_measure {turn : α → StateT σ Option (α ⊕ β)} {Q : β → σ → Prop}
    (I : α → σ → Prop) (m : α → σ → Nat) (hturn : ∀ a s, I a s → Returns (turn a) s fun r s' =>
      Sum.elim (fun a' => I a' s' ∧ m a' s' < m a s) (fun b => Q b s') r) :
    ∀ {a : α} {s : σ}, I a s → Returns (Loop.run ⟨turn⟩ a) s Q := by
  intro a s h
  induction hn : m a s using Nat.strongRecOn generalizing a s with
  | _ n ih =>
    rw [returns_loop]
    refine (hturn a s h).mono fun r s' hr => ?_
    cases r with
    | inl a' => exact ih _ (hn ▸ hr.2) hr.1 rfl
    | inr b => exact hr

/-! ### Two partial computations side by side -/

lemma rel_bind {α β α' β' : Type} {R : α → β → Prop} {R' : α' → β' → Prop} {x : Option α}
    {y : Option β} {f : α → Option α'} {g : β → Option β'} (hxy : Option.Rel R x y)
    (hfg : ∀ a b, R a b → Option.Rel R' (f a) (g b)) : Option.Rel R' (x >>= f) (y >>= g) := by
  cases hxy with
  | none => exact .none
  | some h => exact hfg _ _ h

lemma rel_bind_same {α α' β' : Type} {R' : α' → β' → Prop} {x : Option α} {f : α → Option α'}
    {g : α → Option β'} (hfg : ∀ a, Option.Rel R' (f a) (g a)) :
    Option.Rel R' (x >>= f) (x >>= g) := by
  cases x with
  | none => exact .none
  | some a => exact hfg a

end Klibc.Lib.Total
