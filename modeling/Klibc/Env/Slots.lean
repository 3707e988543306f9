import Klibc.Env.Entries

/-! # The slots that `__put_env` touches

`__environ_size` is the size of the last array that was allocated, which `environ` no longer points
to after `clearenv`; and a null `environ` is not replaced by an empty array. `slots_in_bounds_iff`
says which runs of the functions stay inside of the arrays: those in which every call that gets to
`__put_env` finds an array, and `__null_environ` only as long as nothing was allocated. -/

namespace Klibc.Env.Slots

open Lib.Total Environ Entries

inductive Op
  | setenv (name : Option CString) (val : CString) (overwrite : Bool)
  | putenv (str : Option CString)
  | unsetenv (name : Option CString)
  | clearenv

def Op.exec : Op → Call ℤ
  | .setenv name val overwrite => Environ.setenv name val overwrite
  | .putenv str => Environ.putenv str
  | .unsetenv name => Environ.unsetenv name
  | .clearenv => Environ.clearenv

/-- The environment at the start of the process: any array that ends with NULL, or none. -/
structure Start (s : Sys) (es : List CString) : Prop where
  alloc : s.environAlloc = none
  size : s.environSize = 0
  null : s.mem .nullEnviron = [.null]
  environ : s.environ = none ∧ es = [] ∨
    s.environ = some .initial ∧ ∃ extra, s.mem .initial = es.map .str ++ .null :: extra

lemma Start.wf {s : Sys} {es : List CString} (h : Start s es) : Wf s es := by
  refine ⟨h.alloc, h.null, fun hnone => ?_, fun a ha => ?_, fun a _ _ => by rw [h.size]; omega⟩
  · rcases h.environ with ⟨-, hes⟩ | ⟨hsome, -⟩
    · exact hes
    · rw [hnone] at hsome
      cases hsome
  · rcases h.environ with ⟨hnone, -⟩ | ⟨hsome, hslots⟩
    · rw [hnone] at ha
      cases ha
    · rw [hsome] at ha
      cases ha
      exact hslots

/-- The arguments that the call passes to `__put_env`, if it has valid ones for it. -/
def Op.args : Op → Option (CString × ℕ × Bool)
  | .setenv name val overwrite => setArgs name val overwrite
  | .putenv str => putArgs str
  | _ => none

/-- The call gets to `__put_env`: its arguments are valid and its first allocation succeeds. -/
def Puts (s : Sys) (op : Op) : Prop := op.args ≠ none ∧ s.allocs 0 = true

/-- Every call of a run returns, without having touched anything outside of an array. -/
def InBounds : Sys → List Op → Prop
  | _, [] => True
  | s, op :: ops => Returns op.exec s fun _ s' => InBounds s' ops

/-- Every call of a run that gets to `__put_env` finds an array, which is `__null_environ` only if
`__environ_size` is at most one. -/
def AllSafe : Sys → List Op → Prop
  | _, [] => True
  | s, op :: ops => (Puts s op → Safe s) ∧ ∀ rv s', op.exec s = some (rv, s') → AllSafe s' ops

section
variable {s : Sys} {es : List CString}

lemma returns_putCall_wf (h : Wf s es) (args : Option (CString × ℕ × Bool))
    (hs : args ≠ none ∧ s.allocs 0 = true → Safe s) :
    Returns (putCall args) s fun _ s' => ∃ fs, Wf s' fs ∧ (Safe s → Safe s') := by
  cases args with
  | none =>
    rw [returns_putCall_none]
    exact ⟨es, ⟨h.alloc, h.null, h.unset, h.slots, h.room⟩, fun hs => hs.of_environ rfl rfl⟩
  | some x =>
    cases h0 : s.allocs 0 with
    | false =>
      rw [returns_putCall_fail h0]
      exact ⟨es, h.allocated, fun hs => hs.of_environ rfl rfl⟩
    | true =>
      rw [returns_putCall h0]
      refine (returns_putEnv h.allocated ((hs ⟨by simp, h0⟩).of_environ rfl rfl) _ _ _).mono ?_
      exact fun _ _ hput => ⟨_, hput.wf, fun _ => hput.safe⟩

lemma not_returns_putCall (h : Wf s es) {args : Option (CString × ℕ × Bool)}
    (hputs : args ≠ none ∧ s.allocs 0 = true) (hs : ¬ Safe s) {Q : ℤ → Sys → Prop} :
    ¬ Returns (putCall args) s Q := by
  obtain ⟨x, rfl⟩ := Option.ne_none_iff_exists'.1 hputs.1
  rw [returns_putCall hputs.2]
  exact not_returns_putEnv h.allocated (fun hs' => hs (hs'.of_environ rfl rfl)) _ _ _

lemma returns_exec (h : Wf s es) (op : Op) (hs : Puts s op → Safe s) :
    Returns op.exec s fun _ s' => ∃ fs, Wf s' fs ∧ (op ≠ .clearenv → Safe s → Safe s') := by
  cases op with
  | setenv name val overwrite =>
    rw [Op.exec, setenv_eq]
    exact (returns_putCall_wf h _ hs).mono fun _ _ hfs => hfs.imp fun _ h' => ⟨h'.1, fun _ => h'.2⟩
  | putenv str =>
    rw [Op.exec, putenv_eq]
    exact (returns_putCall_wf h _ hs).mono fun _ _ hfs => hfs.imp fun _ h' => ⟨h'.1, fun _ => h'.2⟩
  | unsetenv name =>
    cases hn : validName name with
    | none =>
      simp only [Op.exec, Environ.unsetenv, hn, invalid, returns_bind, returns_modify, returns_pure]
      exact ⟨es, ⟨h.alloc, h.null, h.unset, h.slots, h.room⟩, fun _ hs => hs.of_environ rfl rfl⟩
    | some n =>
      refine (returns_unsetenv h hn).mono ?_
      rintro rv s' ⟨-, hwf, he, hsize, -⟩
      exact ⟨_, hwf, fun _ hs => hs.of_environ he hsize⟩
  | clearenv =>
    simp only [Op.exec, Environ.clearenv, returns_bind, returns_modify, returns_pure]
    refine ⟨[], ⟨h.alloc, h.null, fun ha => absurd ha (Option.some_ne_none _), fun a ha => ?_,
      fun a ha hnull => ?_⟩, fun hne => absurd rfl hne⟩
    · cases ha
      exact ⟨[], h.null⟩
    · cases ha
      exact absurd rfl hnull

lemma not_returns_exec (h : Wf s es) {op : Op} (hputs : Puts s op) (hs : ¬ Safe s)
    {Q : ℤ → Sys → Prop} : ¬ Returns op.exec s Q := by
  cases op with
  | setenv name val overwrite =>
    rw [Op.exec, setenv_eq]
    exact not_returns_putCall h hputs hs
  | putenv str =>
    rw [Op.exec, putenv_eq]
    exact not_returns_putCall h hputs hs
  | unsetenv name => exact absurd rfl hputs.1
  | clearenv => exact absurd rfl hputs.1

lemma inBounds_iff_allSafe (ops : List Op) : ∀ {s : Sys} {es : List CString}, Wf s es →
    (InBounds s ops ↔ AllSafe s ops) := by
  induction ops with
  | nil => exact fun _ => Iff.rfl
  | cons op ops ih =>
    intro s es h
    constructor
    · intro hb
      have hs : Puts s op → Safe s := fun hputs => by
        by_contra hs
        exact not_returns_exec h hputs hs hb
      refine ⟨hs, fun rv s' he => ?_⟩
      obtain ⟨fs, h', -⟩ := (returns_exec h op hs).elim he
      exact (ih h').1 (hb.elim he)
    · rintro ⟨hs, hall⟩
      obtain ⟨rv, s', he, fs, h', -⟩ := returns_exec h op hs
      exact ⟨rv, s', he, (ih h').2 (hall rv s' he)⟩

lemma allSafe_of_forall (ops : List Op) (hops : ∀ op ∈ ops, op ≠ .clearenv) :
    ∀ {s : Sys} {es : List CString}, Wf s es → Safe s → AllSafe s ops := by
  induction ops with
  | nil => exact fun _ _ => trivial
  | cons op ops ih =>
    intro s es h hs
    refine ⟨fun _ => hs, fun rv s' he => ?_⟩
    obtain ⟨fs, h', hs'⟩ := (returns_exec h op fun _ => hs).elim he
    exact ih (fun op' hop' => hops op' (List.mem_cons_of_mem op hop')) h'
      (hs' (hops op List.mem_cons_self) hs)

/-- **Which runs stay in the arrays.**  From any environment at the start of the process, NULL
included, and whichever allocations succeed: no call of the run touches a slot outside of the array
it works on, if and only if every `setenv` and `putenv` that gets to `__put_env` finds `environ` not
NULL, and `__null_environ` there only if `__environ_size` is at most one. -/
theorem slots_in_bounds_iff (hs : Start s es) (ops : List Op) : InBounds s ops ↔ AllSafe s ops :=
  inBounds_iff_allSafe ops hs.wf

end

/-! ### Three runs -/

/-- The strings `A` and `1`. -/
def strA : CString := ⟨[65], by decide⟩

def str1 : CString := ⟨[49], by decide⟩

/-- A process that starts with the given array, and whose allocations succeed. -/
def started (environ : Option Arr) (initial : List Slot) : Sys where
  environ := environ
  mem a := match a with
    | .initial => initial
    | .nullEnviron => [.null]
    | .heap _ => []
  environSize := 0
  environAlloc := none
  errno := 0
  allocs _ := true
  fresh := 0

lemma started_start : Start (started (some .initial) [.null]) [] :=
  ⟨rfl, rfl, rfl, Or.inr ⟨rfl, [], rfl⟩⟩

/-- A variable is set in an empty environment, and removed. -/
theorem slots_in_bounds_iff_set : InBounds (started (some .initial) [.null])
      [.setenv (some strA) str1 true, .putenv (some (assignment strA str1)),
        .unsetenv (some strA)] :=
  (slots_in_bounds_iff started_start _).2
    (allSafe_of_forall _ (by simp) started_start.wf ⟨by simp [started], nofun⟩)

/-- A variable that is set after `clearenv`, or without an array, leaves the array. -/
theorem cleared_and_null_out_of_bounds : ¬ InBounds (started (some .initial) [.null])
      [.setenv (some strA) str1 true, .clearenv, .setenv (some strA) str1 true] ∧
    ¬ InBounds (started none []) [.setenv (some strA) str1 true] := by
  constructor
  · intro hb
    have hall := (inBounds_iff_allSafe _ started_start.wf).1 hb
    have h2 := (hall.2 0 _ rfl).2 0 _ rfl
    have hsafe := h2.1 ⟨by decide, rfl⟩
    exact absurd (hsafe.2 rfl) (by decide)
  · intro hb
    have hstart : Start (started none []) [] := ⟨rfl, rfl, rfl, Or.inl ⟨rfl, rfl⟩⟩
    have hall := (inBounds_iff_allSafe _ hstart.wf).1 hb
    exact (hall.1 ⟨by decide, rfl⟩).1 rfl

end Klibc.Env.Slots
