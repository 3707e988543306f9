import Mathlib.Data.List.Nodup

/-! # Association lists

A list of entries, each with a key and a value, read as a finite map: `lookup l k` is the value of
the first entry with key `k`. If the keys are distinct, replacing, appending and removing an entry
are updates of the map. -/

namespace Klibc.Lib.Assoc

variable {α κ ν : Type*} [DecidableEq κ] (key : α → κ) (val : α → ν)

/-- The value of the first entry with key `k`. -/
def lookup (l : List α) (k : κ) : Option ν := (l.find? fun x => key x = k).map val

variable {key val} {a b : List α} {x y : α} {k : κ}

lemma lookup_append : lookup key val (a ++ b) k = (lookup key val a k).or (lookup key val b k) := by
  rw [lookup, List.find?_append, Option.map_or]
  rfl

lemma lookup_cons : lookup key val (x :: b) k =
    if key x = k then some (val x) else lookup key val b k := by
  by_cases h : key x = k <;> simp [lookup, h]

lemma lookup_eq_none : lookup key val a k = none ↔ k ∉ a.map key := by simp [lookup]

lemma lookup_append_cons (h : key x ∉ a.map key) :
    lookup key val (a ++ x :: b) k = if k = key x then some (val x) else
      (lookup key val a k).or (lookup key val b k) := by
  rw [lookup_append, lookup_cons]
  by_cases hk : k = key x
  · subst hk
    rw [lookup_eq_none.2 h]
    simp
  · rw [if_neg (Ne.symm hk), if_neg hk]

omit [DecidableEq κ] in
lemma nodup_keys_middle (h : ((a ++ x :: b).map key).Nodup) :
    key x ∉ a.map key ∧ key x ∉ b.map key := by
  rw [List.map_append, List.map_cons, List.nodup_middle, List.nodup_cons, List.mem_append] at h
  exact ⟨fun hx => h.1 (Or.inl hx), fun hx => h.1 (Or.inr hx)⟩

/-- **Replacing** an entry by one with the same key. -/
theorem lookup_replace (h : ((a ++ y :: b).map key).Nodup) (hkey : key x = key y) :
    lookup key val (a ++ x :: b) k =
      if k = key x then some (val x) else lookup key val (a ++ y :: b) k := by
  obtain ⟨ha, -⟩ := nodup_keys_middle h
  rw [lookup_append_cons (hkey ▸ ha), lookup_append_cons ha, ← hkey]
  split_ifs <;> rfl

/-- **Appending** an entry with a new key. -/
theorem lookup_concat (h : key x ∉ a.map key) : lookup key val (a ++ [x]) k =
      if k = key x then some (val x) else lookup key val a k := by
  rw [lookup_append_cons h]
  simp [lookup]

/-- **Removing** an entry. -/
theorem lookup_remove (h : ((a ++ y :: b).map key).Nodup) :
    lookup key val (a ++ b) k = if k = key y then none else lookup key val (a ++ y :: b) k := by
  obtain ⟨ha, hb⟩ := nodup_keys_middle h
  rw [lookup_append_cons ha, lookup_append]
  by_cases hk : k = key y
  · subst hk
    rw [lookup_eq_none.2 ha, lookup_eq_none.2 hb, if_pos rfl]
    rfl
  · rw [if_neg hk, if_neg hk]

end Klibc.Lib.Assoc
