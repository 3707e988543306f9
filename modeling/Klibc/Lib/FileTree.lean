import Mathlib.Data.List.AList
import Mathlib.Data.List.Induction

/-! # Trees of named nodes

A finite tree, given by the path of each node from the root. Some nodes are directories: the root is
one, and so is the parent of every other node. Taking away a node without children leaves a tree. A
tree that is left of another by taking away nodes is `Pruned`. -/

namespace Klibc.Lib.FileTree

/-- **A tree of nodes**, of which those with `dir` are directories. -/
structure Tree (κ ν : Type) [DecidableEq κ] (dir : ν → Bool) where
  nodes : AList fun _ : List κ => ν
  root : ∃ d, nodes.lookup [] = some d ∧ dir d
  parent : ∀ p k n, nodes.lookup (p ++ [k]) = some n → ∃ d, nodes.lookup p = some d ∧ dir d

variable {κ ν : Type} [DecidableEq κ] {dir : ν → Bool} {t t' t'' : Tree κ ν dir} {p q : List κ}

def Tree.find (t : Tree κ ν dir) (p : List κ) : Option ν := t.nodes.lookup p

def Tree.IsDir (t : Tree κ ν dir) (p : List κ) : Prop := ∃ d, t.find p = some d ∧ dir d

lemma isDir_of_find_concat {k : κ} {n : ν} (h : t.find (p ++ [k]) = some n) : t.IsDir p :=
  t.parent p k n h

lemma isDir_of_append (h : t.IsDir (p ++ q)) : t.IsDir p := by
  induction q using List.reverseRecOn with
  | nil => rwa [List.append_nil] at h
  | append_singleton q k ih =>
    obtain ⟨d, hd, -⟩ := h
    rw [← List.append_assoc] at hd
    exact ih (isDir_of_find_concat hd)

/-! ### Taking away a node -/

def Tree.childless (t : Tree κ ν dir) (p : List κ) : Bool :=
  t.nodes.keys.all fun q => q = [] ∨ q.dropLast ≠ p

lemma find_child (h : t.childless p) (k : κ) : t.find (p ++ [k]) = none := by
  rw [Tree.find, AList.lookup_eq_none]
  intro hmem
  have hkey := List.all_eq_true.1 h _ (AList.mem_keys.1 hmem)
  simp at hkey

lemma childless_of_not_dir {n : ν} (hn : t.find p = some n) (hdir : dir n = false) :
    t.childless p := by
  refine List.all_eq_true.2 fun q hq => decide_eq_true ?_
  rw [or_iff_not_imp_left]
  rintro hne rfl
  obtain ⟨m, hm⟩ := Option.isSome_iff_exists.1 (AList.lookup_isSome.2 (AList.mem_keys.2 hq))
  have hlast : q.dropLast ++ [q.getLast hne] = q := List.dropLast_append_getLast hne
  obtain ⟨d, hd, hd'⟩ := t.parent _ (q.getLast hne) m (hlast.symm ▸ hm)
  rw [Tree.find, hd] at hn
  cases hn
  rw [hdir] at hd'
  exact Bool.false_ne_true hd'

/-- The tree without the node at `p`, which is not the root and has no children. -/
def Tree.remove (t : Tree κ ν dir) (p : List κ) (hp : p ≠ []) (hc : t.childless p) :
    Tree κ ν dir where
  nodes := t.nodes.erase p
  root := by
    rw [AList.lookup_erase_ne hp.symm]
    exact t.root
  parent q k n h := by
    have hne : q ++ [k] ≠ p := by
      rintro rfl
      rw [AList.lookup_erase] at h
      cases h
    rw [AList.lookup_erase_ne hne] at h
    -- `p` has no children, so it is not the parent `q`.
    have hq : q ≠ p := by
      rintro rfl
      have := find_child hc k
      rw [Tree.find, h] at this
      cases this
    rw [AList.lookup_erase_ne hq]
    exact t.parent q k n h

/-- The tree without the node at `p` if that can be taken away. -/
def Tree.erase (t : Tree κ ν dir) (p : List κ) : Tree κ ν dir :=
  if h : p ≠ [] ∧ t.childless p then t.remove p h.1 h.2 else t

lemma find_erase (hp : p ≠ []) (hc : t.childless p) :
    (t.erase p).find q = if q = p then none else t.find q := by
  rw [Tree.erase, dif_pos ⟨hp, hc⟩]
  split_ifs with hq
  · rw [hq]
    exact AList.lookup_erase p t.nodes
  · exact AList.lookup_erase_ne hq

/-! ### Pruned trees -/

/-- **The second tree is the first one without some nodes** whose paths are in `D`. -/
def Pruned (D : List κ → Prop) (t t' : Tree κ ν dir) : Prop :=
  ∀ q, t'.find q = t.find q ∨ t'.find q = none ∧ D q

variable {D D' : List κ → Prop}

lemma Pruned.refl (D : List κ → Prop) (t : Tree κ ν dir) : Pruned D t t := fun _ => Or.inl rfl

section
variable (h : Pruned D t t')
include h

lemma Pruned.mono (hD : ∀ q, D q → D' q) : Pruned D' t t' := fun q =>
  (h q).imp_right fun ⟨hnone, hq⟩ => ⟨hnone, hD q hq⟩

lemma Pruned.trans (h' : Pruned D t' t'') : Pruned D t t'' := by
  intro q
  rcases h' q with he | hgone
  · rw [he]
    exact h q
  · exact Or.inr hgone

lemma Pruned.find_eq (hq : ¬ D q) : t'.find q = t.find q :=
  (h q).resolve_right fun hgone => hq hgone.2

lemma Pruned.find_some {n : ν} (hn : t'.find q = some n) : t.find q = some n := by
  rcases h q with he | ⟨hnone, -⟩
  · rw [← he, hn]
  · rw [hnone] at hn
    cases hn

lemma Pruned.isDir (hp : ¬ D p) (hdir : t.IsDir p) : t'.IsDir p := by
  rw [Tree.IsDir, h.find_eq hp]
  exact hdir

end

lemma pruned_erase (hp : p ≠ []) (hc : t.childless p) (hD : D p) : Pruned D t (t.erase p) := by
  intro q
  rw [find_erase hp hc]
  split_ifs with hq
  · exact Or.inr ⟨rfl, hq ▸ hD⟩
  · exact Or.inl rfl

end Klibc.Lib.FileTree
