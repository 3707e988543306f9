import Klibc.RunInit.Paths

/-! # The deletion stays on its device

Whatever the kernel answers, `nuke_dir("/")` returns, it has removed only nodes on the device of
the root (`nuke_dir_stays_on_device`), and what is mounted below the root is untouched. The proof
follows the recursion of the code. Each part of it `Wipes` some paths, and these are reached from
the root without leaving its device. -/

namespace Klibc.RunInit.Device

open Lib.Machine Lib.FileTree Lib.Total Stdio.Vsnprintf Nuke Nuke.Program Paths

/-! ### Calls -/

def Sys.next (s : Sys) : Sys := { s with answers := fun i => s.answers (i + 1) }

section
variable {s : Sys} {p : Path} {k : Name} {n : Node}

lemma returns_answer {Q : Answer → Sys → Prop} :
    Returns answer s Q ↔ Q (s.answers 0) (Sys.next s) :=
  returns_iff_of_eq rfl

variable {Q : Except Errno (Path × Node) → Sys → Prop}

lemma returns_lookup {follow : Bool} {w : List UInt8} (herr : ∀ e, Q (.error e) (Sys.next s))
    (hok : Q (locate s.tree s.cwd follow w) (Sys.next s)) : Returns (lookup follow w) s Q := by
  rw [lookup, returns_bind, returns_answer]
  cases (s.answers 0).fail with
  | some e => exact returns_pure.2 (herr e)
  | none =>
    simp only [returns_bind, returns_get, returns_pure]
    exact hok

lemma returns_lookup_find (hn : s.tree.find p = some n) (herr : ∀ e, Q (.error e) (Sys.next s))
    (hok : (pathText p).length < PATH_MAX → Q (.ok (p, n)) (Sys.next s)) :
    Returns (lookup false (pathText p)) s Q := by
  refine returns_lookup herr ?_
  by_cases hlen : (pathText p).length < PATH_MAX
  · rw [locate_of_resolve (resolve_find hlen hn) hn]
    exact hok hlen
  · obtain ⟨e, he⟩ : ∃ e, locate s.tree s.cwd false (pathText p) = .error e :=
      locate_long (not_lt.1 hlen)
    rw [he]
    exact herr e

lemma returns_lstat {Q : Except Errno Node → Sys → Prop} (hn : s.tree.find p = some n)
    (herr : ∀ e, Q (.error e) (Sys.next s))
    (hok : (pathText p).length < PATH_MAX → Q (.ok n) (Sys.next s)) :
    Returns (lstat (pathText p)) s Q := by
  rw [lstat, returns_bind]
  exact returns_lookup_find hn (fun e => returns_pure.2 (herr e)) fun hlen =>
    returns_pure.2 (hok hlen)

lemma returns_lstat_entry {Q : Except Errno Node → Sys → Prop} (hdir : s.tree.IsDir p)
    (herr : ∀ e, Q (.error e) (Sys.next s))
    (hok : ∀ n, s.tree.find (p ++ [k]) = some n → Q (.ok n) (Sys.next s)) :
    Returns (lstat (pathText (p ++ [k]))) s Q := by
  rcases hn : s.tree.find (p ++ [k]) with _ | n
  · rw [lstat, returns_bind]
    refine returns_lookup (fun e => returns_pure.2 (herr e)) (returns_pure.2 ?_)
    have hgone : ∃ e, locate s.tree s.cwd false (pathText (p ++ [k])) = .error e := by
      by_cases hlen : (pathText (p ++ [k])).length < PATH_MAX
      · exact ⟨_, locate_of_none (resolve_entry hlen hdir) hn⟩
      · exact locate_long (not_lt.1 hlen)
    obtain ⟨e, he⟩ := hgone
    rw [he]
    exact herr e
  · exact returns_lstat hn herr fun _ => hok n hn

lemma returns_opendir {Q : Except Errno (List Dirent) → Sys → Prop} (hdir : s.tree.IsDir p)
    (hlen : (pathText p).length < PATH_MAX) (herr : ∀ e, Q (.error e) (Sys.next s))
    (hok : ∀ entries, Q (.ok entries) (Sys.next s)) : Returns (opendir (pathText p)) s Q := by
  obtain ⟨n, hn, hkind⟩ := id hdir
  rw [opendir, returns_bind, returns_get, returns_bind]
  refine returns_lookup (fun e => returns_pure.2 (herr e)) ?_
  rw [locate_of_resolve (resolve_dir hlen hdir) hn]
  change Returns (if n.isDir = true then _ else _) _ _
  rw [if_pos hkind, returns_pure]
  exact hok _

end

/-! ### What is wiped -/

/-- **A part of the deletion**: the tree loses nodes at paths in `D`, and each call that was carried
out has removed such a node. -/
structure Wipes (D : Path → Prop) (s s' : Sys) : Prop where
  tree : Pruned D s.tree s'.tree
  cwd : s'.cwd = s.cwd
  trace : ∃ es, s'.trace = s.trace ++ es ∧ ∀ e ∈ es, ∃ p, D p ∧
    (pathText p).length < PATH_MAX ∧ (e = .unlink (pathText p) ∨ e = .rmdir (pathText p))

section
variable {D D' : Path → Prop} {s s' s'' : Sys} {p : Path} {n : Node}

lemma Wipes.refl (D : Path → Prop) (s : Sys) : Wipes D s s :=
  ⟨Pruned.refl D s.tree, rfl, [], (List.append_nil _).symm, fun _ he => absurd he List.not_mem_nil⟩

lemma Wipes.next (D : Path → Prop) (s : Sys) : Wipes D s (Sys.next s) :=
  ⟨(Wipes.refl D s).tree, rfl, (Wipes.refl D s).trace⟩

lemma Wipes.mono (h : Wipes D s s') (hD : ∀ q, D q → D' q) : Wipes D' s s' := by
  obtain ⟨es, hes, hall⟩ := h.trace
  refine ⟨h.tree.mono hD, h.cwd, es, hes, fun e he => ?_⟩
  obtain ⟨p, hp, hrest⟩ := hall e he
  exact ⟨p, hD p hp, hrest⟩

lemma Wipes.trans (h : Wipes D s s') (h' : Wipes D s' s'') : Wipes D s s'' := by
  obtain ⟨es, hes, hall⟩ := h.trace
  obtain ⟨es', hes', hall'⟩ := h'.trace
  refine ⟨h.tree.trans h'.tree, h'.cwd.trans h.cwd, es ++ es', ?_, fun e he => ?_⟩
  · rw [hes', hes, List.append_assoc]
  · exact (List.mem_append.1 he).elim (hall e) (hall' e)

lemma Wipes.of_next (h : Wipes D (Sys.next s) s') : Wipes D s s' := (Wipes.next D s).trans h

lemma returns_take {e : Event} (hp : p ≠ []) (hc : s.tree.childless p) (hD : D p)
    (hlen : (pathText p).length < PATH_MAX)
    (he : e = .unlink (pathText p) ∨ e = .rmdir (pathText p)) :
    Returns (take p e) s fun r s' => r = none ∧ Wipes D s s' := by
  rw [take, returns_bind, returns_modify, returns_pure]
  refine ⟨rfl, pruned_erase hp hc hD, rfl, [e], rfl, fun e' he' => ?_⟩
  obtain rfl := List.mem_singleton.1 he'
  exact ⟨p, hD, hlen, he⟩

/-- **`unlink`** removes the node or nothing. -/
theorem returns_unlink (hn : s.tree.find p = some n) (hD : D p) :
    Returns (unlink (pathText p)) s fun r s' => Wipes D s s' ∧ (r ≠ none → s'.tree = s.tree) := by
  rw [unlink, returns_bind]
  refine returns_lookup_find hn (fun e => ?_) fun hlen => ?_
  · exact returns_pure.2 ⟨Wipes.next D s, fun _ => rfl⟩
  · change Returns (if n.isDir = true then _ else _) _ _
    by_cases hkind : n.isDir = true
    · rw [if_pos hkind, returns_pure]
      exact ⟨Wipes.next D s, fun _ => rfl⟩
    · rw [if_neg hkind]
      have hc : s.tree.childless p := childless_of_not_dir hn (Bool.eq_false_iff.2 hkind)
      -- The root is a directory.
      have hp : p ≠ [] := by
        rintro rfl
        obtain ⟨d, hd, hroot⟩ := s.tree.root
        rw [Tree.find, hd] at hn
        cases hn
        exact hkind hroot
      refine (returns_take (s := Sys.next s) hp hc hD hlen (Or.inl rfl)).mono fun r s' h => ?_
      exact ⟨h.2.of_next, fun hr => absurd h.1 hr⟩

/-- **`rmdir`** removes the node or nothing. -/
theorem returns_rmdir (hn : s.tree.find p = some n) (hD : D p) :
    Returns (rmdir (pathText p)) s fun _ s' => Wipes D s s' := by
  rw [rmdir, returns_bind]
  refine returns_lookup_find hn (fun e => returns_pure.2 (Wipes.next D s)) fun hlen => ?_
  change Returns (if n.isDir = false then _ else if p = [] then _ else _) _ _
  split_ifs with hkind hp
  · exact returns_pure.2 (Wipes.next D s)
  · exact returns_pure.2 (Wipes.next D s)
  · rw [returns_bind, returns_get]
    by_cases hc : (Sys.next s).tree.childless p
    · rw [if_pos hc]
      exact (returns_take (s := Sys.next s) hp hc hD hlen (Or.inr rfl)).mono fun _ _ h =>
        h.2.of_next
    · rw [if_neg hc, returns_pure]
      exact Wipes.next D s

end

/-! ### The recursion -/

/-- The path is reached from the root without leaving the device `me`. -/
def OnDevice (t : FileTree) (me : Dev) (p : Path) : Prop :=
  ∀ q, q <+: p → ∃ n, t.find q = some n ∧ n.dev = me

lemma OnDevice.concat {t : FileTree} {me : Dev} {p : Path} {k : Name} {n : Node}
    (h : OnDevice t me p) (hn : t.find (p ++ [k]) = some n) (hdev : n.dev = me) :
    OnDevice t me (p ++ [k]) := by
  intro q hq
  rcases List.prefix_concat_iff.1 hq with rfl | hq
  · exact ⟨n, hn, hdev⟩
  · exact h q hq

section

-- `t` is the tree before the deletion, and `me` the device of its root.
variable (arch : Arch) (t : FileTree) (me : Dev)

/-- What may be deleted with the node at `p`. -/
def Within (p q : Path) : Prop := p <+: q ∧ OnDevice t me q

/-- What may be deleted below the node at `p`. -/
def Below (p q : Path) : Prop := Within t me p q ∧ q ≠ p

/-- The contract of `nuke_dir` for the node at `p`. -/
def DirSpec (p : Path) : Prop :=
  ∀ (s : Sys) (n : Node), s.tree.find p = some n → Pruned (OnDevice t me) t s.tree →
    OnDevice t me p → Returns (nukeDir arch (pathText p)) s fun _ s' => Wipes (Below t me p) s s'

variable {arch t me} {s : Sys} {p : Path} {k : Name} {n : Node}

lemma not_below (p : Path) : ¬ Below t me p p := fun h => h.2 rfl

lemma not_within_concat (p : Path) (k : Name) : ¬ Within t me (p ++ [k]) p := by
  intro h
  have := h.1.length_le
  rw [List.length_append, List.length_singleton] at this
  omega

lemma below_of_within {q : Path} (h : Within t me (p ++ [k]) q) : Below t me p q := by
  refine ⟨⟨(List.prefix_append p [k]).trans h.1, h.2⟩, ?_⟩
  rintro rfl
  exact not_within_concat q k h

/-- **`nuke`**, given the contract of `nuke_dir` for the same path. -/
theorem returns_nuke (hspec : DirSpec arch t me p) (hn : s.tree.find p = some n)
    (hsub : Pruned (OnDevice t me) t s.tree) (hdev : OnDevice t me p) :
    Returns (nuke arch (pathText p)) s fun _ s' => Wipes (Within t me p) s s' := by
  have hp : Within t me p p := ⟨List.prefix_rfl, hdev⟩
  rw [nuke, returns_bind]
  refine (returns_unlink hn hp).mono fun r s1 ⟨hw1, hsame⟩ => ?_
  cases r with
  | none => exact returns_pure.2 hw1
  | some e =>
    have htree : s1.tree = s.tree := hsame (Option.some_ne_none e)
    change Returns (if e = .EISDIR then _ else _) s1 _
    split_ifs with he
    · rw [← htree] at hn hsub
      rw [returns_bind]
      refine (hspec s1 n hn hsub hdev).mono fun r s2 hw2 => ?_
      have hw : Wipes (Within t me p) s s2 := hw1.trans (hw2.mono fun q hq => hq.1)
      cases r with
      | some err => exact returns_pure.2 hw
      | none =>
        have hn2 : s2.tree.find p = some n := (hw2.tree.find_eq (not_below p)).trans hn
        exact (returns_rmdir hn2 hp).mono fun _ _ hw3 => hw.trans hw3
    · exact returns_pure.2 hw1

/-- **`nuke_dirent`**, given the contract of `nuke_dir` for the entry. -/
theorem returns_nukeDirent (hspec : DirSpec arch t me (p ++ [k])) (hdir : s.tree.IsDir p)
    (hlen : (pathText p).length < PATH_MAX) (hsub : Pruned (OnDevice t me) t s.tree)
    (hdev : OnDevice t me p) :
    Returns (nukeDirent arch (wrap 32 (pathText p).length) (pathText p) k.d_name me) s
      fun _ s' => Wipes (Within t me (p ++ [k])) s s' := by
  have hshort := k.short
  have hpath : entryPath arch (wrap 32 (pathText p).length) (pathText p) k.d_name =
      some (pathText (p ++ [k])) := by
    rw [pathText_concat]
    refine entryPath_eq arch (pathText_nonul p) k.nonul ?_
    have hmax : INT_MAX = 2 ^ 31 - 1 := rfl
    have hpath : PATH_MAX = 4096 := rfl
    omega
  rw [nukeDirent, hpath, returns_bind]
  refine (returns_iff_of_eq rfl).2 ?_
  rw [returns_bind]
  refine returns_lstat_entry hdir (fun e => ?_) fun st hst => ?_
  · exact returns_pure.2 (Wipes.next _ s)
  · change Returns (if st.dev ≠ me then _ else _) (Sys.next s) _
    split_ifs with hme
    · exact returns_pure.2 (Wipes.next _ s)
    · have hst' : OnDevice t me (p ++ [k]) := hdev.concat (hsub.find_some hst) (not_not.1 hme)
      exact (returns_nuke (s := Sys.next s) hspec hst hsub hst').mono fun _ _ h => h.of_next

/-- **The loop of `nuke_dir`**, by induction on the entries. -/
theorem returns_nukeEntries (hspec : ∀ k, DirSpec arch t me (p ++ [k]))
    (hlen : (pathText p).length < PATH_MAX) (hdev : OnDevice t me p) :
    ∀ (ds : List Dirent) {s : Sys}, s.tree.IsDir p → Pruned (OnDevice t me) t s.tree →
      Returns (nukeEntries arch (wrap 32 (pathText p).length) (pathText p) me ds) s
        fun _ s' => Wipes (Below t me p) s s'
  | [], s, _, _ => by
    rw [nukeEntries, returns_pure]
    exact Wipes.refl _ s
  | d :: ds, s, hdir, hsub => by
    rw [nukeEntries]
    split_ifs with hskip
    · exact returns_nukeEntries hspec hlen hdev ds hdir hsub
    · rw [returns_bind]
      refine (returns_nukeDirent (k := nameOf d hskip) (hspec _) hdir hlen hsub hdev).mono
        fun r s1 hw1 => ?_
      have hw : Wipes (Below t me p) s s1 := hw1.mono fun q hq => below_of_within hq
      cases r with
      | some err => exact returns_pure.2 hw
      | none =>
        have hdir1 : s1.tree.IsDir p := hw.tree.isDir (not_below p) hdir
        have hsub1 : Pruned (OnDevice t me) t s1.tree :=
          hsub.trans (hw.tree.mono fun q hq => hq.1.2)
        exact (returns_nukeEntries hspec hlen hdev ds hdir1 hsub1).mono fun _ _ hw2 => hw.trans hw2

/-- **`nuke_dir`**, given its contract for the entries, which are reached only by a path that is not
too long. -/
theorem dirSpec_of_entries
    (hspec : (pathText p).length < PATH_MAX → ∀ k, DirSpec arch t me (p ++ [k])) :
    DirSpec arch t me p := by
  intro s n hn hsub hdev
  rw [nukeDir, returns_bind]
  refine returns_lstat hn (fun e => returns_pure.2 (Wipes.next _ s)) fun hlen => ?_
  change Returns (if n.isDir = false then _ else _) (Sys.next s) _
  split_ifs with hkind
  · exact returns_pure.2 (Wipes.next _ s)
  · have hdir : s.tree.IsDir p := ⟨n, hn, Bool.of_not_eq_false hkind⟩
    -- The device that the entries are compared with is the one of the root.
    have hme : n.dev = me := by
      obtain ⟨m, hm, hme⟩ := hdev p List.prefix_rfl
      rw [hsub.find_some hn] at hm
      cases hm
      exact hme
    rw [returns_bind]
    refine returns_opendir (s := Sys.next s) hdir hlen (fun e => ?_) fun entries => ?_
    · exact returns_pure.2 (Wipes.next _ _).of_next
    · rw [← hme] at hspec hdev hsub ⊢
      exact (returns_nukeEntries (s := Sys.next (Sys.next s)) (hspec hlen) hlen hdev entries hdir
        hsub).mono fun _ _ h => h.of_next.of_next

/-- The contract of `nuke_dir` for every path: the paths get longer on the way down, and one that is
too long for the kernel is not entered. -/
theorem dirSpec : ∀ (j : ℕ) (p : Path), PATH_MAX ≤ (pathText p).length + j → DirSpec arch t me p
  | 0, p, hj => dirSpec_of_entries fun hlen => absurd hj (not_le.2 hlen)
  | j + 1, p, hj => dirSpec_of_entries fun _ k => by
    refine dirSpec j (p ++ [k]) ?_
    rw [pathText_concat, List.length_append, List.length_cons]
    omega

end

/-! ### Devices and mount points -/

/-- The device that `lstat` finds for a path. -/
def deviceOf (s : Sys) (w : List UInt8) : Option Dev :=
  match locate s.tree s.cwd false w with
  | .ok (_, n) => some n.dev
  | .error _ => none

/-- **A mount point**: a node on another device than its parent. -/
def MountPoint (t : FileTree) (m : Path) : Prop :=
  ∃ p k n d, m = p ++ [k] ∧ t.find m = some n ∧ t.find p = some d ∧ n.dev ≠ d.dev

/-- Between two states, a call of `unlink` or `rmdir` with the path `w` was carried out. -/
def Removed (s s' : Sys) (w : List UInt8) : Prop :=
  ∃ es, s'.trace = s.trace ++ es ∧ (.unlink w ∈ es ∨ .rmdir w ∈ es)

variable {w : List UInt8} {n : Node}

variable {t : FileTree} {s : Sys} {p : Path}

lemma deviceOf_pathText (hlen : (pathText p).length < PATH_MAX)
    (hn : s.tree.find p = some n) : deviceOf s (pathText p) = some n.dev := by
  rw [deviceOf, locate_of_resolve (resolve_find hlen hn) hn]

lemma MountPoint.not_onDevice {me : Dev} {m q : Path} (hm : MountPoint t m)
    (hq : m <+: q) : ¬ OnDevice t me q := by
  obtain ⟨p, k, n, d, rfl, hn, hd, hne⟩ := hm
  intro h
  obtain ⟨n', hn', hme⟩ := h _ hq
  obtain ⟨d', hd', hme'⟩ := h p ((List.prefix_append p [k]).trans hq)
  rw [hn] at hn'
  rw [hd] at hd'
  cases hn'
  cases hd'
  exact hne (hme.trans hme'.symm)

lemma Wipes.onDevice_of_removed {D : Path → Prop} {s' : Sys} (h : Wipes D s s')
    (hw : Removed s s' w) : ∃ p, D p ∧ (pathText p).length < PATH_MAX ∧ w = pathText p := by
  obtain ⟨es, hes, hall⟩ := h.trace
  obtain ⟨es', hes', hmem⟩ := hw
  obtain rfl : es' = es := List.append_cancel_left (hes'.symm.trans hes)
  rcases hmem with he | he
  · obtain ⟨p, hp, hlen, heq | heq⟩ := hall _ he <;> cases heq
    exact ⟨p, hp, hlen, rfl⟩
  · obtain ⟨p, hp, hlen, heq | heq⟩ := hall _ he <;> cases heq
    exact ⟨p, hp, hlen, rfl⟩

lemma returns_nukeDir_root (arch : Arch) (s : Sys) {root : Node}
    (hroot : s.tree.find [] = some root) :
    Returns (nukeDir arch slash) s fun _ s' => Wipes (OnDevice s.tree root.dev) s s' := by
  have hdev : OnDevice s.tree root.dev [] := by
    intro q hq
    obtain rfl := List.prefix_nil.1 hq
    exact ⟨root, hroot, rfl⟩
  have hspec : DirSpec arch s.tree root.dev [] := dirSpec PATH_MAX [] (Nat.le_add_left _ _)
  exact (hspec s root hroot (Pruned.refl _ _) hdev).mono fun _ _ h => h.mono fun q hq => hq.1.2

/-- **The deletion stays on the device of the root.**  For every tree and all answers of the kernel,
`nuke_dir("/")` returns. Every path that it has unlinked or removed is on the device of the root,
and every node at or below a mount point is still there as it was. -/
theorem nuke_dir_stays_on_device (arch : Arch) (s : Sys) :
    Returns (nukeDir arch slash) s fun _ s' => ∃ me, deviceOf s slash = some me ∧
      (∀ w, Removed s s' w → deviceOf s w = some me) ∧
      ∀ m q, MountPoint s.tree m → m <+: q → s'.tree.find q = s.tree.find q := by
  obtain ⟨root, hroot, -⟩ := s.tree.root
  refine (returns_nukeDir_root arch s hroot).mono fun _ s' h => ⟨root.dev, ?_, ?_, ?_⟩
  · exact deviceOf_pathText (p := []) (by decide) hroot
  · intro w hw
    obtain ⟨p, hp, hlen, rfl⟩ := h.onDevice_of_removed hw
    obtain ⟨n, hn, hme⟩ := hp p List.prefix_rfl
    rw [deviceOf_pathText hlen hn, hme]
  · intro m q hm hq
    exact h.tree.find_eq (hm.not_onDevice hq)

/-! ### The new root -/

variable {cwd : Path}

lemma find_of_locate {follow : Bool}
    (h : locate t cwd follow w = .ok (p, n)) : t.find p = some n := by
  rcases hr : resolve t cwd follow w with e | q
  · rw [locate, hr] at h
    cases h
  · rcases hq : t.find q with _ | m
    · rw [locate_of_none hr hq] at h
      cases h
    · rw [locate_of_resolve hr hq] at h
      cases h
      exact hq

lemma locate_dot (hn : t.find cwd = some n) : locate t cwd true dot = .ok (cwd, n) :=
  locate_of_resolve rfl hn

lemma returns_stat
    {Q : Except Errno Node → Sys → Prop} (hw : locate s.tree s.cwd true w = .ok (p, n))
    (herr : ∀ e, Q (.error e) (Sys.next s)) (hok : Q (.ok n) (Sys.next s)) :
    Returns (stat w) s Q := by
  rw [stat, returns_bind]
  refine returns_lookup (fun e => returns_pure.2 (herr e)) ?_
  rw [hw]
  exact returns_pure.2 hok

lemma returns_statfs
    {Q : Except Errno ℕ → Sys → Prop} (hw : locate s.tree s.cwd true w = .ok (p, n))
    (herr : ∀ e, Q (.error e) (Sys.next s)) (hok : Q (.ok (s.f_type n.dev)) (Sys.next s)) :
    Returns (statfs w) s Q := by
  rw [statfs, returns_bind, returns_get, returns_bind]
  refine returns_lookup (fun e => returns_pure.2 (herr e)) ?_
  rw [hw]
  exact returns_pure.2 hok

lemma returns_chdir {Q : Option Errno → Sys → Prop} (herr : ∀ e, Q (some e) (Sys.next s))
    (hok : ∀ p n, locate s.tree s.cwd true w = .ok (p, n) →
      Q none { Sys.next s with cwd := p, trace := s.trace ++ [.chdir w] }) :
    Returns (chdir w) s Q := by
  rw [chdir, returns_bind]
  refine returns_lookup (fun e => returns_pure.2 (herr e)) ?_
  rcases hw : locate s.tree s.cwd true w with e | ⟨p, n⟩
  · exact returns_pure.2 (herr e)
  · change Returns (if n.isDir = true then _ else _) _ _
    split_ifs
    · rw [returns_bind, returns_modify, returns_pure]
      exact hok p n hw
    · exact returns_pure.2 (herr _)

lemma returns_perform (e : Event) (s : Sys) :
    Returns (perform e) s fun _ s' => s'.tree = s.tree ∧ s'.cwd = s.cwd := by
  rw [perform, returns_bind, returns_answer]
  cases (s.answers 0).fail with
  | some e => exact returns_pure.2 ⟨rfl, rfl⟩
  | none =>
    change Returns (modify _ >>= fun _ => pure none) (Sys.next s) _
    rw [returns_bind, returns_modify, returns_pure]
    exact ⟨rfl, rfl⟩

lemma returns_perform_else {α : Type} {R : Sys → Prop} {m : α} {c : Call α}
    (hkeep : ∀ s s' : Sys, s'.tree = s.tree → s'.cwd = s.cwd → R s → R s') (e : Event)
    (hc : ∀ s, R s → Returns c s fun _ s' => R s') (s : Sys) (hs : R s) :
    Returns (perform e >>= fun r => if r.isSome then pure m else c) s fun _ s' => R s' := by
  rw [returns_bind]
  refine (returns_perform e s).mono fun r s' ⟨htree, hcwd⟩ => ?_
  have hs' : R s' := hkeep s s' htree hcwd hs
  split_ifs
  · exact returns_pure.2 hs'
  · exact hc s' hs'

/-- The root of `s` is on a ramfs or tmpfs, in the tree `t` only nodes on its device are gone, and
`cwd`, the directory that `realroot` names, is there with all that is below it. -/
structure Spared (s : Sys) (root : Node) (realroot : List UInt8) (t : FileTree) (cwd : Path) :
    Prop where
  named : ∃ n, locate s.tree s.cwd true realroot = .ok (cwd, n)
  magic : s.f_type root.dev = RAMFS_MAGIC ∨ s.f_type root.dev = TMPFS_MAGIC
  pruned : Pruned (OnDevice s.tree root.dev) s.tree t
  kept : ∀ q, cwd <+: q → t.find q = s.tree.find q

/-- **`run_init` spares the new root**: it deletes nothing, or only the initramfs around the
directory that becomes the new root. -/
theorem run_init_spares_new_root (arch : Arch) (s : Sys) (realroot console init : List UInt8) :
    ∃ root, s.tree.find [] = some root ∧ Returns (runInit arch realroot console init) s fun _ s' =>
      s'.tree = s.tree ∨ Spared s root realroot s'.tree s'.cwd := by
  obtain ⟨root, hroot, -⟩ := s.tree.root
  refine ⟨root, hroot, ?_⟩
  have hslash : ∀ cwd follow, locate s.tree cwd follow slash = .ok ([], root) := fun cwd follow =>
    locate_of_resolve (resolve_dir (p := []) (by decide) s.tree.root) hroot
  rw [runInit, returns_bind]
  refine returns_chdir (fun e => returns_pure.2 (Or.inl rfl)) fun cwd node hnamed => ?_
  have hnode := find_of_locate hnamed
  rw [if_neg (by decide), returns_bind]
  refine returns_stat (hslash _ _) (fun e => returns_pure.2 (Or.inl rfl)) ?_
  change Returns (stat dot >>= _) _ _
  rw [returns_bind]
  refine returns_stat (locate_dot hnode) (fun e => returns_pure.2 (Or.inl rfl)) ?_
  change Returns (if root.dev = node.dev then _ else _) _ _
  split_ifs with hdev
  · exact returns_pure.2 (Or.inl rfl)
  change Returns (statfs slash >>= _) _ _
  rw [returns_bind]
  refine returns_statfs (hslash _ _) (fun e => returns_pure.2 (Or.inl rfl)) ?_
  change Returns (if s.f_type root.dev ≠ RAMFS_MAGIC ∧ s.f_type root.dev ≠ TMPFS_MAGIC then _
    else _) _ _
  split_ifs with hmagic
  · exact returns_pure.2 (Or.inl rfl)
  rw [returns_bind]
  refine Returns.mono (@returns_nukeDir_root arch _ root hroot) fun r s' hw => ?_
  -- The current directory itself is on another device than the root.
  have hnew : ∀ q, cwd <+: q → ¬ OnDevice s.tree root.dev q := by
    intro q hq h
    obtain ⟨n, hn, hme⟩ := h cwd hq
    rw [hnode] at hn
    cases hn
    exact hdev hme.symm
  have hcwd : s'.cwd = cwd := hw.cwd
  have hspared : Spared s root realroot s'.tree s'.cwd := by
    refine ⟨⟨node, hcwd ▸ hnamed⟩, ?_, hw.tree, fun q hq => hw.tree.find_eq (hnew q (hcwd ▸ hq))⟩
    rw [not_and_or, not_not, not_not] at hmagic
    exact hmagic
  split_ifs
  · exact returns_pure.2 (Or.inr hspared)
  · have hkeep : ∀ s1 s2 : Sys, s2.tree = s1.tree → s2.cwd = s1.cwd → s1.tree = s.tree ∨
        Spared s root realroot s1.tree s1.cwd →
        s2.tree = s.tree ∨ Spared s root realroot s2.tree s2.cwd := by
      intro s1 s2 htree hcwd h
      rwa [htree, hcwd]
    exact returns_perform_else hkeep _ (returns_perform_else hkeep _ (returns_perform_else hkeep _
      (returns_perform_else hkeep _ (returns_perform_else hkeep _ fun _ hs =>
        returns_pure.2 hs)))) s' (Or.inr hspared)

end Klibc.RunInit.Device
