import Klibc.RunInit.Nuke
import Klibc.Stdio.Plain

/-! # The paths of the deletion

`nuke_dir` puts the path of an entry together with `snprintf`, in a buffer that is large enough. The
text it makes for a path from the root is `pathText`, and below a directory that text leads to the
path itself: `.`, `..` and symbolic links do not come in. -/

namespace Klibc.RunInit.Paths

open Lib.Machine Lib.FileTree Stdio.Vsnprintf Stdio.Truncation List Stdio.Iso Stdio.Plain Nuke

/-! ### The buffer -/

lemma stringAt_eq {buf : ℤ → Option UInt8} : ∀ {F : List UInt8} {j : ℤ} {k : ℕ}, 0 ∉ F →
    (∀ i : ℕ, i < F.length → buf (j + i) = F[i]?) → buf (j + F.length) = some 0 → F.length < k →
    stringAt buf j k = some F
  | F, j, 0, _, _, _, hk => absurd hk (Nat.not_lt_zero _)
  | [], j, k + 1, _, _, hend, _ => by
    rw [length_nil, Nat.cast_zero, add_zero] at hend
    simp [stringAt, hend]
  | b :: F, j, k + 1, h0, htext, hend, hk => by
    rw [mem_cons, not_or] at h0
    have hb : buf j = some b := by simpa using htext 0 (Nat.succ_pos _)
    have hrest : stringAt buf (j + 1) k = some F := by
      refine stringAt_eq h0.2 (fun i hi => ?_) ?_ (Nat.lt_of_succ_lt_succ hk)
      · have := htext (i + 1) (Nat.succ_lt_succ hi)
        rwa [getElem?_cons_succ, Nat.cast_add, Nat.cast_one, add_comm (i : ℤ), ← add_assoc] at this
      · rwa [length_cons, Nat.cast_add, Nat.cast_one, add_comm (F.length : ℤ), ← add_assoc] at hend
    rw [stringAt, hb, hrest]
    simp [Ne.symm h0.1]

/-- The pieces of `"%s/%s"`. -/
def pathPieces {dir name : List UInt8} (hdir : 0 ∉ dir) (hname : 0 ∉ name) : List Piece :=
  [.str dir hdir, .lit (chr '/') (by decide) (by decide), .str name hname]

lemma text_pathPieces {dir name : List UInt8} (hdir : 0 ∉ dir) (hname : 0 ∉ name) :
    (pathPieces hdir hname).flatMap Piece.text = dir ++ chr '/' :: name := by
  simp [pathPieces, Piece.text]

/-- **The path of an entry.**  The buffer has room for it, and the assertion holds. -/
theorem entryPath_eq (arch : Arch) {dir name : List UInt8} (hdir : 0 ∉ dir) (hname : 0 ∉ name)
    (hlen : dir.length + name.length + 2 ≤ INT_MAX) :
    entryPath arch (wrap 32 dir.length) dir name = some (dir ++ chr '/' :: name) := by
  have hmax : INT_MAX = 2 ^ 31 - 1 := rfl
  have hlength : (dir ++ chr '/' :: name).length = dir.length + name.length + 1 := by
    rw [length_append, length_cons, Nat.add_assoc]
  have hnul : 0 ∉ dir ++ chr '/' :: name := by simp [hdir, hname, chr]
  have htext := text_pathPieces hdir hname
  generalize dir ++ chr '/' :: name = F at hlength hnul htext ⊢
  have hsize : wrap 32 (wrap 32 dir.length + name.length + 2) = (F.length + 1 : ℕ) := by
    rw [add_assoc, wrap_wrap_add, wrap_eq (by decide) (by omega) (by omega), hlength]
    push_cast
    ring
  obtain ⟨r, hr, hret, htrunc⟩ := vsnprintf_plain arch (pathPieces hdir hname)
    (by rw [htext]; omega) (F.length + 1)
  rw [htext] at hret htrunc
  have hbuf : stringAt r.buf 0 (F.length + 1) = some F := by
    have hmin : min F.length (F.length + 1 - 1) = F.length := min_self _
    have hbytes := htrunc.text (Nat.succ_pos _)
    have hend := htrunc.nul (Nat.succ_pos _)
    rw [hmin] at hbytes hend
    refine stringAt_eq hnul (fun i hi => ?_) ?_ (Nat.lt_succ_self _)
    · rw [zero_add, hbytes i hi]
    · rw [zero_add, hend]
  have hformat : formatOf (items arch.bits (pathPieces hdir hname)) = pathFormat := rfl
  have hargs : argsOf (items arch.bits (pathPieces hdir hname)) =
      [.str (some (dir ++ [0])), .str (some (name ++ [0]))] := rfl
  rw [hformat, hargs] at hr
  have hassert : r.ret < ((F.length + 1 : ℕ) : ℤ) := by omega
  simp only [entryPath, hsize, Int.toNat_natCast, hr, Option.bind_eq_bind, Option.bind_some,
    if_pos hassert, hbuf]

/-! ### Names -/

lemma toName_d_name (n : Name) : toName n.d_name = some n :=
  dif_pos ⟨⟨n.nonempty, n.noslash, n.nonul, n.short⟩, n.ordinary⟩

lemma skipped_iff (d : Dirent) : skipped d = true ↔ d.d_name = dot ∨ d.d_name = dotdot := by
  obtain ⟨w, hne, -, hnul, -⟩ := d
  rcases w with _ | ⟨a, _ | ⟨b, _ | ⟨c, w⟩⟩⟩
  · exact absurd rfl hne
  · simp [skipped, dot, dotdot]
  · have hb : b ≠ 0 := fun h0 => hnul (by simp [h0])
    simp [skipped, dot, dotdot, hb]
  · have hb : b ≠ 0 := fun h0 => hnul (by simp [h0])
    have hc : c ≠ 0 := fun h0 => hnul (by simp [h0])
    simp [skipped, dot, dotdot, hb, hc]

def nameOf (d : Dirent) (h : ¬ skipped d = true) : Name := ⟨d, not_or.1 (mt (skipped_iff d).2 h)⟩

/-! ### Texts of paths -/

def pathText (p : Path) : List UInt8 := slash ++ p.flatMap fun n => chr '/' :: n.d_name

lemma pathText_concat (p : Path) (n : Name) :
    pathText (p ++ [n]) = pathText p ++ chr '/' :: n.d_name := by
  simp [pathText]

lemma pathText_nonul (p : Path) : 0 ∉ pathText p := by
  intro h
  rcases mem_append.1 h with h | h
  · exact absurd h (by decide)
  · obtain ⟨n, -, hn⟩ := mem_flatMap.1 h
    rcases mem_cons.1 hn with h0 | h0
    · exact absurd h0 (by decide)
    · exact n.nonul h0

lemma splitOn_pathText (p : Path) :
    (pathText p).splitOn (chr '/') = [] :: [] :: p.map fun n => n.d_name := by
  have hjoin : ∀ p : Path, p.flatMap (fun n => chr '/' :: n.d_name) =
      [chr '/'].intercalate ([] :: p.map fun n => n.d_name) := by
    intro p
    induction p with
    | nil => rfl
    | cons n p ih =>
      rw [flatMap_cons, ih]
      cases p <;> simp [intercalate_cons_cons]
  have htext : pathText p = [chr '/'].intercalate ([] :: [] :: p.map fun n => n.d_name) := by
    rw [pathText, hjoin]
    rfl
  rw [htext]
  refine splitOn_intercalate _ (fun l hl => ?_) (cons_ne_nil _ _)
  rw [mem_cons, mem_cons, mem_map] at hl
  rcases hl with rfl | rfl | ⟨n, -, rfl⟩
  · exact not_mem_nil
  · exact not_mem_nil
  · exact n.noslash

/-! ### Resolution -/

section
variable {t : FileTree} {cwd : Path} {follow : Bool} {p : Path}

/-- **Names lead downwards.**  The walk along names goes through directories only. -/
theorem walkFrom_names (again : Path → List (List UInt8) → Except Errno Path) :
    ∀ (q cur : Path), (∀ r, r <+: q → r ≠ [] → r ≠ q ∨ follow → t.IsDir (cur ++ r)) →
      walkFrom t follow again cur (q.map fun n => n.d_name) = .ok (cur ++ q)
  | [], cur, _ => by rw [append_nil]; rfl
  | n :: q, cur, h => by
    rw [map_cons, walkFrom, if_neg (not_or.2 ⟨n.nonempty, n.ordinary.1⟩),
      if_neg n.ordinary.2, toName_d_name]
    change (if _ then _ else _) = _
    by_cases hlast : q.map (fun n => n.d_name) = [] ∧ ¬ follow
    · rw [if_pos hlast, map_eq_nil_iff.1 hlast.1]
    · rw [if_neg hlast]
      have hdir : t.IsDir (cur ++ [n]) := by
        refine h [n] ⟨q, rfl⟩ (cons_ne_nil _ _) ?_
        rw [or_iff_not_imp_right]
        rintro hfollow hq
        rw [cons_inj_right] at hq
        exact hlast ⟨map_eq_nil_iff.2 hq.symm, hfollow⟩
      obtain ⟨d, hd, hkind⟩ := hdir
      rw [hd, Option.map_some, of_decide_eq_true hkind]
      rw [walkFrom_names again q (cur ++ [n]), append_assoc, singleton_append]
      intro r hr hne hlast
      rw [append_assoc, singleton_append]
      refine h (n :: r) ((prefix_cons_inj n).2 hr) (cons_ne_nil _ _) ?_
      exact hlast.imp_left fun hrq hcons => hrq (cons_inj_right n |>.1 hcons)

lemma resolve_pathText (hlen : (pathText p).length < PATH_MAX)
    (h : ∀ r, r <+: p → r ≠ [] → r ≠ p ∨ follow → t.IsDir r) :
    resolve t cwd follow (pathText p) = .ok p := by
  have hne : pathText p ≠ [] := cons_ne_nil _ _
  have hhead : (pathText p).head? = some (chr '/') := rfl
  rw [resolve, if_neg hne, if_neg (not_le.2 hlen), if_pos hhead, splitOn_pathText]
  change walkFrom t follow _ [] (p.map fun n => n.d_name) = _
  exact walkFrom_names _ p [] h

lemma isDir_of_prefix {q r : Path} (h : t.IsDir q) (hr : r <+: q) : t.IsDir r := by
  obtain ⟨u, rfl⟩ := hr
  exact isDir_of_append h

/-- **The path of a directory** resolves to it. -/
theorem resolve_dir (hlen : (pathText p).length < PATH_MAX) (h : t.IsDir p) :
    resolve t cwd follow (pathText p) = .ok p :=
  resolve_pathText hlen fun _ hr _ _ => isDir_of_prefix h hr

/-- **The path of an entry** resolves to it, even if it is a symbolic link. -/
theorem resolve_entry {k : Name} (hlen : (pathText (p ++ [k])).length < PATH_MAX) (h : t.IsDir p) :
    resolve t cwd false (pathText (p ++ [k])) = .ok (p ++ [k]) := by
  refine resolve_pathText hlen fun r hr _ hne => isDir_of_prefix h ?_
  have hne : r ≠ p ++ [k] := hne.resolve_right Bool.false_ne_true
  rcases prefix_concat_iff.1 hr with he | hr
  · exact absurd he hne
  · exact hr

lemma resolve_find {n : Node} (hlen : (pathText p).length < PATH_MAX) (h : t.find p = some n) :
    resolve t cwd false (pathText p) = .ok p := by
  rcases eq_nil_or_concat' p with rfl | ⟨q, k, rfl⟩
  · exact resolve_dir hlen t.root
  · exact resolve_entry hlen (isDir_of_find_concat h)

lemma locate_of_resolve {w : List UInt8} {n : Node} (hr : resolve t cwd follow w = .ok p)
    (hn : t.find p = some n) : locate t cwd follow w = .ok (p, n) := by
  simp only [locate, hr, hn, bind, Except.bind]

lemma locate_of_none {w : List UInt8} (hr : resolve t cwd follow w = .ok p)
    (hn : t.find p = none) : locate t cwd follow w = .error .ENOENT := by
  simp only [locate, hr, hn, bind, Except.bind]

lemma locate_long {w : List UInt8} (hlen : PATH_MAX ≤ w.length) :
    ∃ e, locate t cwd follow w = .error e := by
  have hr : ∃ e, resolve t cwd follow w = .error e := by
    rw [resolve]
    split_ifs
    exacts [⟨_, rfl⟩, ⟨_, rfl⟩]
  obtain ⟨e, he⟩ := hr
  refine ⟨e, ?_⟩
  change Except.bind (resolve t cwd follow w) _ = _
  rw [he]
  rfl

end

end Klibc.RunInit.Paths
