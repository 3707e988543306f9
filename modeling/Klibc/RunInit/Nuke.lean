import Klibc.Lib.FileTree
import Klibc.Lib.Total
import Klibc.Stdio.Vsnprintf

/-! # `nuke_dir` and `run_init`

The deletion of the initramfs in `runinitlib.c`, and the calls of the kernel it is made of. Every
node of the file tree has the number of its device. Paths are resolved from their text, through
symbolic links. Before each call the kernel may answer with an error of its choice, and what
`readdir` lists is its choice as well. A call that the kernel carries out is recorded.

`run_init` moves the mount of the new root only after the deletion, and the tree is the one before
that. -/

namespace Klibc.RunInit.Nuke

open Lib.Machine Lib.FileTree Stdio.Vsnprintf

/-! ### Files -/

abbrev Dev := ℕ

inductive Kind
  | dir
  | link (target : List UInt8)
  | file (contents : List UInt8)
  deriving DecidableEq

structure Node where
  dev : Dev
  kind : Kind
  deriving DecidableEq

/-- `S_ISDIR(st.st_mode)`. -/
def Node.isDir (n : Node) : Bool := n.kind = .dir

def dot : List UInt8 := [chr '.']

def dotdot : List UInt8 := [chr '.', chr '.']

/-- What `readdir` gives as `d_name`, without the NUL. -/
structure Dirent where
  d_name : List UInt8
  nonempty : d_name ≠ []
  noslash : chr '/' ∉ d_name
  nonul : 0 ∉ d_name
  short : d_name.length < 256

structure Name extends Dirent where
  ordinary : d_name ≠ dot ∧ d_name ≠ dotdot

lemma Name.ext {a b : Name} (h : a.d_name = b.d_name) : a = b := by
  obtain ⟨⟨_, _, _, _, _⟩, _⟩ := a
  obtain ⟨⟨_, _, _, _, _⟩, _⟩ := b
  cases h
  rfl

instance : DecidableEq Name := fun a b =>
  decidable_of_iff (a.d_name = b.d_name) ⟨Name.ext, fun h => h ▸ rfl⟩

abbrev Path := List Name

abbrev FileTree := Tree Name Node Node.isDir

/-! ### The kernel -/

inductive Errno
  | ENOENT | EACCES | EBUSY | ENOTDIR | EISDIR | ENAMETOOLONG | ENOTEMPTY | ELOOP | other (e : ℕ)
  deriving DecidableEq

/-- An answer to a call: an error if the kernel does not carry it out, and for `opendir` the entries
that `readdir` lists until it returns a null pointer. -/
structure Answer where
  fail : Option Errno
  entries : List Dirent

inductive Event
  | unlink (path : List UInt8)
  | rmdir (path : List UInt8)
  | chdir (path : List UInt8)
  | move (source target : List UInt8)
  | chroot (path : List UInt8)
  | console (path : List UInt8)
  | execv (path : List UInt8)
  deriving DecidableEq

structure Sys where
  tree : FileTree
  cwd : Path
  f_type : Dev → ℕ
  answers : ℕ → Answer
  trace : List Event

abbrev Call := StateT Sys Option

def answer : Call Answer := fun s =>
  some (s.answers 0, { s with answers := fun i => s.answers (i + 1) })

def PATH_MAX : ℕ := 4096

def toName (c : List UInt8) : Option Name :=
  if h : (c ≠ [] ∧ chr '/' ∉ c ∧ 0 ∉ c ∧ c.length < 256) ∧ c ≠ dot ∧ c ≠ dotdot then
    some ⟨⟨c, h.1.1, h.1.2.1, h.1.2.2.1, h.1.2.2.2⟩, h.2⟩
  else none

/-- The walk along the components of a path from the directory `cur` on. Behind a symbolic link it
goes on with `again`. The last component is followed only on demand. -/
def walkFrom (t : FileTree) (follow : Bool) (again : Path → List (List UInt8) → Except Errno Path) :
    Path → List (List UInt8) → Except Errno Path
  | cur, [] => .ok cur
  | cur, c :: cs =>
    if c = [] ∨ c = dot then walkFrom t follow again cur cs
    else if c = dotdot then walkFrom t follow again cur.dropLast cs
    else match toName c with
      | none => .error .ENAMETOOLONG
      | some name =>
        if cs = [] ∧ ¬ follow then .ok (cur ++ [name])
        else match (t.find (cur ++ [name])).map Node.kind with
          | none => .error .ENOENT
          | some .dir => walkFrom t follow again (cur ++ [name]) cs
          | some (.file _) => if cs = [] then .ok (cur ++ [name]) else .error .ENOTDIR
          | some (.link target) =>
            again (if target.head? = some (chr '/') then [] else cur)
              (target.splitOn (chr '/') ++ cs)

/-- The walk along a path, through at most `links` symbolic links. -/
def walk (t : FileTree) (follow : Bool) : ℕ → Path → List (List UInt8) → Except Errno Path
  | 0 => walkFrom t follow fun _ _ => .error .ELOOP
  | links + 1 => walkFrom t follow (walk t follow links)

/-- The path that the text `w` names. -/
def resolve (t : FileTree) (cwd : Path) (follow : Bool) (w : List UInt8) : Except Errno Path :=
  if w = [] then .error .ENOENT
  else if PATH_MAX ≤ w.length then .error .ENAMETOOLONG
  else walk t follow 40 (if w.head? = some (chr '/') then [] else cwd) (w.splitOn (chr '/'))

/-- The node that the text `w` names, with its path. -/
def locate (t : FileTree) (cwd : Path) (follow : Bool) (w : List UInt8) :
    Except Errno (Path × Node) := do
  let p ← resolve t cwd follow w
  match t.find p with
  | none => .error .ENOENT
  | some n => .ok (p, n)

/-- The node that a call on the path `w` is about, unless the kernel answers with an error. -/
def lookup (follow : Bool) (w : List UInt8) : Call (Except Errno (Path × Node)) := do
  match (← answer).fail with
  | some e => return .error e
  | none => return locate (← get).tree (← get).cwd follow w

def lstat (w : List UInt8) : Call (Except Errno Node) := do
  return (← lookup false w).map Prod.snd

def stat (w : List UInt8) : Call (Except Errno Node) := do
  return (← lookup true w).map Prod.snd

/-- The removal of the node at `p`, under its text in `e`. -/
def take (p : Path) (e : Event) : Call (Option Errno) := do
  modify fun s => { s with tree := s.tree.erase p, trace := s.trace ++ [e] }
  return none

def unlink (w : List UInt8) : Call (Option Errno) := do
  match ← lookup false w with
  | .error e => return some e
  | .ok (p, n) => if n.isDir then return some .EISDIR else take p (.unlink w)

def rmdir (w : List UInt8) : Call (Option Errno) := do
  match ← lookup false w with
  | .error e => return some e
  | .ok (p, n) =>
    if n.isDir = false then return some .ENOTDIR
    else if p = [] then return some .EBUSY
    else if (← get).tree.childless p then take p (.rmdir w)
    else return some .ENOTEMPTY

/-- `opendir`, and the entries that `readdir` lists then. -/
def opendir (w : List UInt8) : Call (Except Errno (List Dirent)) := do
  let entries := ((← get).answers 0).entries
  match ← lookup true w with
  | .error e => return .error e
  | .ok (_, n) => if n.isDir then return .ok entries else return .error .ENOTDIR

def chdir (w : List UInt8) : Call (Option Errno) := do
  match ← lookup true w with
  | .error e => return some e
  | .ok (p, n) =>
    if n.isDir then
      modify fun s => { s with cwd := p, trace := s.trace ++ [.chdir w] }
      return none
    else return some .ENOTDIR

def statfs (w : List UInt8) : Call (Except Errno ℕ) := do
  let f_type := (← get).f_type
  return (← lookup true w).map fun x => f_type x.2.dev

def perform (e : Event) : Call (Option Errno) := do
  match (← answer).fail with
  | some e => return some e
  | none =>
    modify fun s => { s with trace := s.trace ++ [e] }
    return none

/-! ### Deletion -/

section
variable (arch : Arch)

/-- The string in a buffer with `k` bytes from the index `i` on. -/
def stringAt (buf : ℤ → Option UInt8) (i : ℤ) : ℕ → Option (List UInt8)
  | 0 => none
  | k + 1 => do
    let b ← buf i
    if b = 0 then some [] else (stringAt buf (i + 1) k).map (b :: ·)

/-- `"%s/%s"`. -/
def pathFormat : List UInt8 := [chr '%', chr 's', chr '/', chr '%', chr 's']

/-- The path of an entry, in the buffer that `nuke_dirent` has for it. There is no result if the
assertion fails. -/
def entryPath (len : ℤ) (dir name : List UInt8) : Option (List UInt8) := do
  let bytes := wrap 32 (len + name.length + 2)
  let r ← vsnprintf arch bytes.toNat pathFormat
    [.str (some (dir ++ [0])), .str (some (name ++ [0]))]
  if r.ret < bytes then stringAt r.buf 0 bytes.toNat else none

/-- `d->d_name` is `.` or `..`. -/
def skipped (d : Dirent) : Bool :=
  let c := fun i => (d.d_name ++ [0])[i]?
  c 0 = some (chr '.') && (c 1 = some 0 || (c 1 = some (chr '.') && c 2 = some 0))

/-- `run-init`, compiled for an architecture. -/
abbrev Program := Arch

mutual

def Program.nukeDirent (arch : Program) (len : ℤ) (dir name : List UInt8) (me : Dev) :
    Call (Option Errno) := do
  let path ← liftM (entryPath arch len dir name)
  match ← lstat path with
  | .error _ => return some .ENOENT
  | .ok st => if st.dev ≠ me then return none else arch |>.nuke path
partial_fixpoint

/-- The loop of `nuke_dir` over the entries. -/
def Program.nukeEntries (arch : Program) (len : ℤ) (what : List UInt8) (me : Dev) :
    List Dirent → Call (Option Errno)
  | [] => return none
  | d :: ds =>
    if skipped d then arch |>.nukeEntries len what me ds
    else do
      match ← (arch |>.nukeDirent len what d.d_name me) with
      | some err => return some err
      | none => arch |>.nukeEntries len what me ds
partial_fixpoint

def Program.nukeDir (arch : Program) (what : List UInt8) : Call (Option Errno) := do
  match ← lstat what with
  | .error e => return some e
  | .ok st =>
    if st.isDir = false then return some .ENOTDIR
    else match ← opendir what with
      | .error e => return if e = .EACCES then none else some e
      | .ok entries => arch |>.nukeEntries (wrap 32 what.length) what st.dev entries
partial_fixpoint

def Program.nuke (arch : Program) (what : List UInt8) : Call (Option Errno) := do
  match ← unlink what with
  | none => return none
  | some e =>
    if e = .EISDIR then
      match ← (arch |>.nukeDir what) with
      | some err => return some err
      | none => rmdir what
    else return some e
partial_fixpoint

end

open Program

/-! ### `run_init` -/

def RAMFS_MAGIC : ℕ := 0x858458f6

def TMPFS_MAGIC : ℕ := 0x01021994

def slash : List UInt8 := [chr '/']

/-- `run_init`: an error message, or nothing if the program has become `init`. -/
def runInit (realroot console init : List UInt8) : Call (Option (List UInt8)) := do
  if (← chdir realroot).isSome then return message "chdir to new root"
  let .ok rst ← stat slash | return message "stat"
  let .ok cst ← stat dot | return message "stat"
  if rst.dev = cst.dev then
    return message "current directory on the same filesystem as the root"
  let .ok f_type ← statfs slash | return message "statfs /"
  if f_type ≠ RAMFS_MAGIC ∧ f_type ≠ TMPFS_MAGIC then
    return message "rootfs not a ramfs or tmpfs"
  if (← nukeDir arch slash).isSome then return message "nuking initramfs contents"
  if (← perform (.move dot slash)).isSome then return message "overmounting root"
  if (← perform (.chroot dot)).isSome then return message "chroot"
  if (← perform (.chdir slash)).isSome then return message "chroot"
  if (← perform (.console console)).isSome then return message "opening console"
  if (← perform (.execv init)).isSome then return some init
  return none
where
  message (s : String) : Option (List UInt8) := some (s.toList.map chr)

end

end Klibc.RunInit.Nuke
