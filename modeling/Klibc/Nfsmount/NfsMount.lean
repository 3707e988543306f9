import Klibc.Nfsmount.Handles

/-! # Mounting, and undoing it

`nfs_mount` registers the mount with the server by the call `MNT` before it gets a socket and
mounts. If that fails, the call `UMNT` should undo the registration. It is made for the local path,
where the registration was for the remote one. The calls are those of `Mount`; what the other
functions return is known in advance. -/

namespace Klibc.Nfsmount.NfsMount

open Lib.Total Mount
open SunRpc (Client)
open Handles (Version version returns_mount_bail returns_access exists_rpcCall)

/-! ### The code -/

def NFS_MOUNT_FLAGMASK : ℕ := 0xffff

/-- What `get_ports`, `socket`, `bindresvport` and `mount` return, and the client, if there is
one. -/
structure Host where
  getPorts : ℤ
  client : Option Client
  socket : ℤ
  bindresvport : ℤ
  mount : ℤ

inductive Event
  | rpcCall (proc version : ℕ) (path : List UInt8)
  | clientFree
  | close (sock : ℤ)
  deriving DecidableEq

/-- What `mount_call` calls: nothing if there is no memory for it. -/
def calls (proc version : ℕ) (path : Path) (p : Prog) : List Event :=
  if (p.malloc 0).isSome then [.rpcCall proc version path.bytes] else []

/-- The functions that `data->flags` asks for. -/
def versionOf (data : NfsMountData) : Version :=
  if data.flags &&& NFS_MOUNT_VER3 ≠ 0 then .v3 else .v2

def umount : Version → Path → Client → Call ℤ
  | .v2 => umountV2
  | .v3 => umountV3

/-- The variables of `nfs_mount`, what was called so far, and whether `bail` was left out. -/
structure Vars where
  clnt : Option Client
  mounted : Bool
  sock : ℤ
  data : NfsMountData
  events : List Event
  done : Bool

section
variable (h : Host)

/-- `nfs_mount` up to `bail`. -/
def attempt (remPath : Path) (data : NfsMountData) : Call Vars := do
  let v : Vars := ⟨none, false, -1, data, [], false⟩
  if h.getPorts ≠ 0 then return v
  else
    match h.client with
    | none => return v
    | some clnt =>
      let es := calls MNTPROC_MNT (version (versionOf data)) remPath (← get)
      let (ret, data) ← Handles.mount (versionOf data) remPath data clnt
      let v := { v with clnt := some clnt, events := es, data := data }
      if ret = -1 then return v
      else
        let v := { v with mounted := true, sock := h.socket }
        if v.sock = -1 then return v
        else if h.bindresvport = -1 then return v
        else
          let v := { v with data := { data with flags := data.flags &&& NFS_MOUNT_FLAGMASK } }
          if h.mount = -1 then return v else return { v with done := true }

/-- The calls at `bail`. -/
def undo (path : Path) (v : Vars) : Call (List Event) := do
  match v.clnt with
  | none => return []
  | some clnt =>
    if ¬v.done ∧ v.mounted then
      let es := calls MNTPROC_UMNT (version (versionOf v.data)) path (← get)
      let _ ← umount (versionOf v.data) path clnt
      return es
    else return []

def nfsMount (remPath path : Path) (data : NfsMountData) : Call (ℤ × List Event) := do
  let v ← attempt h remPath data
  let es ← undo path v
  return (if v.done then h.mount else -1, v.events ++ es ++
    (if v.clnt.isSome then [.clientFree] else []) ++ if v.sock ≠ -1 then [.close v.sock] else [])

end

/-! ### Undoing -/

def Event.isUmnt : Event → Bool
  | .rpcCall proc _ _ => proc = MNTPROC_UMNT
  | _ => false

section
variable (h : Host) (remPath path : Path) (data : NfsMountData) (p : Prog)

/-- The call `MNT` is made and succeeds. -/
def MntSucceeds : Prop :=
  h.getPorts = 0 ∧ ∃ clnt, h.client = some clnt ∧
    Returns (mountCall MNTPROC_MNT (version (versionOf data)) remPath clnt) p fun r _ => r = 0

def FailsLater : Prop := h.socket = -1 ∨ h.bindresvport = -1 ∨ h.mount = -1

instance : Decidable (FailsLater h) := inferInstanceAs (Decidable (_ ∨ _))

/-- What is asked of `nfs_mount` when it fails. -/
def Undoes (r : ℤ × List Event) : Prop :=
  (MntSucceeds h remPath data p ∧ FailsLater h → r.1 = -1 ∧
    r.2.filter Event.isUmnt = [.rpcCall MNTPROC_UMNT (version (versionOf data)) remPath.bytes] ∧
    r.2.count .clientFree = 1 ∧ (h.socket ≠ -1 → r.2.count (.close h.socket) = 1)) ∧
  (¬MntSucceeds h remPath data p → r.2.filter Event.isUmnt = [])

end

section
variable {h : Host} {remPath path : Path} {data : NfsMountData} {p : Prog} {c : Client}

/-- **`mount_call` returns** 0 or -1, and it has called `malloc` once. -/
theorem mountCall_returns (proc version : ℕ) (path : Path) (c : Client) (p : Prog) :
    Returns (mountCall proc version path c) p fun r q => (r = 0 ∧ (p.malloc 0).isSome ∨ r = -1) ∧
      q.malloc = fun i => p.malloc (i + 1) := by
  rw [mountCall, returns_bind, Mount.malloc]
  simp only [returns_bind, returns_get, returns_set, returns_pure]
  cases p.malloc 0 with
  | none => exact returns_mount_bail.2 ⟨.inr rfl, rfl⟩
  | some found =>
    obtain ⟨ret, t, hlen, -, -, hcall⟩ := exists_rpcCall (p := p) c proc version path found
    rw [returns_bind, returns_iff_of_eq hcall]
    simp only
    split_ifs
    · exact returns_pure.2 ⟨.inr rfl, rfl⟩
    · exact returns_pure.2 ⟨.inl ⟨rfl, rfl⟩, rfl⟩
    · exact returns_mount_bail.2 ⟨.inr rfl, rfl⟩
    · rw [returns_bind, returns_get]
      split_ifs
      · exact returns_mount_bail.2 ⟨.inr rfl, rfl⟩
      · exact returns_pure.2 ⟨.inl ⟨rfl, rfl⟩, rfl⟩

lemma umount_eq (v : Version) : umount v path c = mountCall MNTPROC_UMNT (version v) path c := by
  cases v <;> rfl

lemma versionOf_mask (data : NfsMountData) :
    versionOf { data with flags := data.flags &&& NFS_MOUNT_FLAGMASK } = versionOf data := by
  rw [versionOf, versionOf, Nat.and_assoc]
  rfl

/-- `data->flags` as `mount_v2` and `mount_v3` leave it. -/
def Marked (data data' : NfsMountData) : Prop :=
  data'.flags = data.flags ∨
    versionOf data = .v3 ∧ data'.flags = data.flags ||| NFS_MOUNT_VER3

lemma Marked.versionOf {data' : NfsMountData} (hm : Marked data data') :
    versionOf data' = versionOf data := by
  rcases hm with hflags | ⟨hv, hflags⟩
  · rw [NfsMount.versionOf, NfsMount.versionOf, hflags]
  · have hpos := Nat.right_le_or (n := data.flags &&& NFS_MOUNT_VER3) (m := NFS_MOUNT_VER3)
    have hver : NFS_MOUNT_VER3 = 128 := rfl
    rw [hv, NfsMount.versionOf, hflags, Nat.and_or_distrib_right, Nat.and_self, if_pos (by omega)]

/-- `mount_v2` and `mount_v3` return what `mount_call` does, if the handle fits. -/
lemma mount_returns
    (hfits : Returns (Handles.mount (versionOf data) path data c) p fun _ _ => True) :
    ∃ ret q data', mountCall MNTPROC_MNT (version (versionOf data)) path c p = some (ret, q) ∧
      Handles.mount (versionOf data) path data c p = some ((ret, data'), q) ∧
      Marked data data' := by
  obtain ⟨ret, q, hcall, -⟩ := mountCall_returns MNTPROC_MNT (version (versionOf data)) path c p
  suffices hret : Returns (Handles.mount (versionOf data) path data c) p fun r q' =>
      r.1 = ret ∧ q' = q ∧ Marked data r.2 by
    obtain ⟨⟨_, data'⟩, _, hmount, rfl, rfl, hmarked⟩ := hret
    exact ⟨_, _, data', hcall, hmount, hmarked⟩
  unfold Marked
  cases hv : versionOf data with
  | v2 =>
    rw [hv] at hfits hcall
    rw [version] at hcall
    rw [Handles.mount, mountV2, returns_bind, returns_iff_of_eq hcall] at hfits ⊢
    split_ifs at hfits ⊢
    · simp only [returns_bind, returns_get, returns_access, returns_pure] at hfits ⊢
      obtain ⟨fh, hfh, root, hroot, old, hold, -⟩ := hfits
      exact ⟨fh, hfh, root, hroot, old, hold, by simp⟩
    · exact returns_pure.2 ⟨rfl, rfl, .inl rfl⟩
  | v3 =>
    rw [hv] at hfits hcall
    rw [version] at hcall
    rw [Handles.mount, mountV3, returns_bind, returns_iff_of_eq hcall] at hfits ⊢
    split_ifs at hfits ⊢
    · simp only [returns_bind, returns_get, returns_access, returns_pure] at hfits ⊢
      obtain ⟨fh, hfh, root, hroot, -⟩ := hfits
      exact ⟨fh, hfh, root, hroot, by simp⟩
    · exact returns_pure.2 ⟨rfl, rfl, .inl rfl⟩

lemma undo_of_not_mounted {v : Vars} (hv : v.mounted = false) :
    Returns (undo path v) p fun es _ => es = [] := by
  rw [undo]
  cases v.clnt <;> simp [hv]

lemma undo_of_mounted {v : Vars} (hc : v.clnt = some c) (hv : v.mounted = true) :
    Returns (undo path v) p fun es _ =>
      es = if v.done then [] else calls MNTPROC_UMNT (version (versionOf v.data)) path p := by
  rw [undo, hc]
  simp only [hv, and_true]
  cases v.done with
  | true => exact returns_pure.2 rfl
  | false =>
    rw [if_pos Bool.false_ne_true, returns_bind, returns_get, returns_bind, umount_eq]
    exact (mountCall_returns _ _ _ _ _).mono fun _ _ _ => returns_pure.2 rfl

section
variable (hfits : ∀ c, h.client = some c →
  Returns (Handles.mount (versionOf data) remPath data c) p fun _ _ => True)
include hfits

lemma attempt_of_fails (hmnt : ¬MntSucceeds h remPath data p) :
    Returns (attempt h remPath data) p fun v _ => v.mounted = false ∧ v.done = false ∧
      v.events.filter Event.isUmnt = [] := by
  rw [attempt]
  by_cases hports : h.getPorts = 0
  · rw [if_neg (not_not.2 hports)]
    cases hclient : h.client with
    | none => exact returns_pure.2 ⟨rfl, rfl, rfl⟩
    | some c =>
      obtain ⟨ret, q, data', hcall, hmount, -⟩ := mount_returns (hfits c hclient)
      have hret : ret = -1 := by
        have hcases := (mountCall_returns _ _ _ _ _).elim hcall
        refine (hcases.1.resolve_left fun h0 => hmnt ⟨hports, c, hclient, ?_⟩)
        exact (returns_iff_of_eq hcall).2 h0.1
      rw [returns_bind, returns_get, returns_bind, returns_iff_of_eq hmount]
      simp only [hret, if_true, returns_pure, true_and]
      unfold calls
      split_ifs <;> rfl
  · rw [if_pos hports, returns_pure]
    exact ⟨rfl, rfl, rfl⟩

lemma attempt_of_succeeds (hmnt : MntSucceeds h remPath data p) :
    Returns (attempt h remPath data) p fun v q => q.malloc 0 = p.malloc 1 ∧ ∃ c data',
      versionOf data' = versionOf data ∧ v = ⟨some c, true, h.socket, data',
        [.rpcCall MNTPROC_MNT (version (versionOf data)) remPath.bytes],
        !decide (FailsLater h)⟩ := by
  obtain ⟨hports, c, hclient, hret⟩ := hmnt
  obtain ⟨ret, q, data', hcall, hmount, hmarked⟩ := mount_returns (hfits c hclient)
  obtain rfl : ret = 0 := hret.elim hcall
  obtain ⟨hcases, hmalloc⟩ := (mountCall_returns _ _ _ _ _).elim hcall
  have hfirst : (p.malloc 0).isSome := (hcases.resolve_right (by decide)).2
  rw [attempt, if_neg (not_not.2 hports), hclient, returns_bind, returns_get, returns_bind,
    returns_iff_of_eq hmount]
  simp only [calls, hfirst, if_true, FailsLater]
  have hq : q.malloc 0 = p.malloc 1 := by rw [hmalloc]
  rw [if_neg (by decide)]
  split_ifs with hsock hbind hfail
  · exact returns_pure.2 ⟨hq, c, data', hmarked.versionOf, by simp [hsock]⟩
  · exact returns_pure.2 ⟨hq, c, data', hmarked.versionOf, by simp [hsock, hbind]⟩
  · exact returns_pure.2 ⟨hq, c, _, (versionOf_mask data').trans hmarked.versionOf,
      by simp [hsock, hbind, hfail]⟩
  · exact returns_pure.2 ⟨hq, c, _, (versionOf_mask data').trans hmarked.versionOf,
      by simp [hsock, hbind, hfail]⟩

end

/-- **`nfs_mount`** undoes a registration iff both paths are the same and there is memory for the
call, provided that the handle it gets fits. -/
theorem nfs_mount_iff (h : Host) (remPath path : Path) (data : NfsMountData) (p : Prog)
    (hfits : ∀ c, h.client = some c →
      Returns (Handles.mount (versionOf data) remPath data c) p fun _ _ => True) :
    Returns (nfsMount h remPath path data) p (fun r _ => Undoes h remPath data p r) ↔
      (MntSucceeds h remPath data p ∧ FailsLater h →
        path.bytes = remPath.bytes ∧ (p.malloc 1).isSome) := by
  by_cases hmnt : MntSucceeds h remPath data p
  · obtain ⟨v, q, hattempt, hq, c, data', hver, hv⟩ := attempt_of_succeeds hfits hmnt
    obtain ⟨es, q', hundo, hes⟩ : Returns (undo path v) q _ :=
      undo_of_mounted (by rw [hv]) (by rw [hv])
    rw [nfsMount, returns_bind, returns_iff_of_eq hattempt, returns_bind, returns_iff_of_eq hundo,
      returns_pure]
    have hne : MNTPROC_MNT ≠ MNTPROC_UMNT := by decide
    by_cases hfail : FailsLater h
    · by_cases hmalloc : (p.malloc 1).isSome <;> by_cases hsock : h.socket = -1
      all_goals
        simp [Undoes, hmnt, hfail, hes, hv, calls, hq, hver, hmalloc, hsock, Event.isUmnt, hne]
    · simp [Undoes, hmnt, hfail]
  · obtain ⟨v, q, hattempt, hmounted, hdone, hnone⟩ := attempt_of_fails hfits hmnt
    obtain ⟨es, q', hundo, rfl⟩ : Returns (undo path v) q _ := undo_of_not_mounted hmounted
    rw [nfsMount, returns_bind, returns_iff_of_eq hattempt, returns_bind, returns_iff_of_eq hundo,
      returns_pure]
    refine iff_of_true ⟨fun hs => absurd hs.1 hmnt, fun _ => ?_⟩ fun hs => absurd hs.1 hmnt
    rw [List.append_nil, List.filter_append, List.filter_append, hnone]
    split_ifs <;> rfl

end

/-- A machine without a socket. -/
def noSocket : Host := ⟨0, some .udp, -1, 0, 0⟩

def pathA : Path := ⟨[47, 97], by decide, by decide⟩

def pathB : Path := ⟨[47, 98], by decide, by decide⟩

/-- A program that gets a handle from the server. -/
def registered : Prog := Handles.mounting [Handles.handleReply]

def version3 : NfsMountData := { Handles.noHandle with flags := NFS_MOUNT_VER3 }

lemma mntSucceeds_registered : MntSucceeds noSocket pathA version3 registered :=
  ⟨rfl, .udp, rfl, by decide +kernel⟩

/-- The registration of `/a`, to be mounted on `/b`, is not undone. -/
theorem nfsMount_other_path :
    Returns (nfsMount noSocket pathA pathB version3) registered (fun r _ =>
      r = (-1, [.rpcCall MNTPROC_MNT NFS_MNT3_VERSION [47, 97],
        .rpcCall MNTPROC_UMNT NFS_MNT3_VERSION [47, 98], .clientFree])) ∧
    ¬Returns (nfsMount noSocket pathA pathB version3) registered fun r _ =>
      Undoes noSocket pathA version3 registered r := by
  have hrun : Returns (nfsMount noSocket pathA pathB version3) registered (fun r _ =>
      r = (-1, [.rpcCall MNTPROC_MNT NFS_MNT3_VERSION [47, 97],
        .rpcCall MNTPROC_UMNT NFS_MNT3_VERSION [47, 98], .clientFree])) := by decide +kernel
  refine ⟨hrun, fun h => ?_⟩
  obtain ⟨r, q, heq, rfl⟩ := hrun
  have humnt := ((h.elim heq).1 ⟨mntSucceeds_registered, .inl rfl⟩).2.1
  exact absurd humnt (by decide)

/-- Mounted on `/a`, it would be. -/
theorem nfs_mount_same_path : MntSucceeds noSocket pathA version3 registered ∧
    Returns (nfsMount noSocket pathA pathA version3) registered fun r _ =>
      Undoes noSocket pathA version3 registered r := by
  refine ⟨mntSucceeds_registered, (nfs_mount_iff noSocket pathA pathA version3 registered ?_).2
    fun _ => ⟨rfl, rfl⟩⟩
  rintro c hc
  cases hc
  decide +kernel

end Klibc.Nfsmount.NfsMount
