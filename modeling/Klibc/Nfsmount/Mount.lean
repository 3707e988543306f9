import Klibc.Nfsmount.SunRpc

/-! # Asking for a file handle

`mount_call`, `mount_v2` and `mount_v3` of `mount.c`. The replies go to the static variable
`mnt_reply`: the reply, a status word and a file handle, which is 32 bytes long in version 2; in
version 3 it has a size in front and up to 64 bytes. `struct nfs_mount_data` is modelled as far as
these functions set it. -/

namespace Klibc.Nfsmount.Mount

open Lib.Slice Lib.Xdr SunRpc

def NFS_MNT_PROGRAM : ℕ := 100005
def NFS_MNT_VERSION : ℕ := 1
def NFS_MNT3_VERSION : ℕ := 3
def MNTPROC_MNT : ℕ := 1
def MNTPROC_UMNT : ℕ := 3
def NFS_FHSIZE : ℕ := 32
def NFS_MAXFHSIZE_WIRE : ℕ := 64
def NFS_MOUNT_VER3 : ℕ := 0x80

/-- `sizeof(struct mount_call)`. -/
def sizeofMountCall : ℕ := 48

/-- `sizeof(struct mount_reply)`: the reply, the status, the size and the bytes of a handle. -/
def sizeofMountReply : ℕ := sizeofRpcReply + 4 + 4 + NFS_MAXFHSIZE_WIRE

def MNT_REPLY_MINSIZE : ℕ := sizeofRpcReply + 4

/-- The offsets of `mnt_reply.status`, `mnt_reply.fh` and `mnt_reply.fh.data`. -/
def statusOff : ℕ := 28
def fhOff : ℕ := 32
def fhDataOff : ℕ := 36

/-- A path name, a C string whose length an `int` can hold after rounding. -/
structure Path where
  bytes : List UInt8
  nonul : 0 ∉ bytes
  short : bytes.length < 2 ^ 31 - 4

/-- `struct nfs_mount_data`. -/
structure NfsMountData where
  oldRootData : Vector UInt8 NFS_FHSIZE
  flags : ℕ
  rootSize : ℕ
  rootData : Vector UInt8 NFS_MAXFHSIZE_WIRE

/-- The program: the kernel, what `malloc` finds (or that it fails), `mnt_reply`, and what was sent,
received and said. -/
structure Prog extends Kernel where
  malloc : ℕ → Option (ℕ → UInt8)
  mntReply : Vector UInt8 sizeofMountReply
  sent : List (List UInt8)
  received : List (List UInt8)
  stderr : List Diagnostic

abbrev Call := StateT Prog Option

def sized (n : ℕ) (l : List UInt8) : Option (Vector UInt8 n) :=
  if h : l.length = n then some ⟨l.toArray, h⟩ else none

/-- `memcpy` to the start of an array, which has to be large enough. -/
def memcpy {n : ℕ} (dst : Vector UInt8 n) (src : List UInt8) : Option (Vector UInt8 n) :=
  sized n (src ++ dst.toList.drop src.length)

def access {α : Type} (x : Option α) : Call α := fun p => x.map fun v => (v, p)

/-- The function reports `d` and returns -1. -/
def bail (d : Diagnostic) : Call ℤ := do
  modify fun p => { p with stderr := p.stderr ++ [d] }
  return -1

def malloc : Call (Option (ℕ → UInt8)) := do
  let p ← get
  set { p with malloc := fun i => p.malloc (i + 1) }
  return p.malloc 0

/-- `pad_len`. -/
def padLen (len : ℕ) : ℕ := padded len

/-- The call for `proc` of `version`, in memory that `malloc` found. The header is filled in by
`rpc_header`, and what pads the path is not set. -/
def callBytes (proc version : ℕ) (path : Path) (found : ℕ → UInt8) : List UInt8 :=
  List.replicate 16 0 ++ be32 NFS_MNT_PROGRAM ++ be32 version ++ be32 proc ++ List.replicate 16 0 ++
    be32 path.bytes.length ++ path.bytes ++
    (List.range (padLen path.bytes.length - path.bytes.length)).map fun i =>
      found (sizeofMountCall + path.bytes.length + i)

/-- `struct rpc` of `mount_call`. -/
def Prog.rpc (p : Prog) (call : List UInt8) : Sys where
  toKernel := p.toKernel
  call := call
  callLen := call.length
  reply := p.mntReply.toList
  replyLen := sizeofMountReply
  sent := p.sent
  received := p.received
  stderr := p.stderr

/-- `rpc_call` for `mount_call`: what it returns, and `reply_len`. -/
def rpcCall (clnt : Client) (call : List UInt8) : Call (ℤ × ℕ) := fun p => do
  let (ret, s) ← SunRpc.rpcCall clnt (p.rpc call)
  let mntReply ← sized sizeofMountReply s.reply
  some ((ret, s.replyLen), { p with
    toKernel := s.toKernel, mntReply := mntReply, sent := s.sent, received := s.received,
    stderr := s.stderr })

def mountCall (proc version : ℕ) (path : Path) (clnt : Client) : Call ℤ := do
  match ← malloc with
  | none => bail .malloc
  | some found =>
    let (ret, replyLen) ← rpcCall clnt (callBytes proc version path found)
    if ret < 0 then return -1
    else if proc ≠ MNTPROC_MNT then return 0
    else if replyLen < MNT_REPLY_MINSIZE then
      bail (.incompleteReply replyLen MNT_REPLY_MINSIZE)
    else
      let status := word (← get).mntReply.toList statusOff
      if status ≠ 0 then bail (.mountFailed status) else return 0

def mountV2 (path : Path) (data : NfsMountData) (clnt : Client) : Call (ℤ × NfsMountData) := do
  let ret ← mountCall MNTPROC_MNT NFS_MNT_VERSION path clnt
  if ret = 0 then
    let fh ← access (slice (← get).mntReply.toList fhOff NFS_FHSIZE)
    let rootData ← access (memcpy data.rootData fh)
    let oldRootData ← access (memcpy data.oldRootData fh)
    return (ret, { data with
      rootSize := NFS_FHSIZE, rootData := rootData, oldRootData := oldRootData })
  else return (ret, data)

def umountV2 (path : Path) (clnt : Client) : Call ℤ :=
  mountCall MNTPROC_UMNT NFS_MNT_VERSION path clnt

/-- `mount_v3`. The size of the handle is a `short` in the kernel's structure. -/
def mountV3 (path : Path) (data : NfsMountData) (clnt : Client) : Call (ℤ × NfsMountData) := do
  let ret ← mountCall MNTPROC_MNT NFS_MNT3_VERSION path clnt
  if ret = 0 then
    let mntReply := (← get).mntReply.toList
    let fhsize := word mntReply fhOff
    let fh ← access (slice mntReply fhDataOff fhsize)
    let rootData ← access (memcpy (Vector.replicate NFS_MAXFHSIZE_WIRE 0) fh)
    return (ret, { data with
      oldRootData := Vector.replicate NFS_FHSIZE 0
      rootSize := fhsize % 2 ^ 16
      rootData := rootData
      flags := data.flags ||| NFS_MOUNT_VER3 })
  else return (ret, data)

def umountV3 (path : Path) (clnt : Client) : Call ℤ :=
  mountCall MNTPROC_UMNT NFS_MNT3_VERSION path clnt

end Klibc.Nfsmount.Mount
