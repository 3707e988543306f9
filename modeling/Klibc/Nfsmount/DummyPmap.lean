import Klibc.Nfsmount.SunRpc

/-! # The port mapper that answers the kernel

`dummy_portmap` of `dummypmap.c` and the functions that check a request. Pointers into the request
are offsets into `pkt`, which keeps the bytes of earlier datagrams behind those of the last one.
Addresses have 64 bits, so that offsets do not wrap; with 32 bits those at dummypmap.c:80 and :110
do.
Every field that is read is a word; the offset of each read is kept in `reads`, with the length of
the datagram at that time. The program is followed through what `recvfrom` returns, one after the
other, as long as it is known. -/

namespace Klibc.Nfsmount.DummyPmap

open Lib.Xdr SunRpc

def PORTMAP_PROGRAM : ℕ := 100000
def PMAP_PROC_NULL : ℕ := 0
def PMAP_PROC_SET : ℕ := 1
def PMAP_PROC_UNSET : ℕ := 2
def PMAP_PROC_GETPORT : ℕ := 3
def PMAP_PROC_DUMP : ℕ := 4
def REPLY_DENIED : ℕ := 1
def PROG_UNAVAIL : ℕ := 1
def PROG_MISMATCH : ℕ := 2
def PROC_UNAVAIL : ℕ := 3
def SYSTEM_ERR : ℕ := 5
def AUTH_NULL : ℕ := 0
def AUTH_UNIX : ℕ := 1
def IPPROTO_TCP : ℕ := 6
def IPPROTO_UDP : ℕ := 17

/-- `sizeof(pkt)`. -/
def sizeofPkt : ℕ := 65536

/-- `sizeof(struct portmap_args)`, and of `struct portmap_call` that ends with it. -/
def sizeofArgs : ℕ := 16
def sizeofPortmapCall : ℕ := 60

structure Read where
  pktlen : ℕ
  off : ℕ
  deriving DecidableEq

/-- What `recvfrom` returns: an error, which may be `EINTR`, or a datagram. -/
inductive Recv
  | error (eintr : Bool)
  | datagram (d : List UInt8)
  deriving DecidableEq

/-- The program: `pkt` and `pktlen`, the reads of the request, the requests that were answered with
the answers, and the lines written to the port map file. -/
structure Sys where
  pkt : ℕ → UInt8
  pktlen : ℕ
  reads : List Read
  answers : List (List UInt8 × List UInt8)
  lines : List String

abbrev Call := StateT Sys Option

def Sys.request (s : Sys) : List UInt8 := (List.range s.pktlen).map s.pkt

/-- The word at an offset into `pkt`; the call does not return if it lies outside. -/
def load (i : ℕ) : Call ℕ := fun s =>
  if i + 4 ≤ sizeofPkt then
    some (word [s.pkt i, s.pkt (i + 1), s.pkt (i + 2), s.pkt (i + 3)] 0,
      { s with reads := s.reads ++ [⟨s.pktlen, i⟩] })
  else none

def recvfrom (d : List UInt8) : Call Unit := modify fun s => { s with
  pkt := fun i => (d.take sizeofPkt).getD i (s.pkt i)
  pktlen := (d.take sizeofPkt).length }

/-- `protoname`. -/
def protoname (proto : ℕ) : Option String :=
  if proto = IPPROTO_TCP then some "tcp" else if proto = IPPROTO_UDP then some "udp" else none

/-! ### Checks of a request -/

/-- `get_auth`: where the authenticator at `auth` ends, if it is of a known flavor. -/
def getAuth (auth : ℕ) : Call (Option ℕ) := do
  let flavor ← load auth
  if flavor = AUTH_NULL ∨ flavor = AUTH_UNIX then return some (auth + 8 + (← load (auth + 4)))
  else return none

/-- The number of words that `n` bytes take, rounded up in 32 bits. -/
def quads (n : ℕ) : ℕ := (n + 3) % 2 ^ 32 / 4

/-- `check_unix_cred`. The body of the credential starts at `cred + 8` with a time stamp, the length
of the name of a node and the name; the user and the groups follow. -/
def checkUnixCred (cred : ℕ) : Call ℤ := do
  let len ← load (cred + 4)
  if quads len < 6 then return -1
  else
    let nodeNameLen ← load (cred + 12)
    if cred + 16 + 4 * (quads nodeNameLen + 3) > cred + 8 + 4 * quads len then return -1
    else if (← load (cred + 16 + 4 * quads nodeNameLen)) ≠ 0 then return -1
    else if (← load (cred + 20 + 4 * quads nodeNameLen)) ≠ 0 then return -1
    else return 0

def checkCred (cred : ℕ) : Call ℤ := do
  let flavor ← load cred
  if flavor = AUTH_NULL then return 0
  else if flavor = AUTH_UNIX then checkUnixCred cred
  else return -1

def checkVrf (vrf : ℕ) : Call ℤ := do
  return if (← load vrf) = AUTH_NULL then 0 else -1

/-- The chain of checks in `dummy_portmap`: the arguments of the request, if its credentials can be
dealt with. -/
def getArgs (cred : ℕ) : Call (Option ℕ) := do
  let pktlen := (← get).pktlen
  match ← getAuth cred with
  | none => return none
  | some vrf =>
    if vrf > pktlen - 8 - sizeofArgs then return none
    else match ← getAuth vrf with
      | none => return none
      | some args =>
        if args > pktlen - sizeofArgs then return none
        else if (← checkCred cred) ≠ 0 then return none
        else if (← checkVrf vrf) ≠ 0 then return none
        else return some args

/-! ### Answers -/

def registration (program version : ℕ) (proto : Option String) (port : ℕ) : String :=
  toString program ++ " " ++ toString version ++ " " ++ proto.getD "(null)" ++ " " ++
    toString port ++ "\n"

/-- `PMAP_PROC_SET`, with whether there is a file: the value of `rply.port`. -/
def setPort (portmapFile : Bool) (args : ℕ) : Call ℕ := do
  let proto ← load (args + 8)
  if proto = IPPROTO_TCP ∨ proto = IPPROTO_UDP then
    if portmapFile then
      let program ← load args
      let version ← load (args + 4)
      let port ← load (args + 12)
      modify fun s => { s with
        lines := s.lines ++ [registration program version (protoname proto) port] }
    return 1
  else return 0

/-- The values of `rply.rpc.reply_state` and `rply.port`. -/
def answer (portmapFile : Bool) : Call (ℕ × ℕ) := do
  if (← load 8) ≠ 2 then return (REPLY_DENIED, 0)
  else if (← load 12) ≠ PORTMAP_PROGRAM then return (PROG_UNAVAIL, 0)
  else if (← load 16) ≠ 2 then return (PROG_MISMATCH, 0)
  else match ← getArgs 24 with
    | none => return (SYSTEM_ERR, 0)
    | some args =>
      let proc ← load 20
      if proc = PMAP_PROC_NULL then return (REPLY_OK, 0)
      else if proc = PMAP_PROC_SET then return (REPLY_OK, ← setPort portmapFile args)
      else if proc = PMAP_PROC_UNSET then return (REPLY_OK, 1)
      else if proc = PMAP_PROC_GETPORT then return (REPLY_OK, 0)
      else if proc = PMAP_PROC_DUMP then return (REPLY_OK, 0)
      else return (PROC_UNAVAIL, 0)

/-- `rply` from `rply.rpc.hdr.udp` on. -/
def replyBytes (xid replyState port : ℕ) : List UInt8 :=
  be32 xid ++ be32 RPC_REPLY ++ be32 replyState ++ be32 0 ++ be32 0 ++ be32 0 ++ be32 port

/-- The body of the loop of `dummy_portmap`, for a datagram that was received. -/
def serve (portmapFile : Bool) : Call Unit := do
  if (← get).pktlen + 4 < sizeofPortmapCall then return ()
  else if (← load 4) ≠ RPC_CALL then return ()
  else
    let xid ← load 0
    let (replyState, port) ← answer portmapFile
    modify fun s => { s with
      answers := s.answers ++ [(s.request, replyBytes xid replyState port)] }

/-- `dummy_portmap`: what it returns, if it does not wait for another datagram. -/
def dummyPortmap (portmapFile : Bool) : List Recv → Call (Option ℤ)
  | [] => return none
  | .error true :: rs => dummyPortmap portmapFile rs
  | .error false :: _ => return some (-1)
  | .datagram d :: rs => do
    recvfrom d
    serve portmapFile
    dummyPortmap portmapFile rs

end Klibc.Nfsmount.DummyPmap
