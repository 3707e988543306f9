import Klibc.Lib.Slice
import Klibc.Lib.Xdr

/-! # Remote procedure calls

The client of `sunrpc.c`. The call and the reply are overlaid by the structures of `sunrpc.h`, with
a record mark in front that only TCP sends; `reply_len` is the room for the reply before the call,
and the number of bytes received after it. What the kernel and the random numbers do is any
sequence, of which each call takes the first element. -/

namespace Klibc.Nfsmount.SunRpc

open Lib.Slice Lib.Total Lib.Xdr

def RPC_CALL : ℕ := 0
def RPC_REPLY : ℕ := 1
def LAST_FRAG : ℕ := 0x80000000
def REPLY_OK : ℕ := 0
def MAX_TRIES : ℕ := 100

/-- `sizeof(struct rpc_reply)`: a header of three words, `reply_state`, `vrf_flavor`, `vrf_len` and
`state`. -/
def sizeofRpcReply : ℕ := 28

def UDP_HDR_OFF : ℕ := 4

/-- What `poll` returns for one descriptor. -/
inductive Poll
  | error | timeout | ready
  deriving DecidableEq

/-- What is said on `stderr`. -/
inductive Diagnostic
  /-- `perror` after a failed system call or `malloc` -/
  | read | write | poll | malloc
  /-- "short read: %d < %zu" -/
  | shortRead (ret size : ℕ)
  /-- "bad reply" -/
  | badReply
  /-- "rpc failed: %d" -/
  | rpcFailed (state : ℕ)
  /-- "short write: %d < %zu" -/
  | shortWrite (ret len : ℕ)
  /-- "incomplete reply: %zu < %zu" -/
  | incompleteReply (len size : ℕ)
  /-- "mount call failed - server replied: %s." -/
  | mountFailed (status : ℕ)
  deriving DecidableEq

/-- The kernel and the random numbers: the values of `lrand48` as they lie in memory; the number of
bytes that a `write` takes, if there are that many; what `poll` returns; and the bytes that a `read`
finds, of which it takes as many as there is room for. There is nothing where a call fails. -/
structure Kernel where
  lrand48 : ℕ → Vector UInt8 4
  write : ℕ → Option ℕ
  poll : ℕ → Poll
  read : ℕ → Option (List UInt8)

/-- `struct rpc` with the two objects that it points to, and the program around it: what it has
sent, what each `read` has put into the reply, and what it has said. -/
structure Sys extends Kernel where
  call : List UInt8
  callLen : ℕ
  reply : List UInt8
  replyLen : ℕ
  sent : List (List UInt8)
  received : List (List UInt8)
  stderr : List Diagnostic

abbrev Call := StateT Sys Option

/-- The function reports `d` and returns -1. -/
def bail (d : Diagnostic) : Call ℤ := do
  modify fun s => { s with stderr := s.stderr ++ [d] }
  return -1

def lrand48 : Call (List UInt8) := do
  let s ← get
  set { s with lrand48 := fun i => s.lrand48 (i + 1) }
  return (s.lrand48 0).toList

/-- `write` from `rpc->call + off` on. -/
def write (off : ℕ) : Call (Option ℕ) := fun s => do
  let bytes ← slice s.call off s.callLen
  match s.write 0 with
  | none => some (none, { s with write := fun i => s.write (i + 1) })
  | some n =>
    some (some (min n s.callLen), { s with
      write := fun i => s.write (i + 1), sent := s.sent ++ [bytes.take n] })

def poll : Call Poll := do
  let s ← get
  set { s with poll := fun i => s.poll (i + 1) }
  return s.poll 0

/-- `read` of at most `n` bytes to `rpc->reply + off`. -/
def read (off n : ℕ) : Call (Option ℕ) := fun s =>
  match s.read 0 with
  | none => some (none, { s with read := fun i => s.read (i + 1) })
  | some m => do
    let reply ← overwrite s.reply off (m.take n)
    some (some (m.take n).length, { s with
      read := fun i => s.read (i + 1), reply := reply, received := s.received ++ [m.take n] })

def poke (i : ℕ) (bytes : List UInt8) : Call Unit := fun s => do
  let call ← overwrite s.call i bytes
  some ((), { s with call := call })

/-- `rpc->reply_len - off`; the call does not return if this wraps around. -/
def room (off : ℕ) : Call ℕ := fun s =>
  if off ≤ s.replyLen then some (s.replyLen - off, s) else none

/-- `rpc_do_reply`. -/
def rpcDoReply (off : ℕ) : Call ℤ := do
  match ← read off (← room off) with
  | none => bail .read
  | some ret =>
    if ret < sizeofRpcReply - off then bail (.shortRead ret (sizeofRpcReply - off)) else
      modify fun s => { s with replyLen := ret + off }
      let s ← get
      if (off = 0 ∧ word s.reply 0 < LAST_FRAG) ∨ word s.reply 4 ≠ word s.call 4 ∨
          word s.reply 8 ≠ RPC_REPLY then bail .badReply
      else if word s.reply 24 ≠ REPLY_OK then bail (.rpcFailed (word s.reply 24))
      else return 0

/-- `rpc_header`. -/
def rpcHeader : Call Unit := do
  poke 0 (be32 (LAST_FRAG ||| ((← get).callLen - 4)))
  poke 4 (← lrand48)
  poke 8 (be32 RPC_CALL)
  poke 12 (be32 2)

def rpcCallTcp : Call ℤ := do
  rpcHeader
  match ← write 0 with
  | none => bail .write
  | some ret =>
    let s ← get
    if ret < s.callLen then bail (.shortWrite ret s.callLen) else rpcDoReply 0

/-- A turn of the inner loop of `rpc_call_udp`; the loops go on with `next`, told whether the outer
loop starts a turn. -/
def udpTurn (next : Bool → Call ℤ) : Call ℤ := do
  match ← poll with
  | .error => bail .poll
  | .timeout => next true
  | .ready =>
    let ret ← rpcDoReply UDP_HDR_OFF
    if ret = 0 then return 0 else next false

/-- The two loops of `rpc_call_udp`, with the number of tries that are left. A turn of the outer
loop starts with a `write`; after a reply that is not taken the inner loop goes on without it. -/
def udpLoop : ℕ → Bool → Call ℤ
  | 0, _ => return -1
  | n + 1, true => do
    let _timeout ← lrand48
    match ← write UDP_HDR_OFF with
    | none => bail .write
    | some ret =>
      let s ← get
      if ret < s.callLen then bail (.shortWrite ret s.callLen) else udpTurn (udpLoop n)
  | n + 1, false => udpTurn (udpLoop n)

def rpcCallUdp : Call ℤ := do
  rpcHeader
  modify fun s => { s with callLen := s.callLen - UDP_HDR_OFF }
  udpLoop MAX_TRIES true

/-- The two kinds of `struct client`. -/
inductive Client
  | tcp | udp
  deriving DecidableEq

/-- `rpc_call`. -/
def rpcCall : Client → Call ℤ
  | .tcp => rpcCallTcp
  | .udp => rpcCallUdp

end Klibc.Nfsmount.SunRpc
