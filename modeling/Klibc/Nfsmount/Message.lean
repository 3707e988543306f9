import Klibc.Lib.Xdr

/-! # Reply messages

Reply messages of remote procedure calls, as RFC 5531 describes them, and a decoder for them. The
results of a call, and what follows any other message, are left undecoded. A message that is sent
over TCP is a record: a mark, with one bit for the last fragment and 31 for its length, and the
fragment. -/

namespace Klibc.Nfsmount.Message

open Lib.Total Lib.Xdr

def maxAuthBytes : ℕ := 400

/-- `opaque_auth`. -/
structure Auth where
  flavor : ℕ
  body : List UInt8
  deriving DecidableEq

/-- `accept_stat` with the data that goes with it. -/
inductive AcceptStat
  | success | progUnavail | progMismatch (low high : ℕ) | procUnavail | garbageArgs | systemErr
  deriving DecidableEq

/-- `rejected_reply`. -/
inductive Rejected
  | rpcMismatch (low high : ℕ) | authError (stat : ℕ)
  deriving DecidableEq

/-- `reply_body`. -/
inductive ReplyBody
  | accepted (verf : Auth) (stat : AcceptStat) | denied (rejected : Rejected)
  deriving DecidableEq

/-- A `rpc_msg` that is a reply. -/
structure Reply where
  xid : ℕ
  body : ReplyBody
  deriving DecidableEq

/-! ### Decoding -/

def auth : Decoder Auth := do
  let flavor ← uint
  let body ← counted maxAuthBytes
  return ⟨flavor, body⟩

def acceptStat : Decoder AcceptStat := do
  match ← uint with
  | 0 => return .success
  | 1 => return .progUnavail
  | 2 => return .progMismatch (← uint) (← uint)
  | 3 => return .procUnavail
  | 4 => return .garbageArgs
  | 5 => return .systemErr
  | _ => fail

def rejected : Decoder Rejected := do
  match ← uint with
  | 0 => return .rpcMismatch (← uint) (← uint)
  | 1 => return .authError (← uint)
  | _ => fail

def replyBody : Decoder ReplyBody := do
  match ← uint with
  | 0 => return .accepted (← auth) (← acceptStat)
  | 1 => return .denied (← rejected)
  | _ => fail

/-- A message with `msg_type` `REPLY`. -/
def reply : Decoder Reply := do
  let xid ← uint
  match ← uint with
  | 1 => return ⟨xid, ← replyBody⟩
  | _ => fail

def record : Decoder (List UInt8) := do
  let mark ← uint
  if 2 ^ 31 ≤ mark then raw (mark - 2 ^ 31) else fail

end Klibc.Nfsmount.Message
