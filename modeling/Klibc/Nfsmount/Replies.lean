import Klibc.Nfsmount.Exchange
import Klibc.Nfsmount.Message

/-! # Which replies are taken

`rpc_do_reply` looks for the `accept_stat` of a reply at a fixed place, where it lies if the reply
is accepted and its verifier is empty. It does not look at the words that say so. -/

namespace Klibc.Nfsmount.Replies

open Lib.Total Lib.Xdr Message SunRpc List Exchange

/-! ### Successful replies -/

/-- The message is a reply to the call `xid` that was accepted and successful. -/
def Answers (xid : ℕ) (m : List UInt8) : Prop :=
  Returns reply m fun r _ => r.xid = xid ∧ ∃ verf, r.body = .accepted verf .success

/-- Where the `accept_stat` is, behind a verifier of the announced length. -/
def statPos (m : List UInt8) : ℕ := 20 + padded (word m 16)

/-- The words that `rpc_do_reply` does not look at: the reply is accepted, its verifier is not too
long, and the word that follows it is there and says that the call was successful. -/
def Sound (m : List UInt8) : Prop :=
  word m 8 = 0 ∧ word m 16 ≤ maxAuthBytes ∧ statPos m + 4 ≤ m.length ∧ word m (statPos m) = 0

instance (m : List UInt8) : Decidable (Sound m) := inferInstanceAs (Decidable (_ ∧ _))

variable {m : List UInt8} {l : List UInt8}

lemma returns_acceptStat :
    Returns acceptStat l (fun stat _ => stat = .success) ↔ 4 ≤ l.length ∧ word l 0 = 0 := by
  rw [acceptStat, returns_bind, returns_uint]
  refine and_congr_right fun _ => ?_
  rcases word l 0 with _ | _ | _ | _ | _ | _ | n
  all_goals simp only [returns_bind, returns_uint, returns_pure, returns_fail, reduceCtorEq,
    and_false, Nat.zero_add, Nat.add_eq_zero_iff, one_ne_zero]

lemma returns_auth {Q : Auth → List UInt8 → Prop} :
    Returns auth l Q ↔ 8 ≤ l.length ∧ word l 4 ≤ maxAuthBytes ∧
      8 + padded (word l 4) ≤ l.length ∧
      Q ⟨word l 0, (l.drop 8).take (word l 4)⟩ (l.drop (8 + padded (word l 4))) := by
  simp only [auth, returns_bind, returns_uint, returns_counted, returns_pure, word_drop_zero,
    length_drop, drop_drop, ← Nat.add_assoc, Nat.reduceAdd]
  constructor
  · rintro ⟨h4, h8, hmax, hlen, hQ⟩
    exact ⟨by omega, hmax, by omega, hQ⟩
  · rintro ⟨h8, hmax, hlen, hQ⟩
    exact ⟨by omega, by omega, hmax, by omega, hQ⟩

lemma returns_replyBody : Returns replyBody l (fun b _ => ∃ verf, b = .accepted verf .success) ↔
      4 ≤ l.length ∧ word l 0 = 0 ∧
      Returns auth (l.drop 4) fun _ rest => 4 ≤ rest.length ∧ word rest 0 = 0 := by
  rw [replyBody, returns_bind, returns_uint]
  refine and_congr_right fun _ => ?_
  rcases word l 0 with _ | _ | n
  · simp only [returns_bind, returns_pure, true_and, ← returns_acceptStat,
      ReplyBody.accepted.injEq, exists_eq_left']
  · simp only [Nat.zero_add, returns_bind, returns_pure, reduceCtorEq, exists_false, one_ne_zero,
      false_and, iff_false]
    rintro ⟨r, rest, -, h⟩
    exact h
  · simp only [returns_fail, Nat.add_eq_zero_iff, one_ne_zero, and_false, false_and]

lemma returns_reply {Q : Reply → List UInt8 → Prop} :
    Returns reply l Q ↔ 8 ≤ l.length ∧ word l 4 = 1 ∧
      Returns replyBody (l.drop 8) fun b rest => Q ⟨word l 0, b⟩ rest := by
  rw [reply, returns_bind, returns_uint, returns_bind, returns_uint, word_drop_zero,
    length_drop, drop_drop, ← and_assoc]
  refine and_congr (by omega) ?_
  rcases word l 4 with _ | _ | n
  · simp only [returns_fail, zero_ne_one, false_and]
  · simp only [Nat.zero_add, returns_bind, returns_pure, true_and]
  · simp only [returns_fail, Nat.add_eq_right, Nat.add_eq_zero_iff, one_ne_zero, and_false,
      false_and]

lemma returns_stat : (Returns auth (m.drop 12) fun _ rest => 4 ≤ rest.length ∧ word rest 0 = 0) ↔
      word m 16 ≤ maxAuthBytes ∧ statPos m + 4 ≤ m.length ∧ word m (statPos m) = 0 := by
  have hpos : 12 + (8 + padded (word m 16)) = statPos m := by
    unfold statPos
    omega
  have hword : word (m.drop 12) 4 = word m 16 := word_drop m 12 4
  rw [returns_auth, hword, drop_drop, length_drop, length_drop, word_drop_zero, hpos]
  constructor
  · rintro ⟨-, hmax, -, hlen, hstat⟩
    exact ⟨hmax, by omega, hstat⟩
  · rintro ⟨hmax, hlen, hstat⟩
    exact ⟨by omega, hmax, by omega, by omega, hstat⟩

/-- **Successful replies**, by their words. -/
theorem answers_iff {xid : ℕ} : Answers xid m ↔ word m 0 = xid ∧ word m 4 = 1 ∧ Sound m := by
  have hlong : statPos m + 4 ≤ m.length → 24 ≤ m.length := fun h => by
    unfold statPos at h
    omega
  have hbody : (Returns replyBody (m.drop 8) fun b _ =>
      word m 0 = xid ∧ ∃ verf, b = .accepted verf .success) ↔
        word m 0 = xid ∧ 4 ≤ m.length - 8 ∧ Sound m := by
    rw [returns_and, returns_replyBody, drop_drop, returns_stat, word_drop_zero, length_drop, Sound]
  rw [Answers, returns_reply, hbody]
  constructor
  · rintro ⟨-, htype, hxid, -, hsound⟩
    exact ⟨hxid, htype, hsound⟩
  · rintro ⟨hxid, htype, hsound⟩
    have h24 := hlong hsound.2.2.1
    exact ⟨by omega, htype, hxid, by omega, hsound⟩

/-! ### Both transports -/

/-- The bytes that are received hold a successful reply to the call `xid`. -/
def AnswersOver (xid : ℕ) : Client → List UInt8 → Prop
  | .udp, m => Answers xid m
  | .tcp, m => Returns record m fun msg _ => Answers xid msg

/-- The words that `rpc_do_reply` does not look at are right. Over TCP the record has to be there
with the length that it announces. -/
def SoundOver : Client → List UInt8 → Prop
  | .udp, m => Sound m
  | .tcp, m => word m 0 - LAST_FRAG + 4 ≤ m.length ∧
      Sound ((m.drop 4).take (word m 0 - LAST_FRAG))

instance (c : Client) (m : List UInt8) : Decidable (SoundOver c m) :=
  match c with
  | .udp => inferInstanceAs (Decidable (Sound m))
  | .tcp => inferInstanceAs (Decidable (_ ∧ _))

/-- The kernel has just the bytes `m` for the program. -/
def Brings (m : List UInt8) (s : Sys) : Client → Prop
  | .udp => Arrives [.datagram m] s.poll s.read
  | .tcp => s.read 0 = some m

lemma returns_record {Q : List UInt8 → List UInt8 → Prop} (h4 : 4 ≤ m.length)
    (hlast : LAST_FRAG ≤ word m 0) : Returns record m Q ↔ word m 0 - LAST_FRAG + 4 ≤ m.length ∧
      Q ((m.drop 4).take (word m 0 - LAST_FRAG)) (m.drop (4 + (word m 0 - LAST_FRAG))) := by
  have hlast' : 2 ^ 31 ≤ word m 0 := hlast
  rw [record, returns_bind, returns_uint, and_iff_right h4, if_pos hlast', returns_raw,
    length_drop, drop_drop]
  refine and_congr_left fun _ => ?_
  simp only [LAST_FRAG]
  omega

lemma answersOver_iff {c : Client} {xid : ℕ} (ht : Taken c xid m) :
    AnswersOver xid c m ↔ SoundOver c m := by
  obtain ⟨hlen, hlast, hxid, htype, -⟩ := ht
  cases c with
  | udp =>
    have hxid' : word m 0 = xid := hxid
    have htype' : word m 4 = 1 := htype
    rw [AnswersOver, answers_iff, and_iff_right hxid', and_iff_right htype', SoundOver]
  | tcp =>
    have h28 : 28 ≤ m.length := hlen
    rw [AnswersOver, returns_record (by omega) (hlast rfl), SoundOver, answers_iff]
    refine and_congr_right fun _ => ⟨fun h => h.2.2, fun h => ?_⟩
    have hfrag : 24 ≤ word m 0 - LAST_FRAG := by
      have hpos := h.2.2.1
      rw [statPos, length_take] at hpos
      omega
    refine ⟨?_, ?_, h⟩
    · rw [word_take (by omega), word_drop]
      exact hxid
    · rw [word_take (by omega), word_drop]
      exact htype

lemma returns_rpcCall {c : Client} {s : Sys} (hs : Ready s) (hm : Brings m s c) :
    Returns (rpcCall c) s fun ret _ => ret = if Taken c (xid s) m then 0 else -1 := by
  cases c with
  | tcp => exact returns_rpcCallTcp hs hm
  | udp =>
    refine (returns_rpcCallUdp hs hm (show 1 ≤ MAX_TRIES by decide)).mono fun ret t h => ?_
    by_cases ht : Taken .udp (xid s) m
    · rw [collect, if_pos ht] at h
      rw [if_pos ht]
      exact h.1
    · rw [collect, if_neg ht] at h
      rw [if_neg ht]
      exact h

/-- **A call returns 0 for successful replies only** just if the words that `rpc_do_reply` does not
look at are right in what it takes. -/
theorem rpc_call_replies_iff {c : Client} {m : List UInt8} {s : Sys} (hs : Ready s)
    (hm : Brings m s c) : (Returns (rpcCall c) s fun ret _ =>
      (ret = 0 → AnswersOver (xid s) c m) ∧ (¬ AnswersOver (xid s) c m → ret = -1)) ↔
    (Taken c (xid s) m → SoundOver c m) := by
  obtain ⟨ret, t, he, hret⟩ := returns_rpcCall hs hm
  rw [returns_iff_of_eq he]
  by_cases ht : Taken c (xid s) m
  · rw [if_pos ht] at hret
    subst hret
    rw [answersOver_iff ht]
    simp [ht, zero_eq_neg, one_ne_zero, imp_false]
  · rw [if_neg ht] at hret
    subst hret
    simp [neg_eq_zero, one_ne_zero, ht]

theorem rpc_call_replies_portmap : (Returns (rpcCall .udp) (portmapCall [portReply]) fun ret _ =>
      (ret = 0 → AnswersOver (xid (portmapCall [portReply])) .udp portReply) ∧
      (¬ AnswersOver (xid (portmapCall [portReply])) .udp portReply → ret = -1)) ∧
    Taken .udp (xid (portmapCall [portReply])) portReply ∧ SoundOver .udp portReply := by
  have hbrings : Brings portReply (portmapCall [portReply]) .udp := arrives_datagrams [portReply]
  refine ⟨(rpc_call_replies_iff (ready_portmapCall [portReply]) hbrings).2 fun _ => ?_, ?_, ?_⟩
  all_goals decide

/-- A reply with a verifier of four bytes, that says that the program is not available. -/
def unavailableReply : List UInt8 :=
  be32 0 ++ be32 1 ++ be32 0 ++ be32 2 ++ be32 4 ++ [0, 0, 0, 0] ++ be32 1

/-- The call returns 0 for a reply that was not successful, since the verifier lies where the
`accept_stat` is looked for. -/
theorem unavailable_taken :
    (Returns (rpcCall .udp) (portmapCall [unavailableReply]) fun ret _ => ret = 0) ∧
    reply unavailableReply = some (⟨0, .accepted ⟨2, [0, 0, 0, 0]⟩ .progUnavail⟩, []) ∧
    ¬ AnswersOver 0 .udp unavailableReply := by
  refine ⟨⟨0, _, rfl, rfl⟩, by decide, ?_⟩
  rw [AnswersOver, answers_iff]
  decide

end Klibc.Nfsmount.Replies
