import Klibc.Nfsmount.Exchange

/-! # Stray datagrams

`rpc_call_udp` goes on to wait when it gets a datagram that it does not take. `reply_len` is then
the length of that datagram, and no more than this is read of the next one. -/

namespace Klibc.Nfsmount.Strays

open Lib.Total Lib.Xdr SunRpc Exchange List

/-! ### The room that strays leave -/

section
variable {k len : ℕ} {es : List Event}

lemma le_foldl_shrink (hk : k ≤ len)
    (h : ∀ d, .datagram d ∈ es → sizeofRpcReply - UDP_HDR_OFF ≤ d.length →
      k ≤ d.length + UDP_HDR_OFF) : k ≤ es.foldl shrink len := by
  induction es generalizing len with
  | nil => exact hk
  | cons e es ih =>
    refine ih ?_ fun d hd => h d (mem_cons_of_mem _ hd)
    cases e with
    | timeout => exact hk
    | datagram d =>
      rw [shrink]
      split_ifs with hd
      · exact hk
      · exact le_min (h d mem_cons_self (not_lt.1 hd)) hk

lemma foldl_shrink_le : es.foldl shrink len ≤ len := by
  induction es generalizing len with
  | nil => exact le_rfl
  | cons e es ih => exact ih.trans (shrink_le len e)

lemma foldl_shrink_le_length {d : List UInt8} (hd : .datagram d ∈ es)
    (hlong : sizeofRpcReply - UDP_HDR_OFF ≤ d.length) :
    es.foldl shrink len ≤ d.length + UDP_HDR_OFF := by
  induction es generalizing len with
  | nil => exact absurd hd not_mem_nil
  | cons e es ih =>
    rcases mem_cons.1 hd with rfl | hd
    · have hshrink : shrink len (.datagram d) = min (d.length + UDP_HDR_OFF) len :=
        if_neg (not_lt.2 hlong)
      rw [foldl_cons]
      exact foldl_shrink_le.trans (hshrink.le.trans (Nat.min_le_left _ _))
    · exact ih hd

end

/-! ### What is collected after strays -/

section
variable {xid len : ℕ} {es : List Event} {r m : List UInt8}

lemma collect_strays {es' : List Event} (h : ∀ e ∈ es, Stray xid e) :
    collect xid len (es ++ es') = collect xid (es.foldl shrink len) es' := by
  induction es generalizing len with
  | nil => rfl
  | cons e es ih =>
    rw [cons_append, collect_stray (h e mem_cons_self), foldl_cons]
    exact ih fun e' he => h e' (mem_cons_of_mem _ he)

lemma collect_append (hlen : sizeofRpcReply ≤ len)
    (h : collect xid len (es ++ [.datagram r]) = some m) :
    (∃ d, .datagram d ∈ es ∧ Taken .udp xid d ∧
      ∃ n, sizeofRpcReply - UDP_HDR_OFF ≤ n ∧ m = d.take n) ∨
    (∀ e ∈ es, Stray xid e) := by
  induction es generalizing len with
  | nil => exact Or.inr fun e he => absurd he not_mem_nil
  | cons e es ih =>
    by_cases he : Stray xid e
    · rw [cons_append, collect_stray he] at h
      rcases ih (le_shrink hlen e) h with ⟨d, hd, ht⟩ | hes
      · exact Or.inl ⟨d, mem_cons_of_mem _ hd, ht⟩
      · exact Or.inr (forall_mem_cons.2 ⟨he, hes⟩)
    · cases e with
      | timeout => exact absurd trivial he
      | datagram d =>
        have ht : Taken .udp xid d := not_not.1 he
        rw [cons_append, collect, if_pos ht, Option.some.injEq] at h
        exact Or.inl ⟨d, mem_cons_self, ht, len - UDP_HDR_OFF, Nat.sub_le_sub_right hlen _, h.symm⟩

end

/-! ### Genuine replies -/

/-- A genuine reply to the call `xid`: a reply message that was accepted. -/
def Genuine (xid : ℕ) (m : List UInt8) : Prop :=
  sizeofRpcReply - UDP_HDR_OFF ≤ m.length ∧ word m 0 = xid ∧ word m 4 = RPC_REPLY ∧
    word m 8 = REPLY_OK

instance (xid : ℕ) (m : List UInt8) : Decidable (Genuine xid m) :=
  inferInstanceAs (Decidable (_ ∧ _))

/-- A call over UDP returns 0, with these bytes and this length of the reply. -/
def Gives (s : Sys) (bytes : List UInt8) (len : ℕ) : Prop :=
  Returns rpcCallUdp s fun ret t => ret = 0 ∧ t.reply.take t.replyLen = bytes ∧ t.replyLen = len

lemma gives_iff {s : Sys} {es : List Event} (hs : Ready s) (ha : Arrives es s.poll s.read)
    (hn : es.length ≤ MAX_TRIES) {bytes : List UInt8} {len : ℕ} :
    Gives s bytes len ↔ ∃ m, collect (xid s) s.replyLen es = some m ∧ bytes = mark s ++ m ∧
      len = UDP_HDR_OFF + m.length := by
  obtain ⟨ret, t, he, hret⟩ := returns_rpcCallUdp hs ha hn
  rw [Gives, returns_iff_of_eq he]
  cases hc : collect (xid s) s.replyLen es with
  | none =>
    rw [hc] at hret
    have hret' : ret = -1 := hret
    refine iff_of_false (fun h => ?_) (fun h => ?_)
    · omega
    · obtain ⟨m, hm, -⟩ := h
      cases hm
  | some m =>
    rw [hc] at hret
    obtain ⟨hret0, hholds⟩ := hret
    constructor
    · rintro ⟨-, rfl, rfl⟩
      exact ⟨m, rfl, hholds.bytes, hholds.len⟩
    · rintro ⟨m', hm, rfl, rfl⟩
      cases hm
      exact ⟨hret0, hholds.bytes, hholds.len⟩

lemma taken_iff_of_genuine {xid : ℕ} {r : List UInt8} (hr : Genuine xid r) :
    Taken .udp xid r ↔ word r 20 = REPLY_OK := by
  obtain ⟨hlen, hxid, htype, -⟩ := hr
  constructor
  · exact fun h => h.2.2.2.2
  · exact fun h => ⟨hlen, fun hc => Client.noConfusion hc, hxid, htype, h⟩

lemma take_ne_of_genuine {xid n k : ℕ} {d r : List UInt8} (hd : Taken .udp xid d)
    (hd' : ¬ Genuine xid d) (hr : Genuine xid r) (hn : sizeofRpcReply - UDP_HDR_OFF ≤ n)
    (hk : sizeofRpcReply - UDP_HDR_OFF ≤ k) : d.take n ≠ r.take k := by
  intro h
  have hn' : 24 ≤ n := hn
  have hk' : 24 ≤ k := hk
  refine hd' ⟨hd.1, hd.2.2.1, hd.2.2.2.1, ?_⟩
  calc word d 8 = word (d.take n) 8 := (word_take (by omega)).symm
    _ = word (r.take k) 8 := by rw [h]
    _ = word r 8 := word_take (by omega)
    _ = REPLY_OK := hr.2.2.2

lemma collect_both_iff {xid len : ℕ} {es : List Event} {r : List UInt8}
    (hlen : sizeofRpcReply ≤ len) (hr : Genuine xid r)
    (hes : ∀ d, .datagram d ∈ es → ¬ Genuine xid d) :
    (∃ m, collect xid len (es ++ [.datagram r]) = some m ∧
      collect xid len [.datagram r] = some m) ↔
    word r 20 = REPLY_OK ∧ ∀ d, .datagram d ∈ es → ¬ Taken .udp xid d ∧
      (sizeofRpcReply - UDP_HDR_OFF ≤ d.length → min r.length (len - UDP_HDR_OFF) ≤ d.length) := by
  have hlen' : sizeofRpcReply - UDP_HDR_OFF ≤ len - UDP_HDR_OFF := Nat.sub_le_sub_right hlen _
  by_cases ht : Taken .udp xid r
  · have halone : ∀ l, collect xid l [.datagram r] = some (r.take (l - UDP_HDR_OFF)) :=
      fun l => if_pos ht
    rw [and_iff_right ((taken_iff_of_genuine hr).1 ht), halone len]
    constructor
    · rintro ⟨m, hm, hm'⟩
      cases hm'
      rcases collect_append hlen hm with ⟨d, hd, htd, n, hn, heq⟩ | hstray
      · exact absurd heq.symm (take_ne_of_genuine htd (hes d hd) hr hn hlen')
      · rw [collect_strays hstray, halone, Option.some.injEq, take_eq_take_iff] at hm
        refine fun d hd => ⟨hstray _ hd, fun hlong => ?_⟩
        have hle : es.foldl shrink len ≤ d.length + UDP_HDR_OFF := foldl_shrink_le_length hd hlong
        omega
    · intro h
      have hstray : ∀ e ∈ es, Stray xid e := fun e he => by
        cases e with
        | timeout => trivial
        | datagram d => exact (h d he).1
      have hfold : min (r.length + UDP_HDR_OFF) len ≤ es.foldl shrink len := by
        refine le_foldl_shrink (Nat.min_le_right _ _) fun d hd hlong => ?_
        have hd' := (h d hd).2 hlong
        omega
      have hfold' : es.foldl shrink len ≤ len := foldl_shrink_le
      refine ⟨_, ?_, rfl⟩
      rw [collect_strays hstray, halone, Option.some.injEq, take_eq_take_iff]
      omega
  · refine iff_of_false ?_ fun h => ht ((taken_iff_of_genuine hr).2 h.1)
    rintro ⟨m, -, hm⟩
    rw [collect, if_neg ht] at hm
    cases hm

/-- **Stray datagrams do not affect a call** just if its reply is successful, none of them is taken
for it, and those that are not too short are as long as the reply. -/
theorem strays_unaffected_iff {s : Sys} {es : List Event} {r : List UInt8}
    {polls polls' : ℕ → Poll} {reads reads' : ℕ → Option (List UInt8)} (hs : Ready s)
    (ha : Arrives (es ++ [.datagram r]) polls reads) (ha' : Arrives [.datagram r] polls' reads')
    (hr : Genuine (xid s) r) (hes : ∀ d, .datagram d ∈ es → ¬ Genuine (xid s) d)
    (hn : es.length < MAX_TRIES) :
    (∃ bytes len, Gives { s with poll := polls, read := reads } bytes len ∧
      Gives { s with poll := polls', read := reads' } bytes len) ↔
    word r 20 = REPLY_OK ∧ ∀ d, .datagram d ∈ es → ¬ Taken .udp (xid s) d ∧
      (sizeofRpcReply - UDP_HDR_OFF ≤ d.length →
        min r.length (s.replyLen - UDP_HDR_OFF) ≤ d.length) := by
  have hs1 : Ready { s with poll := polls, read := reads } :=
    ⟨hs.call, hs.callLen, hs.room, hs.replyLen, hs.write⟩
  have hs2 : Ready { s with poll := polls', read := reads' } :=
    ⟨hs.call, hs.callLen, hs.room, hs.replyLen, hs.write⟩
  have hn1 : (es ++ [Event.datagram r]).length ≤ MAX_TRIES := by
    rw [length_append]
    exact hn
  have hn2 : [Event.datagram r].length ≤ MAX_TRIES := (by decide : 1 ≤ MAX_TRIES)
  rw [← collect_both_iff hs.room hr hes]
  constructor
  · rintro ⟨bytes, len, h1, h2⟩
    obtain ⟨m, hm, rfl, -⟩ := (gives_iff hs1 ha hn1).1 h1
    obtain ⟨m', hm', heq, -⟩ := (gives_iff hs2 ha' hn2).1 h2
    cases append_cancel_left heq
    exact ⟨m, hm, hm'⟩
  · rintro ⟨m, hm, hm'⟩
    exact ⟨_, _, (gives_iff hs1 ha hn1).2 ⟨m, hm, rfl, rfl⟩,
      (gives_iff hs2 ha' hn2).2 ⟨m, hm', rfl, rfl⟩⟩

/-- A datagram that answers another call: its transaction identifier is 1. -/
def lateReply : List UInt8 := be32 1 ++ portReply.drop 4

theorem late_reply_unaffected : ∃ bytes len, Gives (portmapCall [lateReply, portReply]) bytes len ∧
      Gives (portmapCall [portReply]) bytes len := by
  have honly : ∀ d, Event.datagram d ∈ [Event.datagram lateReply] → d = lateReply := fun d hd =>
    Event.datagram.inj (mem_singleton.1 hd)
  have harrives : Arrives ([.datagram lateReply] ++ [.datagram portReply])
      (pollsOf [lateReply, portReply]) fun i => [lateReply, portReply][i]? :=
    arrives_datagrams [lateReply, portReply]
  refine (strays_unaffected_iff (ready_portmapCall []) harrives (arrives_datagrams [portReply])
    (by decide) (fun d hd => ?_) (by decide)).2 ⟨by decide, fun d hd => ?_⟩
  · rw [honly d hd]
    decide
  · rw [honly d hd]
    decide

/-- After a stray of 24 bytes the port is missing from the reply, and `reply_len` is 28, not 32. -/
theorem short_stray_cuts : Gives (portmapCall [lateReply.take 24, portReply])
      (List.replicate 4 0 ++ portReply.take 24) 28 ∧
    Gives (portmapCall [portReply]) (List.replicate 4 0 ++ portReply) 32 := by
  refine ⟨?_, ?_⟩
  · rw [gives_iff (ready_portmapCall _) (arrives_datagrams _) (by decide)]
    exact ⟨portReply.take 24, by decide, by decide, by decide⟩
  · rw [gives_iff (ready_portmapCall _) (arrives_datagrams _) (by decide)]
    exact ⟨portReply, by decide, by decide, by decide⟩

end Klibc.Nfsmount.Strays
