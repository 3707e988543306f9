import Klibc.Nfsmount.SunRpc

/-! # One call and its reply

What each part of a remote procedure call does to the program, for a call and a reply that lie in
objects of the right size. `Taken` is the test that `rpc_do_reply` makes, on the bytes that were
received: over UDP they go to the reply behind the record mark, over TCP they bring one. -/

namespace Klibc.Nfsmount.Exchange

open Lib.Slice Lib.Total Lib.Xdr SunRpc List

variable {s : Sys} {Q : ℤ → Sys → Prop} {d : List UInt8} {es : List Event} {next : Bool → Call ℤ}
  {n : ℕ} {b : Bool} {off : ℕ}

lemma returns_bail {d : Diagnostic} :
    Returns (bail d) s Q ↔ Q (-1) { s with stderr := s.stderr ++ [d] } :=
  returns_iff_of_eq rfl

/-! ### Reading a reply -/

def offset : Client → ℕ
  | .tcp => 0
  | .udp => UDP_HDR_OFF

/-- The bytes received pass the tests of `rpc_do_reply`. -/
def Taken (c : Client) (xid : ℕ) (d : List UInt8) : Prop :=
  sizeofRpcReply - offset c ≤ d.length ∧ (c = .tcp → LAST_FRAG ≤ word d 0) ∧
    word d (4 - offset c) = xid ∧ word d (8 - offset c) = RPC_REPLY ∧
    word d (24 - offset c) = REPLY_OK

instance (c : Client) (xid : ℕ) (d : List UInt8) : Decidable (Taken c xid d) :=
  inferInstanceAs (Decidable (_ ∧ _))

variable {m : List UInt8} {c : Client} {e : Event}

lemma taken_take {xid n : ℕ} (h : sizeofRpcReply - offset c ≤ n) :
    Taken c xid (d.take n) ↔ Taken c xid d := by
  have hlen : sizeofRpcReply - offset c ≤ (d.take n).length ↔
      sizeofRpcReply - offset c ≤ d.length := by
    rw [length_take]
    omega
  unfold Taken
  rw [hlen]
  cases c with
  | tcp =>
    have h28 : 28 ≤ n := h
    rw [word_take (by omega), word_take (by simp only [offset]; omega),
      word_take (by simp only [offset]; omega), word_take (by simp only [offset]; omega)]
  | udp =>
    have h24 : 24 ≤ n := h
    simp only [offset, UDP_HDR_OFF, reduceCtorEq, false_implies, true_and]
    rw [word_take (by omega), word_take (by omega), word_take (by omega)]

/-- The program after `d` was read to the reply. -/
def took (s : Sys) (off : ℕ) (d : List UInt8) : Sys :=
  { s with
    read := fun i => s.read (i + 1)
    reply := s.reply.take off ++ d ++ s.reply.drop (off + d.length)
    received := s.received ++ [d] }

lemma took_call (s : Sys) (off : ℕ) (d : List UInt8) : (took s off d).call = s.call := rfl

lemma read_eq {off n : ℕ} (hm : s.read 0 = some m)
    (h : off + (m.take n).length ≤ s.reply.length) :
    read off n s = some (some (m.take n).length, took s off (m.take n)) := by
  unfold SunRpc.read
  rw [hm]
  simp only [overwrite_eq h, Option.bind_eq_bind, Option.bind_some]
  rfl

lemma room_eq (h : off ≤ s.replyLen) :
    room off s = some (s.replyLen - off, s) :=
  if_pos h

lemma word_took {off i : ℕ} (hoff : off ≤ s.reply.length)
    (hi : off ≤ i) (h : i - off + 4 ≤ d.length) :
    word (took s off d).reply i = word d (i - off) := by
  rw [← word_overwritten hoff h (r := s.reply.drop (off + d.length)), Nat.add_sub_cancel' hi]
  rfl

lemma taken_iff (xid : ℕ)
    (hoff : offset c ≤ s.reply.length) (hlong : sizeofRpcReply - offset c ≤ d.length) :
    Taken c xid d ↔
      ¬ ((offset c = 0 ∧ word (took s (offset c) d).reply 0 < LAST_FRAG) ∨
        word (took s (offset c) d).reply 4 ≠ xid ∨
        word (took s (offset c) d).reply 8 ≠ RPC_REPLY) ∧
      word (took s (offset c) d).reply 24 = REPLY_OK := by
  have hle : offset c ≤ 4 := by cases c <;> decide
  have hlong' : 28 - offset c ≤ d.length := hlong
  rw [word_took (i := 4) hoff (by omega) (by omega), word_took (i := 8) hoff (by omega) (by omega),
    word_took (i := 24) hoff (by omega) (by omega), Taken, and_iff_right hlong]
  cases c with
  | tcp =>
    have h0 : word (took s 0 d).reply 0 = word d 0 := by
      refine word_took (Nat.zero_le _) le_rfl ?_
      have h28 : 28 ≤ d.length := hlong
      omega
    simp [offset, h0, not_lt, and_assoc]
  | udp => simp [offset, UDP_HDR_OFF, OfNat.ofNat_ne_zero, and_assoc]

/-- **What `rpc_do_reply` does** with bytes that it can read: it puts as many as there is room for
into the reply, and takes their number for the length of the reply unless they are too few. -/
theorem returns_rpcDoReply (hm : s.read 0 = some m)
    (hoff : offset c ≤ s.replyLen) (hcap : s.replyLen ≤ s.reply.length) :
    Returns (rpcDoReply (offset c)) s fun ret t =>
      ret = (if Taken c (word s.call 4) (m.take (s.replyLen - offset c)) then 0 else -1) ∧
      ∃ e, t = { took s (offset c) (m.take (s.replyLen - offset c)) with
        replyLen :=
          if (m.take (s.replyLen - offset c)).length < sizeofRpcReply - offset c then s.replyLen
          else (m.take (s.replyLen - offset c)).length + offset c
        stderr := s.stderr ++ e } := by
  set d := m.take (s.replyLen - offset c) with hd
  have hfits : offset c + d.length ≤ s.reply.length := by
    rw [hd, length_take]
    omega
  have hread : read (offset c) (s.replyLen - offset c) s =
      some (some d.length, took s (offset c) d) := read_eq hm hfits
  rw [rpcDoReply, returns_bind, returns_iff_of_eq (room_eq hoff), returns_bind,
    returns_iff_of_eq hread]
  by_cases hshort : d.length < sizeofRpcReply - offset c
  · have hno : ¬ Taken c (word s.call 4) d := fun h => absurd h.1 (not_le.2 hshort)
    simp only [if_pos hshort, if_neg hno, returns_bail]
    exact ⟨trivial, _, rfl⟩
  · have htaken := taken_iff (s := s) (word s.call 4) (hoff.trans hcap) (not_lt.1 hshort)
    simp only [if_neg hshort, returns_bind, returns_modify, returns_get, took_call]
    by_cases ht : Taken c (word s.call 4) d
    · obtain ⟨hgood, hok⟩ := htaken.1 ht
      rw [if_neg hgood, if_neg (not_not.2 hok), if_pos ht, returns_pure]
      exact ⟨rfl, [], by rw [append_nil]; rfl⟩
    · rw [if_neg ht]
      split_ifs with hbad hstate
      · exact returns_bail.2 ⟨rfl, _, rfl⟩
      · exact returns_bail.2 ⟨rfl, _, rfl⟩
      · exact absurd (htaken.2 ⟨hbad, not_not.1 hstate⟩) ht

/-! ### Sending the call -/

def xid (s : Sys) : ℕ := word (s.lrand48 0).toList 0

lemma returns_poke {i n : ℕ} {bytes : List UInt8} {Q : Unit → Sys → Prop}
    (hn : s.call.length = n) (h : i + bytes.length ≤ n) (hQ : ∀ call : List UInt8, call.length = n →
      (∀ j, j + 4 ≤ bytes.length → word call (i + j) = word bytes j) →
      (∀ j, j + 4 ≤ i → word call j = word s.call j) → Q () { s with call := call }) :
    Returns (poke i bytes) s Q := by
  subst hn
  have he : poke i bytes s = some ((), { s with
      call := s.call.take i ++ bytes ++ s.call.drop (i + bytes.length) }) := by
    unfold poke
    rw [overwrite_eq h]
    rfl
  rw [returns_iff_of_eq he]
  exact hQ _ (length_overwritten h) (fun j hj => word_overwritten (by omega) hj)
    fun j hj => word_before (by omega) hj

/-- **The header** has a new transaction identifier. -/
theorem returns_rpcHeader (h : 16 ≤ s.call.length) :
    Returns rpcHeader s fun _ t => ∃ call, call.length = s.call.length ∧ word call 4 = xid s ∧
      t = { s with lrand48 := fun i => s.lrand48 (i + 1), call := call } := by
  rw [rpcHeader, returns_bind, returns_get, returns_bind]
  refine returns_poke rfl (by rw [length_be32]; omega) fun call1 hlen1 _ _ => ?_
  rw [returns_bind, SunRpc.lrand48]
  simp only [returns_bind, returns_get, returns_set, returns_pure]
  refine returns_poke hlen1 (by rw [Vector.length_toList]; omega) fun call2 hlen2 hxid _ => ?_
  refine returns_poke hlen2 (by rw [length_be32]; omega) fun call3 hlen3 _ hbefore3 => ?_
  refine returns_poke hlen3 (by rw [length_be32]; omega) fun call4 hlen4 _ hbefore4 => ?_
  refine ⟨call4, hlen4, ?_, rfl⟩
  calc word call4 4 = word call3 4 := hbefore4 4 (by omega)
    _ = word call2 4 := hbefore3 4 (by omega)
    _ = xid s := hxid 0 (by rw [Vector.length_toList])

lemma write_eq (off : ℕ) (h : off + s.callLen ≤ s.call.length)
    (hn : s.write 0 = some n) (hle : s.callLen ≤ n) :
    write off s = some (some s.callLen, { s with
      write := fun i => s.write (i + 1)
      sent := s.sent ++ [((s.call.drop off).take s.callLen).take n] }) := by
  unfold SunRpc.write
  rw [slice_eq h, hn]
  simp only [Option.bind_eq_bind, Option.bind_some, Nat.min_eq_right hle]

/-! ### The loops of a call over UDP -/

/-- What arrives while `rpc_call_udp` waits: nothing within the time, or a datagram. -/
inductive Event
  | timeout
  | datagram (d : List UInt8)
  deriving DecidableEq

/-- Just these events, one for each `poll`, and then nothing more. -/
def Arrives : List Event → (ℕ → Poll) → (ℕ → Option (List UInt8)) → Prop
  | [], polls, _ => ∀ i, polls i = .timeout
  | .timeout :: es, polls, reads => polls 0 = .timeout ∧ Arrives es (fun i => polls (i + 1)) reads
  | .datagram d :: es, polls, reads => polls 0 = .ready ∧ reads 0 = some d ∧
      Arrives es (fun i => polls (i + 1)) fun i => reads (i + 1)

/-- A call over UDP under way: the kernel takes every `write`, and there is room for a reply. -/
structure Going (s : Sys) : Prop where
  write : ∀ i, ∃ n, s.write i = some n ∧ s.callLen ≤ n
  call : UDP_HDR_OFF + s.callLen ≤ s.call.length
  room : sizeofRpcReply ≤ s.replyLen
  fits : s.replyLen ≤ s.reply.length

def shrink (len : ℕ) : Event → ℕ
  | .timeout => len
  | .datagram d =>
    if d.length < sizeofRpcReply - UDP_HDR_OFF then len else min (d.length + UDP_HDR_OFF) len

lemma returns_udpLoop_succ (hs : Going s)
    (h : ∀ l w x, Going { s with lrand48 := l, write := w, sent := x } →
      Returns (udpTurn (udpLoop n)) { s with lrand48 := l, write := w, sent := x } Q) :
    Returns (udpLoop (n + 1) b) s Q := by
  cases b with
  | false => exact h s.lrand48 s.write s.sent hs
  | true =>
    obtain ⟨k, hk, hle⟩ := hs.write 0
    have hwrite := write_eq (s := { s with lrand48 := fun i => s.lrand48 (i + 1) }) UDP_HDR_OFF
      hs.call hk hle
    rw [udpLoop, SunRpc.lrand48]
    simp only [returns_bind, returns_get, returns_set, returns_pure]
    rw [returns_iff_of_eq hwrite]
    simp only [returns_bind, returns_get, lt_irrefl, if_false]
    exact h _ _ _ ⟨fun i => hs.write (i + 1), hs.call, hs.room, hs.fits⟩

lemma returns_timeout (hp : s.poll 0 = .timeout) :
    Returns (udpTurn next) s Q ↔
      Returns (next true) { s with poll := fun i => s.poll (i + 1) } Q := by
  rw [udpTurn, returns_bind, SunRpc.poll]
  simp only [returns_bind, returns_get, returns_set, returns_pure, hp]

/-- A datagram: it is taken, or the loops go on, with the length of the reply set to the datagram's
unless that is too short. -/
theorem returns_datagram (hs : Going s) (hp : s.poll 0 = .ready) (hd : s.read 0 = some d)
    (h : ∀ e, Returns (if Taken .udp (word s.call 4) d then pure 0 else next false)
      { took s UDP_HDR_OFF (d.take (s.replyLen - UDP_HDR_OFF)) with
        poll := fun i => s.poll (i + 1)
        replyLen := shrink s.replyLen (.datagram d)
        stderr := e } Q) :
    Returns (udpTurn next) s Q := by
  have hroom : 28 ≤ s.replyLen := hs.room
  have hshort : ((d.take (s.replyLen - 4)).length < 28 - 4) = (d.length < 28 - 4) := by
    rw [length_take, eq_iff_iff]
    omega
  have hlen : (d.take (s.replyLen - 4)).length + 4 = min (d.length + 4) s.replyLen := by
    rw [length_take]
    omega
  have htaken : Taken .udp (word s.call 4) (d.take (s.replyLen - 4)) ↔
      Taken .udp (word s.call 4) d := taken_take (show 28 - 4 ≤ s.replyLen - 4 by omega)
  rw [udpTurn, returns_bind, SunRpc.poll]
  simp only [returns_bind, returns_get, returns_set, returns_pure, hp]
  refine (returns_rpcDoReply (c := .udp) (s := { s with poll := fun i => s.poll (i + 1) }) hd
    (show 4 ≤ s.replyLen by omega) hs.fits).mono ?_
  rintro ret t ⟨rfl, e, rfl⟩
  have hlast := h (s.stderr ++ e)
  simp only [offset, shrink, UDP_HDR_OFF, sizeofRpcReply, htaken, hshort, hlen] at hlast ⊢
  by_cases ht : Taken .udp (word s.call 4) d
  · rw [if_pos ht] at hlast ⊢
    exact hlast
  · rw [if_neg ht] at hlast ⊢
    exact hlast

def Stray (xid : ℕ) : Event → Prop
  | .timeout => True
  | .datagram d => ¬ Taken .udp xid d

def mark (s : Sys) : List UInt8 := s.reply.take UDP_HDR_OFF

/-- The message `m` lies in the reply, behind `mark`. -/
structure Holds (mark : List UInt8) (t : Sys) (m : List UInt8) : Prop where
  len : t.replyLen = UDP_HDR_OFF + m.length
  bytes : t.reply.take t.replyLen = mark ++ m

/-- What the loops keep while they go on. -/
structure Kept (s t : Sys) : Prop where
  going : Going t
  call : t.call = s.call
  mark : mark t = mark s

lemma le_shrink {len : ℕ} (h : sizeofRpcReply ≤ len) (e : Event) :
    sizeofRpcReply ≤ shrink len e := by
  cases e with
  | timeout => exact h
  | datagram d =>
    rw [shrink]
    split_ifs with hd
    · exact h
    · simp only [sizeofRpcReply, UDP_HDR_OFF] at h hd ⊢
      omega

lemma shrink_le (len : ℕ) (e : Event) : shrink len e ≤ len := by
  cases e with
  | timeout => exact le_rfl
  | datagram d =>
    rw [shrink]
    split_ifs
    · exact le_rfl
    · exact Nat.min_le_right _ _

lemma take_before (hoff : off ≤ s.reply.length) :
    (took s off d).reply.take off = s.reply.take off := by
  unfold took
  rw [append_assoc]
  exact take_left' (length_take_of_le hoff)

section
variable (hoff : off ≤ s.replyLen) (hcap : s.replyLen ≤ s.reply.length)
include hoff hcap

lemma length_took :
    (took s off (d.take (s.replyLen - off))).reply.length = s.reply.length := by
  refine length_overwritten ?_
  rw [length_take]
  omega

lemma take_took :
    (took s off (d.take (s.replyLen - off))).reply.take
      (off + (d.take (s.replyLen - off)).length) =
        s.reply.take off ++ d.take (s.replyLen - off) := by
  refine take_overwritten ?_
  rw [length_take]
  omega

end

section
variable (hs : Going s) (ha : Arrives (e :: es) s.poll s.read) (he : Stray (word s.call 4) e)
include hs ha he

lemma returns_udpTurn
    (h : ∀ t b, Kept s t → Arrives es t.poll t.read → t.replyLen = shrink s.replyLen e →
      Returns (next b) t Q) :
    Returns (udpTurn next) s Q := by
  cases e with
  | timeout =>
    obtain ⟨hp, ha⟩ := ha
    rw [returns_timeout hp]
    exact h _ _ ⟨⟨hs.write, hs.call, hs.room, hs.fits⟩, rfl, rfl⟩ ha rfl
  | datagram d =>
    obtain ⟨hp, hd, ha⟩ := ha
    have h4 : UDP_HDR_OFF ≤ s.replyLen := le_trans (by decide) hs.room
    refine returns_datagram hs hp hd fun x => ?_
    rw [if_neg he]
    refine h _ _ ⟨⟨hs.write, hs.call, le_shrink hs.room (.datagram d), ?_⟩, rfl, ?_⟩ ha rfl
    · exact ((shrink_le _ (.datagram d)).trans hs.fits).trans (length_took h4 hs.fits).ge
    · exact take_before (h4.trans hs.fits)

/-- **One event** that does not end the call. -/
theorem returns_stray
    (h : ∀ t b', Kept s t → Arrives es t.poll t.read → t.replyLen = shrink s.replyLen e →
      Returns (udpLoop n b') t Q) :
    Returns (udpLoop (n + 1) b) s Q :=
  returns_udpLoop_succ hs fun _ _ _ hs' => returns_udpTurn hs' ha he fun t b' hk ha' hl =>
    h t b' ⟨hk.going, hk.call, hk.mark⟩ ha' hl

end

lemma returns_quiet (hs : Going s) (ha : Arrives [] s.poll s.read) :
    Returns (udpLoop n b) s fun ret _ => ret = -1 := by
  induction n generalizing s b with
  | zero => exact returns_pure.2 rfl
  | succ n ih =>
    have ha' : Arrives [.timeout] s.poll s.read := ⟨ha 0, fun i => ha (i + 1)⟩
    exact returns_stray hs ha' trivial fun t b' hk ht _ => ih hk.going ht

/-- **A datagram that is taken** ends the call. -/
theorem returns_taken (hs : Going s) (ha : Arrives (.datagram d :: es) s.poll s.read)
    (ht : Taken .udp (word s.call 4) d) :
    Returns (udpLoop (n + 1) b) s fun ret t => ret = 0 ∧
      Holds (mark s) t (d.take (s.replyLen - UDP_HDR_OFF)) := by
  obtain ⟨hp, hd, -⟩ := ha
  have h4 : UDP_HDR_OFF ≤ s.replyLen := le_trans (by decide) hs.room
  have hlen : shrink s.replyLen (.datagram d) =
      UDP_HDR_OFF + (d.take (s.replyLen - UDP_HDR_OFF)).length := by
    have hlong : ¬ d.length < sizeofRpcReply - UDP_HDR_OFF := not_lt.2 ht.1
    rw [shrink, if_neg hlong, length_take]
    omega
  refine returns_udpLoop_succ hs fun _ _ _ hs' => returns_datagram hs' hp hd fun x => ?_
  rw [if_pos ht, returns_pure]
  refine ⟨rfl, hlen, ?_⟩
  rw [mark, ← take_took h4 hs.fits, ← hlen]
  rfl

/-! ### A whole call -/

def collect (xid : ℕ) : ℕ → List Event → Option (List UInt8)
  | _, [] => none
  | len, .timeout :: es => collect xid len es
  | len, .datagram d :: es =>
    if Taken .udp xid d then some (d.take (len - UDP_HDR_OFF))
    else collect xid (shrink len (.datagram d)) es

lemma collect_stray {xid len : ℕ} (he : Stray xid e) :
    collect xid len (e :: es) = collect xid (shrink len e) es := by
  cases e with
  | timeout => rfl
  | datagram d => exact if_neg he

/-- **The loops** return what they collect, if there are no more events than tries. -/
theorem returns_udpLoop (hs : Going s) (ha : Arrives es s.poll s.read) (hn : es.length ≤ n) :
    Returns (udpLoop n b) s fun ret t =>
      (collect (word s.call 4) s.replyLen es).elim (ret = -1) fun m =>
        ret = 0 ∧ Holds (mark s) t m := by
  induction es generalizing n b s with
  | nil => exact returns_quiet hs ha
  | cons e es ih =>
    obtain ⟨n, rfl⟩ : ∃ k, n = k + 1 := ⟨n - 1, by rw [length_cons] at hn; omega⟩
    have hn' : es.length ≤ n := Nat.le_of_succ_le_succ hn
    by_cases he : Stray (word s.call 4) e
    · rw [collect_stray he]
      refine returns_stray hs ha he fun t b' hk ha' hl => (ih hk.going ha' hn').mono ?_
      intro ret u hu
      rw [hk.call, hl] at hu
      cases hc : collect (word s.call 4) (shrink s.replyLen e) es with
      | none => rwa [hc] at hu
      | some m =>
        rw [hc] at hu
        exact ⟨hu.1, hu.2.len, hu.2.bytes.trans (by rw [hk.mark])⟩
    · cases e with
      | timeout => exact absurd trivial he
      | datagram d =>
        have ht : Taken .udp (word s.call 4) d := not_not.1 he
        rw [collect, if_pos ht]
        exact returns_taken hs ha ht

/-- A call that is ready to be made: `struct rpc` describes its two objects, and the kernel takes
every `write`. -/
structure Ready (s : Sys) : Prop where
  call : 16 ≤ s.call.length
  callLen : s.callLen = s.call.length
  room : sizeofRpcReply ≤ s.replyLen
  replyLen : s.replyLen = s.reply.length
  write : ∀ i, ∃ n, s.write i = some n ∧ s.callLen ≤ n

/-- **A call over UDP** returns what it collects. -/
theorem returns_rpcCallUdp (hs : Ready s)
    (ha : Arrives es s.poll s.read) (hn : es.length ≤ MAX_TRIES) :
    Returns rpcCallUdp s fun ret t =>
      (collect (xid s) s.replyLen es).elim (ret = -1) fun m => ret = 0 ∧ Holds (mark s) t m := by
  have hcall : 16 ≤ s.callLen := hs.call.trans hs.callLen.ge
  rw [rpcCallUdp, returns_bind]
  refine (returns_rpcHeader hs.call).mono ?_
  rintro - t ⟨call, hlen, hxid, rfl⟩
  rw [returns_bind, returns_modify]
  have hgoing : Going { s with
      lrand48 := fun i => s.lrand48 (i + 1), call := call,
      callLen := s.callLen - UDP_HDR_OFF } := by
    refine ⟨fun i => ?_, ?_, hs.room, hs.replyLen.le⟩
    · obtain ⟨k, hk, hle⟩ := hs.write i
      exact ⟨k, hk, (Nat.sub_le _ _).trans hle⟩
    · simp only [UDP_HDR_OFF, hlen, ← hs.callLen]
      omega
  refine (returns_udpLoop hgoing ha hn).mono fun ret u hu => ?_
  rw [← hxid]
  exact hu

/-- **A call over TCP** tests what it reads. -/
theorem returns_rpcCallTcp (hs : Ready s) (hm : s.read 0 = some m) :
    Returns rpcCallTcp s fun ret _ => ret = if Taken .tcp (xid s) m then 0 else -1 := by
  obtain ⟨k, hk, hle⟩ := hs.write 0
  rw [rpcCallTcp, returns_bind]
  refine (returns_rpcHeader hs.call).mono ?_
  rintro - t ⟨call, hlen, hxid, rfl⟩
  have hwrite := write_eq (s := { s with lrand48 := fun i => s.lrand48 (i + 1), call := call })
    0 (by simp only [Nat.zero_add, hlen, hs.callLen, le_refl]) hk hle
  rw [returns_bind, returns_iff_of_eq hwrite]
  simp only [returns_bind, returns_get, lt_irrefl, if_false]
  have hreply := returns_rpcDoReply (c := .tcp) (s := { s with
    lrand48 := fun i => s.lrand48 (i + 1), write := fun i => s.write (i + 1), call := call,
    sent := s.sent ++ [((call.drop 0).take s.callLen).take k] }) hm (Nat.zero_le _) hs.replyLen.le
  refine hreply.mono ?_
  rintro ret u ⟨rfl, -⟩
  have htake : Taken .tcp (word call 4) (m.take s.replyLen) ↔ Taken .tcp (xid s) m := by
    rw [hxid, taken_take hs.room]
  simp [offset, htake]

/-! ### Calls of the port mapper -/

/-- What `poll` returns while these datagrams arrive. -/
def pollsOf (ds : List (List UInt8)) (i : ℕ) : Poll := if i < ds.length then .ready else .timeout

lemma arrives_datagrams (ds : List (List UInt8)) :
    Arrives (ds.map .datagram) (pollsOf ds) fun i => ds[i]? := by
  induction ds with
  | nil => exact fun i => if_neg (Nat.not_lt_zero i)
  | cons d ds ih =>
    refine ⟨if_pos (Nat.succ_pos _), rfl, ?_⟩
    have hpolls : (fun i => pollsOf (d :: ds) (i + 1)) = pollsOf ds := by
      funext i
      simp [pollsOf]
    rw [hpolls]
    exact ih

/-- A call of the port mapper while the datagrams `ds` arrive, with the transaction identifier 0 and
room for a port in the reply. -/
def portmapCall (ds : List (List UInt8)) : Sys where
  lrand48 _ := Vector.replicate 4 0
  write _ := some 60
  poll := pollsOf ds
  read i := ds[i]?
  call := List.replicate 60 0
  callLen := 60
  reply := List.replicate 32 0
  replyLen := 32
  sent := []
  received := []
  stderr := []

lemma ready_portmapCall (ds : List (List UInt8)) : Ready (portmapCall ds) :=
  ⟨(by decide : 16 ≤ 60), rfl, (by decide : sizeofRpcReply ≤ 32), rfl,
    fun _ => ⟨60, rfl, le_rfl⟩⟩

def portReply : List UInt8 := be32 0 ++ be32 1 ++ be32 0 ++ be32 0 ++ be32 0 ++ be32 0 ++ be32 2049

end Klibc.Nfsmount.Exchange
