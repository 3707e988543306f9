import Klibc.Nfsmount.Exchange
import Klibc.Nfsmount.Mount

/-! # File handles from replies

What `mount_v2` and `mount_v3` store is taken from `mnt_reply`, of which the datagram at hand may
have set only the first bytes. -/

namespace Klibc.Nfsmount.Handles

open Lib.Slice Lib.Total Lib.Xdr List SunRpc Exchange Mount

/-! ### Calls, whatever the kernel does -/

/-- The call and the reply lie in their objects. -/
structure Proper (c : Client) (s : Sys) : Prop where
  call : offset c + s.callLen ≤ s.call.length
  room : sizeofRpcReply ≤ s.replyLen
  fits : s.replyLen ≤ s.reply.length

/-- `mnt_reply` after a datagram was read into it. -/
def fill (c : Client) (m d : List UInt8) : List UInt8 :=
  m.take (offset c) ++ d ++ m.drop (offset c + d.length)

/-- The datagram `d` is the reply, which has the length that `rpc` says; `m` was there before. -/
structure Got (c : Client) (t : Sys) (m d : List UInt8) : Prop where
  reply : t.reply = fill c m d
  len : t.replyLen = offset c + d.length
  fits : t.replyLen ≤ t.reply.length

/-- A call has returned `ret`: the datagrams `ds` were read, and the last one is the reply if this
is 0. -/
structure Made (c : Client) (s : Sys) (ret : ℤ) (t : Sys) : Prop where
  len : t.reply.length = s.reply.length
  read : ∃ ds, t.received = s.received ++ ds ∧ t.reply = ds.foldl (fill c) s.reply ∧
    (ret = 0 ∧ (∃ ds' d, ds = ds' ++ [d] ∧ Got c t (ds'.foldl (fill c) s.reply) d) ∨ ret = -1)

lemma Made.ret_cases {c : Client} {s t : Sys} {ret : ℤ} (h : Made c s ret t) :
    ret = 0 ∨ ret = -1 := by
  obtain ⟨ds, -, -, h⟩ := h.read
  exact h.imp_left And.left

lemma Made.trans {c : Client} {s t u : Sys} {r ret : ℤ} (h : Made c s r t) (h' : Made c t ret u) :
    Made c s ret u := by
  obtain ⟨ds, hreceived, hreply, -⟩ := h.read
  obtain ⟨ds', hreceived', hreply', hret⟩ := h'.read
  refine ⟨h'.len.trans h.len, ds ++ ds', ?_, ?_, hret.imp_left fun ⟨h0, l, d, hl, hgot⟩ =>
    ⟨h0, ds ++ l, d, ?_, ?_⟩⟩
  · rw [hreceived', hreceived, append_assoc]
  · rw [hreply', hreply, foldl_append]
  · rw [hl, append_assoc]
  · rw [foldl_append, ← hreply]
    exact hgot

lemma offset_le (c : Client) : offset c ≤ 4 := by cases c <;> decide

variable {c : Client} {s : Sys} {d : List UInt8}

lemma made_rpcDoReply (hs : Proper c s) :
    Returns (rpcDoReply (offset c)) s fun ret t => Made c s ret t ∧ Proper c t := by
  have hoff : offset c ≤ s.replyLen := (offset_le c).trans (le_trans (by decide) hs.room)
  cases hm : s.read 0 with
  | none =>
    have hread : read (offset c) (s.replyLen - offset c) s =
        some (none, { s with read := fun i => s.read (i + 1) }) := by
      unfold SunRpc.read
      rw [hm]
    rw [rpcDoReply, returns_bind, returns_iff_of_eq (room_eq hoff), returns_bind,
      returns_iff_of_eq hread, returns_bail]
    exact ⟨⟨rfl, [], (append_nil _).symm, rfl, Or.inr rfl⟩, hs.call, hs.room, hs.fits⟩
  | some m =>
    refine (returns_rpcDoReply hm hoff hs.fits).mono ?_
    rintro ret t ⟨rfl, e, rfl⟩
    have hlen := length_took (d := m) hoff hs.fits
    have hle : (m.take (s.replyLen - offset c)).length ≤ s.replyLen - offset c := length_take_le _ _
    have hcap := hs.fits
    generalize m.take (s.replyLen - offset c) = d at hlen hle ⊢
    by_cases hshort : d.length < sizeofRpcReply - offset c
    · rw [if_pos hshort, if_neg fun ht => absurd ht.1 (not_le.2 hshort)]
      exact ⟨⟨hlen, [d], rfl, rfl, Or.inr rfl⟩, hs.call, hs.room, hs.fits.trans hlen.ge⟩
    · rw [if_neg hshort]
      have hfits : d.length + offset c ≤ (took s (offset c) d).reply.length := by omega
      have hgot : Got c { took s (offset c) d with
          replyLen := d.length + offset c, stderr := s.stderr ++ e } s.reply d :=
        ⟨rfl, Nat.add_comm _ _, hfits⟩
      refine ⟨⟨hlen, [d], rfl, rfl, ?_⟩, hs.call, ?_, hfits⟩
      · split_ifs
        · exact Or.inl ⟨rfl, [], d, rfl, hgot⟩
        · exact Or.inr rfl
      · exact Nat.sub_le_iff_le_add.1 (not_lt.1 hshort)

lemma made_bail {d : Diagnostic} : Returns (SunRpc.bail d) s (Made c s) :=
  returns_bail.2 ⟨rfl, [], (append_nil _).symm, rfl, Or.inr rfl⟩

lemma returns_write {off : ℕ} (h : off + s.callLen ≤ s.call.length) :
    Returns (write off) s fun _ t => ∃ w x, t = { s with write := w, sent := x } := by
  cases hn : s.write 0 with
  | none =>
    have he : write off s = some (none, { s with write := fun i => s.write (i + 1) }) := by
      unfold SunRpc.write
      rw [slice_eq h, hn]
      rfl
    exact (returns_iff_of_eq he).2 ⟨_, s.sent, rfl⟩
  | some n =>
    have he : write off s = some (some (min n s.callLen), { s with
        write := fun i => s.write (i + 1)
        sent := s.sent ++ [((s.call.drop off).take s.callLen).take n] }) := by
      unfold SunRpc.write
      rw [slice_eq h, hn]
      rfl
    exact (returns_iff_of_eq he).2 ⟨_, _, rfl⟩

lemma made_write (hs : Proper c s) {k : SunRpc.Call ℤ} {f : Option ℕ → SunRpc.Call ℤ}
    (hnone : f none = SunRpc.bail .write) (hsome : ∀ ret, f (some ret) = get >>= fun u =>
      if ret < u.callLen then SunRpc.bail (.shortWrite ret u.callLen) else k)
    (h : ∀ {t}, Proper c t → Returns k t (Made c t)) :
    Returns (write (offset c) >>= f) s (Made c s) := by
  rw [returns_bind]
  refine (returns_write hs.call).mono ?_
  rintro ret t ⟨w, x, rfl⟩
  have ht : Proper c { s with write := w, sent := x } := ⟨hs.call, hs.room, hs.fits⟩
  cases ret with
  | none =>
    rw [hnone]
    exact made_bail.mono fun ret t ht => ⟨ht.len, ht.read⟩
  | some ret =>
    rw [hsome, returns_bind, returns_get]
    split_ifs
    · exact made_bail.mono fun ret t ht => ⟨ht.len, ht.read⟩
    · exact (h ht).mono fun ret t ht => ⟨ht.len, ht.read⟩

lemma made_udpTurn {next : Bool → SunRpc.Call ℤ} (hs : Proper .udp s)
    (h : ∀ b t, Proper .udp t → Returns (next b) t (Made .udp t)) :
    Returns (udpTurn next) s (Made .udp s) := by
  have hs' : Proper .udp { s with poll := fun i => s.poll (i + 1) } := ⟨hs.call, hs.room, hs.fits⟩
  rw [udpTurn, returns_bind, SunRpc.poll]
  simp only [returns_bind, returns_get, returns_set, returns_pure]
  cases s.poll 0 with
  | error => exact made_bail.mono fun ret t ht => ⟨ht.len, ht.read⟩
  | timeout => exact (h _ _ hs').mono fun ret t ht => ⟨ht.len, ht.read⟩
  | ready =>
    simp only [returns_bind]
    refine (made_rpcDoReply hs').mono ?_
    rintro ret t ⟨ht, hproper⟩
    have ht' : Made .udp s ret t := ⟨ht.len, ht.read⟩
    rcases ht.ret_cases with rfl | rfl
    · rw [if_pos rfl, returns_pure]
      exact ht'
    · rw [if_neg (by decide)]
      exact (h _ _ hproper).mono fun ret u hu => ht'.trans hu

lemma made_udpLoop {n : ℕ} {b : Bool} (hs : Proper .udp s) :
    Returns (udpLoop n b) s (Made .udp s) := by
  induction n generalizing b s with
  | zero => exact returns_pure.2 ⟨rfl, [], (append_nil _).symm, rfl, Or.inr rfl⟩
  | succ n ih =>
    have hturn : ∀ {t : Sys}, Proper .udp t → Returns (udpTurn (udpLoop n)) t (Made .udp t) :=
      fun ht => made_udpTurn ht fun _ _ hu => ih hu
    cases b with
    | false => exact hturn hs
    | true =>
      rw [udpLoop, SunRpc.lrand48]
      simp only [bind_assoc, returns_bind (c := get), returns_get, returns_bind (c := set _),
        returns_set, pure_bind]
      have hs' : Proper .udp { s with lrand48 := fun i => s.lrand48 (i + 1) } :=
        ⟨hs.call, hs.room, hs.fits⟩
      exact (made_write hs' rfl (fun _ => rfl) hturn).mono fun ret t ht => ⟨ht.len, ht.read⟩

/-- **A call returns**, and if it returns 0 it has got a reply. -/
theorem made_rpcCall (hcall : 16 ≤ s.call.length)
    (hcallLen : s.callLen = s.call.length) (hroom : sizeofRpcReply ≤ s.replyLen)
    (hfits : s.replyLen ≤ s.reply.length) : Returns (SunRpc.rpcCall c) s (Made c s) := by
  have hheader := returns_rpcHeader hcall
  cases c with
  | udp =>
    refine (returns_bind (c := rpcHeader)).2 (hheader.mono ?_)
    rintro - t ⟨call, hlen, -, rfl⟩
    have hproper : Proper .udp { s with
        lrand48 := fun i => s.lrand48 (i + 1), call := call,
        callLen := s.callLen - UDP_HDR_OFF } := by
      refine ⟨?_, hroom, hfits⟩
      simp only [offset, UDP_HDR_OFF, hlen, hcallLen]
      omega
    rw [returns_bind, returns_modify]
    exact (made_udpLoop hproper).mono fun ret t ht => ⟨ht.len, ht.read⟩
  | tcp =>
    refine (returns_bind (c := rpcHeader)).2 (hheader.mono ?_)
    rintro - t ⟨call, hlen, -, rfl⟩
    have hproper : Proper .tcp { s with
        lrand48 := fun i => s.lrand48 (i + 1), call := call } :=
      ⟨by simp only [offset, hlen, hcallLen]; omega, hroom, hfits⟩
    have hreply : ∀ {t}, Proper .tcp t → Returns (SunRpc.rpcDoReply 0) t (Made .tcp t) :=
      fun ht => (made_rpcDoReply ht).mono fun ret t ht => ht.1
    exact (made_write hproper rfl (fun _ => rfl) hreply).mono fun ret t ht => ⟨ht.len, ht.read⟩

/-! ### The reply to `mount_call` -/

lemma returns_mount_bail {p : Prog} {d : Diagnostic} {Q : ℤ → Prog → Prop} :
    Returns (Mount.bail d) p Q ↔ Q (-1) { p with stderr := p.stderr ++ [d] } :=
  returns_iff_of_eq rfl

lemma sized_eq {n : ℕ} {l : List UInt8} (h : l.length = n) : sized n l = some ⟨l.toArray, h⟩ :=
  dif_pos h

lemma length_callBytes (proc version : ℕ) (path : Path) (found : ℕ → UInt8) :
    16 ≤ (callBytes proc version path found).length := by
  simp only [callBytes, length_append, length_replicate]
  omega

def Succeeded (t : Sys) : Prop := MNT_REPLY_MINSIZE ≤ t.replyLen ∧ word t.reply statusOff = 0

/-- The program behind a call of `rpc_call` that ends in `t`. -/
def after (p : Prog) (t : Sys) (h : t.reply.length = sizeofMountReply) : Prog :=
  { p with
    toKernel := t.toKernel, malloc := fun i => p.malloc (i + 1), mntReply := ⟨t.reply.toArray, h⟩,
    sent := t.sent, received := t.received, stderr := t.stderr }

lemma exists_rpcCall {p : Prog} (c : Client) (proc version : ℕ) (path : Path) (found : ℕ → UInt8) :
    ∃ ret t h, SunRpc.rpcCall c (p.rpc (callBytes proc version path found)) = some (ret, t) ∧
      Made c (p.rpc (callBytes proc version path found)) ret t ∧
      Mount.rpcCall c (callBytes proc version path found)
        { p with malloc := fun i => p.malloc (i + 1) } =
          some ((ret, t.replyLen), after p t h) := by
  obtain ⟨ret, t, he, hmade⟩ := made_rpcCall (c := c)
    (s := p.rpc (callBytes proc version path found)) (length_callBytes _ _ _ _) rfl
    (show sizeofRpcReply ≤ sizeofMountReply by decide) p.mntReply.length_toList.ge
  have hlen : t.reply.length = sizeofMountReply := hmade.len.trans p.mntReply.length_toList
  have he' : SunRpc.rpcCall c (Prog.rpc { p with malloc := fun i => p.malloc (i + 1) }
      (callBytes proc version path found)) = some (ret, t) := he
  exact ⟨ret, t, hlen, he, hmade, by simp [Mount.rpcCall, he', sized_eq hlen, after]⟩

/-- **What `mount_call` returns**: 0 if the call succeeded, with `mnt_reply` as it was left. -/
theorem returns_mountCall {p : Prog} (c : Client) (version : ℕ) (path : Path) {found : ℕ → UInt8}
    (hfound : p.malloc 0 = some found) :
    ∃ ret t, SunRpc.rpcCall c (p.rpc (callBytes MNTPROC_MNT version path found)) = some (ret, t) ∧
      Made c (p.rpc (callBytes MNTPROC_MNT version path found)) ret t ∧
      Returns (mountCall MNTPROC_MNT version path c) p fun r q =>
        (r = 0 ↔ ret = 0 ∧ Succeeded t) ∧ q.mntReply.toList = t.reply ∧
          q.received = t.received := by
  obtain ⟨ret, t, hlen, he, hmade, hcall⟩ :=
    exists_rpcCall (p := p) c MNTPROC_MNT version path found
  refine ⟨ret, t, he, hmade, ?_⟩
  rw [mountCall, returns_bind, Mount.malloc]
  simp only [returns_bind, returns_get, returns_set, returns_pure, hfound]
  rw [returns_iff_of_eq hcall]
  rcases hmade.ret_cases with rfl | rfl
  · simp only [lt_irrefl, if_false, ne_eq, not_true_eq_false, Succeeded, true_and]
    split_ifs with hshort
    · refine returns_mount_bail.2 ⟨iff_of_false (by decide) fun h => ?_, rfl, rfl⟩
      exact absurd h.1 (not_le.2 hshort)
    · simp only [returns_bind, returns_get]
      split_ifs with hstatus
      · rw [returns_pure]
        exact ⟨iff_of_true rfl ⟨not_lt.1 hshort, hstatus⟩, rfl, rfl⟩
      · exact returns_mount_bail.2 ⟨iff_of_false (by decide) fun h => hstatus h.2, rfl, rfl⟩
  · rw [if_pos (by decide : (-1 : ℤ) < 0), returns_pure]
    exact ⟨iff_of_false (by decide) fun h => absurd h.1 (by decide), rfl, rfl⟩

/-! ### The handle -/

inductive Version
  | v2 | v3
  deriving DecidableEq

def mount : Version → Path → NfsMountData → Client → Mount.Call (ℤ × NfsMountData)
  | .v2 => mountV2
  | .v3 => mountV3

def version : Version → ℕ
  | .v2 => NFS_MNT_VERSION
  | .v3 => NFS_MNT3_VERSION

def handle (c : Client) (d : List UInt8) : Version → List UInt8
  | .v2 => d.drop (fhOff - offset c)
  | .v3 => d.drop (fhDataOff - offset c)

/-- What should hold of the stored handle when `d` was received: in version 2 it was received as a
whole; in version 3 its size fits, and its bytes were received. -/
def Stored (c : Client) (data : NfsMountData) (d : List UInt8) : Version → Prop
  | .v2 => NFS_FHSIZE ≤ (handle c d .v2).length
  | .v3 => data.rootSize ≤ NFS_MAXFHSIZE_WIRE ∧ data.rootSize ≤ data.rootData.toList.length ∧
      data.rootSize ≤ (handle c d .v3).length ∧
      data.rootData.toList.take data.rootSize = (handle c d .v3).take data.rootSize

/-- The reply is long enough for the handle that it holds, and this is not too long. -/
def Covered (t : Sys) : Version → Prop
  | .v2 => fhOff + NFS_FHSIZE ≤ t.replyLen
  | .v3 => word t.reply fhOff ≤ NFS_MAXFHSIZE_WIRE ∧ word t.reply fhOff ≤ t.replyLen - fhDataOff

/-- **A datagram that can be taken for what it is**, where `mnt_reply` held `m` before. In version 2
it has a whole handle. In version 3 it has a size of at most 64, and as many bytes behind it; or it
ends before the size does, and the bytes of `m` there make the size 0. -/
def Whole (c : Client) (m d : List UInt8) : Version → Prop
  | .v2 => fhOff + NFS_FHSIZE ≤ offset c + d.length
  | .v3 =>
    if fhDataOff ≤ offset c + d.length then
      word d (fhOff - offset c) ≤ NFS_MAXFHSIZE_WIRE ∧
        fhDataOff + word d (fhOff - offset c) ≤ offset c + d.length
    else word (d.drop (fhOff - offset c) ++ m.drop (offset c + d.length)) 0 = 0

lemma returns_access {α : Type} {x : Option α} {p : Prog} {Q : α → Prog → Prop} :
    Returns (access x) p Q ↔ ∃ v, x = some v ∧ Q v p := by
  cases x with
  | none =>
    refine iff_of_false ?_ ?_
    · rintro ⟨v, q, he, -⟩
      cases he
    · rintro ⟨v, hv, -⟩
      cases hv
  | some v =>
    have he : access (some v) p = some (v, p) := rfl
    rw [returns_iff_of_eq he]
    simp [exists_eq_left']

lemma memcpy_eq {n : ℕ} (dst) {src : List UInt8} (h : src.length ≤ n) :
    ∃ v, memcpy (n := n) dst src = some v ∧ v.toList = src ++ dst.toList.drop src.length := by
  have hlen : (src ++ dst.toList.drop src.length).length = n := by
    rw [length_append, length_drop, Vector.length_toList]
    omega
  exact ⟨_, sized_eq hlen, rfl⟩

section
variable {t : Sys} {m : List UInt8} (h : Got c t m d)
include h

lemma Got.drop {k : ℕ} (hk : offset c ≤ k) (hd : k ≤ t.replyLen) :
    t.reply.drop k = d.drop (k - offset c) ++ m.drop (offset c + d.length) := by
  have hlen := h.len
  have hfits := h.fits
  have hoff : (m.take (offset c)).length = offset c := by
    rw [h.reply, fill] at hfits
    simp only [length_append, length_take, length_drop] at hfits ⊢
    omega
  obtain ⟨i, rfl⟩ := Nat.exists_eq_add_of_le hk
  rw [h.reply, fill, append_assoc, ← drop_drop, drop_left' hoff, Nat.add_sub_cancel_left,
    drop_append_of_le_length (by omega)]

lemma drop_received {k : ℕ} (hk : offset c ≤ k) :
    d.drop (k - offset c) = (t.reply.drop k).take (t.replyLen - k) := by
  have hlen := h.len
  by_cases hd : k ≤ t.replyLen
  · rw [h.drop hk hd]
    exact (take_left' (by rw [length_drop]; omega)).symm
  · rw [drop_eq_nil_of_le (by omega), Nat.sub_eq_zero_of_le (by omega), take_zero]

lemma Got.word_status (hmin : MNT_REPLY_MINSIZE ≤ offset c + d.length) :
    word t.reply statusOff = word d (statusOff - offset c) := by
  have hoff := offset_le c
  have hlen := h.len
  have hstatus : statusOff = 28 := rfl
  have hsize : MNT_REPLY_MINSIZE = 32 := rfl
  rw [← word_drop_zero, h.drop (hoff.trans (by decide)) (by omega),
    word_append_left (by rw [length_drop]; omega), word_drop_zero]

/-- What covers the handle, by the datagram and what was there before it. -/
theorem covered_iff (hmin : fhOff ≤ t.replyLen) (v : Version) : Covered t v ↔ Whole c m d v := by
  have hoff := offset_le c
  have hlen := h.len
  have hword : word t.reply fhOff = word (d.drop (fhOff - offset c) ++
      m.drop (offset c + d.length)) 0 := by
    rw [← h.drop (hoff.trans (by decide)) hmin, word_drop_zero]
  have hfh : fhOff = 32 := rfl
  have hdata : fhDataOff = 36 := rfl
  cases v with
  | v2 => rw [Covered, Whole, hlen]
  | v3 =>
    rw [Covered, Whole, hword, ← hlen]
    split_ifs with hlong
    · rw [word_append_left (by rw [length_drop]; omega), word_drop_zero]
      omega
    · omega

end

variable {m : List UInt8}

lemma stored_v3_iff {t : Sys} {data : NfsMountData} (h : Got c t m d)
    (hsize : data.rootSize = word t.reply fhOff) (hfits : word t.reply fhOff ≤ NFS_MAXFHSIZE_WIRE)
    (hdata : data.rootData.toList.take (word t.reply fhOff) =
      (t.reply.drop fhDataOff).take (word t.reply fhOff)) :
    Stored c data d .v3 ↔ Covered t .v3 := by
  have hhandle : handle c d .v3 = (t.reply.drop fhDataOff).take (t.replyLen - fhDataOff) :=
    drop_received h ((offset_le c).trans (by decide))
  have hlen : (handle c d .v3).length = t.replyLen - fhDataOff := by
    have hcap := h.fits
    rw [hhandle, length_take, length_drop]
    omega
  rw [Stored, Covered, hsize, hdata, hlen, Vector.length_toList, hhandle, take_take]
  constructor
  · rintro ⟨-, -, hle, -⟩
    exact ⟨hfits, hle⟩
  · rintro ⟨-, hle⟩
    exact ⟨hfits, hfits, hle, by rw [Nat.min_eq_left hle]⟩

lemma stored_v2_iff {t : Sys} {data : NfsMountData}
    (h : Got c t m d) : Stored c data d .v2 ↔ Covered t .v2 := by
  have hhandle : handle c d .v2 = (t.reply.drop fhOff).take (t.replyLen - fhOff) :=
    drop_received h ((offset_le c).trans (by decide))
  have hcap := h.fits
  rw [Stored, Covered, hhandle, length_take, length_drop]
  simp only [fhOff, NFS_FHSIZE]
  omega

def Sound (c : Client) (v : Version) (r : ℤ × NfsMountData) (q : Prog) : Prop :=
  r.1 = 0 → ∃ d, q.received.getLast? = some d ∧ Stored c r.2 d v

section
variable {c : Client} {v : Version} {path : Path} {data : NfsMountData} {p q : Prog} {t : Sys}
  {d m : List UInt8}

lemma mount_failed {r : ℤ} (hr : mountCall MNTPROC_MNT (version v) path c p = some (r, q))
    (h : r ≠ 0) : Returns (mount v path data c) p (Sound c v) := by
  cases v with
  | v2 =>
    rw [version] at hr
    rw [mount, mountV2, returns_bind, returns_iff_of_eq hr, if_neg h, returns_pure]
    exact fun h0 => absurd h0 h
  | v3 =>
    rw [version] at hr
    rw [mount, mountV3, returns_bind, returns_iff_of_eq hr, if_neg h, returns_pure]
    exact fun h0 => absurd h0 h

/-- **A successful call of version 2.** -/
theorem mountV2_sound_iff (hr : mountCall MNTPROC_MNT NFS_MNT_VERSION path c p = some (0, q))
    (hq : q.received.getLast? = some d) (h : Got c t m d) :
    Returns (mountV2 path data c) p (Sound c .v2) ↔ Covered t .v2 := by
  have hslice := slice_eq (l := q.mntReply.toList) (i := fhOff) (n := NFS_FHSIZE)
    (by rw [Vector.length_toList]; decide)
  have hlen : ((q.mntReply.toList.drop fhOff).take NFS_FHSIZE).length ≤ NFS_FHSIZE :=
    length_take_le _ _
  obtain ⟨root, hroot, -⟩ := memcpy_eq data.rootData (hlen.trans (by decide))
  obtain ⟨oldRoot, hold, -⟩ := memcpy_eq data.oldRootData hlen
  rw [mountV2, returns_bind, returns_iff_of_eq hr]
  simp only [if_true, returns_bind, returns_get, returns_access, returns_pure, hslice, hroot, hold,
    Option.some.injEq, exists_eq_left', Sound, true_implies, hq, stored_v2_iff h]

/-- **A successful call of version 3.** -/
theorem mountV3_sound_iff (hr : mountCall MNTPROC_MNT NFS_MNT3_VERSION path c p = some (0, q))
    (hreply : q.mntReply.toList = t.reply) (hq : q.received.getLast? = some d) (h : Got c t m d) :
    Returns (mountV3 path data c) p (Sound c .v3) ↔ Covered t .v3 := by
  have hlen : t.reply.length = sizeofMountReply := by rw [← hreply, Vector.length_toList]
  rw [mountV3, returns_bind, returns_iff_of_eq hr]
  simp only [if_true, returns_bind, returns_get, returns_access, returns_pure, hreply, Sound,
    true_implies, hq, Option.some.injEq, exists_eq_left']
  by_cases hfits : word t.reply fhOff ≤ NFS_MAXFHSIZE_WIRE
  · have hroom : fhDataOff + word t.reply fhOff ≤ t.reply.length := by
      rw [hlen]
      exact Nat.add_le_add_left hfits fhDataOff
    have hfh : ((t.reply.drop fhDataOff).take (word t.reply fhOff)).length =
        word t.reply fhOff := by
      rw [length_take, length_drop]
      omega
    obtain ⟨root, hroot, hbytes⟩ := memcpy_eq (Vector.replicate NFS_MAXFHSIZE_WIRE 0)
      (hfh.le.trans hfits)
    simp only [slice_eq hroom, hroot, Option.some.injEq, exists_eq_left']
    refine stored_v3_iff h ?_ hfits ?_
    · exact Nat.mod_eq_of_lt (lt_of_le_of_lt hfits (by decide))
    · rw [hbytes]
      exact take_left' hfh
  · refine iff_of_false ?_ fun hc => hfits hc.1
    rintro ⟨fh, hfh, -⟩
    have hroom : ¬ fhDataOff + word t.reply fhOff ≤ t.reply.length := by
      rw [hlen]
      exact fun hle => hfits (Nat.add_le_add_iff_left.1 hle)
    unfold slice at hfh
    rw [if_neg (by omega)] at hfh
    cases hfh

/-- `rpc_call` takes the datagram `d`, after it has read `ds`: it has a status, which is 0. -/
def Takes (c : Client) (v : Version) (path : Path) (p : Prog) (ds : List (List UInt8))
    (d : List UInt8) : Prop :=
  ∃ found t, p.malloc 0 = some found ∧
    SunRpc.rpcCall c (p.rpc (callBytes MNTPROC_MNT (version v) path found)) = some (0, t) ∧
    t.received = p.received ++ (ds ++ [d]) ∧ MNT_REPLY_MINSIZE ≤ offset c + d.length ∧
    word d (statusOff - offset c) = 0

/-- **What a mount stores** was received, and fits, just if the datagram that is taken is whole,
over what `mnt_reply` held before and the datagrams that were read into it in this call. -/
theorem mount_handle_iff (v : Version) (c : Client) (path : Path) (data : NfsMountData) (p : Prog) :
    Returns (mount v path data c) p (Sound c v) ↔
      ∀ ds d, Takes c v path p ds d → Whole c (ds.foldl (fill c) p.mntReply.toList) d v := by
  cases hmalloc : p.malloc 0 with
  | none =>
    refine iff_of_true ?_ ?_
    · have hr : Returns (mountCall MNTPROC_MNT (version v) path c) p fun r _ => r = -1 := by
        rw [mountCall, returns_bind, Mount.malloc]
        simp only [returns_bind, returns_get, returns_set, returns_pure, hmalloc]
        exact returns_mount_bail.2 rfl
      obtain ⟨r, q, hr, rfl⟩ := hr
      exact mount_failed hr (by decide)
    · rintro ds d ⟨found, t, hfound, -⟩
      rw [hmalloc] at hfound
      cases hfound
  | some found =>
    obtain ⟨ret, t, he, hmade, r, q, hr, hiff, hreply, hreceived⟩ :=
      returns_mountCall c (version v) path hmalloc
    obtain ⟨ds, hds, -, ⟨rfl, ds', d, rfl, hgot⟩ | rfl⟩ := hmade.read
    · replace hgot : Got c t (ds'.foldl (fill c) p.mntReply.toList) d := hgot
      have hcond : (∀ l e, Takes c v path p l e →
          Whole c (l.foldl (fill c) p.mntReply.toList) e v) ↔ (Succeeded t →
            Whole c (ds'.foldl (fill c) p.mntReply.toList) d v) := by
        constructor
        · intro h hs
          have hmin : MNT_REPLY_MINSIZE ≤ offset c + d.length := hgot.len ▸ hs.1
          exact h ds' d ⟨found, t, hmalloc, he, hds, hmin, hgot.word_status hmin ▸ hs.2⟩
        · rintro h l e ⟨found', t', hfound, he', hreceived', hmin, hstatus⟩
          rw [hmalloc] at hfound
          cases hfound
          rw [he] at he'
          cases he'
          obtain ⟨rfl, hlast⟩ := append_inj' (append_cancel_left (hds.symm.trans hreceived')) rfl
          obtain rfl := singleton_inj.1 hlast
          exact h ⟨hgot.len ▸ hmin, hgot.word_status hmin ▸ hstatus⟩
      rw [hcond]
      by_cases hok : Succeeded t
      · have hlast : q.received.getLast? = some d := by
          rw [hreceived, hds, ← append_assoc]
          exact getLast?_concat
        rw [imp_iff_right hok, ← covered_iff hgot hok.1]
        cases hiff.2 ⟨rfl, hok⟩
        cases v with
        | v2 => exact mountV2_sound_iff hr hlast hgot
        | v3 => exact mountV3_sound_iff hr hreply hlast hgot
      · exact iff_of_true (mount_failed hr fun h => hok (hiff.1 h).2) fun h => absurd h hok
    · refine iff_of_true (mount_failed hr fun h => absurd (hiff.1 h).1 (by decide)) ?_
      rintro l e ⟨found', t', hfound, he', -⟩
      rw [hmalloc] at hfound
      cases hfound
      rw [he] at he'
      cases he'

end

/-! ### A handle that was not received -/

def rootPath : Path := ⟨[47], by decide, by decide⟩

def statusReply : List UInt8 := be32 0 ++ be32 1 ++ be32 0 ++ be32 0 ++ be32 0 ++ be32 0 ++ be32 0

def handleReply : List UInt8 := statusReply ++ be32 8 ++ [1, 2, 3, 4, 5, 6, 7, 8]

/-- A program for which the datagrams `ds` arrive. -/
def mounting (ds : List (List UInt8)) : Prog where
  lrand48 _ := Vector.replicate 4 0
  write _ := some 52
  poll := pollsOf ds
  read i := ds[i]?
  malloc _ := some fun _ => 0
  mntReply := Vector.replicate sizeofMountReply 0
  sent := []
  received := []
  stderr := []

/-- `struct nfs_mount_data` with no handle. -/
def noHandle : NfsMountData := ⟨Vector.replicate NFS_FHSIZE 0, 0, 0, Vector.replicate _ 0⟩

/-- After a reply with a handle, a reply that ends with its status gives the same handle. -/
theorem stale_handle_stored :
    Returns (mountV3 rootPath noHandle .udp >>= fun _ => mountV3 rootPath noHandle .udp)
      (mounting [handleReply, statusReply]) fun r q =>
        r.1 = 0 ∧ r.2.rootSize = 8 ∧ q.received.getLast? = some statusReply ∧
          handle .udp statusReply .v3 = [] := by
  decide +kernel

end Klibc.Nfsmount.Handles
