import Klibc.Ipconfig.DhcpProto
import Klibc.Lib.Endian

/-! # Receiving packets

`packet_recv` of `packet.c` and its two callers `bootp_recv_reply` and `dhcp_recv`. All devices
share the one packet socket: a queue of datagrams (from the IP header on) and pending errors. What
else a call depends on is its environment: whether `malloc` gives the header buffer, whether
`recvmsg` fails after the successful peek, and what the buffers held before. A call on an empty
queue waits; the model then has no result.

The three iovecs of `recvmsg` are filled one after the other, so the buffers are one function `buf`
of the offset in the datagram: the IP and UDP headers, the BOOTP header from `off` on, and the
options. -/

namespace Klibc.Ipconfig.Packet

open Device BootpProto DhcpProto Lib.Endian

inductive SockItem
  | error
  | datagram (bytes : List UInt8)
  deriving DecidableEq

/-- What a call of `packet_recv` depends on beside the socket. -/
structure RecvEnv where
  mallocOk : Bool
  recvmsgErr : Bool
  iphJunk : Bytes
  bufJunk : Bytes

/-- `cfg_local_port` and `cfg_remote_port`. -/
structure Ports where
  localPort : ℕ
  remotePort : ℕ

/-- `hdr[k]`. -/
def hdrWord (o : ByteOrder) (hdr : Bytes) (k : ℕ) : ℕ := word o hdr (2 * k) 2

/-- The loop of `ip_checksum`, two words a turn. -/
def addWords (o : ByteOrder) (hdr : Bytes) : ℕ → ℕ → ℕ → ℕ
  | 0, _, chksum => chksum
  | len + 1, k, chksum => addWords o hdr len (k + 2)
      (((chksum + hdrWord o hdr k) % 2 ^ 32 + hdrWord o hdr (k + 1)) % 2 ^ 32)

/-- `ip_checksum(hdr, len)` on a machine of byte order `o`. -/
def ipChecksumOn (o : ByteOrder) (hdr : Bytes) (len : ℕ) : ℕ :=
  let chksum := addWords o hdr len 0 0
  let chksum := chksum % 2 ^ 16 + chksum / 2 ^ 16
  let chksum := chksum % 2 ^ 16 + chksum / 2 ^ 16
  2 ^ 16 - 1 - chksum % 2 ^ 16

/-- As `packet_recv` calls it, which only compares it with 0: the byte order makes no difference to
that (`Checksum.verifies_swap`). -/
def ipChecksum (hdr : Bytes) (len : ℕ) : ℕ := ipChecksumOn .little hdr len

/-- What a buffer holds after `n` bytes of a datagram were received into it. -/
def received (bytes : List UInt8) (n : ℕ) (junk : Bytes) : Bytes := fun i =>
  if i < n ∧ i < bytes.length then bytes.getD i 0 else junk i

/-- A return value of `packet_recv` with the buffers it filled. -/
structure Recv where
  ret : ℤ
  buf : Bytes
  off : ℕ

def sizeofUdphdr : ℕ := 8
def sizeofIphdr : ℕ := 20
def IPVERSION : ℕ := 4
def IPPROTO_UDP : UInt8 := 17

/-- The part of `packet_recv` after a successful `recvmsg` of `n` bytes. -/
def packetCheck (ports : Ports) (buf : Bytes) (iphl n : ℕ) : ℤ :=
  let ihl := (buf 0).toNat % 16
  if ipChecksum buf ihl ≠ 0 then 0
  else if load16 buf 2 > n ∨ buf 9 ≠ IPPROTO_UDP then 0
  else
    let ret : ℤ := n - 4 * ihl
    if load16 buf iphl ≠ ports.remotePort ∨ load16 buf (iphl + 2) ≠ ports.localPort then 0
    else if (load16 buf (iphl + 4) : ℤ) > ret then 0
    else ret - sizeofUdphdr

/-- `packet_recv`, with an iovec of `cap` bytes for the options. -/
def packetRecv (ports : Ports) (cap : ℕ) (env : RecvEnv) :
    List SockItem → Option (Recv × List SockItem)
  | [] => none
  | .error :: q => some (⟨-1, env.bufJunk, 0⟩, q)
  | .datagram bytes :: q =>
    let iph := received bytes sizeofIphdr env.iphJunk
    let ihl := (iph 0).toNat % 16
    if ihl < 5 ∨ (iph 0).toNat / 16 ≠ IPVERSION then some (⟨0, env.bufJunk, 0⟩, q)
    else
      let iphl := ihl * 4
      let off := iphl + sizeofUdphdr
      if ¬ env.mallocOk then some (⟨0, env.bufJunk, off⟩, q)
      else if env.recvmsgErr then some (⟨0, env.bufJunk, off⟩, .datagram bytes :: q)
      else
        let n := min bytes.length (off + sizeofBootpHdr + cap)
        let buf := received bytes n env.bufJunk
        some (⟨packetCheck ports buf iphl n, buf, off⟩, q)

/-- `bootp_recv_reply` and `dhcp_recv`: receive a packet, check that it is a reply to this device
and hand it to the parser. The result is the return value, the device and the socket. -/
def recvReply (ports : Ports) (cap : ℕ) (parse : Netdev → BootpHdr → Bytes → ℕ → ℤ × Netdev)
    (env : RecvEnv) (dev : Netdev) (q : List SockItem) : Option (ℤ × Netdev × List SockItem) :=
  match packetRecv ports cap env q with
  | none => none
  | some (r, q') =>
    if r.ret ≤ 0 then some (r.ret, dev, q')
    else
      let hdr := BootpHdr.load r.buf r.off
      if r.ret < sizeofBootpHdr ∨ hdr.op ≠ BOOTP_REPLY ∨ hdr.xid ≠ dev.xid ∨
          hdr.chaddr ≠ dev.hwaddr then
        some (0, dev, q')
      else
        let (ret, dev) := parse dev hdr (fun k => r.buf (r.off + sizeofBootpHdr + k))
          (r.ret - sizeofBootpHdr).toNat
        some (ret, dev, q')

/-- `bootp_recv_reply`. -/
def bootpRecvReply (ports : Ports) : RecvEnv → Netdev → List SockItem →
    Option (ℤ × Netdev × List SockItem) :=
  recvReply ports 312 fun dev hdr exts extlen => (1, (bootpParse dev hdr exts extlen).dev)

/-- `dhcp_recv`, behind both `dhcp_recv_offer` and `dhcp_recv_ack`. -/
def dhcpRecv (ports : Ports) : RecvEnv → Netdev → List SockItem →
    Option (ℤ × Netdev × List SockItem) :=
  recvReply ports 1500 fun dev hdr exts extlen =>
    ((dhcpParse dev hdr exts extlen).ret, (dhcpParse dev hdr exts extlen).dev)

/-! ### What a datagram is -/

def bootpOff (bytes : List UInt8) : ℕ := (bytes.getD 0 0).toNat % 16 * 4 + sizeofUdphdr

def bootpHdrOf (bytes : List UInt8) : BootpHdr :=
  BootpHdr.load (fun i => bytes.getD i 0) (bootpOff bytes)

/-- The datagram holds a whole BOOTP header, of a reply with the transaction id and the hardware
address of the device. -/
def IsReplyTo (dev : Netdev) (bytes : List UInt8) : Prop :=
  bootpOff bytes + sizeofBootpHdr ≤ bytes.length ∧ (bootpHdrOf bytes).op = BOOTP_REPLY ∧
    (bootpHdrOf bytes).xid = dev.xid ∧ (bootpHdrOf bytes).chaddr = dev.hwaddr

instance (dev : Netdev) (bytes : List UInt8) : Decidable (IsReplyTo dev bytes) := by
  unfold IsReplyTo; infer_instance

/-- How many bytes of a datagram the buffers take. -/
def recvLen (cap : ℕ) (bytes : List UInt8) : ℕ :=
  min bytes.length (bootpOff bytes + sizeofBootpHdr + cap)

/-- The options area after a datagram was received. -/
def extsOf (cap : ℕ) (env : RecvEnv) (bytes : List UInt8) : Bytes := fun k =>
  received bytes (recvLen cap bytes) env.bufJunk (bootpOff bytes + sizeofBootpHdr + k)

def extlenOf (cap : ℕ) (bytes : List UInt8) : ℕ :=
  recvLen cap bytes - bootpOff bytes - sizeofBootpHdr

variable {ports : Ports} {env : RecvEnv} {q q' : List SockItem} {bytes : List UInt8} {cap : ℕ}

lemma received_eq {n i : ℕ} {junk : Bytes} (h : i < n)
    (hl : i < bytes.length) : received bytes n junk i = bytes.getD i 0 := if_pos ⟨h, hl⟩

lemma BootpHdr.load_congr {m m' : Bytes} {o : ℕ}
    (h : ∀ i, o ≤ i → i < o + sizeofBootpHdr → m i = m' i) :
    BootpHdr.load m o = BootpHdr.load m' o := by
  have h' : ∀ k, k < sizeofBootpHdr → m (o + k) = m' (o + k) := fun k hk =>
    h (o + k) (by omega) (by omega)
  have harr : ∀ n k, k + n ≤ sizeofBootpHdr → loadArr n m (o + k) = loadArr n m' (o + k) := by
    intro n k hk
    unfold loadArr
    congr 1
    funext i
    rw [Nat.add_assoc]
    exact h' _ (by omega)
  have h32 : ∀ k, k + 4 ≤ sizeofBootpHdr → load32 m (o + k) = load32 m' (o + k) := by
    intro k hk
    simp only [load32, Nat.add_assoc]
    rw [h' k (by omega), h' (k + 1) (by omega), h' (k + 2) (by omega), h' (k + 3) (by omega)]
  have h16 : ∀ k, k + 2 ≤ sizeofBootpHdr → load16 m (o + k) = load16 m' (o + k) := by
    intro k hk
    simp only [load16, Nat.add_assoc]
    rw [h' k (by omega), h' (k + 1) (by omega)]
  have h0 : m o = m' o := h' 0 (by decide)
  simp only [BootpHdr.load, h0, h' 1 (by decide), h' 2 (by decide), h' 3 (by decide),
    h32 4 (by decide), h32 12 (by decide), h32 16 (by decide), h32 20 (by decide),
    h32 24 (by decide), h16 8 (by decide), h16 10 (by decide), harr 16 28 (by decide),
    harr 64 44 (by decide), harr 128 108 (by decide)]

lemma packetCheck_pos {buf : Bytes} {iphl n : ℕ} (h : 0 < packetCheck ports buf iphl n) :
    packetCheck ports buf iphl n = n - 4 * ((buf 0).toNat % 16 : ℕ) - sizeofUdphdr := by
  revert h
  unfold packetCheck
  dsimp only
  split_ifs <;> simp

variable {parse : Netdev → BootpHdr → Bytes → ℕ → ℤ × Netdev} {r : Recv}

/-- **A packet large enough for a BOOTP header**: it is the datagram at the head of the queue, and
the buffers hold it. -/
theorem packetRecv_large
    (h : packetRecv ports cap env q = some (r, q')) (hr : (sizeofBootpHdr : ℤ) ≤ r.ret) :
    ∃ bytes, q = .datagram bytes :: q' ∧ bootpOff bytes + sizeofBootpHdr ≤ bytes.length ∧
      BootpHdr.load r.buf r.off = bootpHdrOf bytes ∧ (fun k => r.buf (r.off + sizeofBootpHdr + k)) =
      extsOf cap env bytes ∧ (r.ret - sizeofBootpHdr).toNat = extlenOf cap bytes := by
  have hs : (sizeofBootpHdr : ℤ) = 236 := rfl
  rcases q with _ | ⟨_ | bytes, q⟩
  · cases h
  · cases h
    simp only at hr; omega
  · simp only [packetRecv] at h
    split_ifs at h
    · cases h
      simp only at hr; omega
    · cases h
      simp only at hr; omega
    · cases h
      simp only at hr
      have hpos := packetCheck_pos (lt_of_lt_of_le (by omega) hr)
      rw [hpos] at hr
      set n := min bytes.length ((received bytes sizeofIphdr env.iphJunk 0).toNat % 16 * 4 +
        sizeofUdphdr + sizeofBootpHdr + cap) with hn
      have hn0 : 0 < n := by unfold sizeofUdphdr at hr; omega
      have hlen : 0 < bytes.length := by omega
      have hb0 : received bytes n env.bufJunk 0 = bytes.getD 0 0 := received_eq hn0 hlen
      have hi0 : received bytes sizeofIphdr env.iphJunk 0 = bytes.getD 0 0 :=
        received_eq (by decide) hlen
      have hoff : (received bytes sizeofIphdr env.iphJunk 0).toNat % 16 * 4 + sizeofUdphdr =
          bootpOff bytes := by rw [hi0, bootpOff]
      have hnl : n = recvLen cap bytes := by rw [hn, hoff, recvLen]
      rw [hb0] at hr hpos
      have hle : bootpOff bytes + sizeofBootpHdr ≤ n := by unfold bootpOff; push_cast at hr; omega
      refine ⟨bytes, rfl, by omega, ?_, ?_, ?_⟩
      · simp only [hoff]
        exact BootpHdr.load_congr fun i _ hi => received_eq (by omega) (by omega)
      · simp only [hoff, hnl]; rfl
      · simp only [hpos]
        unfold extlenOf bootpOff
        rw [← hnl]
        push_cast; omega
    · cases h
      simp only at hr; omega

/-- **What `bootp_recv_reply` and `dhcp_recv` do**: they return without touching the device, or the
datagram at the head of the queue is a reply to the device and the parser gets it. -/
theorem recvReply_cases {dev dev' : Netdev} {ret : ℤ}
    (h : recvReply ports cap parse env dev q = some (ret, dev', q')) :
    (ret ≤ 0 ∧ dev' = dev) ∨ ∃ bytes, q = .datagram bytes :: q' ∧ IsReplyTo dev bytes ∧
      (ret, dev') = parse dev (bootpHdrOf bytes) (extsOf cap env bytes) (extlenOf cap bytes) := by
  unfold recvReply at h
  rcases hp : packetRecv ports cap env q with _ | ⟨r, q1⟩
  · rw [hp] at h; cases h
  · rw [hp] at h
    simp only at h
    split_ifs at h with h1 h2
    · cases h
      exact .inl ⟨by omega, rfl⟩
    · cases h
      exact .inl ⟨by omega, rfl⟩
    · simp only [Option.some.injEq, Prod.mk.injEq] at h
      obtain ⟨hret, hdev, rfl⟩ := h
      simp only [not_or, not_lt, not_not] at h2
      obtain ⟨hsz, hop, hxid, hch⟩ := h2
      obtain ⟨bytes, hq, hlen, hhdr, hexts, hel⟩ := packetRecv_large hp hsz
      rw [hhdr] at hop hxid hch
      refine Or.inr ⟨bytes, hq, ⟨hlen, hop, hxid, hch⟩, ?_⟩
      rw [hhdr, hexts, hel] at hret hdev
      exact Prod.ext hret.symm hdev.symm

/-! ### Packets that come through -/

/-- `packet_recv` takes the datagram for a packet of the server: the IP header is of version 4 and
correct, and the lengths, the protocol and the ports are as they should be. -/
def Valid (ports : Ports) (cap : ℕ) (bytes : List UInt8) : Prop :=
  5 ≤ (bytes.getD 0 0).toNat % 16 ∧ (bytes.getD 0 0).toNat / 16 = IPVERSION ∧
    0 < packetCheck ports (fun i => bytes.getD i 0) ((bytes.getD 0 0).toNat % 16 * 4)
      (recvLen cap bytes)

instance (ports : Ports) (cap : ℕ) (bytes : List UInt8) : Decidable (Valid ports cap bytes) := by
  unfold Valid; infer_instance

lemma addWords_congr {m m' : Bytes} {o : ByteOrder} : ∀ {len k : ℕ},
    (∀ i, i < 2 * k + 4 * len → m i = m' i) → ∀ c, addWords o m len k c = addWords o m' len k c
  | 0, _, _, _ => rfl
  | len + 1, k, h, c => by
    have hword (j) (hj : j < k + 2) : hdrWord o m j = hdrWord o m' j :=
      word_congr o fun i hi => h _ (by omega)
    rw [addWords, addWords, hword k (by omega), hword (k + 1) (by omega)]
    exact addWords_congr (fun i hi => h i (by omega)) _

lemma ipChecksum_congr {m m' : Bytes} {len : ℕ} (h : ∀ i < 4 * len, m i = m' i) :
    ipChecksum m len = ipChecksum m' len := by
  rw [ipChecksum, ipChecksum, ipChecksumOn, ipChecksumOn,
    addWords_congr fun i hi => h i (by omega)]

lemma packetCheck_congr {m m' : Bytes} {n iphl : ℕ} (h0 : 20 ≤ iphl)
    (hihl : (m 0).toNat % 16 * 4 = iphl) (h : ∀ i < iphl + sizeofUdphdr, m i = m' i) :
    packetCheck ports m iphl n = packetCheck ports m' iphl n := by
  have hu : sizeofUdphdr = 8 := rfl
  have h16 : ∀ k, k + 2 ≤ iphl + sizeofUdphdr → load16 m k = load16 m' k := by
    intro k hk
    rw [load16, load16, h k (by omega), h (k + 1) (by omega)]
  have hc : ipChecksum m ((m 0).toNat % 16) = ipChecksum m' ((m 0).toNat % 16) :=
    ipChecksum_congr fun i hi => h i (by omega)
  unfold packetCheck
  dsimp only
  rw [hc, h 0 (by omega), h 9 (by omega), h16 2 (by omega), h16 iphl (by omega),
    h16 (iphl + 2) (by omega), h16 (iphl + 4) (by omega)]

lemma packetRecv_valid (q : List SockItem) (hlen : bootpOff bytes + sizeofBootpHdr ≤ bytes.length)
    (hv : Valid ports cap bytes) (hm : env.mallocOk = true) (he : env.recvmsgErr = false) :
    packetRecv ports cap env (.datagram bytes :: q) =
      some (⟨(recvLen cap bytes : ℤ) - bootpOff bytes,
        received bytes (recvLen cap bytes) env.bufJunk, bootpOff bytes⟩, q) := by
  obtain ⟨h5, h4, hpos⟩ := hv
  have hu : sizeofUdphdr = 8 := rfl
  have hoff : (bytes.getD 0 0).toNat % 16 * 4 + sizeofUdphdr = bootpOff bytes := rfl
  have hi0 : received bytes sizeofIphdr env.iphJunk 0 = bytes.getD 0 0 :=
    received_eq (by decide) (by omega)
  have hbuf : ∀ i < bootpOff bytes,
      received bytes (recvLen cap bytes) env.bufJunk i = bytes.getD i 0 := fun i hi =>
    received_eq (by unfold recvLen; omega) (by omega)
  have hcheck : packetCheck ports (received bytes (recvLen cap bytes) env.bufJunk)
      ((bytes.getD 0 0).toNat % 16 * 4) (recvLen cap bytes) =
      recvLen cap bytes - bootpOff bytes := by
    rw [packetCheck_congr (by omega) (by rw [hbuf 0 (by omega)]) fun i hi => hbuf i (by omega),
      packetCheck_pos hpos]
    unfold bootpOff
    push_cast
    omega
  unfold packetRecv
  simp only [hi0]
  rw [if_neg (by omega), if_neg (by simp [hm]), if_neg (by simp [he]), hoff, ← recvLen, hcheck]

lemma recvReply_valid {dev : Netdev} (q : List SockItem) (hrep : IsReplyTo dev bytes)
    (hv : Valid ports cap bytes) (hm : env.mallocOk = true) (he : env.recvmsgErr = false) :
    recvReply ports cap parse env dev (.datagram bytes :: q) =
      some ((parse dev (bootpHdrOf bytes) (extsOf cap env bytes) (extlenOf cap bytes)).1,
        (parse dev (bootpHdrOf bytes) (extsOf cap env bytes) (extlenOf cap bytes)).2, q) := by
  obtain ⟨hlen, hop, hxid, hch⟩ := hrep
  have hb : sizeofBootpHdr = 236 := rfl
  have hn : bootpOff bytes + sizeofBootpHdr ≤ recvLen cap bytes := by unfold recvLen; omega
  have hhdr : BootpHdr.load (received bytes (recvLen cap bytes) env.bufJunk) (bootpOff bytes) =
      bootpHdrOf bytes :=
    BootpHdr.load_congr fun i _ hi => received_eq (by omega) (by omega)
  unfold recvReply
  rw [packetRecv_valid q hlen hv hm he]
  dsimp only
  rw [if_neg (by omega), hhdr, if_neg]
  · have hext : ((recvLen cap bytes : ℤ) - bootpOff bytes - sizeofBootpHdr).toNat =
        extlenOf cap bytes := by unfold extlenOf; omega
    rw [hext]
    rfl
  · simp only [hop, hxid, hch, ne_eq, not_true_eq_false, or_false]
    omega

lemma packetRecv_pos (h : packetRecv ports cap env q = some (r, q')) (hr : 0 < r.ret) :
    env.mallocOk = true ∧ env.recvmsgErr = false := by
  rcases q with _ | ⟨_ | bytes, q⟩
  · cases h
  · cases h
    cases hr
  · simp only [packetRecv] at h
    split_ifs at h with h1 h2 h3
    · cases h
      cases hr
    · cases h
      cases hr
    · exact ⟨h2, by simpa using h3⟩
    · cases h
      cases hr

end Klibc.Ipconfig.Packet
