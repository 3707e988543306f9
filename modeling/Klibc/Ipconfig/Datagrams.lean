import Klibc.Ipconfig.Packet

/-! # Which datagrams `packet_recv` judges rightly

The checks of `packet_recv` are made on the buffers, whether or not the datagram has filled them,
and the length of the UDP header is subtracted at the end. A datagram that ends within its UDP
header is judged by what the buffer held before, and the result can be negative; one whose UDP
length is smaller than what was received is counted with the bytes behind. -/

namespace Klibc.Ipconfig.Datagrams

open Device BootpProto Packet

def bytesOf (bytes : List UInt8) : Bytes := fun i => bytes.getD i 0

def ihl (bytes : List UInt8) : ℕ := (bytes.getD 0 0).toNat % 16

def udpLength (bytes : List UInt8) : ℕ := load16 (bytesOf bytes) (ihl bytes * 4 + 4)

/-- An IP header of version 4, of which `n` bytes with the rest of the packet were received, with a
correct checksum, the protocol UDP and a total length that was received. -/
def HeaderOk (bytes : List UInt8) (n : ℕ) : Prop :=
  5 ≤ ihl bytes ∧ (bytes.getD 0 0).toNat / 16 = IPVERSION ∧ ihl bytes * 4 ≤ bytes.length ∧
    ipChecksum (bytesOf bytes) (ihl bytes) = 0 ∧ load16 (bytesOf bytes) 2 ≤ n ∧
    bytesOf bytes 9 = IPPROTO_UDP

/-- What a packet of the server is: a correct IP header, a whole UDP header with the configured
ports, and a UDP length of at least 8 that was received. -/
def Correct (ports : Ports) (bytes : List UInt8) (n : ℕ) : Prop :=
  5 ≤ ihl bytes ∧ (bytes.getD 0 0).toNat / 16 = IPVERSION ∧ ipChecksum (bytesOf bytes) (ihl bytes) =
    0 ∧ bytesOf bytes 9 = IPPROTO_UDP ∧ ihl bytes * 4 + sizeofUdphdr ≤ n ∧ load16 (bytesOf bytes)
    (ihl bytes * 4) = ports.remotePort ∧ load16 (bytesOf bytes) (ihl bytes * 4 + 2) =
    ports.localPort ∧ sizeofUdphdr ≤ udpLength bytes ∧ ihl bytes * 4 + udpLength bytes ≤ n

def portBytes (ports : Ports) : List UInt8 :=
  [(ports.remotePort / 256).toUInt8, (ports.remotePort % 256).toUInt8,
    (ports.localPort / 256).toUInt8, (ports.localPort % 256).toUInt8]

/-- **The datagram ends within its UDP header**, and what there is of it does not speak against the
server: the bytes of the ports that are there are right, and those of the length are small. -/
def CutShort (ports : Ports) (bytes : List UInt8) : Prop :=
  HeaderOk bytes bytes.length ∧ bytes.length < ihl bytes * 4 + sizeofUdphdr ∧
    (∀ k < 4, ihl bytes * 4 + k < bytes.length →
      bytes.getD (ihl bytes * 4 + k) 0 = (portBytes ports).getD k 0) ∧
    (ihl bytes * 4 + 4 < bytes.length → bytes.getD (ihl bytes * 4 + 4) 0 = 0) ∧
    (ihl bytes * 4 + 5 < bytes.length →
      ihl bytes * 4 + (bytes.getD (ihl bytes * 4 + 5) 0).toNat ≤ bytes.length)

/-- **More was received than the UDP length says**, from the server. -/
def Padded (ports : Ports) (bytes : List UInt8) (n : ℕ) : Prop :=
  HeaderOk bytes n ∧ ihl bytes * 4 + sizeofUdphdr < n ∧ load16 (bytesOf bytes) (ihl bytes * 4) =
    ports.remotePort ∧ load16 (bytesOf bytes) (ihl bytes * 4 + 2) = ports.localPort ∧
    ihl bytes * 4 + udpLength bytes < n

/-! ### The checks -/

def Passes (ports : Ports) (buf : Bytes) (i n : ℕ) : Prop :=
  ipChecksum buf i = 0 ∧ load16 buf 2 ≤ n ∧ buf 9 = IPPROTO_UDP ∧ load16 buf (i * 4) =
    ports.remotePort ∧ load16 buf (i * 4 + 2) = ports.localPort ∧ i * 4 + load16 buf (i * 4 + 4) ≤ n

section
variable {ports : Ports} {buf buf' : Bytes} {i n : ℕ}

lemma packetCheck_passes (hi : (buf 0).toNat % 16 = i) (h : Passes ports buf i n) :
    packetCheck ports buf (i * 4) n = n - i * 4 - sizeofUdphdr := by
  obtain ⟨hsum, htot, hproto, hsrc, hdst, hlen⟩ := h
  rw [packetCheck]
  simp only [hi]
  rw [if_neg (by simp [hsum]), if_neg (by simp [hproto, htot]), if_neg (by simp [hsrc, hdst]),
    if_neg (by omega)]
  omega

lemma packetCheck_fails (hi : (buf 0).toNat % 16 = i) (h : ¬Passes ports buf i n) :
    packetCheck ports buf (i * 4) n = 0 := by
  rw [packetCheck]
  simp only [hi]
  split_ifs with h1 h2 h3 h4
  · rfl
  · rfl
  · rfl
  · rfl
  · refine absurd ⟨not_not.1 h1, ?_, ?_, ?_, ?_, by omega⟩ h
    · exact not_lt.1 fun h => h2 (.inl h)
    · exact not_not.1 fun h => h2 (.inr h)
    · exact not_not.1 fun h => h3 (.inl h)
    · exact not_not.1 fun h => h3 (.inr h)

lemma passes_congr (hi : 5 ≤ i) (h : ∀ k < i * 4 + 6, buf k = buf' k) :
    Passes ports buf i n ↔ Passes ports buf' i n := by
  have h16 : ∀ k, k + 2 ≤ i * 4 + 6 → load16 buf k = load16 buf' k := by
    intro k hk
    rw [load16, load16, h k (by omega), h (k + 1) (by omega)]
  have hsum : ipChecksum buf i = ipChecksum buf' i := ipChecksum_congr fun k hk => h k (by omega)
  rw [Passes, Passes, hsum, h 9 (by omega), h16 2 (by omega), h16 (i * 4) (by omega),
    h16 (i * 4 + 2) (by omega), h16 (i * 4 + 4) (by omega)]

end

/-! ### What is returned -/

def Examined (env : RecvEnv) (bytes : List UInt8) : Prop :=
  bytes ≠ [] ∧ 5 ≤ ihl bytes ∧ (bytes.getD 0 0).toNat / 16 = IPVERSION ∧
    env.mallocOk = true ∧ env.recvmsgErr = false

section
variable {ports : Ports} {cap : ℕ} {env : RecvEnv} {bytes : List UInt8}

lemma packetCheck_nothing (buf : Bytes) (iphl : ℕ) : packetCheck ports buf iphl 0 = 0 := by
  rw [packetCheck]
  dsimp only
  split_ifs with h1 h2 h3 h4
  · rfl
  · rfl
  · rfl
  · rfl
  · have hihl : (buf 0).toNat % 16 ≠ 0 := by
      intro h0
      rw [h0] at h1
      exact h1 (by simp [ipChecksum, ipChecksumOn, addWords])
    omega

lemma recvLen_eq (cap : ℕ) (hlen : bytes.length ≤ ihl bytes * 4 + sizeofUdphdr) :
    recvLen cap bytes = bytes.length := by
  have hoff : bootpOff bytes = ihl bytes * 4 + sizeofUdphdr := rfl
  rw [recvLen, hoff]
  omega

lemma packetRecv_datagram (ports : Ports) (cap : ℕ) (env : RecvEnv) (bytes : List UInt8)
    (q : List SockItem) : ∃ r q', packetRecv ports cap env (.datagram bytes :: q) = some (r, q') ∧
      (Examined env bytes → r.ret = packetCheck ports
        (received bytes (recvLen cap bytes) env.bufJunk) (ihl bytes * 4) (recvLen cap bytes)) ∧
      (¬Examined env bytes → r.ret = 0) := by
  rw [packetRecv]
  by_cases hnil : bytes = []
  · have hnot : ¬Examined env bytes := fun h => h.1 hnil
    subst hnil
    simp only [hnot, false_imp_iff, not_false_eq_true, true_imp_iff, true_and]
    split_ifs
    · exact ⟨_, _, rfl, rfl⟩
    · exact ⟨_, _, rfl, rfl⟩
    · exact ⟨_, _, rfl, by simp [packetCheck_nothing]⟩
    · exact ⟨_, _, rfl, rfl⟩
  · have hb0 : received bytes sizeofIphdr env.iphJunk 0 = bytes.getD 0 0 :=
      received_eq (by decide) (List.length_pos_iff.2 hnil)
    simp only [hb0]
    split_ifs with h1 h2 h3
    · refine ⟨_, _, rfl, fun h => ?_, fun _ => rfl⟩
      obtain ⟨-, h5, h4, -⟩ := h
      exact absurd h1 (by rw [ihl] at h5; omega)
    · exact ⟨_, _, rfl, fun h => absurd h3 (by simp [h.2.2.2.2]), fun _ => rfl⟩
    · refine ⟨_, _, rfl, fun _ => rfl, fun h => absurd ⟨hnil, ?_, ?_, h2, ?_⟩ h⟩
      · rw [ihl]; omega
      · omega
      · simpa using h3
    · exact ⟨_, _, rfl, fun h => absurd h.2.2.2.1 h2, fun _ => rfl⟩

end

/-! ### A datagram that ends within its UDP header -/

section
variable {ports : Ports} {bytes : List UInt8} {junk : Bytes}

lemma received_length (bytes : List UInt8) (junk : Bytes) (k : ℕ) :
    received bytes bytes.length junk k = if k < bytes.length then bytes.getD k 0 else junk k := by
  simp [received]

lemma headerOk_iff (h5 : 5 ≤ ihl bytes) (hver : (bytes.getD 0 0).toNat / 16 = IPVERSION)
    (hlen : ihl bytes * 4 ≤ bytes.length) : HeaderOk bytes bytes.length ↔
      ipChecksum (received bytes bytes.length junk) (ihl bytes) = 0 ∧
      load16 (received bytes bytes.length junk) 2 ≤ bytes.length ∧
      received bytes bytes.length junk 9 = IPPROTO_UDP := by
  have hbuf : ∀ k < ihl bytes * 4, received bytes bytes.length junk k = bytesOf bytes k :=
    fun k hk => received_eq (by omega) (by omega)
  have hsum : ipChecksum (received bytes bytes.length junk) (ihl bytes) =
      ipChecksum (bytesOf bytes) (ihl bytes) := ipChecksum_congr fun k hk => hbuf k (by omega)
  rw [hsum, load16, hbuf 2 (by omega), hbuf 3 (by omega), hbuf 9 (by omega), HeaderOk, load16]
  simp only [h5, hver, hlen, true_and]

lemma load16_add_four (m : Bytes) (k : ℕ) :
    load16 m (k + 4) = (m (k + 4)).toNat * 2 ^ 8 + (m (k + 5)).toNat := rfl

lemma bytes_of_load16 {m : Bytes} {k x : ℕ} (h : load16 m k = x) :
    m k = (x / 256).toUInt8 ∧ m (k + 1) = (x % 256).toUInt8 := by
  have h1 := (m (k + 1)).toNat_lt
  rw [load16] at h
  have hdiv : x / 256 = (m k).toNat := by omega
  have hmod : x % 256 = (m (k + 1)).toNat := by omega
  rw [hdiv, hmod]
  simp

lemma load16_of_bytes {m : Bytes} {k x : ℕ} (hx : x < 2 ^ 16) (h0 : m k = (x / 256).toUInt8)
    (h1 : m (k + 1) = (x % 256).toUInt8) : load16 m k = x := by
  rw [load16, h0, h1]
  simp
  omega

lemma cutShort_of_passes (h5 : 5 ≤ ihl bytes) (hver : (bytes.getD 0 0).toNat / 16 = IPVERSION)
    (hlen : bytes.length < ihl bytes * 4 + sizeofUdphdr)
    (h : Passes ports (received bytes bytes.length junk) (ihl bytes) bytes.length) :
    CutShort ports bytes := by
  obtain ⟨hsum, htot, hproto, hsrc, hdst, hle⟩ := h
  have hu : sizeofUdphdr = 8 := rfl
  have hbuf : ∀ k < bytes.length, received bytes bytes.length junk k = bytes.getD k 0 :=
    fun k hk => received_eq hk hk
  obtain ⟨hp0, hp1⟩ := bytes_of_load16 hsrc
  obtain ⟨hp2, hp3⟩ := bytes_of_load16 hdst
  rw [load16_add_four] at hle
  refine ⟨(headerOk_iff h5 hver (by omega)).2 ⟨hsum, htot, hproto⟩, hlen, ?_, ?_, ?_⟩
  · intro k hk hkl
    rw [← hbuf _ hkl]
    interval_cases k
    · exact hp0
    · exact hp1
    · exact hp2
    · exact hp3
  · intro hk
    have hzero : (received bytes bytes.length junk (ihl bytes * 4 + 4)).toNat = 0 := by omega
    rw [hbuf _ hk] at hzero
    exact UInt8.toNat_inj.1 hzero
  · intro hk
    rw [← hbuf _ hk]
    omega

def serverJunk (ports : Ports) (bytes : List UInt8) : Bytes :=
  fun k => (portBytes ports).getD (k - ihl bytes * 4) 0

lemma passes_of_cutShort (hports : ports.remotePort < 2 ^ 16 ∧ ports.localPort < 2 ^ 16)
    (h : CutShort ports bytes) :
    Passes ports (received bytes bytes.length (serverJunk ports bytes)) (ihl bytes)
      bytes.length := by
  obtain ⟨hok, hlen, hp, hhigh, hlow⟩ := h
  obtain ⟨h5, hver, hle, -⟩ := id hok
  set buf := received bytes bytes.length (serverJunk ports bytes)
  have hbuf : ∀ k, buf k = if k < bytes.length then bytes.getD k 0 else serverJunk ports bytes k :=
    received_length bytes _
  have hport : ∀ k < 4, buf (ihl bytes * 4 + k) = (portBytes ports).getD k 0 := by
    intro k hk
    rw [hbuf]
    split
    · next h => exact hp k hk h
    · rw [serverJunk, Nat.add_sub_cancel_left]
  have h4 : (buf (ihl bytes * 4 + 4)).toNat = 0 := by
    rw [hbuf]
    split
    · next h => rw [hhigh h]; rfl
    · rw [serverJunk, Nat.add_sub_cancel_left]; rfl
  have h5' : ihl bytes * 4 + (buf (ihl bytes * 4 + 5)).toNat ≤ bytes.length := by
    rw [hbuf]
    split
    · next h => exact hlow h
    · rw [serverJunk, Nat.add_sub_cancel_left]
      exact hle
  obtain ⟨hsum, htot, hproto⟩ := (headerOk_iff h5 hver hle).1 hok
  refine ⟨hsum, htot, hproto, load16_of_bytes hports.1 (hport 0 (by decide)) (hport 1 (by decide)),
    load16_of_bytes hports.2 (hport 2 (by decide)) (hport 3 (by decide)), ?_⟩
  rw [load16_add_four, h4]
  omega

end

/-! ### All datagrams -/

section
variable {ports : Ports} {cap : ℕ} {env : RecvEnv} {bytes : List UInt8}

lemma ihl_received (cap : ℕ) (h : Examined env bytes) :
    (received bytes (recvLen cap bytes) env.bufJunk 0).toNat % 16 = ihl bytes := by
  have hpos := List.length_pos_iff.2 h.1
  have hn : 0 < recvLen cap bytes := by
    rw [recvLen]
    have hu : sizeofBootpHdr = 236 := rfl
    omega
  rw [received_eq hn hpos, ihl]

lemma passes_long_iff (ports : Ports) (cap : ℕ) (h5 : 5 ≤ ihl bytes)
    (hlen : ihl bytes * 4 + sizeofUdphdr ≤ bytes.length) (junk : Bytes) :
    Passes ports (received bytes (recvLen cap bytes) junk) (ihl bytes) (recvLen cap bytes) ↔
      Passes ports (bytesOf bytes) (ihl bytes) (recvLen cap bytes) := by
  have hoff : bootpOff bytes = ihl bytes * 4 + sizeofUdphdr := rfl
  have hu : sizeofUdphdr = 8 := rfl
  refine passes_congr h5 fun k hk => received_eq ?_ (by omega)
  rw [recvLen, hoff]
  omega

lemma packetCheck_long (h : Examined env bytes)
    (hlen : ihl bytes * 4 + sizeofUdphdr ≤ bytes.length) : let n := recvLen cap bytes
    (Passes ports (bytesOf bytes) (ihl bytes) n →
      packetCheck ports (received bytes n env.bufJunk) (ihl bytes * 4) n =
        n - ihl bytes * 4 - sizeofUdphdr) ∧
    (¬Passes ports (bytesOf bytes) (ihl bytes) n →
      packetCheck ports (received bytes n env.bufJunk) (ihl bytes * 4) n = 0) := by
  intro n
  have hi := ihl_received cap h
  have hiff := passes_long_iff ports cap h.2.1 hlen env.bufJunk
  exact ⟨fun hp => packetCheck_passes hi (hiff.2 hp),
    fun hp => packetCheck_fails hi fun h => hp (hiff.1 h)⟩

lemma packetCheck_short (h : Examined env bytes)
    (hlen : bytes.length < ihl bytes * 4 + sizeofUdphdr) (hcut : ¬CutShort ports bytes) :
    packetCheck ports (received bytes (recvLen cap bytes) env.bufJunk) (ihl bytes * 4)
      (recvLen cap bytes) = 0 := by
  have hi := ihl_received cap h
  refine packetCheck_fails hi fun hp => hcut ?_
  rw [recvLen_eq cap hlen.le] at hp
  exact cutShort_of_passes h.2.1 h.2.2.1 hlen hp

/-- **What a datagram that is judged rightly is worth**, whatever the buffers held: nothing, or the
payload of a packet of the server. -/
theorem exists_worth (hcut : ¬CutShort ports bytes)
    (hpad : ¬Padded ports bytes (recvLen cap bytes)) : ∃ w : ℤ, 0 ≤ w ∧
      (0 < w → Correct ports bytes (recvLen cap bytes) ∧ w = udpLength bytes - sizeofUdphdr) ∧
      ∀ env, Examined env bytes → packetCheck ports
        (received bytes (recvLen cap bytes) env.bufJunk) (ihl bytes * 4)
          (recvLen cap bytes) = w := by
  by_cases hlen : ihl bytes * 4 + sizeofUdphdr ≤ bytes.length
  swap
  · exact ⟨0, le_rfl, by simp, fun env h => packetCheck_short h (by omega) hcut⟩
  by_cases hp : Passes ports (bytesOf bytes) (ihl bytes) (recvLen cap bytes)
  swap
  · exact ⟨0, le_rfl, by simp, fun env h => (packetCheck_long h hlen).2 hp⟩
  by_cases h4 : 5 ≤ ihl bytes ∧ (bytes.getD 0 0).toNat / 16 = IPVERSION
  swap
  · exact ⟨0, le_rfl, by simp, fun env h => absurd ⟨h.2.1, h.2.2.1⟩ h4⟩
  have hoff : bootpOff bytes = ihl bytes * 4 + sizeofUdphdr := rfl
  have hn : ihl bytes * 4 + sizeofUdphdr ≤ recvLen cap bytes := by
    rw [recvLen, hoff]
    omega
  refine ⟨recvLen cap bytes - ihl bytes * 4 - sizeofUdphdr, by omega, fun hw => ?_,
    fun env h => (packetCheck_long h hlen).1 hp⟩
  obtain ⟨hsum, htot, hproto, hsrc, hdst, hle⟩ := hp
  have hok : HeaderOk bytes (recvLen cap bytes) := ⟨h4.1, h4.2, by omega, hsum, htot, hproto⟩
  have hle' : ihl bytes * 4 + udpLength bytes ≤ recvLen cap bytes := hle
  have hexact : ¬ihl bytes * 4 + udpLength bytes < recvLen cap bytes := fun hlt =>
    hpad ⟨hok, by omega, hsrc, hdst, hlt⟩
  exact ⟨⟨h4.1, h4.2, hsum, hproto, hn, hsrc, hdst, by omega, hle⟩, by omega⟩

lemma exists_negative (hports : ports.remotePort < 2 ^ 16 ∧ ports.localPort < 2 ^ 16) (cap : ℕ)
    (hcut : CutShort ports bytes) (q : List SockItem) :
    ∃ env r q', packetRecv ports cap env (.datagram bytes :: q) = some (r, q') ∧ r.ret < 0 := by
  obtain ⟨h5, hver, hlen, -⟩ := hcut.1
  have hne : bytes ≠ [] := by
    rintro rfl
    simp at hlen
    omega
  have hexam : Examined ⟨true, false, fun _ => 0, serverJunk ports bytes⟩ bytes :=
    ⟨hne, h5, hver, rfl, rfl⟩
  have hp := passes_of_cutShort hports hcut
  rw [← recvLen_eq cap hcut.2.1.le] at hp
  obtain ⟨r, q', hr, hret, -⟩ := packetRecv_datagram ports cap _ bytes q
  refine ⟨_, r, q', hr, ?_⟩
  have hshort := hcut.2.1
  have hn := recvLen_eq cap hcut.2.1.le
  rw [hret hexam, packetCheck_passes (ihl_received cap hexam) hp]
  omega

lemma exists_miscounted (cap : ℕ) (hpad : Padded ports bytes (recvLen cap bytes))
    (q : List SockItem) :
    ∃ env r q', packetRecv ports cap env (.datagram bytes :: q) = some (r, q') ∧ 0 < r.ret ∧
      r.ret ≠ udpLength bytes - sizeofUdphdr := by
  obtain ⟨⟨h5, hver, hlen, hsum, htot, hproto⟩, hlong, hsrc, hdst, hlt⟩ := hpad
  have hle : recvLen cap bytes ≤ bytes.length := min_le_left _ _
  have hne : bytes ≠ [] := by
    rintro rfl
    simp at hlen
    omega
  have hexam : Examined ⟨true, false, fun _ => 0, fun _ => 0⟩ bytes := ⟨hne, h5, hver, rfl, rfl⟩
  obtain ⟨r, q', hr, hret, -⟩ := packetRecv_datagram ports cap _ bytes q
  have hval : packetCheck ports (received bytes (recvLen cap bytes) fun _ => 0) (ihl bytes * 4)
      (recvLen cap bytes) = _ :=
    (packetCheck_long hexam (by omega)).1 ⟨hsum, htot, hproto, hsrc, hdst, hlt.le⟩
  exact ⟨_, r, q', hr, by rw [hret hexam, hval]; omega, by rw [hret hexam, hval]; omega⟩

end

/-- **`packet_recv`**: which datagrams it judges rightly. -/
theorem packet_recv_iff {ports : Ports}
    (hports : ports.remotePort < 2 ^ 16 ∧ ports.localPort < 2 ^ 16) (cap : ℕ)
    (bytes : List UInt8) (q : List SockItem) :
    ((∀ env, ∃ r q', packetRecv ports cap env (.error :: q) = some (r, q') ∧ r.ret = -1) ∧
      ∀ env, ∃ r q', packetRecv ports cap env (.datagram bytes :: q) = some (r, q') ∧ 0 ≤ r.ret ∧
        (0 < r.ret → Correct ports bytes (recvLen cap bytes) ∧
          r.ret = udpLength bytes - sizeofUdphdr) ∧
        (∀ env' r' q'', env'.mallocOk = env.mallocOk → env'.recvmsgErr = env.recvmsgErr →
          packetRecv ports cap env' (.datagram bytes :: q) = some (r', q'') →
          r'.ret = r.ret)) ↔
      ¬(CutShort ports bytes ∨ Padded ports bytes (recvLen cap bytes)) := by
  constructor
  · rintro ⟨-, hsound⟩ (hcut | hpad)
    · obtain ⟨env, r, q', hr, hneg⟩ := exists_negative hports cap hcut q
      obtain ⟨r1, q1, hr1, h0, -⟩ := hsound env
      obtain ⟨rfl, -⟩ := Prod.mk.inj (Option.some.inj (hr1.symm.trans hr))
      omega
    · obtain ⟨env, r, q', hr, hpos, hne⟩ := exists_miscounted cap hpad q
      obtain ⟨r1, q1, hr1, -, hcount, -⟩ := hsound env
      obtain ⟨rfl, -⟩ := Prod.mk.inj (Option.some.inj (hr1.symm.trans hr))
      exact hne (hcount hpos).2
  · intro hgood
    rw [not_or] at hgood
    obtain ⟨w, hw, hpos, hret⟩ := exists_worth hgood.1 hgood.2
    refine ⟨fun env => ⟨_, _, rfl, rfl⟩, fun env => ?_⟩
    obtain ⟨r, q', hr, hex, hnot⟩ := packetRecv_datagram ports cap env bytes q
    have hcases : r.ret = w ∨ r.ret = 0 := by
      by_cases h : Examined env bytes
      · exact .inl ((hex h).trans (hret env h))
      · exact .inr (hnot h)
    refine ⟨r, q', hr, by omega, fun h => ?_, fun env' r' q'' hm he hr' => ?_⟩
    · obtain h' | h' := hcases
      · rw [h'] at h ⊢
        exact hpos h
      · omega
    · obtain ⟨r1, q1, hr1, hex', hnot'⟩ := packetRecv_datagram ports cap env' bytes q
      obtain ⟨rfl, -⟩ := Prod.mk.inj (Option.some.inj (hr1.symm.trans hr'))
      have hsame : Examined env' bytes ↔ Examined env bytes := by rw [Examined, Examined, hm, he]
      by_cases h : Examined env bytes
      · rw [hex' (hsame.2 h), hret env' (hsame.2 h), hex h, hret env h]
      · rw [hnot' fun h' => h (hsame.1 h'), hnot h]

/-- An IP packet of 24 bytes that ends behind the ports of its UDP header. -/
def portsOnly : List UInt8 :=
  [0x45, 0, 0, 24, 0, 0, 0, 0, 64, 17, 0x7a, 0xd6, 0, 0, 0, 0, 0, 0, 0, 0, 0, 67, 0, 68]

/-- What the buffer held before decides about it, and the result can be -4. -/
theorem ports_only_negative :
    (packetRecv ⟨68, 67⟩ 1500 ⟨true, false, fun _ => 0, fun _ => 0⟩ [.datagram portsOnly]).map
        (fun r => r.1.ret) = some (-4) ∧
      (packetRecv ⟨68, 67⟩ 1500 ⟨true, false, fun _ => 0, fun _ => 255⟩
        [.datagram portsOnly]).map (fun r => r.1.ret) = some 0 := by
  decide +kernel

/-- An IP packet of 32 bytes, four of them behind its UDP header. -/
def fourBytes : List UInt8 :=
  [0x45, 0, 0, 32, 0, 0, 0, 0, 64, 17, 0x7a, 0xce, 0, 0, 0, 0, 0, 0, 0, 0, 0, 67, 0, 68, 0, 12,
    0, 0, 1, 2, 3, 4]

/-- It is received, and whenever it is taken for a packet of the server, with its length. -/
theorem packet_recv_fourBytes :
    (packetRecv ⟨68, 67⟩ 1500 ⟨true, false, fun _ => 0, fun _ => 0⟩ [.datagram fourBytes]).map
        (fun r => r.1.ret) = some 4 ∧
      ∀ env, ∃ r q', packetRecv ⟨68, 67⟩ 1500 env [.datagram fourBytes] = some (r, q') ∧
        0 ≤ r.ret ∧ (0 < r.ret → Correct ⟨68, 67⟩ fourBytes 32 ∧ r.ret = 4) := by
  refine ⟨by decide +kernel, fun env => ?_⟩
  have hlen : recvLen 1500 fourBytes = 32 := by decide +kernel
  have hudp : (udpLength fourBytes : ℤ) - sizeofUdphdr = 4 := by decide +kernel
  have hgood : ¬(CutShort ⟨68, 67⟩ fourBytes ∨
      Padded ⟨68, 67⟩ fourBytes (recvLen 1500 fourBytes)) :=
    not_or.2 ⟨fun h => absurd h.2.1 (by decide), fun h => absurd h.2.2.2.2 (by decide +kernel)⟩
  obtain ⟨r, q', hr, h0, hpos, -⟩ :=
    ((packet_recv_iff (by decide) 1500 fourBytes []).2 hgood).2 env
  rw [hlen, hudp] at hpos
  exact ⟨r, q', hr, h0, hpos⟩

end Klibc.Ipconfig.Datagrams
