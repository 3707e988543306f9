import Klibc.Inet.InetPton
import Klibc.Ipconfig.Packet
import Klibc.Lib.OnesComplement

/-! # The checksum of an IP header

`ip_checksum` adds the 16-bit words of a header, as the machine reads them, in an `unsigned int`,
and folds the carries in at the end. For a header of at most fifteen 32-bit words this is the
complement of the one's complement sum. Storing it in a header whose checksum field is 0 makes the
sum all ones, on a machine of either byte order, so `packet_recv` accepts what `packet_send`
builds. -/

namespace Klibc.Ipconfig.Checksum

open Device Packet Inet.InetPton List Lib.Endian Lib.OnesComplement

/-! ### The code -/

def LOCAL_PORT : ℕ := 68
def REMOTE_PORT : ℕ := LOCAL_PORT - 1
def IP_DF : ℤ := 0x4000

def checkOff : ℕ := 10

/-- The ports of `ipudp_hdrs`: those of the configuration if the local one was changed. -/
def udpPorts (ports : Ports) : ℕ × ℕ :=
  if ports.localPort ≠ LOCAL_PORT then (ports.localPort, ports.remotePort)
  else (LOCAL_PORT, REMOTE_PORT)

/-- `ipudp_hdrs` in `packet_send` when the checksum field was set to 0, for `len` bytes to send. -/
def ipudpHdrs (ports : Ports) (len : ℤ) : List UInt8 :=
  [0x45, 0] ++ htons len ++ [0, 0] ++ htons IP_DF ++ [64, IPPROTO_UDP, 0, 0] ++ [0, 0, 0, 0] ++
    [255, 255, 255, 255] ++ (htons (udpPorts ports).1 ++ htons (udpPorts ports).2 ++
      htons (len - sizeofIphdr) ++ [0, 0])

/-- The headers that `packet_send` sends. -/
def sentHdrs (o : ByteOrder) (ports : Ports) (len : ℤ) : Bytes :=
  let hdr : Bytes := fun i => (ipudpHdrs ports len).getD i 0
  place o hdr checkOff 2 (ipChecksumOn o hdr ((hdr 0).toNat % 16))

/-! ### The sum -/

section
variable {o o' : ByteOrder} {hdr : Bytes} {len : ℕ}

def words (o : ByteOrder) (hdr : Bytes) (len : ℕ) : List ℕ :=
  (List.range (2 * len)).map (hdrWord o hdr)

lemma lt_of_mem_words {x : ℕ} (h : x ∈ words o hdr len) : x < 2 ^ 16 := by
  obtain ⟨k, -, rfl⟩ := mem_map.1 h
  exact word_lt o hdr (2 * k) 2

lemma addWords_eq (o : ByteOrder) (hdr : Bytes) : ∀ len k c, addWords o hdr len k c % 2 ^ 32 =
      (c + ((List.range' k (2 * len)).map (hdrWord o hdr)).sum) % 2 ^ 32 := by
  intro len
  induction len with
  | zero =>
    intro k c
    simp [addWords]
  | succ len ih =>
    intro k c
    rw [addWords, ih, show 2 * (len + 1) = 2 * len + 1 + 1 by omega, range'_succ,
      range'_succ, show k + 1 + 1 = k + 2 by omega]
    simp only [map_cons, sum_cons]
    omega

lemma addWords_lt (o : ByteOrder) (hdr : Bytes) : ∀ len k c, c < 2 ^ 32 →
    addWords o hdr len k c < 2 ^ 32 := by
  intro len
  induction len with
  | zero => exact fun _ _ h => h
  | succ len ih => exact fun k c _ => ih _ _ (Nat.mod_lt _ (Nat.two_pow_pos 32))

section
variable (h : len ≤ 15)
include h

lemma sum_words_lt : (words o hdr len).sum < 2 ^ 32 := by
  have hle := sum_le_card_nsmul (words o hdr len) (2 ^ 16) fun x hx => (lt_of_mem_words hx).le
  rw [words, length_map, length_range, smul_eq_mul] at hle
  rw [words]
  omega

/-- **The loop** adds the words, without an overflow. -/
theorem addWords_eq_sum : addWords o hdr len 0 0 = (words o hdr len).sum := by
  have hmod := addWords_eq o hdr len 0 0
  have hlt := addWords_lt o hdr len 0 0 (by decide)
  rw [Nat.zero_add, ← range_eq_range', Nat.mod_eq_of_lt hlt, ← words,
    Nat.mod_eq_of_lt (sum_words_lt h)] at hmod
  exact hmod

/-- **`ip_checksum`** is the complement of the one's complement sum. -/
theorem ipChecksumOn_eq : ipChecksumOn o hdr len = 2 ^ 16 - 1 - sum 16 (words o hdr len) := by
  have hwords : ∀ x ∈ words o hdr len, x < 2 ^ 16 := fun _ => lt_of_mem_words
  have hfold := fold_fold_eq_sum hwords (sum_words_lt h)
  have hlt := sum_lt hwords
  rw [ipChecksumOn, addWords_eq_sum h]
  change 2 ^ 16 - 1 - fold 16 (fold 16 (words o hdr len).sum) % 2 ^ 16 = _
  rw [hfold, Nat.mod_eq_of_lt hlt]

lemma ipChecksumOn_eq_zero_iff :
    ipChecksumOn o hdr len = 0 ↔ sum 16 (words o hdr len) = 0xffff := by
  have hlt := sum_lt fun x (hx : x ∈ words o hdr len) => lt_of_mem_words hx
  rw [ipChecksumOn_eq h]
  omega

lemma verifies_iff : ipChecksumOn o hdr len = 0 ↔
    (words o hdr len).sum ≠ 0 ∧ (words o hdr len).sum ≡ 0 [MOD 2 ^ 16 - 1] := by
  rw [ipChecksumOn_eq_zero_iff h]
  exact sum_eq_ones_iff (fun _ => lt_of_mem_words) (by decide)

end

/-! ### The other byte order -/

lemma hdrWord_eq (hdr : Bytes) (k : ℕ) :
    hdrWord .little hdr k = (hdr (2 * k)).toNat + 256 * (hdr (2 * k + 1)).toNat ∧
    hdrWord .big hdr k = (hdr (2 * k + 1)).toNat + 256 * (hdr (2 * k)).toNat := by
  constructor <;> simp [hdrWord, word, bytesAt, ofBytes, Nat.ofDigits_cons, range_succ]

lemma hdrWord_swap (hne : o ≠ o') (hdr : Bytes) (k : ℕ) :
    hdrWord o' hdr k ≡ 256 * hdrWord o hdr k [MOD 2 ^ 16 - 1] ∧
      (hdrWord o' hdr k = 0 ↔ hdrWord o hdr k = 0) := by
  obtain ⟨hlittle, hbig⟩ := hdrWord_eq hdr k
  unfold Nat.ModEq
  cases o <;> cases o'
  · exact absurd rfl hne
  · rw [hlittle, hbig]
    omega
  · rw [hlittle, hbig]
    omega
  · exact absurd rfl hne

lemma sum_words_swap (hne : o ≠ o') (hdr : Bytes) (len : ℕ) :
    (words o' hdr len).sum ≡ 256 * (words o hdr len).sum [MOD 2 ^ 16 - 1] ∧
      ((words o' hdr len).sum = 0 ↔ (words o hdr len).sum = 0) := by
  have hlist (l : List ℕ) :
      (l.map (hdrWord o' hdr)).sum ≡ 256 * (l.map (hdrWord o hdr)).sum [MOD 2 ^ 16 - 1] ∧
        ((l.map (hdrWord o' hdr)).sum = 0 ↔ (l.map (hdrWord o hdr)).sum = 0) := by
    induction l with
    | nil => exact ⟨rfl, Iff.rfl⟩
    | cons k l ih =>
      obtain ⟨hmod, hzero⟩ := hdrWord_swap hne hdr k
      simp only [map_cons, sum_cons, Nat.mul_add, Nat.add_eq_zero_iff]
      exact ⟨hmod.add ih.1, and_congr hzero ih.2⟩
  exact hlist _

/-- **A correct header** is one on every machine. -/
theorem verifies_swap (h : len ≤ 15) (o o' : ByteOrder) (hdr : Bytes)
    (hok : ipChecksumOn o hdr len = 0) : ipChecksumOn o' hdr len = 0 := by
  by_cases hne : o = o'
  · rwa [← hne]
  obtain ⟨hmod, hzero⟩ := sum_words_swap hne hdr len
  rw [verifies_iff h] at hok ⊢
  refine ⟨fun h0 => hok.1 (hzero.1 h0), ?_⟩
  exact hmod.trans (hok.2.mul_left 256)

/-! ### Storing the checksum -/

lemma words_place {v : ℕ} (hv : v < 2 ^ 16) :
    words o (place o hdr checkOff 2 v) len = (words o hdr len).set 5 v := by
  refine ext_getElem (by simp [words]) fun k hk _ => ?_
  rw [getElem_set]
  by_cases h5 : 5 = k
  · subst h5
    rw [if_pos rfl]
    simpa [words, hdrWord, checkOff] using @word_place o hdr 10 2 v hv
  · simpa [words, hdrWord, h5] using word_place_of_apart (by unfold checkOff; omega)

lemma sum_words_place (h3 : 3 ≤ len) (h0 : word o hdr checkOff 2 = 0) {v : ℕ} (hv : v < 2 ^ 16) :
    (words o (place o hdr checkOff 2 v) len).sum = (words o hdr len).sum + v := by
  have hlen : 5 < (words o hdr len).length := by
    rw [words, length_map, length_range]
    omega
  have hfield : (words o hdr len)[5] = 0 := by simpa [words, hdrWord, checkOff] using h0
  have hold : (words o hdr len).set 5 0 = words o hdr len := by rw [← hfield, set_getElem_self]
  have hsum := sum_set (words o hdr len) 5 0
  rw [hold, if_pos hlen] at hsum
  rw [words_place hv, sum_set, if_pos hlen, hsum]
  omega

/-- **With its checksum stored**, a header is correct. -/
theorem verifies_stored (h3 : 3 ≤ len) (h : len ≤ 15) (h0 : word o hdr checkOff 2 = 0) :
    ipChecksumOn o (place o hdr checkOff 2 (ipChecksumOn o hdr len)) len = 0 := by
  have hwords : ∀ x ∈ words o hdr len, x < 2 ^ 16 := fun _ => lt_of_mem_words
  have hlt := sum_lt hwords
  have hmod := sum_modEq hwords
  have hzero := sum_eq_zero_iff hwords
  rw [verifies_iff h, sum_words_place h3 h0 (by rw [ipChecksumOn_eq h]; omega), ipChecksumOn_eq h]
  generalize (words o hdr len).sum = S at *
  generalize sum 16 (words o hdr len) = s at *
  refine ⟨by omega, ?_⟩
  calc S + (2 ^ 16 - 1 - s) ≡ s + (2 ^ 16 - 1 - s) [MOD 2 ^ 16 - 1] := hmod.symm.add_right _
    _ = 2 ^ 16 - 1 := by omega
    _ ≡ 0 [MOD 2 ^ 16 - 1] := (Nat.modEq_zero_iff_dvd).2 dvd_rfl

end

/-! ### The headers that are sent -/

/-- **The headers of `packet_send`** pass the check of `packet_recv`. -/
theorem verifies_sentHdrs (o o' : ByteOrder) (ports : Ports) (len : ℤ) :
    ipChecksumOn o' (sentHdrs o ports len) ((sentHdrs o ports len 0).toNat % 16) = 0 := by
  have hsent : sentHdrs o ports len 0 = 0x45 := rfl
  have hfirst : (ipudpHdrs ports len).getD 0 0 = 0x45 := rfl
  have hihl : UInt8.toNat 0x45 % 16 = 5 := rfl
  have hfield : word o (fun i => (ipudpHdrs ports len).getD i 0) checkOff 2 = 0 := by
    cases o <;> rfl
  have hstored : ipChecksumOn o (sentHdrs o ports len) 5 = 0 := by
    simp only [sentHdrs, hfirst, hihl]
    exact verifies_stored (by decide) (by decide) hfield
  rw [hsent, hihl]
  exact verifies_swap (by decide) o o' (sentHdrs o ports len) hstored

/-- **The IP checksum.** The sum of a header of at most fifteen 32-bit words does not overflow, two
folds give the one's complement sum, and the result is its complement; it is 0 if and only if the
sum is all ones. If the checksum field lies in the header and is 0, storing the checksum there makes
the header verify, on a machine of either byte order; the headers of `packet_send` verify. -/
theorem ip_checksum_correct (o : ByteOrder) (hdr : Bytes) (len : ℕ) (h : len ≤ 15) :
    (addWords o hdr len 0 0 = (words o hdr len).sum ∧ (words o hdr len).sum < 2 ^ 32) ∧
    (fold 16 (fold 16 (words o hdr len).sum) < 2 ^ 16 ∧
      fold 16 (fold 16 (words o hdr len).sum) = sum 16 (words o hdr len)) ∧
    ipChecksumOn o hdr len = 0xffff - sum 16 (words o hdr len) ∧
    (ipChecksumOn o hdr len = 0 ↔ sum 16 (words o hdr len) = 0xffff) ∧
    (∀ o', 3 ≤ len → word o hdr checkOff 2 = 0 →
      ipChecksumOn o' (place o hdr checkOff 2 (ipChecksumOn o hdr len)) len = 0) ∧
    ∀ o' ports bytes, ipChecksumOn o' (sentHdrs o ports bytes)
      ((sentHdrs o ports bytes 0).toNat % 16) = 0 := by
  refine ⟨⟨addWords_eq_sum h, sum_words_lt h⟩, ⟨?_, ?_⟩, ipChecksumOn_eq h,
    ipChecksumOn_eq_zero_iff h, ?_, ?_⟩
  · exact fold_fold_lt (sum_words_lt h)
  · exact fold_fold_eq_sum (fun _ => lt_of_mem_words) (sum_words_lt h)
  · intro o' h3 h0
    exact verifies_swap h o o' _ (verifies_stored h3 h h0)
  · intro o' ports bytes
    exact verifies_sentHdrs o o' ports bytes

/-- The header of a packet of 300 bytes. -/
theorem ip_checksum_correct_sent :
    ipChecksumOn .little (fun i => (ipudpHdrs ⟨68, 67⟩ 300).getD i 0) 5 = 0xc239 ∧
    ipChecksumOn .big (place .little (fun i => (ipudpHdrs ⟨68, 67⟩ 300).getD i 0) checkOff 2
      (ipChecksumOn .little (fun i => (ipudpHdrs ⟨68, 67⟩ 300).getD i 0) 5)) 5 = 0 :=
  ⟨by decide +kernel,
    (ip_checksum_correct .little _ 5 (by decide)).2.2.2.2.1 .big (by decide) (by decide +kernel)⟩

end Klibc.Ipconfig.Checksum
