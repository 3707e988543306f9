import Klibc.Ipconfig.Walkers

/-! # Which bytes of the options area are read

Both loops test `ext - exts < extlen` before the code byte of an option only; its length byte and
its value are read unchecked. `BootpInside` and `DhcpInside` say that every option that starts below
`extlen` has the bytes that are used of it below `extlen` too: the length byte, and as many bytes of
the value as the parser looks at (`bootpNeed`; one for option 53 and four for option 54 in
`dhcp_parse`). These are exactly the areas on which the parsers stay below `extlen`
(`parse_reads_iff`). -/

namespace Klibc.Ipconfig.Bounds

open Device BootpProto DhcpProto List Framing Walkers

variable {exts : Bytes} {extlen : ℕ}

/-! ### `bootp_parse` -/

/-- How many bytes of the value of an option `bootp_parse` uses, `server` the address of the server
known so far. -/
def bootpNeed (exts : Bytes) (server : Quad) (o : ℕ) : ℕ :=
  let len := optLen exts o
  match optCode (exts o) with
  | .subnetMask | .broadcastAddr => if len = 4 then 4 else 0
  | .defaultGateway => if 4 ≤ len then 4 else 0
  | .dnsServer => if 8 ≤ len then 8 else if 4 ≤ len then 4 else 0
  | .hostName | .domainName | .nisDomainName => min len 64
  | .rootPath => len
  | .interfaceMtu => if len = 2 then 2 else 0
  | .serverIdentifier => if len = 4 ∧ server = INADDR_ANY then 4 else 0
  | .other => 0

def bootpServer (exts : Bytes) (server : Quad) (o : ℕ) : Quad :=
  if optCode (exts o) = .serverIdentifier ∧ optLen exts o = 4 ∧ server = INADDR_ANY then
    load32 exts (o + 2)
  else server

/-- Every option the loop of `bootp_parse` meets from `i` on lies below `extlen` as far as it is
used. -/
inductive BootpInside (exts : Bytes) (extlen : ℕ) : Quad → ℕ → Prop
  | stop {server : Quad} {i : ℕ} : extlen ≤ i → BootpInside exts extlen server i
  | fin {server : Quad} {i : ℕ} : exts i = 255 → BootpInside exts extlen server i
  | pad {server : Quad} {i : ℕ} : exts i = 0 → BootpInside exts extlen server (i + 1) →
      BootpInside exts extlen server i
  | opt {server : Quad} {i : ℕ} : exts i ≠ 0 → exts i ≠ 255 → i + 1 < extlen →
      (0 < bootpNeed exts server i → i + 2 + bootpNeed exts server i ≤ extlen) →
      BootpInside exts extlen (bootpServer exts server i) (i + 2 + cut exts i) →
      BootpInside exts extlen server i

lemma bootpOption_reads (exts : Bytes) (dev : Netdev) (o : ℕ) :
    (bootpOption exts dev (exts o) (optLen exts o) (o + 2)).reads =
      span (o + 2) (bootpNeed exts dev.ipServer o) := by
  unfold bootpOption bootpNeed
  cases optCode (exts o) with
  | hostName | domainName | nisDomainName => simp [clamp_eq, SYS_NMLN]
  | rootPath =>
    have h255 := optLen_le exts o
    simp only [clamp_eq, BPLEN]
    rw [Nat.min_eq_left (by omega)]
  | other => rfl
  | dnsServer =>
    dsimp only
    by_cases h8 : 8 ≤ optLen exts o
    · rw [if_pos (by omega), if_pos h8, if_pos h8]
    · rw [if_neg h8]
      split_ifs <;> rfl
  | subnetMask | defaultGateway | broadcastAddr | serverIdentifier | interfaceMtu =>
    dsimp only
    split_ifs <;> rfl

lemma applyAt_ipServer (exts : Bytes) (dev : Netdev) (o : ℕ) :
    (applyAt exts dev o).ipServer = bootpServer exts dev.ipServer o := by
  unfold applyAt applyOption bootpServer
  cases hc : optCode (exts o) with
  | serverIdentifier =>
    simp only [length_optData, true_and]
    split_ifs with h
    · rw [load32_eq (by omega)]
    · rfl
  | other | hostName | domainName | nisDomainName | rootPath => simp
  | subnetMask | defaultGateway | broadcastAddr | interfaceMtu | dnsServer =>
    dsimp only
    split_ifs <;> simp_all

lemma forall_span {i n b : ℕ} : (∀ r ∈ span i n, r < b) ↔ (0 < n → i + n ≤ b) := by
  constructor
  · intro h hn
    have := h (i + (n - 1)) (by simp [mem_range']; omega)
    omega
  · intro h r hr
    simp only [mem_range'_1] at hr
    have := h (by omega)
    omega

/-- **The loop of `bootp_parse` stays below `extlen`** iff the options it meets do. -/
theorem bootpLoop_reads_iff : ∀ (fuel i : ℕ) (w : Walk), extlen ≤ i + fuel →
    ((∀ r ∈ (bootpLoop exts extlen fuel i w).reads, r < extlen) ↔
      (∀ r ∈ w.reads, r < extlen) ∧ BootpInside exts extlen w.dev.ipServer i)
  | 0, i, w, hf => by
    simp only [bootpLoop]
    exact ⟨fun h => ⟨h, .stop (by omega)⟩, fun h => h.1⟩
  | fuel + 1, i, w, hf => by
    by_cases hi : i < extlen
    · by_cases h0 : exts i = 0
      · simp only [bootpLoop, hi, h0, if_true]
        rw [bootpLoop_reads_iff fuel (i + 1) _ (by omega)]
        simp only [forall_mem_append, forall_mem_singleton]
        constructor
        · rintro ⟨⟨h1, -⟩, h2⟩; exact ⟨h1, .pad h0 h2⟩
        · rintro ⟨h1, h2⟩
          refine ⟨⟨h1, hi⟩, ?_⟩
          cases h2 with
          | stop h => omega
          | fin h => rw [h0] at h; exact absurd h (by decide)
          | pad _ h => exact h
          | opt h _ _ _ _ => exact absurd h0 h
      · by_cases h255 : exts i = 255
        · simp only [bootpLoop, hi, h255, if_true]
          rw [if_neg (by decide)]
          simp only [forall_mem_append, forall_mem_singleton]
          exact ⟨fun h => ⟨h.1, .fin h255⟩, fun h => ⟨h.1, hi⟩⟩
        · have hlen := bootpOption_len exts w.dev i
          have hdev := bootpOption_dev exts w.dev i
          have hreads := bootpOption_reads exts w.dev i
          unfold optLen at hlen hdev hreads
          simp only [bootpLoop, hi, h0, h255, if_true, if_false]
          rw [bootpLoop_reads_iff fuel _ _ (by omega)]
          simp only [hlen, hdev, hreads, applyAt_ipServer, forall_mem_append,
            forall_mem_cons, forall_span]
          constructor
          · rintro ⟨⟨⟨h1, h2, h3, -⟩, h4⟩, h5⟩
            exact ⟨h1, .opt h0 h255 h3 h4 h5⟩
          · rintro ⟨h1, h2⟩
            cases h2 with
            | stop h => omega
            | fin h => exact absurd h h255
            | pad h _ => exact absurd h h0
            | opt _ _ h3 h4 h5 => exact ⟨⟨⟨h1, hi, h3, by simp⟩, h4⟩, h5⟩
    · simp only [bootpLoop, hi, if_false]
      exact ⟨fun h => ⟨h, .stop (by omega)⟩, fun h => h.1⟩

/-! ### `dhcp_parse` -/

/-- Every option the loop of `dhcp_parse` meets from `i` on lies below `extlen` as far as it is
used; the message type is `t` before and `t'` after. -/
inductive DhcpInside (exts : Bytes) (extlen : ℕ) : UInt8 → ℕ → UInt8 → Prop
  | stop {t : UInt8} {i : ℕ} : extlen ≤ i → DhcpInside exts extlen t i t
  | pad {t t' : UInt8} {i : ℕ} : i < extlen → exts i = 0 → DhcpInside exts extlen t (i + 1) t' →
      DhcpInside exts extlen t i t'
  | opt {t t' : UInt8} {i : ℕ} : exts i ≠ 0 → i + 1 < extlen → (exts i = 53 → i + 2 < extlen) →
      (exts i = 54 → i + 5 < extlen) →
      DhcpInside exts extlen (if exts i = 53 then exts (i + 2) else t) (i + 2 + optLen exts i) t' →
      DhcpInside exts extlen t i t'

lemma dhcpOption_reads_iff (i : ℕ) (s : Scan) :
    (∀ r ∈ (dhcpOption exts i s).reads, r < extlen) ↔ (∀ r ∈ s.reads, r < extlen) ∧
      i + 1 < extlen ∧ (exts i = 53 → i + 2 < extlen) ∧ (exts i = 54 → i + 5 < extlen) := by
  simp only [dhcpOption, forall_mem_append, forall_mem_cons]
  have h53 : (∀ r ∈ (if exts i = 53 then [i + 2] else []), r < extlen) ↔
      (exts i = 53 → i + 2 < extlen) := by split_ifs with h <;> simp [h]
  have h54 : (∀ r ∈ (if exts i = 54 then span (i + 2) 4 else []), r < extlen) ↔
      (exts i = 54 → i + 5 < extlen) := by
    split_ifs with h
    · rw [forall_span]; simp only [h, forall_const]; omega
    · simp [h]
  rw [h53, h54]
  constructor
  · rintro ⟨⟨⟨h1, -, h2, -⟩, h3⟩, h4⟩; exact ⟨h1, h2, h3, h4⟩
  · rintro ⟨h1, h2, h3, h4⟩; exact ⟨⟨⟨h1, by omega, h2, by simp⟩, h3⟩, h4⟩

/-- **The loop of `dhcp_parse` stays below `extlen`** iff the options it meets do; then the type it
finds is theirs. -/
theorem dhcpLoop_reads_iff : ∀ (fuel i : ℕ) (s : Scan), extlen ≤ i + fuel →
    ((∀ r ∈ (dhcpLoop exts extlen fuel i s).reads, r < extlen) ↔
      (∀ r ∈ s.reads, r < extlen) ∧
        DhcpInside exts extlen s.type i (dhcpLoop exts extlen fuel i s).type)
  | 0, i, s, hf => by
    simp only [dhcpLoop]
    exact ⟨fun h => ⟨h, .stop (by omega)⟩, fun h => h.1⟩
  | fuel + 1, i, s, hf => by
    by_cases hi : i < extlen
    · by_cases h0 : exts i = 0
      · simp only [dhcpLoop, hi, h0, if_true]
        rw [dhcpLoop_reads_iff fuel (i + 1) _ (by omega)]
        simp only [forall_mem_append, forall_mem_singleton]
        constructor
        · rintro ⟨⟨h1, -⟩, h2⟩; exact ⟨h1, .pad hi h0 h2⟩
        · rintro ⟨h1, h2⟩
          refine ⟨⟨h1, hi⟩, ?_⟩
          generalize (dhcpLoop exts extlen fuel (i + 1) _).type = t at h2 ⊢
          cases h2 with
          | stop h => omega
          | pad _ _ h => exact h
          | opt h _ _ _ _ => exact absurd h0 h
      · simp only [dhcpLoop, hi, h0, if_true, if_false]
        rw [dhcpLoop_reads_iff fuel _ _ (by omega), dhcpOption_reads_iff]
        constructor
        · rintro ⟨⟨h1, h2, h3, h4⟩, h5⟩; exact ⟨h1, .opt h0 h2 h3 h4 h5⟩
        · rintro ⟨h1, h2⟩
          generalize (dhcpLoop exts extlen fuel _ _).type = t at h2 ⊢
          cases h2 with
          | stop h => omega
          | pad _ h _ => exact absurd h h0
          | opt _ h2 h3 h4 h5 => exact ⟨⟨h1, h2, h3, h4⟩, h5⟩
    · simp only [dhcpLoop, hi, if_false]
      exact ⟨fun h => ⟨h, .stop (by omega)⟩, fun h => h.1⟩

lemma DhcpInside.type_eq {t t' : UInt8} {i : ℕ} (h : DhcpInside exts extlen t i t') :
    ∀ (fuel : ℕ) (s : Scan), s.type = t → extlen ≤ i + fuel →
      (dhcpLoop exts extlen fuel i s).type = t' := by
  induction h with
  | stop hi =>
    intro fuel s hs _
    cases fuel with
    | zero => exact hs
    | succ fuel => simp [dhcpLoop, Nat.not_lt.mpr hi, hs]
  | pad hi h0 _ ih =>
    intro fuel s hs hf
    obtain ⟨fuel, rfl⟩ : ∃ k, fuel = k + 1 := ⟨fuel - 1, by omega⟩
    simp only [dhcpLoop, hi, h0, if_true]
    exact ih fuel _ hs (by omega)
  | @opt t t' i h0 hi _ _ _ ih =>
    intro fuel s hs hf
    obtain ⟨fuel, rfl⟩ : ∃ k, fuel = k + 1 := ⟨fuel - 1, by omega⟩
    have hi' : i < extlen := by omega
    simp only [dhcpLoop, hi', h0, if_true, if_false]
    exact ih fuel _ (by simp only [dhcpOption, hs]) (by omega)

/-! ### Both parsers -/

lemma cookieReads_lt : ∀ r ∈ cookieReads exts extlen, r < extlen := by
  unfold cookieReads
  split_ifs <;> simp <;> omega

lemma bootpParse_reads_iff (dev : Netdev) (hdr : BootpHdr) :
    (∀ r ∈ (bootpParse dev hdr exts extlen).reads, r < extlen) ↔
      (Cookie exts extlen → BootpInside exts extlen hdr.siaddr 4) := by
  unfold bootpParse
  by_cases hc : Cookie exts extlen
  · rw [if_pos hc, bootpLoop_reads_iff extlen 4 _ (by omega)]
    simp only [hc, forall_const]
    exact ⟨fun h => h.2, fun h => ⟨cookieReads_lt, h⟩⟩
  · rw [if_neg hc]
    exact iff_of_true cookieReads_lt (fun h => absurd h hc)

lemma dhcpScan_reads_iff : (∀ r ∈ (dhcpScan exts extlen).reads, r < extlen) ↔
    (Cookie exts extlen → DhcpInside exts extlen 0 4 (dhcpScan exts extlen).type) := by
  unfold dhcpScan
  by_cases hc : Cookie exts extlen
  · rw [if_pos hc, dhcpLoop_reads_iff extlen 4 _ (by omega)]
    simp only [hc, forall_const]
    exact ⟨fun h => h.2, fun h => ⟨cookieReads_lt, h⟩⟩
  · rw [if_neg hc]
    exact iff_of_true cookieReads_lt (fun h => absurd h hc)

lemma dhcpScan_type_of_no_cookie (hc : ¬ Cookie exts extlen) : (dhcpScan exts extlen).type = 0 := by
  unfold dhcpScan; rw [if_neg hc]

lemma dhcpParse_reads_iff (dev : Netdev) (hdr : BootpHdr) :
    (∀ r ∈ (dhcpParse dev hdr exts extlen).reads, r < extlen) ↔
      (∀ r ∈ (dhcpScan exts extlen).reads, r < extlen) ∧
        ((dhcpScan exts extlen).type = DHCPOFFER ∨ (dhcpScan exts extlen).type = DHCPACK →
          ∀ r ∈ (bootpParse dev hdr exts extlen).reads, r < extlen) := by
  unfold dhcpParse
  by_cases h2 : (dhcpScan exts extlen).type = DHCPOFFER
  · simp only [h2, if_true, forall_mem_append, true_or, forall_const]
  · by_cases h5 : (dhcpScan exts extlen).type = DHCPACK
    · simp only [h5, if_true, or_true, forall_const]
      rw [if_neg (by decide)]
      simp only [forall_mem_append]
    · simp only [h2, h5, if_false, or_self, false_imp_iff, and_true]
      split_ifs <;> rfl

/-- **Reads inside the area.** Both parsers read only offsets below `extlen` if and only if every
option that starts below `extlen` has its length byte and the bytes used of its value there. -/
theorem parse_reads_iff (dev : Netdev) (hdr : BootpHdr) (exts : Bytes) (extlen : ℕ) :
    ((∀ r ∈ (bootpParse dev hdr exts extlen).reads, r < extlen) ↔
      (Cookie exts extlen → BootpInside exts extlen hdr.siaddr 4)) ∧
    ((∀ r ∈ (dhcpParse dev hdr exts extlen).reads, r < extlen) ↔
      (Cookie exts extlen → ∃ t, DhcpInside exts extlen 0 4 t ∧
        (t = DHCPOFFER ∨ t = DHCPACK → BootpInside exts extlen hdr.siaddr 4))) := by
  refine ⟨bootpParse_reads_iff dev hdr, ?_⟩
  rw [dhcpParse_reads_iff, bootpParse_reads_iff, dhcpScan_reads_iff]
  by_cases hc : Cookie exts extlen
  · simp only [hc, forall_const]
    constructor
    · rintro ⟨h1, h2⟩; exact ⟨_, h1, h2⟩
    · rintro ⟨t, h1, h2⟩
      have ht : (dhcpScan exts extlen).type = t := by
        unfold dhcpScan
        rw [if_pos hc]
        exact h1.type_eq extlen _ rfl (by omega)
      rw [ht]
      exact ⟨h1, h2⟩
  · simp [hc, dhcpScan_type_of_no_cookie hc]

/-- The cookie and the code byte of an option 53, and nothing more. -/
def truncatedArea : Bytes := fun i => ([99, 130, 83, 99, 53] : List UInt8).getD i 0

/-- **A truncated option is read past the end of the area**, by both parsers. -/
theorem parse_reads_truncated :
    ¬ (∀ r ∈ (bootpParse Netdev.zero (BootpHdr.load (fun _ => 0) 0) truncatedArea 5).reads,
      r < 5) ∧
    ¬ (∀ r ∈ (dhcpParse Netdev.zero (BootpHdr.load (fun _ => 0) 0) truncatedArea 5).reads,
      r < 5) := by
  refine ⟨fun h => ?_, fun h => ?_⟩
  · exact absurd (h 5 (by decide)) (by decide)
  · exact absurd (h 5 (by decide)) (by decide)

end Klibc.Ipconfig.Bounds
