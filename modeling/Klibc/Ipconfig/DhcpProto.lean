import Klibc.Ipconfig.BootpProto

/-! # Parsing DHCP replies

`dhcp_parse` of `dhcp_proto.c`: a first walk over the options area looks for the message type and
the server identifier; an offer or an acknowledgement is then parsed by `bootp_parse`. This walk
knows no end option, and it takes the type from `opt[2]` and the identifier from `opt[2..5]`
whatever the length byte `opt[1]` says. -/

namespace Klibc.Ipconfig.DhcpProto

open Device BootpProto

def DHCPOFFER : UInt8 := 2
def DHCPACK : UInt8 := 5
def DHCPNAK : UInt8 := 6

/-- The local variables of `dhcp_parse` that its loop sets, and the offsets read so far. -/
structure Scan where
  type : UInt8
  serverid : Quad
  reads : List ℕ
  deriving DecidableEq

/-- One option of the loop of `dhcp_parse`: the option byte at offset `opt` is not a pad. -/
def dhcpOption (exts : Bytes) (opt : ℕ) (s : Scan) : Scan where
  type := if exts opt = 53 then exts (opt + 2) else s.type
  serverid := if exts opt = 54 then load32 exts (opt + 2) else s.serverid
  reads := s.reads ++ [opt, opt + 1] ++ (if exts opt = 53 then [opt + 2] else []) ++
    (if exts opt = 54 then span (opt + 2) 4 else [])

/-- The `for` loop of `dhcp_parse`, from offset `ext` on. -/
def dhcpLoop (exts : Bytes) (extlen : ℕ) : ℕ → ℕ → Scan → Scan
  | 0, _, s => s
  | fuel + 1, ext, s =>
    if ext < extlen then
      if exts ext = 0 then dhcpLoop exts extlen fuel (ext + 1) { s with reads := s.reads ++ [ext] }
      else dhcpLoop exts extlen fuel (ext + 2 + (exts (ext + 1)).toNat) (dhcpOption exts ext s)
    else s

/-- The first half of `dhcp_parse`: type and server identifier of the message. -/
def dhcpScan (exts : Bytes) (extlen : ℕ) : Scan :=
  let s : Scan := ⟨0, INADDR_NONE, cookieReads exts extlen⟩
  if Cookie exts extlen then dhcpLoop exts extlen extlen 4 s else s

/-- What `dhcp_parse` does to the device and returns, and the offsets it reads. -/
structure DhcpResult where
  ret : ℤ
  dev : Netdev
  reads : List ℕ

/-- `dhcp_parse`. -/
def dhcpParse (dev : Netdev) (hdr : BootpHdr) (exts : Bytes) (extlen : ℕ) : DhcpResult :=
  let s := dhcpScan exts extlen
  if s.type = DHCPOFFER then
    let w := bootpParse dev hdr exts extlen
    let dev := if s.serverid ≠ INADDR_NONE then { w.dev with serverid := s.serverid } else w.dev
    ⟨2, dev, s.reads ++ w.reads⟩
  else if s.type = DHCPACK then
    let w := bootpParse dev hdr exts extlen
    ⟨5, w.dev, s.reads ++ w.reads⟩
  else if s.type = DHCPNAK then ⟨6, dev, s.reads⟩
  else ⟨0, dev, s.reads⟩

lemma dhcpParse_ack {dev : Netdev} {hdr : BootpHdr} {exts : Bytes} {extlen : ℕ}
    (h : (dhcpParse dev hdr exts extlen).ret = 5) : (dhcpScan exts extlen).type = DHCPACK ∧
      (dhcpParse dev hdr exts extlen).dev.ipAddr = hdr.yiaddr := by
  revert h
  unfold dhcpParse
  dsimp only
  split_ifs with h1 h2 h3 h4
  · simp
  · simp
  · exact fun _ => ⟨h3, bootpParse_ipAddr dev hdr exts extlen⟩
  · simp
  · simp

end Klibc.Ipconfig.DhcpProto
