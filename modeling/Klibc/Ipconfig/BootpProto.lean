import Klibc.Ipconfig.Device

/-! # Parsing BOOTP replies

`bootp_parse` of `bootp_proto.c`. It resets the configuration of the device from the header and then
walks the options area. Beside the device, the model keeps two logs of the walk: the offsets of the
options decoded (`opts`) and the offsets of all bytes of the area read (`reads`), in order.

The walk is bounded by `fuel`. Every turn moves `ext` forward, so `extlen` turns are enough and the
bound never shows (`Framing.bootpLoop_spec`). -/

namespace Klibc.Ipconfig.BootpProto

open Device

structure Walk where
  dev : Netdev
  opts : List ℕ
  reads : List ℕ

/-- The offsets `i, …, i + n - 1`, as a `memcpy` of `n` bytes reads them. -/
abbrev span (i n : ℕ) : List ℕ := List.range' i n

/-- What a case of the `switch` in `bootp_parse` does: the device after it, `len` after it and the
bytes read. -/
structure OptResult where
  dev : Netdev
  len : ℕ
  reads : List ℕ

/-- `if (len > cap - 1) len = cap - 1`, for a string option stored in an array of `cap` bytes. -/
def clamp (cap len : ℕ) : ℕ := if len > cap - 1 then cap - 1 else len

/-- The cases of the `switch (opt)` of `bootp_parse`. -/
inductive OptCode
  | subnetMask | defaultGateway | dnsServer | hostName | domainName | rootPath | interfaceMtu
  | broadcastAddr | nisDomainName | serverIdentifier | other
  deriving DecidableEq

def optCode (opt : UInt8) : OptCode :=
  match opt.toNat with
  | 1 => .subnetMask
  | 3 => .defaultGateway
  | 6 => .dnsServer
  | 12 => .hostName
  | 15 => .domainName
  | 17 => .rootPath
  | 26 => .interfaceMtu
  | 28 => .broadcastAddr
  | 40 => .nisDomainName
  | 54 => .serverIdentifier
  | _ => .other

/-- The body of that `switch`, with the value of the option at offset `ext`. -/
def bootpOption (exts : Bytes) (dev : Netdev) (opt : UInt8) (len ext : ℕ) : OptResult :=
  match optCode opt with
  | .subnetMask =>
    if len = 4 then ⟨{ dev with ipNetmask := load32 exts ext }, len, span ext 4⟩
    else ⟨dev, len, []⟩
  | .defaultGateway =>
    if len ≥ 4 then ⟨{ dev with ipGateway := load32 exts ext }, len, span ext 4⟩
    else ⟨dev, len, []⟩
  | .dnsServer => -- one address or two
    if len ≥ 4 then
      if len ≥ 8 then
        ⟨{ dev with ipNameserver0 := load32 exts ext, ipNameserver1 := load32 exts (ext + 4) },
          len, span ext 8⟩
      else ⟨{ dev with ipNameserver0 := load32 exts ext }, len, span ext 4⟩
    else ⟨dev, len, []⟩
  | .hostName =>
    let len := clamp SYS_NMLN len
    ⟨{ dev with hostname := copyStr exts ext len dev.hostname }, len, span ext len⟩
  | .domainName =>
    let len := clamp SYS_NMLN len
    ⟨{ dev with dnsdomainname := copyStr exts ext len dev.dnsdomainname }, len, span ext len⟩
  | .rootPath =>
    let len := clamp BPLEN len
    ⟨{ dev with bootpath := copyStr exts ext len dev.bootpath }, len, span ext len⟩
  | .interfaceMtu =>
    if len = 2 then ⟨{ dev with mtu := load16 exts ext }, len, span ext 2⟩
    else ⟨dev, len, []⟩
  | .broadcastAddr =>
    if len = 4 then ⟨{ dev with ipBroadcast := load32 exts ext }, len, span ext 4⟩
    else ⟨dev, len, []⟩
  | .nisDomainName =>
    let len := clamp SYS_NMLN len
    ⟨{ dev with nisdomainname := copyStr exts ext len dev.nisdomainname }, len, span ext len⟩
  | .serverIdentifier => -- unless the header named the server
    if len = 4 ∧ dev.ipServer = INADDR_ANY then
      ⟨{ dev with ipServer := load32 exts ext }, len, span ext 4⟩
    else ⟨dev, len, []⟩
  | .other => ⟨dev, len, []⟩

/-- The `for` loop of `bootp_parse`, from offset `ext` on. -/
def bootpLoop (exts : Bytes) (extlen : ℕ) : ℕ → ℕ → Walk → Walk
  | 0, _, w => w
  | fuel + 1, ext, w =>
    if ext < extlen then
      let opt := exts ext
      if opt = 0 then bootpLoop exts extlen fuel (ext + 1) { w with reads := w.reads ++ [ext] }
      else if opt = 255 then { w with reads := w.reads ++ [ext] }
      else
        let len := (exts (ext + 1)).toNat
        let r := bootpOption exts w.dev opt len (ext + 2)
        -- `ext += len` advances by the length the option was cut to
        bootpLoop exts extlen fuel (ext + 2 + r.len)
          ⟨r.dev, w.opts ++ [ext], w.reads ++ [ext, ext + 1] ++ r.reads⟩
    else w

/-- The assignments `bootp_parse` starts with. -/
def bootpReset (dev : Netdev) (hdr : BootpHdr) : Netdev :=
  { dev with
    gateway := hdr.giaddr
    ipAddr := hdr.yiaddr
    ipServer := hdr.siaddr
    ipNetmask := INADDR_ANY
    ipBroadcast := INADDR_ANY
    ipGateway := hdr.giaddr
    ipNameserver0 := INADDR_ANY
    ipNameserver1 := INADDR_ANY
    hostname := clearStr dev.hostname
    nisdomainname := clearStr dev.nisdomainname
    bootpath := clearStr dev.bootpath
    filename := hdr.bootFile }

/-- The RFC 1048 cookie stands at the start of the area. -/
def Cookie (exts : Bytes) (extlen : ℕ) : Prop :=
  4 ≤ extlen ∧ exts 0 = 99 ∧ exts 1 = 130 ∧ exts 2 = 83 ∧ exts 3 = 99

instance (exts : Bytes) (extlen : ℕ) : Decidable (Cookie exts extlen) := by
  unfold Cookie; infer_instance

/-- The bytes the test for the cookie reads: `&&` stops at the first one that differs. -/
def cookieReads (exts : Bytes) (extlen : ℕ) : List ℕ :=
  if extlen < 4 then []
  else if exts 0 ≠ 99 then [0]
  else if exts 1 ≠ 130 then [0, 1]
  else if exts 2 ≠ 83 then [0, 1, 2]
  else [0, 1, 2, 3]

/-- `bootp_parse`; it always returns `1`. -/
def bootpParse (dev : Netdev) (hdr : BootpHdr) (exts : Bytes) (extlen : ℕ) : Walk :=
  let w : Walk := ⟨bootpReset dev hdr, [], cookieReads exts extlen⟩
  if Cookie exts extlen then bootpLoop exts extlen extlen 4 w else w

/-! ### What no option changes -/

lemma bootpOption_keeps (exts : Bytes) (dev : Netdev) (opt : UInt8) (len ext : ℕ) :
    (bootpOption exts dev opt len ext).dev.ipAddr = dev.ipAddr ∧
      (bootpOption exts dev opt len ext).dev.next = dev.next := by
  unfold bootpOption
  cases optCode opt with
  | hostName | domainName | rootPath | nisDomainName | other => simp
  | subnetMask | defaultGateway | dnsServer | interfaceMtu | broadcastAddr | serverIdentifier =>
    dsimp only
    split_ifs <;> simp

lemma bootpLoop_keeps (exts : Bytes) (extlen : ℕ) : ∀ (fuel ext : ℕ) (w : Walk),
    (bootpLoop exts extlen fuel ext w).dev.ipAddr = w.dev.ipAddr ∧
      (bootpLoop exts extlen fuel ext w).dev.next = w.dev.next
  | 0, _, _ => ⟨rfl, rfl⟩
  | fuel + 1, ext, w => by
    unfold bootpLoop
    dsimp only
    split_ifs
    · exact bootpLoop_keeps exts extlen fuel _ _
    · exact ⟨rfl, rfl⟩
    · have h1 := bootpOption_keeps exts w.dev (exts ext) (exts (ext + 1)).toNat (ext + 2)
      have h2 := bootpLoop_keeps exts extlen fuel
        (ext + 2 + (bootpOption exts w.dev (exts ext) (exts (ext + 1)).toNat (ext + 2)).len)
        ⟨(bootpOption exts w.dev (exts ext) (exts (ext + 1)).toNat (ext + 2)).dev,
          w.opts ++ [ext], w.reads ++ [ext, ext + 1] ++
            (bootpOption exts w.dev (exts ext) (exts (ext + 1)).toNat (ext + 2)).reads⟩
      exact ⟨h2.1.trans h1.1, h2.2.trans h1.2⟩
    · exact ⟨rfl, rfl⟩

lemma bootpParse_ipAddr (dev : Netdev) (hdr : BootpHdr) (exts : Bytes) (extlen : ℕ) :
    (bootpParse dev hdr exts extlen).dev.ipAddr = hdr.yiaddr := by
  unfold bootpParse
  dsimp only
  split_ifs
  · exact (bootpLoop_keeps exts extlen extlen 4 _).1
  · rfl

end Klibc.Ipconfig.BootpProto
