import Klibc.Lib.Machine
import Klibc.Lib.Slice
import Klibc.Lib.Total
import Klibc.Ipconfig.Device

/-! # Sending DHCP messages

`dhcp_send_discover` and `dhcp_send_request` of `dhcp_proto.c`, and `set_vendor_identifier` of
`main.c`. A message is a list of pieces (`struct iovec`): the pieces lie in two static arrays, one
for each kind of message, that every call fills in anew from slot 4 on. A piece names the data it
points to (`Object`). Local variables of `dhcp_send` are named together with the number of the call,
so that a pointer left behind by an earlier call cannot be followed. `packet_send` is modelled as
far as it touches the pieces; what it is handed is kept in `handed`. -/

namespace Klibc.Ipconfig.DhcpSend

open Lib.Machine Lib.Slice Device

/-! ### Static data -/

def BOOTP_REQUEST : UInt8 := 1
def DHCPDISCOVER : UInt8 := 1
def DHCPREQUEST : UInt8 := 3

def dhcpParams : List UInt8 := [1, 3, 6, 12, 15, 17, 26, 28, 40]

def dhcpDiscoverHdr : List UInt8 :=
  [99, 130, 83, 99, 53, 1, DHCPDISCOVER, 55, UInt8.ofNat dhcpParams.length]

/-- `dhcp_request_hdr`, before any address was written to it. -/
def dhcpRequestHdr : List UInt8 :=
  [99, 130, 83, 99, 53, 1, DHCPREQUEST, 54, 4, 0, 0, 0, 0, 50, 4, 0, 0, 0, 0,
    55, UInt8.ofNat dhcpParams.length]

def SERVER_IP_OFF : ℕ := 9
def REQ_IP_OFF : ℕ := 15

def dhcpEnd : List UInt8 := [255]

def DHCP_IOV_LEN : ℕ := 7

/-- `sizeof(struct header)` of `packet.c`, an IP and a UDP header. -/
def sizeofHeader : ℕ := 28

/-! ### Pieces of a message -/

/-- What an `iov_base` points to: static data, or a local variable of a call of `dhcp_send`. -/
inductive Object
  | ipudpHdrs | dhcpDiscoverHdr | dhcpRequestHdr | dhcpParams | dhcpEnd | vendorClassIdentifier
  | bootp (call : ℕ) | dhcpHostname (call : ℕ)
  deriving DecidableEq

/-- `struct iovec`. -/
structure Iovec where
  iovBase : Option Object
  iovLen : ℕ

inductive Message
  | discover | request
  deriving DecidableEq

/-- The initial `dhcp_discover_iov` and `dhcp_request_iov`. -/
def initialIov : Message → ℕ → Iovec
  | .discover, 2 => ⟨some .dhcpDiscoverHdr, dhcpDiscoverHdr.length⟩
  | .request, 2 => ⟨some .dhcpRequestHdr, dhcpRequestHdr.length⟩
  | _, 3 => ⟨some .dhcpParams, dhcpParams.length⟩
  | _, _ => ⟨none, 0⟩

/-- A requested host name: a C string in an array of `SYS_NMLN` bytes. -/
structure Hostname where
  bytes : List UInt8
  nonul : 0 ∉ bytes
  short : bytes.length ≤ SYS_NMLN - 1

/-- The fields of `struct netdev` that the transmit path uses. -/
structure Interface extends Netdev where
  hwtype : ℕ
  hwlen : ℕ
  openTime : ℤ
  reqhostname : Hostname

/-- The program: its static data, the clock, the kernel's answers to `sendmsg`, what lies on the
stack where `dhcp_hostname` is put, the number of calls of `dhcp_send` so far, and the contents of
the pieces handed to each call of `packet_send`, from slot 1 on. -/
structure Sys where
  dhcpRequestHdr : List UInt8
  iov : Message → ℕ → Iovec
  vendorClassIdentifier : List UInt8
  vendorClassIdentifierLen : ℤ
  clock : ℕ → ℤ
  sendmsg : ℕ → ℤ
  stack : Vector UInt8 (SYS_NMLN + 2)
  calls : ℕ
  handed : List (List (List UInt8))

def Sys.start (clock sendmsg : ℕ → ℤ) (stack : Vector UInt8 (SYS_NMLN + 2)) : Sys where
  dhcpRequestHdr := DhcpSend.dhcpRequestHdr
  iov := initialIov
  vendorClassIdentifier := List.replicate 260 0
  vendorClassIdentifierLen := 0
  clock := clock
  sendmsg := sendmsg
  stack := stack
  calls := 0
  handed := []

abbrev Call := StateT Sys Option

def access {α : Type} (x : Option α) : Call α := fun s => x.map fun v => (v, s)

/-- `vec[i] = v`. -/
def setSlot (m : Message) (i : ℕ) (v : Iovec) : Call Unit := fun s =>
  if i < DHCP_IOV_LEN then
    some ((), { s with iov := Function.update s.iov m (Function.update (s.iov m) i v) })
  else none

/-! ### `packet_send` -/

def Quad.bytes (a : Quad) : List UInt8 := [a.b0, a.b1, a.b2, a.b3]

def headerBytes (h : BootpHdr) : List UInt8 :=
  [h.op, h.htype, h.hlen, h.hops] ++ Quad.bytes h.xid ++
    [UInt8.ofNat (h.secs / 256), UInt8.ofNat h.secs, UInt8.ofNat (h.flags / 256),
      UInt8.ofNat h.flags] ++
    Quad.bytes h.ciaddr ++ Quad.bytes h.yiaddr ++ Quad.bytes h.siaddr ++ Quad.bytes h.giaddr ++
    h.chaddr.toList ++ h.serverName.toList ++ h.bootFile.toList

/-- The local variables of `dhcp_send`. -/
structure Locals where
  bootp : BootpHdr
  dhcpHostname : List UInt8

/-- The contents of an object, while the call number `s.calls` is running. -/
def contents (s : Sys) (l : Locals) : Object → Option (List UInt8)
  | .ipudpHdrs => none -- `packet_send` fills it in
  | .dhcpDiscoverHdr => some dhcpDiscoverHdr
  | .dhcpRequestHdr => some s.dhcpRequestHdr
  | .dhcpParams => some dhcpParams
  | .dhcpEnd => some dhcpEnd
  | .vendorClassIdentifier => some s.vendorClassIdentifier
  | .bootp call => if call = s.calls then some (headerBytes l.bootp) else none
  | .dhcpHostname call => if call = s.calls then some l.dhcpHostname else none

def Iovec.data (s : Sys) (l : Locals) (v : Iovec) : Option (List UInt8) := do
  let o ← v.iovBase
  let bytes ← contents s l o
  if v.iovLen ≤ bytes.length then some (bytes.take v.iovLen) else none

/-- The bytes of slot `i`. -/
def slotData (m : Message) (l : Locals) (i : ℕ) : Call (List UInt8) := fun s =>
  if i < DHCP_IOV_LEN then ((s.iov m i).data s l).map fun d => (d, s) else none

/-- The bytes of the `n` slots from `i` on. -/
def gather (m : Message) (l : Locals) : ℕ → ℕ → Call (List (List UInt8))
  | _, 0 => return []
  | i, n + 1 => do
    let d ← slotData m l i
    let ds ← gather m l (i + 1) n
    return d :: ds

/-- `packet_send`, as far as it touches the pieces. -/
def packetSend (m : Message) (l : Locals) (iovLen : ℕ) : Call ℤ := do
  setSlot m 0 ⟨some .ipudpHdrs, sizeofHeader⟩
  let ds ← gather m l 1 (iovLen - 1)
  let s ← get
  set { s with handed := s.handed ++ [ds], sendmsg := fun i => s.sendmsg (i + 1) }
  return s.sendmsg 0

/-! ### `dhcp_send` -/

/-- `time(NULL)`. -/
def time : Call ℤ := do
  let s ← get
  set { s with clock := fun i => s.clock (i + 1) }
  return s.clock 0

/-- The part of `dhcp_send` that adds the vendor class: the next free slot. -/
def addVendorClass (m : Message) (i : ℕ) : Call ℕ := do
  let s ← get
  if s.vendorClassIdentifierLen > 2 then
    setSlot m i ⟨some .vendorClassIdentifier, s.vendorClassIdentifierLen.toNat⟩
    return i + 1
  else return i

/-- The part of `dhcp_send` that adds the host name: the next free slot, and `dhcp_hostname`. -/
def addHostname (m : Message) (name : List UInt8) (i : ℕ) : Call (ℕ × List UInt8) := do
  let s ← get
  if name ≠ [] then
    let len := name.length
    let dhcpHostname ← access (overwrite s.stack.toList 0 ([12, UInt8.ofNat len] ++ name))
    setSlot m i ⟨some (.dhcpHostname s.calls), len + 2⟩
    return (i + 1, dhcpHostname)
  else return (i, s.stack.toList)

/-- The header that `dhcp_send` fills in, at the time `now`. -/
def bootpRequest (dev : Interface) (now : ℤ) : BootpHdr where
  op := BOOTP_REQUEST
  htype := UInt8.ofNat dev.hwtype
  hlen := UInt8.ofNat dev.hwlen
  hops := 0
  xid := dev.xid
  secs := unsigned 16 (now - dev.openTime)
  flags := 0
  ciaddr := INADDR_ANY
  yiaddr := dev.ipAddr
  siaddr := INADDR_ANY
  giaddr := INADDR_ANY
  chaddr := dev.hwaddr
  serverName := Vector.replicate 64 0
  bootFile := Vector.replicate 128 0

def dhcpSend (dev : Interface) (m : Message) : Call ℤ := do
  modify fun s => { s with calls := s.calls + 1 }
  let now ← time
  setSlot m 1 ⟨some (.bootp (← get).calls), sizeofBootpHdr⟩
  let i ← addVendorClass m 4
  let (i, dhcpHostname) ← addHostname m dev.reqhostname.bytes i
  setSlot m i ⟨some .dhcpEnd, dhcpEnd.length⟩
  packetSend m ⟨bootpRequest dev now, dhcpHostname⟩ (i + 1)

/-- `dhcp_send_discover`: the device after it, and what it returns. -/
def dhcpSendDiscover (dev : Interface) : Call (Interface × ℤ) := do
  let dev := { dev with ipAddr := INADDR_ANY, ipGateway := INADDR_ANY }
  let ret ← dhcpSend dev .discover
  return (dev, ret)

/-- `memcpy(&dhcp_request_hdr[off], &a, 4)`. -/
def poke (off : ℕ) (a : Quad) : Call Unit := do
  let s ← get
  let hdr ← access (overwrite s.dhcpRequestHdr off (Quad.bytes a))
  set { s with dhcpRequestHdr := hdr }

/-- `dhcp_send_request`. -/
def dhcpSendRequest (dev : Interface) : Call ℤ := do
  poke SERVER_IP_OFF dev.serverid
  poke REQ_IP_OFF dev.ipAddr
  dhcpSend dev .request

/-! ### `set_vendor_identifier` -/

/-- `set_vendor_identifier`: whether it accepts the identifier. If it does not, it leaves the
program by `longjmp`. -/
def setVendorIdentifier (id : List UInt8) : Call Bool := do
  let len := wrap 32 id.length
  if len ≥ 255 then return false
  else
    let s ← get
    let data ← access (slice id 0 len)
    let buf ← access (overwrite s.vendorClassIdentifier 2 data)
    let buf ← access (overwrite buf 0 [60, (unsigned 8 len).toUInt8])
    set { s with vendorClassIdentifier := buf, vendorClassIdentifierLen := len + 2 }
    return true

end Klibc.Ipconfig.DhcpSend
