import Mathlib.Data.List.GetD
import Mathlib.Tactic

/-! # Network devices and BOOTP headers

The records of `netdev.h` and `bootp_packet.h`. Memory the parsers walk is a function from offsets
to bytes. An IPv4 address and a transaction id are kept as the four bytes they have in memory and on
the wire (`Quad`), so that a `memcpy` of four bytes from a packet is `load32` whatever the byte
order of the machine. A `char` array is a vector of its declared size. -/

namespace Klibc.Ipconfig.Device

abbrev Bytes := ℕ → UInt8

/-- A `uint32_t` in network order: its four bytes. -/
structure Quad where
  b0 : UInt8
  b1 : UInt8
  b2 : UInt8
  b3 : UInt8
  deriving DecidableEq

def load32 (m : Bytes) (i : ℕ) : Quad := ⟨m i, m (i + 1), m (i + 2), m (i + 3)⟩

def load16 (m : Bytes) (i : ℕ) : ℕ := (m i).toNat * 2 ^ 8 + (m (i + 1)).toNat

def loadArr (n : ℕ) (m : Bytes) (i : ℕ) : Vector UInt8 n := Vector.ofFn fun k => m (i + k)

def INADDR_ANY : Quad := ⟨0, 0, 0, 0⟩
def INADDR_NONE : Quad := ⟨255, 255, 255, 255⟩

/-- Size of the name arrays, `<sys/utsname.h>`. -/
def SYS_NMLN : ℕ := 65
def BPLEN : ℕ := 256
def FNLEN : ℕ := 128

/-! ### The BOOTP header -/

def BOOTP_REPLY : UInt8 := 2

/-- `struct bootp_hdr`. -/
structure BootpHdr where
  op : UInt8
  htype : UInt8
  hlen : UInt8
  hops : UInt8
  xid : Quad
  secs : ℕ
  flags : ℕ
  ciaddr : Quad
  yiaddr : Quad
  siaddr : Quad
  giaddr : Quad
  chaddr : Vector UInt8 16
  serverName : Vector UInt8 64
  bootFile : Vector UInt8 128
  deriving DecidableEq

/-- `sizeof(struct bootp_hdr)`. -/
def sizeofBootpHdr : ℕ := 236

def BootpHdr.load (m : Bytes) (i : ℕ) : BootpHdr where
  op := m i
  htype := m (i + 1)
  hlen := m (i + 2)
  hops := m (i + 3)
  xid := load32 m (i + 4)
  secs := load16 m (i + 8)
  flags := load16 m (i + 10)
  ciaddr := load32 m (i + 12)
  yiaddr := load32 m (i + 16)
  siaddr := load32 m (i + 20)
  giaddr := load32 m (i + 24)
  chaddr := loadArr 16 m (i + 28)
  serverName := loadArr 64 m (i + 44)
  bootFile := loadArr 128 m (i + 108)

/-! ### The device -/

/-- `struct netdev`, less the fields only the set-up and the transmit path use. The pointer `next`
of the list of configured interfaces is the number of the next device. -/
structure Netdev where
  hwaddr : Vector UInt8 16
  mtu : ℕ
  caps : UInt32
  xid : Quad
  gateway : Quad
  ipAddr : Quad
  ipBroadcast : Quad
  ipServer : Quad
  ipNetmask : Quad
  ipGateway : Quad
  ipNameserver0 : Quad
  ipNameserver1 : Quad
  serverid : Quad
  hostname : Vector UInt8 SYS_NMLN
  dnsdomainname : Vector UInt8 SYS_NMLN
  nisdomainname : Vector UInt8 SYS_NMLN
  bootpath : Vector UInt8 BPLEN
  filename : Vector UInt8 FNLEN
  next : Option ℕ
  deriving DecidableEq

/-- A device as `add_device` leaves it before parsing: all zero. -/
def Netdev.zero : Netdev where
  hwaddr := Vector.replicate 16 0
  mtu := 0
  caps := 0
  xid := INADDR_ANY
  gateway := INADDR_ANY
  ipAddr := INADDR_ANY
  ipBroadcast := INADDR_ANY
  ipServer := INADDR_ANY
  ipNetmask := INADDR_ANY
  ipGateway := INADDR_ANY
  ipNameserver0 := INADDR_ANY
  ipNameserver1 := INADDR_ANY
  serverid := INADDR_ANY
  hostname := Vector.replicate _ 0
  dnsdomainname := Vector.replicate _ 0
  nisdomainname := Vector.replicate _ 0
  bootpath := Vector.replicate _ 0
  filename := Vector.replicate _ 0
  next := none

/-- `dst[0] = '\0'`. -/
def clearStr {n : ℕ} (dst : Vector UInt8 n) : Vector UInt8 n :=
  Vector.ofFn fun k => if k.val = 0 then 0 else dst.get k

/-- `memcpy(dst, m + i, len); dst[len] = '\0'`. -/
def copyStr {n : ℕ} (m : Bytes) (i len : ℕ) (dst : Vector UInt8 n) : Vector UInt8 n :=
  Vector.ofFn fun k => if k.val < len then m (i + k) else if k.val = len then 0 else dst.get k

end Klibc.Ipconfig.Device
