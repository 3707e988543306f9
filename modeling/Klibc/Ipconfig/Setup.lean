import Mathlib.Data.List.TakeWhile
import Klibc.Inet.InetPton
import Klibc.Ipconfig.DhcpSend
import Klibc.Ipconfig.Runs
import Klibc.Lib.Abort
import Klibc.Stdio.Strntoumax

/-! # Setting up the devices

What `ipconfig_main` does with its options `-c` and `-d` and with its operands: `add_device` parses
a description and asks the kernel about the device, `bringup_device` puts it on `slist`, or
configures it at once if it has no capabilities. A description without a name stands for every
device under `/sys/class/net`; as the names found there are parsed like descriptions, the two
functions call each other, and `depth` bounds how deep.

The memory of an entry comes from `malloc`: a field that was not written is `none`. A device gets
its number when it is published, on `slist` or on `ifaces`. -/

namespace Klibc.Ipconfig.Setup

open Device DhcpSend Main Inet.InetPton Lib.Abort Lib.Machine
open Stdio.Vsnprintf (Arch chr)
open Stdio.Strntoumax (strtoul)

def CAP_BOOTP : UInt32 := 1
def CAP_DHCP : UInt32 := 2
def CAP_RARP : UInt32 := 4

def IFF_BROADCAST : ℕ := 0x2
def IFF_LOOPBACK : ℕ := 0x8
def IFF_POINTOPOINT : ℕ := 0x10

def ARPHRD_ETHER : ℕ := 1
def ARPHRD_EUI64 : ℕ := 27
def ARPHRD_LOOPBACK : ℕ := 772

def PATH_MAX : ℕ := 4096

/-! ### Data -/

/-- `struct netdev` with the name. -/
structure Candidate extends Interface where
  name : Option (List UInt8)

def cString (a : Vector UInt8 SYS_NMLN) : List UInt8 :=
  (a.toList.takeWhile (· ≠ 0)).take (SYS_NMLN - 1)

lemma zero_notMem_cString (a : Vector UInt8 SYS_NMLN) : 0 ∉ cString a := by
  intro h
  have := List.mem_takeWhile_imp (List.mem_of_mem_take h)
  simp at this

lemma length_cString (a : Vector UInt8 SYS_NMLN) : (cString a).length ≤ SYS_NMLN - 1 :=
  List.length_take_le _ _

def Hostname.ofArray (a : Vector UInt8 SYS_NMLN) : Hostname :=
  ⟨cString a, zero_notMem_cString a, length_cString a⟩

/-- The device after `memset`. -/
def Candidate.zero : Candidate where
  toNetdev := Netdev.zero
  hwtype := 0
  hwlen := 0
  openTime := 0
  reqhostname := Hostname.ofArray (Vector.replicate _ 0)
  name := none

/-- `struct state`, as far as it was written. -/
structure Entry where
  state : Option DevState
  restartState : Option DevState
  expire : ℤ
  retryPeriod : ℤ
  dev : ℕ
  deriving DecidableEq

/-- An entry of `/sys/class/net`, and what can be read from its file `flags`. -/
structure Dirent where
  dName : List UInt8
  flags : Option (List UInt8)

/-- The answers to the `ioctl`s of `netdev_init_if`; none is an error. -/
structure Ioctls where
  socket : Bool
  ifindex : Bool
  mtu : Option ℤ
  hwaddr : Option (ℕ × Vector UInt8 16)
  addr : Option Quad
  brdaddr : Option Quad
  netmask : Option Quad

structure Answers where
  now : ℤ
  malloc : Bool
  ioctls : Ioctls
  flags : Option (BitVec 16)
  lrand48 : Quad
  up : Bool
  dir : Option (List Dirent)

/-- The globals of `main.c`, the devices published, and the number of questions asked so far. -/
structure Globals where
  defaultCaps : UInt32
  bringupFirst : Bool
  configured : ℕ
  devs : List Candidate
  ifaces : Option ℕ
  slist : List Entry
  asked : ℕ

def Globals.start : Globals where
  defaultCaps := CAP_DHCP ||| CAP_BOOTP ||| CAP_RARP
  bringupFirst := false
  configured := 0
  devs := []
  ifaces := none
  slist := []
  asked := 0

/-! ### Parsing a description -/

/-- `parse_addr`. -/
def parseAddr (arch : Arch) (ip : List UInt8) : Option Quad := do
  let (ret, addr) ← inetAton arch (ip ++ [0]) [0, 0, 0, 0]
  if ret = 0 then none
  else
    match addr with
    | [a, b, c, d] => some ⟨a, b, c, d⟩
    | _ => none

/-- `parse_proto`. -/
def parseProto (ip : List UInt8) : Option UInt32 :=
  if ip = [] ∨ ip = [chr 'o', chr 'n'] ∨ ip = [chr 'a', chr 'n', chr 'y'] then
    some (CAP_BOOTP ||| CAP_DHCP ||| CAP_RARP)
  else if ip = [chr 'b', chr 'o', chr 't', chr 'h'] then some (CAP_BOOTP ||| CAP_RARP)
  else if ip = [chr 'd', chr 'h', chr 'c', chr 'p'] then some (CAP_BOOTP ||| CAP_DHCP)
  else if ip = [chr 'b', chr 'o', chr 'o', chr 't', chr 'p'] then some CAP_BOOTP
  else if ip = [chr 'r', chr 'a', chr 'r', chr 'p'] then some CAP_RARP
  else if ip = [chr 'n', chr 'o', chr 'n', chr 'e'] ∨ ip = [chr 's', chr 't', chr 'a', chr 't',
      chr 'i', chr 'c'] ∨ ip = [chr 'o', chr 'f', chr 'f'] then some 0
  else none

/-- `strncpy(dev->hostname, ip, SYS_NMLN - 1)` and the NUL behind it. -/
def hostnameOf (ip : List UInt8) : Vector UInt8 SYS_NMLN :=
  Vector.ofFn fun k => if k.val < SYS_NMLN - 1 then ip.getD k 0 else 0

/-- The `switch (opt)` of `parse_device`. -/
def parseOption (arch : Arch) (opt : ℕ) (ip : List UInt8) (dev : Candidate) : Option Candidate :=
  match opt with
  | 0 => (parseAddr arch ip).map fun a => { dev with ipAddr := a, caps := 0 }
  | 1 => (parseAddr arch ip).map fun a => { dev with ipServer := a }
  | 2 => (parseAddr arch ip).map fun a => { dev with ipGateway := a }
  | 3 => (parseAddr arch ip).map fun a => { dev with ipNetmask := a }
  | 4 => some { dev with
      hostname := hostnameOf ip, reqhostname := Hostname.ofArray (hostnameOf ip) }
  | 5 => some { dev with name := some ip }
  | 6 => (parseProto ip).map fun caps => { dev with caps := caps }
  | _ => some dev

/-- The `for` of `parse_device`, over what lies between the colons; it ends where no character is
left. -/
def parseOptions (arch : Arch) : ℕ → List (List UInt8) → Candidate → Option Candidate
  | _, [], dev => some dev
  | opt, ip :: rest, dev =>
    if ip = [] ∧ rest = [] then some dev
    else if 6 < opt then none
    else if ip = [] then parseOptions arch (opt + 1) rest dev
    else do
      let dev ← parseOption arch opt ip dev
      parseOptions arch (opt + 1) rest dev

/-- `"ip="` and `"nfsaddrs="`: whether one of them is there, and what is behind it. -/
def skipIp (ip : List UInt8) : Bool × List UInt8 :=
  if [chr 'i', chr 'p', chr '='] <+: ip then (true, ip.drop 3)
  else if [chr 'n', chr 'f', chr 's', chr 'a', chr 'd', chr 'd', chr 'r', chr 's', chr '='] <+: ip
  then (true, ip.drop 9)
  else (false, ip)

def setBringupFirst : Call Globals Unit := access fun s => ((), { s with bringupFirst := true })

/-- The description, without the search for devices at the end of `parse_device`. -/
def parseInfo (arch : Arch) (dev : Candidate) (info : List UInt8) : Call Globals Candidate :=
  let (isIp, ip) := skipIp info
  if chr ':' ∉ ip then
    if isIp then do
      let caps ← ofOption (parseProto ip)
      setBringupFirst
      pure { dev with caps := caps }
    else pure { dev with name := some ip }
  else ofOption (parseOptions arch 0 (ip.splitOn (chr ':')) dev)

/-- Whether the description names no single device. -/
def Candidate.forAll (dev : Candidate) : Bool :=
  dev.name = none ∨ dev.name = some [] ∨ dev.name = some [chr 'a', chr 'l', chr 'l']

/-- `parse_device`: the device, and what is returned. -/
def parseDevice (arch : Arch) (addAllDevices : Candidate → Call Globals Unit) (dev : Candidate)
    (info : List UInt8) : Call Globals (Candidate × Bool) := do
  let dev ← parseInfo arch dev info
  if dev.forAll then do
    addAllDevices dev
    setBringupFirst
    pure (dev, false)
  else pure (dev, true)

/-! ### Asking the kernel -/

/-- `dev->hwlen`, of the hardware that is known. -/
def hwlenOf (hwtype : ℕ) : Option ℕ :=
  if hwtype = ARPHRD_ETHER then some 6
  else if hwtype = ARPHRD_EUI64 then some 8
  else if hwtype = ARPHRD_LOOPBACK then some 0
  else none

/-- The end of `netdev_init_if`: the current addresses, where `INADDR_NONE` asks for them. -/
def currentAddresses (io : Ioctls) (dev : Candidate) : Candidate :=
  if dev.ipAddr = INADDR_NONE ∧ io.addr = none then
    { dev with ipAddr := INADDR_ANY, ipBroadcast := INADDR_ANY, ipNetmask := INADDR_ANY }
  else { dev with
    ipAddr := if dev.ipAddr = INADDR_NONE then io.addr.getD INADDR_ANY else dev.ipAddr
    ipBroadcast := if dev.ipBroadcast = INADDR_NONE then io.brdaddr.getD INADDR_ANY
      else dev.ipBroadcast
    ipNetmask := if dev.ipNetmask = INADDR_NONE then io.netmask.getD INADDR_ANY
      else dev.ipNetmask }

/-- `netdev_init_if`; none is -1. -/
def netdevInitIf (io : Ioctls) (dev : Candidate) : Option Candidate :=
  if io.socket ∧ io.ifindex then do
    let mtu ← io.mtu
    let hw ← io.hwaddr
    let hwlen ← hwlenOf hw.1
    some (currentAddresses io { dev with
      mtu := unsigned 32 mtu, hwtype := hw.1, hwlen := hwlen,
      hwaddr := Vector.ofFn fun k => if k.val < hwlen then hw.2.get k else dev.hwaddr.get k })
  else none

/-- `bootp_init_if`; none is -1. -/
def bootpInitIf (a : Answers) (dev : Candidate) : Option Candidate :=
  match a.flags with
  | none => none
  | some flags =>
    if dev.mtu < 364 ∨ flags &&& BitVec.ofNat 16 IFF_BROADCAST = 0 then
      some { dev with caps := dev.caps &&& ~~~(CAP_BOOTP ||| CAP_DHCP) }
    else some { dev with xid := a.lrand48, openTime := a.now }

section
variable (arch : Arch) (host : ℕ → Answers)

def ask {α : Type} (f : Answers → α) : Call Globals α :=
  access fun s => (f (host s.asked), { s with asked := s.asked + 1 })

/-! ### Bringing a device up -/

def startState (dev : Candidate) : Option DevState :=
  if dev.caps &&& CAP_DHCP ≠ 0 ∧ dev.ipAddr = INADDR_ANY then some .dhcpdisc
  else if dev.caps &&& CAP_DHCP ≠ 0 then some .dhcpreq
  else if dev.caps &&& CAP_BOOTP ≠ 0 then some .bootp
  else none

/-- `add_one_dev`; what it returns is not looked at. -/
def addOneDev (dev : Candidate) : Call Globals Unit := do
  let ok ← ask host Answers.malloc
  if ok then do
    let now ← ask host Answers.now
    access fun s => ((), { s with
      devs := s.devs ++ [dev]
      slist := ⟨startState dev, startState dev, now, 1, s.devs.length⟩ :: s.slist })
  else pure ()

/-- `complete_device`, of a device that is not known yet. -/
def completeNew (dev : Candidate) : Call Globals Unit :=
  access fun s => ((), { s with
    devs := s.devs ++ [{ dev with
      toNetdev := { postprocessDevice dev.toNetdev with next := s.ifaces } }]
    configured := s.configured + 1
    ifaces := some s.devs.length })

/-- `bringup_device`. -/
def bringupDevice (dev : Candidate) : Call Globals Unit := do
  let up ← ask host Answers.up
  if up then
    if dev.caps ≠ 0 then addOneDev host dev else completeNew dev
  else pure ()

/-- `if (template->… != INADDR_NONE) dev->… = template->…`. -/
def override (template dev : Quad) : Quad := if template ≠ INADDR_NONE then template else dev

/-- `strcpy`, if the source is not empty. -/
def overrideName (template dev : Vector UInt8 SYS_NMLN) : Vector UInt8 SYS_NMLN :=
  let len := (template.toList.takeWhile (· ≠ 0)).length
  if len ≠ 0 then Vector.ofFn fun k => if k.val ≤ len then template.get k else dev.get k else dev

def applyTemplate (template dev : Candidate) : Candidate :=
  { dev with
    ipAddr := override template.ipAddr dev.ipAddr
    ipServer := override template.ipServer dev.ipServer
    ipGateway := override template.ipGateway dev.ipGateway
    ipNetmask := override template.ipNetmask dev.ipNetmask
    ipNameserver0 := override template.ipNameserver0 dev.ipNameserver0
    ipNameserver1 := override template.ipNameserver1 dev.ipNameserver1
    hostname := overrideName template.hostname dev.hostname
    reqhostname := if template.reqhostname.bytes ≠ [] then template.reqhostname
      else dev.reqhostname
    caps := dev.caps &&& template.caps }

/-- `bringup_one_dev`. -/
def bringupOneDev (template dev : Candidate) : Call Globals Unit :=
  bringupDevice host (applyTemplate template dev)

/-! ### `add_device` and `add_all_devices` -/

/-- Whether `add_all_devices` tries to bring up an entry of the directory. -/
def bootInterface (de : Dirent) : Bool :=
  de.dName.head? ≠ some (chr '.') && 21 + de.dName.length < PATH_MAX - 1 &&
    match de.flags.bind fun p => strtoul arch.bits (p ++ [0]) 0 with
    | none => false
    | some (flags, _) => flags &&& BitVec.ofNat _ IFF_LOOPBACK = 0 &&
        flags &&& BitVec.ofNat _ (IFF_BROADCAST ||| IFF_POINTOPOINT) ≠ 0

/-- `add_all_devices`; what it returns is not looked at. -/
def addAllDevices (addDevice : List UInt8 → Call Globals (Option Candidate))
    (template : Candidate) : Call Globals Unit := do
  let d ← ask host Answers.dir
  (d.getD []).forM fun de =>
    if bootInterface arch de then do
      let dev ← addDevice de.dName
      match dev with
      | none => pure ()
      | some dev => bringupOneDev host template dev
    else pure ()

/-- `add_device`; none is `NULL`. -/
def addDevice : ℕ → List UInt8 → Call Globals (Option Candidate)
  | 0, _ => failure
  | depth + 1, info => do
    let ok ← ask host Answers.malloc
    if ok then do
      let caps ← access fun s => (s.defaultCaps, s)
      let (dev, one) ← parseDevice arch (addAllDevices arch host (addDevice depth))
        { Candidate.zero with caps := caps } info
      if one then do
        let a ← ask host id
        pure ((netdevInitIf a.ioctls dev).bind (bootpInitIf a))
      else pure none
    else failure

/-! ### `ipconfig_main` -/

/-- The arguments that matter here: option `-c`; option `-d` or an operand. -/
inductive Arg
  | caps (optarg : List UInt8)
  | device (info : List UInt8)

/-- What `ipconfig_main` does with an argument. -/
def handleArg (depth : ℕ) : Arg → Call Globals Unit
  | .caps optarg => do
    let caps ← ofOption (parseProto optarg)
    access fun s => ((), { s with defaultCaps := caps })
  | .device info => do
    let dev ← addDevice arch host depth info
    match dev with
    | none => pure ()
    | some dev => bringupDevice host dev

/-- The set-up of `ipconfig_main`. -/
def setUp (depth : ℕ) (args : List Arg) : Globals :=
  (exec (args.forM (handleArg arch host depth)) Globals.start).2

end

end Klibc.Ipconfig.Setup
