import Klibc.Ipconfig.Settings

/-! # What a reply leaves of earlier ones

Two devices that differ only in what earlier offers stored are given the same reply. `bootp_parse`
resets every field it may set, except the DNS domain name: the devices agree afterwards if and only
if the reply has an option 15, or they had the same domain name before (`received_eq_iff`). The
texts are compared as C strings. -/

namespace Klibc.Ipconfig.Independence

open Device BootpProto Framing Settings

@[ext]
structure Received where
  ipAddr : Quad
  ipServer : Quad
  ipNetmask : Quad
  ipBroadcast : Quad
  ipGateway : Quad
  ipNameserver0 : Quad
  ipNameserver1 : Quad
  hostname : List UInt8
  dnsdomainname : List UInt8
  nisdomainname : List UInt8
  bootpath : List UInt8
  filename : Vector UInt8 FNLEN
  deriving DecidableEq

def received (dev : Netdev) : Received where
  ipAddr := dev.ipAddr
  ipServer := dev.ipServer
  ipNetmask := dev.ipNetmask
  ipBroadcast := dev.ipBroadcast
  ipGateway := dev.ipGateway
  ipNameserver0 := dev.ipNameserver0
  ipNameserver1 := dev.ipNameserver1
  hostname := text dev.hostname
  dnsdomainname := text dev.dnsdomainname
  nisdomainname := text dev.nisdomainname
  bootpath := text dev.bootpath
  filename := dev.filename

/-! ### The domain names -/

def dnsdomainnameOf : Opt → Option (List UInt8) :=
  valueOf .domainName (fun _ => true) (stored SYS_NMLN)

def nisdomainnameOf : Opt → Option (List UInt8) :=
  valueOf .nisDomainName (fun _ => true) (stored SYS_NMLN)

variable (dev : Netdev)

lemma domainnames_applyOption (o : Opt) : text (applyOption dev o.1 o.2).dnsdomainname =
        (dnsdomainnameOf o).getD (text dev.dnsdomainname) ∧
      text (applyOption dev o.1 o.2).nisdomainname =
        (nisdomainnameOf o).getD (text dev.nisdomainname) := by
  simp only [applyOption, dnsdomainnameOf, nisdomainnameOf, valueOf]
  cases optCode o.1 with
  | domainName => exact ⟨text_storeStr (by decide) dev.dnsdomainname o.2, rfl⟩
  | nisDomainName => exact ⟨rfl, text_storeStr (by decide) dev.nisdomainname o.2⟩
  | hostName | rootPath | other => exact ⟨rfl, rfl⟩
  | subnetMask | defaultGateway | dnsServer | interfaceMtu | broadcastAddr | serverIdentifier =>
    simp only [reduceCtorEq, false_and, if_false, Option.getD_none]
    split_ifs <;> exact ⟨rfl, rfl⟩

lemma domainnames_foldl (opts : List Opt) :
    text (opts.foldl (fun dev o => applyOption dev o.1 o.2) dev).dnsdomainname =
        lastOr dnsdomainnameOf (text dev.dnsdomainname) opts ∧
      text (opts.foldl (fun dev o => applyOption dev o.1 o.2) dev).nisdomainname =
        lastOr nisdomainnameOf (text dev.nisdomainname) opts := by
  induction opts generalizing dev with
  | nil => exact ⟨rfl, rfl⟩
  | cons o opts ih =>
    obtain ⟨hdns, hnis⟩ := domainnames_applyOption dev o
    rw [List.foldl_cons, lastOr_cons, lastOr_cons, ← hdns, ← hnis]
    exact ih (applyOption dev o.1 o.2)

variable {opts : List Opt} {exts : Bytes} {extlen : ℕ}

lemma domainnames_bootpParse (hdr : BootpHdr) (h : Decodes exts extlen opts) :
    text (bootpParse dev hdr exts extlen).dev.dnsdomainname =
        lastOr dnsdomainnameOf (text dev.dnsdomainname) opts ∧
      text (bootpParse dev hdr exts extlen).dev.nisdomainname = lastOr nisdomainnameOf [] opts := by
  have hnis : text (bootpReset dev hdr).nisdomainname = [] :=
    text_clearStr (by decide) dev.nisdomainname
  have hfold := domainnames_foldl (bootpReset dev hdr) opts
  rw [hnis] at hfold
  unfold bootpParse
  cases h with
  | options hc hos =>
    rw [if_pos hc, (bootpLoop_spec hos extlen _ (by omega)).1]
    rw [List.foldl_map] at hfold
    exact hfold
  | none hc =>
    rw [if_neg hc]
    exact hfold

/-! ### Two devices -/

/-- What a reply leaves, to a device with the DNS domain name `dns`. -/
def left (dns : List UInt8) (hdr : BootpHdr) (opts : List Opt) : Received where
  ipAddr := hdr.yiaddr
  ipServer := serverOr hdr.siaddr opts
  ipNetmask := lastOr netmaskOf INADDR_ANY opts
  ipBroadcast := lastOr broadcastAddrOf INADDR_ANY opts
  ipGateway := lastOr gatewayOf hdr.giaddr opts
  ipNameserver0 := lastOr nameserver0Of INADDR_ANY opts
  ipNameserver1 := lastOr nameserver1Of INADDR_ANY opts
  hostname := lastOr hostnameOf [] opts
  dnsdomainname := lastOr dnsdomainnameOf dns opts
  nisdomainname := lastOr nisdomainnameOf [] opts
  bootpath := lastOr bootpathOf [] opts
  filename := hdr.bootFile

/-- **What a reply leaves depends on the device in the DNS domain name only.** -/
theorem received_bootpParse (hdr : BootpHdr) (h : Decodes exts extlen opts) :
    received (bootpParse dev hdr exts extlen).dev = left (text dev.dnsdomainname) hdr opts := by
  obtain ⟨hdns, hnis⟩ := domainnames_bootpParse dev hdr h
  have hconfig := config_bootpParse dev hdr h
  ext1
  case dnsdomainname => exact hdns
  case nisdomainname => exact hnis
  case ipAddr => exact congrArg Config.ipAddr hconfig
  case ipServer => exact congrArg Config.ipServer hconfig
  case ipNetmask => exact congrArg Config.ipNetmask hconfig
  case ipBroadcast => exact congrArg Config.ipBroadcast hconfig
  case ipGateway => exact congrArg Config.ipGateway hconfig
  case ipNameserver0 => exact congrArg Config.ipNameserver0 hconfig
  case ipNameserver1 => exact congrArg Config.ipNameserver1 hconfig
  case hostname => exact congrArg Config.hostname hconfig
  case bootpath => exact congrArg Config.bootpath hconfig
  case filename => exact congrArg Config.filename hconfig

lemma lastOr_eq_iff {α : Type} (f : Opt → Option α) (a b : α) (opts : List Opt) :
    lastOr f a opts = lastOr f b opts ↔ (∃ o ∈ opts, f o ≠ none) ∨ a = b := by
  have hnil : opts.filterMap f = [] ↔ ¬ ∃ o ∈ opts, f o ≠ none := by
    rw [List.filterMap_eq_nil_iff]
    push Not
    rfl
  unfold lastOr
  by_cases h : ∃ o ∈ opts, f o ≠ none
  · obtain ⟨c, cs, hc⟩ := List.exists_cons_of_ne_nil (mt hnil.1 (not_not.2 h))
    rw [hc, List.getLastD_cons, List.getLastD_cons]
    exact iff_of_true rfl (Or.inl h)
  · rw [hnil.2 h]
    exact (or_iff_right h).symm

lemma dnsdomainnameOf_ne_none (o : Opt) : dnsdomainnameOf o ≠ none ↔ optCode o.1 = .domainName := by
  unfold dnsdomainnameOf valueOf
  by_cases h : optCode o.1 = .domainName <;> simp [h]

def NamesDomain (exts : Bytes) (extlen : ℕ) : Prop :=
  ∃ opts, Decodes exts extlen opts ∧ ∃ o ∈ opts, optCode o.1 = .domainName

/-- **A reply's configuration and earlier replies.**  Two devices agree after the same reply if and
only if the reply names a domain, or they had the same DNS domain name before. -/
theorem received_eq_iff (dev dev' : Netdev) (hdr : BootpHdr) (exts : Bytes) (extlen : ℕ) :
    received (bootpParse dev hdr exts extlen).dev =
        received (bootpParse dev' hdr exts extlen).dev ↔
      NamesDomain exts extlen ∨ text dev.dnsdomainname = text dev'.dnsdomainname := by
  -- both directions, for any options that the reply decodes to
  have hiff : ∀ {opts : List Opt}, Decodes exts extlen opts →
      (received (bootpParse dev hdr exts extlen).dev =
        received (bootpParse dev' hdr exts extlen).dev ↔
      (∃ o ∈ opts, optCode o.1 = .domainName) ∨
        text dev.dnsdomainname = text dev'.dnsdomainname) := by
    intro opts h
    rw [received_bootpParse dev hdr h, received_bootpParse dev' hdr h]
    have hlast := lastOr_eq_iff dnsdomainnameOf (text dev.dnsdomainname)
      (text dev'.dnsdomainname) opts
    simp only [dnsdomainnameOf_ne_none] at hlast
    rw [← hlast]
    constructor
    · exact fun he => congrArg Received.dnsdomainname he
    · exact fun he => by simp only [left, he]
  obtain ⟨opts, hopts⟩ := exists_decodes exts extlen
  constructor
  · intro he
    exact ((hiff hopts).1 he).imp_left fun ho => ⟨opts, hopts, ho⟩
  · rintro (⟨opts', hopts', ho⟩ | he)
    · exact (hiff hopts').2 (Or.inl ho)
    · exact (hiff hopts).2 (Or.inr he)

/-- An offer with the domain name `a`. -/
def domainOffer : Bytes := fun i => ([99, 130, 83, 99, 15, 1, 97, 255] : List UInt8).getD i 0

/-- **The domain name of an earlier offer stays.**  A new device and one that has got an offer with
a domain name agree in hardware address, transaction id and place in the list; after the same reply
without options they do not agree. -/
theorem domainname_stays : let hdr := BootpHdr.load (fun _ => 0) 0
    let dev := (bootpParse Netdev.zero hdr domainOffer 8).dev
    dev.hwaddr = Netdev.zero.hwaddr ∧ dev.xid = Netdev.zero.xid ∧ dev.next = Netdev.zero.next ∧
      (received (bootpParse Netdev.zero hdr (fun _ => 0) 0).dev).dnsdomainname = [] ∧
      (received (bootpParse dev hdr (fun _ => 0) 0).dev).dnsdomainname = [97] := by
  decide +kernel

end Klibc.Ipconfig.Independence
