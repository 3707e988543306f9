import Klibc.Ipconfig.Framing
import Klibc.Ipconfig.DhcpProto

/-! # The configuration a message describes

The options of a message are applied one after the other. Field by field this says: the last option
that sets the field decides, and if there is none the header does, or the value stays (`described`).
`config_bootpParse` and `config_dhcpParse` connect this to the parsers. The texts are taken as C
strings: what an array holds after the NUL is not part of the configuration. -/

namespace Klibc.Ipconfig.Settings

open Device BootpProto DhcpProto Framing

/-! ### Texts -/

def text {n : ℕ} (v : Vector UInt8 n) : List UInt8 := v.toList.takeWhile (· != 0)

lemma takeWhile_nul (r : List UInt8) : ∀ l : List UInt8,
    (l ++ 0 :: r).takeWhile (· != 0) = l.takeWhile (· != 0)
  | [] => rfl
  | a :: l => by simp only [List.cons_append, List.takeWhile_cons, takeWhile_nul r l]

/-- As much of a text as an array of `n` bytes holds, up to its NUL. -/
def stored (n : ℕ) (d : List UInt8) : List UInt8 := (d.take (n - 1)).takeWhile (· != 0)

lemma text_clearStr {n : ℕ} (hn : 0 < n) (v : Vector UInt8 n) : text (clearStr v) = [] := by
  have h : (clearStr v).toList = [] ++ 0 :: v.toList.drop 1 := by
    refine List.ext_getElem (by simp; omega) fun i h1 h2 => ?_
    rcases i with _ | i
    · simp [clearStr]
    · simp [clearStr, Vector.get]
  rw [text, h, takeWhile_nul]
  rfl

lemma text_storeStr {n : ℕ} (hn : 0 < n) (v : Vector UInt8 n) (d : List UInt8) :
    text (storeStr v d) = stored n d := by
  have h : (storeStr v d).toList =
      d.take (n - 1) ++ 0 :: v.toList.drop (min d.length (n - 1) + 1) := by
    refine List.ext_getElem (by simp; omega) fun i h1 h2 => ?_
    simp only [storeStr, Vector.toList_ofFn, List.getElem_ofFn]
    rcases Nat.lt_trichotomy i (min d.length (n - 1)) with hi | hi | hi
    · rw [if_pos hi, List.getElem_append_left (by simp; omega),
        List.getD_eq_getElem _ _ (by omega), List.getElem_take]
    · rw [if_neg (by omega), if_pos hi, List.getElem_append_right (by simp; omega)]
      simp [hi, Nat.min_comm]
    · rw [if_neg (by omega), if_neg (by omega), List.getElem_append_right (by simp; omega)]
      have hsub : i - (d.take (n - 1)).length = i - (min d.length (n - 1) + 1) + 1 := by
        rw [List.length_take]; omega
      have hadd : min d.length (n - 1) + 1 + (i - (min d.length (n - 1) + 1)) = i := by omega
      simp only [hsub, List.getElem_cons_succ, List.getElem_drop, hadd]
      rfl
  rw [text, h, takeWhile_nul, stored]

/-! ### The configuration -/

@[ext]
structure Config where
  ipAddr : Quad
  ipServer : Quad
  ipNetmask : Quad
  ipGateway : Quad
  ipBroadcast : Quad
  ipNameserver0 : Quad
  ipNameserver1 : Quad
  serverid : Quad
  hostname : List UInt8
  bootpath : List UInt8
  filename : Vector UInt8 FNLEN
  mtu : ℕ
  deriving DecidableEq

def config (dev : Netdev) : Config where
  ipAddr := dev.ipAddr
  ipServer := dev.ipServer
  ipNetmask := dev.ipNetmask
  ipGateway := dev.ipGateway
  ipBroadcast := dev.ipBroadcast
  ipNameserver0 := dev.ipNameserver0
  ipNameserver1 := dev.ipNameserver1
  serverid := dev.serverid
  hostname := text dev.hostname
  bootpath := text dev.bootpath
  filename := dev.filename
  mtu := dev.mtu

/-! ### What one option says -/

abbrev Opt := UInt8 × List UInt8

/-- The value an option with code `c` gives, if its length is right. -/
def valueOf {α : Type} (c : OptCode) (len : ℕ → Bool) (read : List UInt8 → α) (o : Opt) :
    Option α :=
  if optCode o.1 = c ∧ len o.2.length then some (read o.2) else none

def netmaskOf : Opt → Option Quad := valueOf .subnetMask (· = 4) dataAddr
def gatewayOf : Opt → Option Quad := valueOf .defaultGateway (4 ≤ ·) dataAddr
def broadcastAddrOf : Opt → Option Quad := valueOf .broadcastAddr (· = 4) dataAddr
def nameserver0Of : Opt → Option Quad := valueOf .dnsServer (4 ≤ ·) dataAddr
def nameserver1Of : Opt → Option Quad := valueOf .dnsServer (8 ≤ ·) fun d => dataAddr (d.drop 4)
def serverOf : Opt → Option Quad := valueOf .serverIdentifier (· = 4) dataAddr

def hostnameOf : Opt → Option (List UInt8) := valueOf .hostName (fun _ => true) (stored SYS_NMLN)
def bootpathOf : Opt → Option (List UInt8) := valueOf .rootPath (fun _ => true) (stored BPLEN)

def mtuOf : Opt → Option ℕ :=
  valueOf .interfaceMtu (· = 2) fun d => (d.getD 0 0).toNat * 2 ^ 8 + (d.getD 1 0).toNat

/-- **One option**: it sets the fields it gives a value for, the server only if none is known. -/
def Config.update (c : Config) (o : Opt) : Config :=
  { c with
    ipServer := if c.ipServer = INADDR_ANY then (serverOf o).getD INADDR_ANY else c.ipServer
    ipNetmask := (netmaskOf o).getD c.ipNetmask
    ipGateway := (gatewayOf o).getD c.ipGateway
    ipBroadcast := (broadcastAddrOf o).getD c.ipBroadcast
    ipNameserver0 := (nameserver0Of o).getD c.ipNameserver0
    ipNameserver1 := (nameserver1Of o).getD c.ipNameserver1
    hostname := (hostnameOf o).getD c.hostname
    bootpath := (bootpathOf o).getD c.bootpath
    mtu := (mtuOf o).getD c.mtu }

variable (dev : Netdev)

lemma config_applyOption (o : Opt) : config (applyOption dev o.1 o.2) = (config dev).update o := by
  have hserver : (if dev.ipServer = INADDR_ANY then INADDR_ANY else dev.ipServer) =
      dev.ipServer := by
    split_ifs with h
    · exact h.symm
    · rfl
  simp only [Config.update, applyOption, serverOf, netmaskOf, gatewayOf, broadcastAddrOf,
    nameserver0Of, nameserver1Of, hostnameOf, bootpathOf, mtuOf, valueOf]
  cases optCode o.1 with
  | hostName => simpa [config, hserver] using text_storeStr (by decide) dev.hostname o.2
  | rootPath => simpa [config, hserver] using text_storeStr (by decide) dev.bootpath o.2
  | domainName | nisDomainName | other => simp [config, hserver]
  | dnsServer =>
    by_cases h8 : 8 ≤ o.2.length
    · simp [config, hserver, h8, show 4 ≤ o.2.length by omega]
    · by_cases h4 : 4 ≤ o.2.length <;> simp [config, hserver, h8, h4]
  | serverIdentifier =>
    by_cases h4 : o.2.length = 4 <;> by_cases hs : dev.ipServer = INADDR_ANY <;>
      simp [config, h4, hs]
  | interfaceMtu => by_cases h : o.2.length = 2 <;> simp [config, hserver, h]
  | defaultGateway => by_cases h : 4 ≤ o.2.length <;> simp [config, hserver, h]
  | subnetMask | broadcastAddr => by_cases h : o.2.length = 4 <;> simp [config, hserver, h]

/-! ### What the options say together -/

/-- The last value the options give, `d` if there is none. -/
def lastOr {α : Type} (f : Opt → Option α) (d : α) (opts : List Opt) : α :=
  (opts.filterMap f).getLastD d

/-- The server `a` or, if that is none, the first one an option 54 names. -/
def serverOr (a : Quad) (opts : List Opt) : Quad :=
  if a = INADDR_ANY then ((opts.filterMap serverOf).find? (· ≠ INADDR_ANY)).getD INADDR_ANY else a

/-- **The last option decides**, field by field; for the server the first one does. -/
def Config.updates (c : Config) (opts : List Opt) : Config :=
  { c with
    ipServer := serverOr c.ipServer opts
    ipNetmask := lastOr netmaskOf c.ipNetmask opts
    ipGateway := lastOr gatewayOf c.ipGateway opts
    ipBroadcast := lastOr broadcastAddrOf c.ipBroadcast opts
    ipNameserver0 := lastOr nameserver0Of c.ipNameserver0 opts
    ipNameserver1 := lastOr nameserver1Of c.ipNameserver1 opts
    hostname := lastOr hostnameOf c.hostname opts
    bootpath := lastOr bootpathOf c.bootpath opts
    mtu := lastOr mtuOf c.mtu opts }

lemma lastOr_cons {α : Type} (f : Opt → Option α) (d : α) (o : Opt) (opts : List Opt) :
    lastOr f d (o :: opts) = lastOr f ((f o).getD d) opts := by
  unfold lastOr
  cases h : f o with
  | none => rw [List.filterMap_cons_none h, Option.getD_none]
  | some a => rw [List.filterMap_cons_some h, List.getLastD_cons, Option.getD_some]

lemma serverOr_nil (a : Quad) : serverOr a [] = a := by
  unfold serverOr
  split_ifs with h
  · exact h.symm
  · rfl

lemma serverOr_cons (a : Quad) (o : Opt) (opts : List Opt) : serverOr a (o :: opts) =
    serverOr (if a = INADDR_ANY then (serverOf o).getD INADDR_ANY else a) opts := by
  unfold serverOr
  by_cases ha : a = INADDR_ANY
  · rw [if_pos ha, if_pos ha]
    cases hv : serverOf o with
    | none => rw [List.filterMap_cons_none hv, Option.getD_none, if_pos rfl]
    | some b =>
      rw [List.filterMap_cons_some hv, Option.getD_some]
      split_ifs with hb
      · rw [List.find?_cons_of_neg (by simpa using hb)]
      · rw [List.find?_cons_of_pos (by simpa using hb), Option.getD_some]
  · simp only [if_neg ha]

lemma foldl_update : ∀ (opts : List Opt) (c : Config), opts.foldl Config.update c = c.updates opts
  | [], c => by simp only [List.foldl_nil, Config.updates, serverOr_nil]; rfl
  | o :: opts, c => by
    rw [List.foldl_cons, foldl_update opts]
    simp only [Config.updates, lastOr_cons, serverOr_cons]
    rfl

lemma config_foldl : ∀ opts : List Opt,
    config (opts.foldl (fun dev o => applyOption dev o.1 o.2) dev) = (config dev).updates opts := by
  intro opts
  rw [← foldl_update]
  induction opts generalizing dev with
  | nil => rfl
  | cons o opts ih => rw [List.foldl_cons, ih, config_applyOption, List.foldl_cons]

/-! ### What the parsers leave -/

def optAt (exts : Bytes) (o : ℕ) : Opt := (exts o, optData exts o)

/-- The options that `bootp_parse` decodes. -/
inductive Decodes (exts : Bytes) (extlen : ℕ) : List Opt → Prop
  | options {os : List ℕ} : Cookie exts extlen → Walks exts extlen 4 os →
      Decodes exts extlen (os.map (optAt exts))
  | none : ¬ Cookie exts extlen → Decodes exts extlen []

lemma exists_decodes (exts : Bytes) (extlen : ℕ) : ∃ opts, Decodes exts extlen opts := by
  by_cases hc : Cookie exts extlen
  · obtain ⟨os, hos⟩ := exists_walks exts extlen 4
    exact ⟨_, .options hc hos⟩
  · exact ⟨[], .none hc⟩

/-- The configuration `bootp_parse` starts from, for a device configured as `old`. -/
def fromHeader (old : Config) (hdr : BootpHdr) : Config where
  ipAddr := hdr.yiaddr
  ipServer := hdr.siaddr
  ipNetmask := INADDR_ANY
  ipGateway := hdr.giaddr
  ipBroadcast := INADDR_ANY
  ipNameserver0 := INADDR_ANY
  ipNameserver1 := INADDR_ANY
  serverid := old.serverid
  hostname := []
  bootpath := []
  filename := hdr.bootFile
  mtu := old.mtu

lemma config_bootpReset (hdr : BootpHdr) :
    config (bootpReset dev hdr) = fromHeader (config dev) hdr := by
  have hhost := text_clearStr (by decide) dev.hostname
  have hpath := text_clearStr (by decide) dev.bootpath
  simp only [config, bootpReset, fromHeader, hhost, hpath]

/-- **The configuration that a header and options describe**, to a device configured as `old`. -/
def described (old : Config) (hdr : BootpHdr) (opts : List Opt) : Config :=
  (fromHeader old hdr).updates opts

/-- **`bootp_parse` leaves the configuration that the message describes.** -/
theorem config_bootpParse (hdr : BootpHdr) {exts : Bytes} {extlen : ℕ}
    {opts : List Opt} (h : Decodes exts extlen opts) :
    config (bootpParse dev hdr exts extlen).dev = described (config dev) hdr opts := by
  rw [described, ← config_bootpReset, ← config_foldl]
  congr 1
  unfold bootpParse
  cases h with
  | options hc hos =>
    rw [if_pos hc, (bootpLoop_spec hos extlen _ (by omega)).1, List.foldl_map]
    rfl
  | none hc =>
    rw [if_neg hc]
    rfl

/-- The configuration an offer or an acknowledgement describes: an offer also names its server. -/
def dhcpDescribed (old : Config) (hdr : BootpHdr) (opts : List Opt) (scan : Scan) : Config :=
  { described old hdr opts with
    serverid := if scan.type = DHCPOFFER ∧ scan.serverid ≠ INADDR_NONE then scan.serverid
      else old.serverid }

/-- **An offer or an acknowledgement** leaves what it describes. -/
theorem config_dhcpParse {dev : Netdev} {hdr : BootpHdr} {exts : Bytes} {extlen : ℕ}
    {opts : List Opt} (h : Decodes exts extlen opts)
    (ht : (dhcpScan exts extlen).type = DHCPOFFER ∨ (dhcpScan exts extlen).type = DHCPACK) :
    config (dhcpParse dev hdr exts extlen).dev =
      dhcpDescribed (config dev) hdr opts (dhcpScan exts extlen) := by
  have hb := config_bootpParse dev hdr h
  unfold dhcpParse dhcpDescribed
  dsimp only
  rw [← hb]
  rcases ht with ht | ht
  · rw [if_pos ht]
    by_cases hs : (dhcpScan exts extlen).serverid = INADDR_NONE
    · rw [if_neg (by simp [hs]), if_neg (by simp [hs]), hb]
      rfl
    · rw [if_pos hs, if_pos ⟨ht, hs⟩]
      rfl
  · have hne : (dhcpScan exts extlen).type ≠ DHCPOFFER := by rw [ht]; decide
    rw [if_neg hne, if_pos ht, if_neg (by simp [hne]), hb]
    rfl

lemma dhcpParse_other {dev : Netdev} {hdr : BootpHdr} {exts : Bytes} {extlen : ℕ}
    (h2 : (dhcpScan exts extlen).type ≠ DHCPOFFER) (h5 : (dhcpScan exts extlen).type ≠ DHCPACK) :
    (dhcpParse dev hdr exts extlen).dev = dev := by
  unfold dhcpParse
  dsimp only
  rw [if_neg h2, if_neg h5]
  split_ifs <;> rfl

end Klibc.Ipconfig.Settings
