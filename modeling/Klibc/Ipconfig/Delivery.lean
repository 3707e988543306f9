import Klibc.Ipconfig.Runs
import Klibc.Ipconfig.Settings

/-! # Which device a message reaches, and what it changes there

Two results about messages that came through `packet_recv`. `unwanted_message_iff`: a message of a
type the state does not act on is parsed all the same, so that it leaves the configuration alone
only if it describes the one the device has already, and the state only if its type is not misread.
`processes_iff`: all devices read from one
socket, so that a reply reaches its device only if no device before it in `slist` takes it off the
queue. -/

namespace Klibc.Ipconfig.Delivery

open Device BootpProto DhcpProto Framing Packet Main Runs Settings
open Walkers (Scans lastOpt msgType)

/-- The size of the options area of the receive function of a state. -/
def optCap : DevState → ℕ
  | .bootp => 312
  | _ => 1500

/-- A datagram that `packet_recv` hands over, in a call in which nothing fails. -/
structure Comes (ports : Ports) (env : RecvEnv) (st : DevState) (bytes : List UInt8) : Prop where
  valid : Valid ports (optCap st) bytes
  mallocOk : env.mallocOk = true
  recvmsgOk : env.recvmsgErr = false

/-! ### Messages of an unexpected type -/

/-- What `dhcp_parse` finds in a datagram. -/
def scanOf (env : RecvEnv) (st : DevState) (bytes : List UInt8) : Scan :=
  dhcpScan (extsOf (optCap st) env bytes) (extlenOf (optCap st) bytes)

/-- The options `bootp_parse` decodes in a datagram. -/
def OptionsOf (env : RecvEnv) (st : DevState) (bytes : List UInt8) (opts : List Opt) : Prop :=
  Decodes (extsOf (optCap st) env bytes) (extlenOf (optCap st) bytes) opts

/-- The datagram is a DHCP message of type `t`, by the options before its end option. From there on
`dhcp_parse` makes out the options `ts`. -/
structure IsMessage (env : RecvEnv) (st : DevState) (bytes : List UInt8) (t : UInt8) (ts : List ℕ) :
    Prop where
  cookie : Cookie (extsOf (optCap st) env bytes) (extlenOf (optCap st) bytes)
  type : ∃ os e, Framed (extsOf (optCap st) env bytes) 4 os e ∧ e < extlenOf (optCap st) bytes ∧
    msgType (extsOf (optCap st) env bytes) os = some t ∧
    Scans (extsOf (optCap st) env bytes) (extlenOf (optCap st) bytes) e ts

def ActsOn : DevState → UInt8 → Prop
  | .dhcpdisc, t => t = DHCPOFFER
  | .dhcpreq, t => t = DHCPACK ∨ t = DHCPNAK
  | _, _ => False

lemma receiveCase_same {recv : Netdev → List SockItem → Option (ℤ × Netdev × List SockItem)}
    {restart : DevState} {act : ℤ → DevState × Bool} {now ret : ℤ} {s : State} {w : World}
    {dev : Netdev} {q : List SockItem} (hr : recv (w.devs s.dev) w.sock = some (ret, dev, q))
    (hs : Active s.state) (hact : (act ret).1 = s.state) : receiveCase recv restart act now s w =
      some ({ s with restartState := restart }, afterRecv w s.dev dev q, (act ret).2) := by
  unfold receiveCase
  rw [hr]
  simp only [hact]
  obtain ⟨st, r, e, p, d⟩ := s
  rcases hs with rfl | rfl | rfl <;> rfl

lemma dhcpParse_ret (dev : Netdev) (hdr : BootpHdr) (exts : Bytes) (extlen : ℕ) :
    (dhcpParse dev hdr exts extlen).ret = if (dhcpScan exts extlen).type = DHCPOFFER then 2
      else if (dhcpScan exts extlen).type = DHCPACK then 5
      else if (dhcpScan exts extlen).type = DHCPNAK then 6 else 0 := by
  unfold dhcpParse
  dsimp only
  split_ifs <;> rfl

/-- What `dhcp_parse` makes of a datagram. -/
def parseOf (env : RecvEnv) (dev : Netdev) (bytes : List UInt8) : DhcpResult :=
  dhcpParse dev (bootpHdrOf bytes) (extsOf 1500 env bytes) (extlenOf 1500 bytes)

variable {bytes : List UInt8} {ports : Ports} {env : RecvEnv}

lemma dhcpRecv_comes {dev : Netdev} {st : DevState} (rest : List SockItem)
    (hst : st = .dhcpdisc ∨ st = .dhcpreq) (hrep : IsReplyTo dev bytes)
    (hc : Comes ports env st bytes) : dhcpRecv ports env dev (.datagram bytes :: rest) =
      some ((parseOf env dev bytes).ret, (parseOf env dev bytes).dev, rest) := by
  have hv : Valid ports 1500 bytes := by
    have := hc.valid
    rcases hst with rfl | rfl <;> exact this
  unfold dhcpRecv
  rw [recvReply_valid rest hrep hv hc.mallocOk hc.recvmsgOk, parseOf]

lemma IsMessage.type_eq {st : DevState} {t : UInt8} {ts : List ℕ}
    (h : IsMessage env st bytes t ts) :
    (scanOf env st bytes).type = (lastOpt (extsOf (optCap st) env bytes) 53 ts).elim t
      fun u => extsOf (optCap st) env bytes (u + 2) := by
  obtain ⟨os, e, hf, he, htype, hts⟩ := h.type
  rw [scanOf, Walkers.dhcpScan_type h.cookie hf he hts, (Walkers.msgType_eq_some_iff.1 htype).2]
  cases lastOpt (extsOf (optCap st) env bytes) 53 ts <;> rfl

lemma IsMessage.not_actsOn_iff {st : DevState} {t : UInt8} {ts : List ℕ}
    (h : IsMessage env st bytes t ts) (ht : ¬ ActsOn st t) :
    ¬ ActsOn st (scanOf env st bytes).type ↔
      ∀ u, lastOpt (extsOf (optCap st) env bytes) 53 ts = some u →
        ¬ ActsOn st (extsOf (optCap st) env bytes (u + 2)) := by
  rw [h.type_eq]
  cases lastOpt (extsOf (optCap st) env bytes) 53 ts <;> simp [ht]

section
variable {s s' : State} {w w' : World} {rest : List SockItem} {now : ℤ}
  (hq : w.sock = .datagram bytes :: rest) (hst : s.state = .dhcpdisc ∨ s.state = .dhcpreq)
  (hrep : IsReplyTo (w.devs s.dev) bytes) (hc : Comes ports env s.state bytes)
include hq hst hrep hc

/-- A message of a type the state acts on changes the state. -/
theorem receive_wanted {h : Bool} (ht : ActsOn s.state (scanOf env s.state bytes).type)
    (hp : processReceiveEvent ports env now s w = some (s', w', h)) : s'.state ≠ s.state := by
  have hrecv := dhcpRecv_comes rest hst hrep hc
  rw [← hq, parseOf, dhcpParse_ret] at hrecv
  rcases hst with hst | hst
  · simp only [processReceiveEvent, hst] at hp
    obtain ⟨ret, dev, q, st, x, hr, rfl, rfl, -⟩ :=
      receiveCase_cases (c := 0) (fun ret => .inr (discSwitch_cases ret)) hp
    rw [hst] at ht
    change (dhcpScan (extsOf 1500 env bytes) (extlenOf 1500 bytes)).type = DHCPOFFER at ht
    rw [hrecv, if_pos ht, Option.some.injEq, Prod.mk.injEq] at hr
    rw [← hr.1, hst]
    exact (by decide : (discSwitch 2).1 ≠ .dhcpdisc)
  · simp only [processReceiveEvent, hst] at hp
    obtain ⟨ret, dev, q, st, x, hr, rfl, rfl, -⟩ := receiveCase_cases reqSwitch_cases hp
    rw [hst] at ht
    change (dhcpScan (extsOf 1500 env bytes) (extlenOf 1500 bytes)).type = DHCPACK ∨
      (dhcpScan (extsOf 1500 env bytes) (extlenOf 1500 bytes)).type = DHCPNAK at ht
    rw [hrecv, Option.some.injEq, Prod.mk.injEq] at hr
    rw [← hr.1, hst]
    rcases ht with ht | ht
    · rw [ht]
      exact (by decide : (reqSwitch 5).1 ≠ .dhcpreq)
    · rw [ht]
      exact (by decide : (reqSwitch 6).1 ≠ .dhcpreq)

/-- **What the two DHCP states do with a message they do not act on**: they parse it, and stay. -/
theorem receive_unwanted (now : ℤ) (ht : ¬ ActsOn s.state (scanOf env s.state bytes).type) :
    ∃ h, processReceiveEvent ports env now s w = some ({ s with restartState := .dhcpdisc },
      afterRecv w s.dev (parseOf env (w.devs s.dev) bytes).dev rest, h) := by
  have hrecv := dhcpRecv_comes rest hst hrep hc
  rw [← hq] at hrecv
  have hret := dhcpParse_ret (w.devs s.dev) (bootpHdrOf bytes) (extsOf 1500 env bytes)
    (extlenOf 1500 bytes)
  rw [← parseOf] at hret
  rcases hst with hst | hst
  · have hproc : processReceiveEvent ports env now s w =
        receiveCase (dhcpRecv ports env) .dhcpdisc discSwitch now s w := by
      simp only [processReceiveEvent, hst]
    rw [hst] at ht
    change ¬ (dhcpScan (extsOf 1500 env bytes) (extlenOf 1500 bytes)).type = DHCPOFFER at ht
    have hact : (discSwitch (parseOf env (w.devs s.dev) bytes).ret).1 = .dhcpdisc := by
      rw [hret, if_neg ht]
      split_ifs <;> rfl
    rw [hproc]
    exact ⟨_, receiveCase_same hrecv (by simp [hst, Active]) (by rw [hact, hst])⟩
  · have hproc : processReceiveEvent ports env now s w =
        receiveCase (dhcpRecv ports env) .dhcpdisc reqSwitch now s w := by
      simp only [processReceiveEvent, hst]
    rw [hst] at ht
    change ¬ ((dhcpScan (extsOf 1500 env bytes) (extlenOf 1500 bytes)).type = DHCPACK ∨
      (dhcpScan (extsOf 1500 env bytes) (extlenOf 1500 bytes)).type = DHCPNAK) at ht
    rw [not_or] at ht
    have hact : (reqSwitch (parseOf env (w.devs s.dev) bytes).ret).1 = .dhcpreq := by
      rw [hret, if_neg ht.1, if_neg ht.2]
      split_ifs <;> rfl
    rw [hproc]
    exact ⟨_, receiveCase_same hrecv (by simp [hst, Active]) (by rw [hact, hst])⟩

end

/-- **An unwanted message.** A message for the device, of a type its state does not act on, leaves
the state and the configuration unchanged if and only if the state is not `DEVST_BOOTP`, where any
reply completes the device, and in one of the two DHCP states what is taken for an option 53 behind
its end option is no type the state acts on, and what is taken for an offer or an acknowledgement
describes the configuration the device has already. -/
theorem unwanted_message_iff (ports : Ports) (env : RecvEnv) (now : ℤ) (s : State) (w : World)
    (bytes : List UInt8) (rest : List SockItem) (opts : List Opt) (t : UInt8) (ts : List ℕ)
    (hq : w.sock = .datagram bytes :: rest) (hrep : IsReplyTo (w.devs s.dev) bytes)
    (hc : Comes ports env s.state bytes) (hopts : OptionsOf env s.state bytes opts)
    (hmsg : IsMessage env s.state bytes t ts) (ht : ¬ ActsOn s.state t) :
    (∃ s' w' h, processReceiveEvent ports env now s w = some (s', w', h) ∧ s'.state = s.state ∧
      config (w'.devs s.dev) = config (w.devs s.dev)) ↔
    s.state ≠ .bootp ∧ ((s.state = .dhcpdisc ∨ s.state = .dhcpreq) →
      (∀ u, lastOpt (extsOf (optCap s.state) env bytes) 53 ts = some u →
        ¬ ActsOn s.state (extsOf (optCap s.state) env bytes (u + 2))) ∧
      ((scanOf env s.state bytes).type = DHCPOFFER ∨ (scanOf env s.state bytes).type = DHCPACK →
        dhcpDescribed (config (w.devs s.dev)) (bootpHdrOf bytes) opts (scanOf env s.state bytes) =
          config (w.devs s.dev))) := by
  rw [← hmsg.not_actsOn_iff ht]
  by_cases hdhcp : s.state = .dhcpdisc ∨ s.state = .dhcpreq
  · have hne : s.state ≠ .bootp := by rcases hdhcp with h | h <;> rw [h] <;> decide
    by_cases hacts : ActsOn s.state (scanOf env s.state bytes).type
    · refine iff_of_false ?_ fun h => (h.2 hdhcp).1 hacts
      rintro ⟨s', w', h, hp, hs', -⟩
      exact receive_wanted hq hdhcp hrep hc hacts hp hs'
    obtain ⟨h, hp⟩ := receive_unwanted hq hdhcp hrep hc now hacts
    have hdev : (afterRecv w s.dev (parseOf env (w.devs s.dev) bytes).dev rest).devs s.dev =
        (parseOf env (w.devs s.dev) bytes).dev := by
      simp [afterRecv, World.setDev]
    have hleft : (∃ s' w' h, processReceiveEvent ports env now s w = some (s', w', h) ∧
        s'.state = s.state ∧ config (w'.devs s.dev) = config (w.devs s.dev)) ↔
        config (parseOf env (w.devs s.dev) bytes).dev = config (w.devs s.dev) := by
      rw [hp]
      constructor
      · rintro ⟨s', w', h', heq, -, hcfg⟩
        obtain ⟨-, rfl, -⟩ := heq
        rwa [hdev] at hcfg
      · exact fun hcfg => ⟨_, _, _, rfl, rfl, by rw [hdev]; exact hcfg⟩
    have hcap : optCap s.state = 1500 := by rcases hdhcp with h | h <;> rw [h] <;> rfl
    unfold scanOf OptionsOf at *
    rw [hcap] at hopts hacts ⊢
    rw [hleft]
    by_cases hty : (dhcpScan (extsOf 1500 env bytes) (extlenOf 1500 bytes)).type = DHCPOFFER ∨
        (dhcpScan (extsOf 1500 env bytes) (extlenOf 1500 bytes)).type = DHCPACK
    · rw [parseOf, config_dhcpParse hopts hty]
      exact ⟨fun h => ⟨hne, fun _ => ⟨hacts, fun _ => h⟩⟩, fun h => (h.2 hdhcp).2 hty⟩
    · obtain ⟨h2, h5⟩ := not_or.mp hty
      rw [parseOf, dhcpParse_other h2 h5]
      exact iff_of_true rfl ⟨hne, fun _ => ⟨hacts, fun h => absurd h hty⟩⟩
  · by_cases hb : s.state = .bootp
    · have hv : Valid ports 312 bytes := by
        have := hc.valid
        rwa [hb] at this
      have hrecv : bootpRecvReply ports env (w.devs s.dev) w.sock =
          some (1, (bootpParse (w.devs s.dev) (bootpHdrOf bytes) (extsOf 312 env bytes)
            (extlenOf 312 bytes)).dev, rest) := by
        rw [hq, bootpRecvReply, recvReply_valid rest hrep hv hc.mallocOk hc.recvmsgOk]
      refine iff_of_false ?_ fun h => h.1 hb
      rintro ⟨s', w', h, hp, hs', -⟩
      simp only [processReceiveEvent, hb, receiveCase, hrecv] at hp
      obtain ⟨rfl, -⟩ := hp
      rw [hb] at hs'
      cases hs'
    · refine iff_of_true ⟨s, w, false, ?_, rfl, rfl⟩ ⟨hb, fun h => absurd h hdhcp⟩
      unfold processReceiveEvent
      cases hst : s.state with
      | up | complete | error => rfl
      | bootp | dhcpdisc | dhcpreq => simp_all

/-- A DHCP message of type `t`. -/
def dhcpMsg (t : UInt8) : List UInt8 := dhcpReply (typeOptions t)

lemma isMessage_dhcpMsg (t : UInt8) {st : DevState} (hst : optCap st = 1500) :
    IsMessage calmEnv st (dhcpMsg t) t [7] := by
  have hopts := options_dhcpReply (typeOptions t) rfl
  refine ⟨?_, [4], 7, ?_⟩ <;> rw [hst, dhcpMsg, hopts.1, hopts.2]
  · exact ⟨by decide, rfl, rfl, rfl, rfl⟩
  · exact ⟨framed_typeOptions t, by decide, rfl, scans_typeOptions t⟩

/-- One device, with the address 10.0.0.5, and a message on the socket. -/
def msgWorld (t : UInt8) : World :=
  ⟨fun _ => { Netdev.zero with ipAddr := ⟨10, 0, 0, 5⟩ }, none, 0, [.datagram (dhcpMsg t)], []⟩

theorem unwanted_message_nak : ∃ s' w' h,
    processReceiveEvent ⟨68, 67⟩ calmEnv 5 ⟨.dhcpdisc, .dhcpdisc, 0, 1, 0⟩ (msgWorld 6) =
      some (s', w', h) ∧ s'.state = .dhcpdisc ∧
      config (w'.devs 0) = config ((msgWorld 6).devs 0) := by
  obtain ⟨opts, hopts⟩ := exists_decodes (extsOf (optCap .dhcpdisc) calmEnv (dhcpMsg 6))
    (extlenOf (optCap .dhcpdisc) (dhcpMsg 6))
  have hmsg : IsMessage calmEnv .dhcpdisc (dhcpMsg 6) 6 [7] := isMessage_dhcpMsg 6 rfl
  have hnone : lastOpt (extsOf (optCap .dhcpdisc) calmEnv (dhcpMsg 6)) 53 [7] = none := by
    decide +kernel
  refine (unwanted_message_iff ⟨68, 67⟩ calmEnv 5 ⟨.dhcpdisc, .dhcpdisc, 0, 1, 0⟩ (msgWorld 6)
    (dhcpMsg 6) [] opts 6 [7] rfl (by decide +kernel) ⟨by decide +kernel, rfl, rfl⟩ hopts hmsg
    (by decide : ¬ (6 : UInt8) = DHCPOFFER)).mpr ⟨by decide, fun _ => ⟨fun u hu => ?_, fun h => ?_⟩⟩
  · exact absurd (hnone.symm.trans hu) (by simp)
  · rw [hmsg.type_eq, hnone] at h
    exact absurd h (by decide)

/-- **A second offer overwrites the address that was requested**: the device stays in
`DEVST_DHCPREQ`, with the address of another offer than the one its request was for. -/
theorem unwanted_message_offer : IsReplyTo ((msgWorld 2).devs 0) (dhcpMsg 2) ∧
    Comes ⟨68, 67⟩ calmEnv .dhcpreq (dhcpMsg 2) ∧
    IsMessage calmEnv .dhcpreq (dhcpMsg 2) DHCPOFFER [7] ∧ ¬ ActsOn .dhcpreq DHCPOFFER ∧
    (processReceiveEvent ⟨68, 67⟩ calmEnv 5 ⟨.dhcpreq, .dhcpdisc, 0, 1, 0⟩ (msgWorld 2)).map
      (fun r => (r.1.state, (r.2.1.devs 0).ipAddr)) = some (.dhcpreq, ⟨10, 0, 0, 6⟩) ∧
    ((msgWorld 2).devs 0).ipAddr = ⟨10, 0, 0, 5⟩ := by
  refine ⟨by decide +kernel, ⟨by decide +kernel, rfl, rfl⟩, isMessage_dhcpMsg 2 rfl, ?_,
    by decide +kernel, rfl⟩
  exact (by decide : ¬ (DHCPOFFER = DHCPACK ∨ DHCPOFFER = DHCPNAK))

/-! ### The shared socket -/

def HeaderOk (bytes : List UInt8) : Prop :=
  0 < bytes.length ∧ 5 ≤ (bytes.getD 0 0).toNat % 16 ∧ (bytes.getD 0 0).toNat / 16 = IPVERSION

lemma packetRecv_length_le {cap : ℕ} {q q' : List SockItem}
    {r : Recv} (h : packetRecv ports cap env q = some (r, q')) : q'.length ≤ q.length := by
  rcases q with _ | ⟨_ | bytes, q⟩
  · cases h
  · simp only [packetRecv, Option.some.injEq, Prod.mk.injEq] at h
    simp [← h.2]
  · simp only [packetRecv] at h
    split_ifs at h <;> simp only [Option.some.injEq, Prod.mk.injEq] at h <;> simp [← h.2]

lemma packetRecv_datagram (ports : Ports) (cap : ℕ) (env : RecvEnv) (q : List SockItem)
    (hh : HeaderOk bytes) : ∃ r, packetRecv ports cap env (.datagram bytes :: q) =
      some (r, if env.mallocOk ∧ env.recvmsgErr then .datagram bytes :: q else q) ∧
      (env.mallocOk ∧ env.recvmsgErr → r.ret = 0) := by
  have hi0 : received bytes sizeofIphdr env.iphJunk 0 = bytes.getD 0 0 :=
    received_eq (by decide) hh.1
  simp only [packetRecv, hi0]
  rw [if_neg (by have := hh.2; omega)]
  cases env.mallocOk <;> cases env.recvmsgErr <;> simp

lemma finishReceive_sock (now : ℤ) (s : State) (w : World) (h : Bool) :
    (finishReceive now s w h).2.1.sock = w.sock := by
  unfold finishReceive
  cases s.state <;> rfl

section
variable (ports : Ports) (env : RecvEnv) (now : ℤ) {s : State} (w : World)

/-- In the states that receive, the event is a case around one of the receive functions; it stays in
the state if that function returns 0. -/
theorem receive_active (hs : Active s.state) : ∃ parse restart act,
    processReceiveEvent ports env now s w =
      receiveCase (recvReply ports (optCap s.state) parse env) restart act now s w ∧
    (act 0).1 = s.state := by
  rcases hs with hs | hs | hs
  · exact ⟨_, .bootp, bootpSwitch, by simp only [processReceiveEvent, hs]; rfl, hs.symm⟩
  · exact ⟨_, .dhcpdisc, discSwitch, by simp only [processReceiveEvent, hs]; rfl, hs.symm⟩
  · exact ⟨_, .dhcpdisc, reqSwitch, by simp only [processReceiveEvent, hs]; rfl, hs.symm⟩

lemma receive_inactive (hs : ¬ Active s.state) :
    processReceiveEvent ports env now s w = some (s, w, false) := by
  unfold processReceiveEvent
  cases hst : s.state with
  | up | complete | error => rfl
  | bootp | dhcpdisc | dhcpreq => rw [hst] at hs; simp [Active] at hs

/-- **What an event leaves on the socket** is what `packet_recv` leaves there. -/
theorem receive_sock (hs : Active s.state) {r : Recv} {q' : List SockItem}
    (hr : packetRecv ports (optCap s.state) env w.sock = some (r, q')) :
    ∃ s' w' h, processReceiveEvent ports env now s w = some (s', w', h) ∧ w'.sock = q' := by
  obtain ⟨parse, restart, act, hcase, -⟩ := receive_active ports env now w hs
  have hrecv : ∃ ret dev', recvReply ports (optCap s.state) parse env (w.devs s.dev) w.sock =
      some (ret, dev', q') := by
    unfold recvReply
    rw [hr]
    dsimp only
    split_ifs <;> exact ⟨_, _, rfl⟩
  obtain ⟨ret, dev', hrecv⟩ := hrecv
  rw [hcase, receiveCase, hrecv]
  exact ⟨_, _, _, rfl, finishReceive_sock _ _ _ _⟩

lemma receive_length_le {s' : State} {w' : World} {h : Bool}
    (hp : processReceiveEvent ports env now s w = some (s', w', h)) :
    w'.sock.length ≤ w.sock.length := by
  by_cases hs : Active s.state
  · rcases hr : packetRecv ports (optCap s.state) env w.sock with _ | ⟨r, q'⟩
    · obtain ⟨parse, restart, act, hcase, -⟩ := receive_active ports env now w hs
      rw [hcase, receiveCase, recvReply, hr] at hp
      cases hp
    · obtain ⟨s1, w1, h1, hp1, hsock⟩ := receive_sock ports env now w hs hr
      rw [hp1] at hp
      obtain ⟨-, rfl, -⟩ := hp
      rw [hsock]
      exact packetRecv_length_le hr
  · rw [receive_inactive ports env now w hs] at hp
    obtain ⟨-, rfl, -⟩ := hp
    exact le_rfl

end

/-- The device leaves an IP packet on the socket: it does not receive, or its `recvmsg` fails. -/
def Passes (x : State × RecvEnv) : Prop :=
  ¬ Active x.1.state ∨ x.2.mallocOk = true ∧ x.2.recvmsgErr = true

section
variable (ports : Ports) (now : ℤ) {bytes : List UInt8} {rest : List SockItem} (hh : HeaderOk bytes)
include hh

section
variable {x : State × RecvEnv} {w : World} (hq : w.sock = .datagram bytes :: rest)
include hq

lemma receive_passes
    (hx : Passes x) : ∃ s' h, processReceiveEvent ports x.2 now x.1 w = some (s', w, h) := by
  by_cases hs : Active x.1.state
  · have he := hx.resolve_left (not_not_intro hs)
    obtain ⟨parse, restart, act, hcase, hact⟩ := receive_active ports x.2 now w hs
    obtain ⟨r, hr, h0⟩ := packetRecv_datagram ports (optCap x.1.state) x.2 rest hh
    rw [if_pos he] at hr
    have hrecv : recvReply ports (optCap x.1.state) parse x.2 (w.devs x.1.dev) w.sock =
        some (0, w.devs x.1.dev, w.sock) := by
      rw [hq, recvReply, hr]
      simp only [h0 he, le_refl, if_true]
    rw [hcase, receiveCase_same hrecv hs hact, afterRecv, setDev_self]
    exact ⟨_, _, rfl⟩
  · exact ⟨_, _, receive_inactive ports x.2 now w hs⟩

lemma receive_takes
    (hx : ¬ Passes x) : ∃ s' w' h, processReceiveEvent ports x.2 now x.1 w = some (s', w', h) ∧
      w'.sock = rest := by
  obtain ⟨hs, he⟩ := not_or.mp hx
  obtain ⟨r, hr, -⟩ := packetRecv_datagram ports (optCap x.1.state) x.2 rest hh
  rw [if_neg he, ← hq] at hr
  exact receive_sock ports x.2 now w (not_not.mp hs) hr

end

end

lemma doPktRecv_length_le (ports : Ports) (now : ℤ) : ∀ (todo : List (State × RecvEnv)) (w : World),
    (doPktRecv ports now todo w).2.2.1.sock.length ≤ w.sock.length
  | [], _ => le_rfl
  | (s, env) :: todo, w => by
    unfold doPktRecv
    rcases hp : processReceiveEvent ports env now s w with _ | ⟨s', w', h⟩
    · exact le_rfl
    · exact (doPktRecv_length_le ports now todo w').trans (receive_length_le ports env now w hp)

/-- **`do_pkt_recv` leaves a datagram on the socket iff every device passes.** -/
theorem doPktRecv_untouched (ports : Ports) (now : ℤ) {bytes : List UInt8} {rest : List SockItem}
    (hh : HeaderOk bytes) : ∀ {todo : List (State × RecvEnv)} {w : World}, w.sock =
    .datagram bytes :: rest → ((∀ x ∈ todo, Passes x) ∧ (doPktRecv ports now todo w).2.1 = [] ∧
      (doPktRecv ports now todo w).2.2.1 = w) ∨
    (¬ (∀ x ∈ todo, Passes x) ∧ (doPktRecv ports now todo w).2.2.1.sock ≠ w.sock)
  | [], _, _ => Or.inl ⟨by simp, rfl, rfl⟩
  | (s, env) :: todo, w, hq => by
    unfold doPktRecv
    by_cases hx : Passes (s, env)
    · obtain ⟨s', h, hp⟩ := receive_passes ports now hh hq hx
      rw [hp]
      simpa [hx] using doPktRecv_untouched ports now hh hq
    · obtain ⟨s', w', h, hp, hw'⟩ := receive_takes ports now hh hq hx
      simp only at hp
      rw [hp]
      refine Or.inr ⟨fun hall => hx (hall _ (by simp)), fun heq => ?_⟩
      have hle := doPktRecv_length_le ports now todo w'
      rw [heq, hw', hq] at hle
      simp at hle

/-- The device `s` gets a datagram off the socket that is a reply to it: its parser is called. -/
def Gets (ports : Ports) (env : RecvEnv) (s : State) (w : World) (bytes : List UInt8) : Prop :=
  Active s.state ∧ IsReplyTo (w.devs s.dev) bytes ∧ ∃ r q, w.sock = .datagram bytes :: q ∧
    packetRecv ports (optCap s.state) env w.sock = some (r, q) ∧ (sizeofBootpHdr : ℤ) ≤ r.ret

/-- The entry `k` of `slist` gets to process the datagram at the head of the socket: the devices
before it leave the socket as it was. -/
def Processes (ports : Ports) (now : ℤ) (todo : List (State × RecvEnv)) (w : World) (k : ℕ)
    (bytes : List UInt8) : Prop :=
  ∃ x, todo[k]? = some x ∧ (doPktRecv ports now (todo.take k) w).2.1 = [] ∧
    (doPktRecv ports now (todo.take k) w).2.2.1.sock = w.sock ∧
    Gets ports x.2 x.1 (doPktRecv ports now (todo.take k) w).2.2.1 bytes

/-- **Replies and the shared socket.** When `do_pkt_recv` runs with a valid reply to a device at the
head of the socket, the device gets to process it if and only if it is in one of the states that
receive, its own calls do not fail, and every device before it in `slist` passes: it does not
receive or its `recvmsg` fails. -/
theorem processes_iff (ports : Ports) (now : ℤ) (todo : List (State × RecvEnv)) (w : World) (k : ℕ)
    (x : State × RecvEnv) (bytes : List UInt8) (rest : List SockItem)
    (hq : w.sock = .datagram bytes :: rest) (hk : todo[k]? = some x)
    (hrep : IsReplyTo (w.devs x.1.dev) bytes) (hv : Valid ports (optCap x.1.state) bytes) :
    Processes ports now todo w k bytes ↔
      Active x.1.state ∧ (x.2.mallocOk = true ∧ x.2.recvmsgErr = false) ∧
        ∀ y ∈ todo.take k, Passes y := by
  have hb : sizeofBootpHdr = 236 := rfl
  have hlen := hrep.1
  have hh : HeaderOk bytes := ⟨by omega, hv.1, hv.2.1⟩
  constructor
  · rintro ⟨x', hx', -, hsock, hact, -, r, q, -, hr, hret⟩
    rw [hk] at hx'
    obtain rfl := Option.some.inj hx'
    refine ⟨hact, packetRecv_pos hr (by omega), ?_⟩
    rcases doPktRecv_untouched ports now hh hq with ⟨hall, -⟩ | ⟨-, hne⟩
    · exact hall
    · exact absurd hsock hne
  · rintro ⟨hact, ⟨hm, he⟩, hall⟩
    rcases doPktRecv_untouched ports now hh hq with ⟨-, hnil, hw⟩ | ⟨hnot, -⟩
    · refine ⟨x, hk, hnil, by rw [hw], ?_⟩
      rw [hw]
      refine ⟨hact, hrep, _, rest, hq, by rw [hq]; exact packetRecv_valid rest hlen hv hm he, ?_⟩
      unfold recvLen
      push_cast
      omega
    · exact absurd hall hnot

/-- Two devices, of which the second has the transaction id of the offer on the socket. -/
def twoDevs : World :=
  ⟨fun d => if d = 0 then { Netdev.zero with xid := ⟨1, 2, 3, 4⟩ } else Netdev.zero, none, 0,
    [.datagram (dhcpMsg 2)], []⟩

/-- The entry of a device in `DEVST_DHCPDISC`, in a call in which nothing fails. -/
def discEntry (d : ℕ) : State × RecvEnv := (⟨.dhcpdisc, .dhcpdisc, 0, 1, d⟩, calmEnv)

theorem processes_first : Processes ⟨68, 67⟩ 5 [discEntry 1, discEntry 0] twoDevs 0 (dhcpMsg 2) :=
  (processes_iff ⟨68, 67⟩ 5 [discEntry 1, discEntry 0] twoDevs 0 (discEntry 1) (dhcpMsg 2) [] rfl
    rfl (by decide +kernel) (by decide +kernel)).mpr ⟨by decide, ⟨rfl, rfl⟩, by simp⟩

/-- **The reply to the second device is lost**: the first one takes it off the socket. -/
theorem processes_second : IsReplyTo (twoDevs.devs 1) (dhcpMsg 2) ∧
    ¬ IsReplyTo (twoDevs.devs 0) (dhcpMsg 2) ∧ Valid ⟨68, 67⟩ 1500 (dhcpMsg 2) ∧
    (doPktRecv ⟨68, 67⟩ 5 [discEntry 0] twoDevs).2.2.1.sock = [] ∧
    ¬ Processes ⟨68, 67⟩ 5 [discEntry 0, discEntry 1] twoDevs 1 (dhcpMsg 2) := by
  have hsock : (doPktRecv ⟨68, 67⟩ 5 [discEntry 0] twoDevs).2.2.1.sock = [] := by decide +kernel
  refine ⟨by decide +kernel, by decide +kernel, by decide +kernel, hsock, ?_⟩
  intro hp
  obtain ⟨x, -, -, h, -⟩ := hp
  rw [show List.take 1 [discEntry 0, discEntry 1] = [discEntry 0] from rfl, hsock] at h
  exact absurd h (by simp [twoDevs])

end Klibc.Ipconfig.Delivery
