import Klibc.Lib.Tlv
import Klibc.Ipconfig.DhcpSend

/-! # DHCP requests are well formed

Whatever was sent before, the option bytes that `dhcp_send_discover` and `dhcp_send_request` hand to
`packet_send` are the cookie and an encoding of the options of the message (`expected`), in order.
The static data keep what this needs (`Ready`): slots 2 and 3 are never written, the header of a
request differs from its initial state in the two addresses only, and the slots from 4 on are
written before they are used. -/

namespace Klibc.Ipconfig.Requests

open Lib.Machine Lib.Slice Lib.Tlv Lib.Total Device DhcpSend

/-! ### The options of a message -/

def isCode (c : UInt8) : Bool := c ≠ 0 && c ≠ 255

def cookie : List UInt8 := [99, 130, 83, 99]

def leading (dev : Interface) : Message → List Item
  | .discover => [(53, [DHCPDISCOVER])]
  | .request => [(53, [DHCPREQUEST]), (54, Quad.bytes dev.serverid), (50, Quad.bytes dev.ipAddr)]

def optional (c : UInt8) (d : List UInt8) : List Item := if d = [] then [] else [(c, d)]

/-- **The options of a message** of the device `dev`, with the vendor class identifier `id`. -/
def expected (m : Message) (dev : Interface) (id : List UInt8) : List Item :=
  leading dev m ++ [(55, dhcpParams)] ++ optional 60 id ++ optional 12 dev.reqhostname.bytes

/-- The header of a request with the addresses `a` and `b`. -/
def requestHdr (a b : Quad) : List UInt8 :=
  cookie ++ encodeItem (53, [DHCPREQUEST]) ++ encodeItem (54, Quad.bytes a) ++
    encodeItem (50, Quad.bytes b) ++ [55, UInt8.ofNat dhcpParams.length]

/-! ### Calls -/

/-- The state with a piece in slot `i`. -/
def slotted (s : Sys) (m : Message) (i : ℕ) (v : Iovec) : Sys :=
  { s with iov := Function.update s.iov m (Function.update (s.iov m) i v) }

section
variable {s : Sys}

@[simp]
lemma returns_access {α : Type} {x : α} {Q : α → Sys → Prop} :
    Returns (access (some x)) s Q ↔ Q x s :=
  returns_iff_of_eq rfl

variable {m : Message}

lemma returns_setSlot {i : ℕ} {v : Iovec} {Q : Unit → Sys → Prop}
    (hi : i < DHCP_IOV_LEN) : Returns (setSlot m i v) s Q ↔ Q () (slotted s m i v) := by
  refine returns_iff_of_eq ?_
  rw [setSlot, if_pos hi]
  rfl

@[simp]
lemma returns_time {Q : ℤ → Sys → Prop} :
    Returns time s Q ↔ Q (s.clock 0) { s with clock := fun i => s.clock (i + 1) } :=
  returns_iff_of_eq rfl

/-- The slots from `i` on hold the pieces `ds`. -/
def Holds (s : Sys) (m : Message) (l : Locals) : ℕ → List (List UInt8) → Prop
  | _, [] => True
  | i, d :: ds => i < DHCP_IOV_LEN ∧ (s.iov m i).data s l = some d ∧ Holds s m l (i + 1) ds

lemma gather_eq {l : Locals} : ∀ {i : ℕ} {ds : List (List UInt8)},
    Holds s m l i ds → gather m l i ds.length s = some (ds, s)
  | _, [], _ => rfl
  | i, d :: ds, h => by
    obtain ⟨hi, hd, hds⟩ := h
    have hslot : slotData m l i s = some (d, s) := by
      rw [slotData, if_pos hi, hd]
      rfl
    change (slotData m l i s).bind _ = _
    rw [hslot]
    change (gather m l (i + 1) ds.length s).bind _ = _
    rw [gather_eq hds]
    rfl

end

/-! ### The invariant -/

/-- **What the static data keep**, with the vendor class identifier `id`. -/
structure Ready (s : Sys) (id : List UInt8) : Prop where
  hdr : ∃ a b, s.dhcpRequestHdr = requestHdr a b
  slots : ∀ m, s.iov m 2 = initialIov m 2 ∧ s.iov m 3 = initialIov m 3
  size : s.vendorClassIdentifier.length = 260
  short : id.length < 255
  none : id = [] → s.vendorClassIdentifierLen ≤ 2
  some : id ≠ [] → s.vendorClassIdentifierLen = id.length + 2 ∧
    s.vendorClassIdentifier.take (id.length + 2) = encodeItem (60, id)

lemma ready_start (clock sendmsg : ℕ → ℤ) (stack : Vector UInt8 (SYS_NMLN + 2)) :
    Ready (Sys.start clock sendmsg stack) [] where
  hdr := ⟨INADDR_ANY, INADDR_ANY, rfl⟩
  slots _ := ⟨rfl, rfl⟩
  size := List.length_replicate
  short := by decide
  none _ := (by decide : (0 : ℤ) ≤ 2)
  some h := absurd rfl h

section
variable {s : Sys} {id : List UInt8}

variable {Q : ℤ → Sys → Prop} {name new d r : List UInt8} {i n : ℕ}

lemma Ready.slotted (h : Ready s id) (m : Message) (v : Iovec) (h2 : i ≠ 2)
    (h3 : i ≠ 3) : Ready (slotted s m i v) id := by
  refine ⟨h.hdr, fun m' => ?_, h.size, h.short, h.none, h.some⟩
  by_cases hm : m' = m
  · subst hm
    simp only [Requests.slotted, Function.update_self, Function.update_of_ne h2.symm,
      Function.update_of_ne h3.symm]
    exact h.slots m'
  · simp only [Requests.slotted, Function.update_of_ne hm]
    exact h.slots m'

lemma Ready.calls (h : Ready s id) (calls : ℕ) (clock : ℕ → ℤ) :
    Ready { s with calls := calls, clock := clock } id :=
  ⟨h.hdr, h.slots, h.size, h.short, h.none, h.some⟩

lemma Ready.handed (h : Ready s id) (handed : List (List (List UInt8))) (sendmsg : ℕ → ℤ) :
    Ready { s with handed := handed, sendmsg := sendmsg } id :=
  ⟨h.hdr, h.slots, h.size, h.short, h.none, h.some⟩

lemma returns_addVendorClass (h : Ready s id) (m : Message) {Q : ℕ → Sys → Prop} :
    Returns (addVendorClass m 4) s Q ↔ if id = [] then Q 4 s else
      Q 5 (Requests.slotted s m 4 ⟨some .vendorClassIdentifier, id.length + 2⟩) := by
  rw [addVendorClass, returns_bind, returns_get]
  split_ifs with hlen hid hid
  · exact absurd (h.none hid) (not_le.2 hlen)
  · have hto : s.vendorClassIdentifierLen.toNat = id.length + 2 := by
      have := (h.some hid).1
      omega
    rw [returns_bind, returns_setSlot (by decide), returns_pure, hto]
  · exact returns_pure
  · have := (h.some hid).1
    have : 0 < id.length := List.length_pos_of_ne_nil hid
    omega

lemma returns_addHostname (m : Message) (hname : name.length ≤ SYS_NMLN - 1)
    (hi : i < DHCP_IOV_LEN) {Q : ℕ × List UInt8 → Sys → Prop} :
    Returns (addHostname m name i) s Q ↔ if name = [] then Q (i, s.stack.toList) s else
      Q (i + 1, encodeItem (12, name) ++ s.stack.toList.drop (name.length + 2))
        (Requests.slotted s m i ⟨some (.dhcpHostname s.calls), name.length + 2⟩) := by
  have hfits : 0 + ([12, UInt8.ofNat name.length] ++ name).length ≤ s.stack.toList.length := by
    have : SYS_NMLN = 65 := rfl
    simp only [List.length_append, List.length_cons, List.length_nil, Vector.length_toList]
    omega
  have hover := overwrite_eq hfits
  rw [addHostname, returns_bind, returns_get]
  by_cases hne : name = []
  · rw [if_neg (not_not.2 hne), if_pos hne]
    exact returns_pure
  · rw [if_pos hne, if_neg hne, returns_bind]
    change Returns (access (overwrite _ ((0 : ℕ) : ℤ) _)) _ _ ↔ _
    rw [hover, returns_access, returns_bind, returns_setSlot hi, returns_pure]
    have hbuf : s.stack.toList.take 0 ++ ([12, UInt8.ofNat name.length] ++ name) ++
        s.stack.toList.drop (0 + ([12, UInt8.ofNat name.length] ++ name).length) =
        encodeItem (12, name) ++ s.stack.toList.drop (name.length + 2) := by
      have hlen : 0 + ([12, UInt8.ofNat name.length] ++ name).length = name.length + 2 := by
        simp only [List.length_append, List.length_cons, List.length_nil]
        omega
      rw [hlen]
      rfl
    rw [hbuf]

variable {l : Locals} {m : Message}

lemma returns_packetSend {ds : List (List UInt8)} (hn : n = ds.length)
    (h : Holds (Requests.slotted s m 0 ⟨some .ipudpHdrs, sizeofHeader⟩) m l 1 ds) :
    Returns (packetSend m l (n + 1)) s Q ↔
      Q (s.sendmsg 0) { Requests.slotted s m 0 ⟨some .ipudpHdrs, sizeofHeader⟩ with
        handed := s.handed ++ [ds], sendmsg := fun i => s.sendmsg (i + 1) } := by
  rw [packetSend, returns_bind, returns_setSlot (by decide), returns_bind, Nat.add_sub_cancel, hn]
  refine (returns_iff_of_eq (gather_eq h)).trans ?_
  rw [returns_bind, returns_get, returns_bind, returns_set, returns_pure]
  rfl

lemma length_headerBytes (h : BootpHdr) : (headerBytes h).length = sizeofBootpHdr := by
  simp only [headerBytes, Quad.bytes, List.length_append, List.length_cons, List.length_nil,
    Vector.length_toList]
  rfl

lemma data_eq {o : Object} (hn : n = d.length)
    (h : contents s l o = some (d ++ r)) : (Iovec.mk (some o) n).data s l = some d := by
  have hle : n ≤ (d ++ r).length := by
    rw [List.length_append]
    omega
  change (contents s l o).bind _ = _
  rw [h]
  change (if n ≤ (d ++ r).length then _ else _) = _
  rw [if_pos hle, hn, List.take_left]

/-- The header of a message, in slot 2, if that of a request is `hdr`. -/
def hdrOf (hdr : List UInt8) : Message → List UInt8
  | .discover => dhcpDiscoverHdr
  | .request => hdr

/-- The pieces of a message, with the header `b` and the header `hdr` of requests. -/
def pieces (hdr : List UInt8) (m : Message) (b : BootpHdr) (id name : List UInt8) :
    List (List UInt8) :=
  [headerBytes b, hdrOf hdr m, dhcpParams] ++
    (optional 60 id ++ optional 12 name).map encodeItem ++ [dhcpEnd]

lemma holds_leading {rest : List (List UInt8)} (h : Ready s id)
    (h1 : s.iov m 1 = ⟨some (.bootp s.calls), sizeofBootpHdr⟩) (h4 : Holds s m l 4 rest) :
    Holds s m l 1 ([headerBytes l.bootp, hdrOf s.dhcpRequestHdr m, dhcpParams] ++ rest) := by
  obtain ⟨h2, h3⟩ := h.slots m
  refine ⟨by decide, ?_, by decide, ?_, by decide, ?_, h4⟩
  · rw [h1]
    refine data_eq (r := []) (length_headerBytes l.bootp).symm ?_
    rw [List.append_nil, contents, if_pos rfl]
  · rw [h2]
    cases m with
    | discover => rfl
    | request =>
      obtain ⟨a, b, hab⟩ := h.hdr
      have hlen : dhcpRequestHdr.length = s.dhcpRequestHdr.length := by rw [hab]; rfl
      exact data_eq (r := []) hlen (congrArg some (List.append_nil _).symm)
  · rw [h3]
    cases m <;> rfl

lemma slotted_self (s : Sys) (m : Message) (i : ℕ) (v : Iovec) :
    (Requests.slotted s m i v).iov m i = v := by
  simp [Requests.slotted]

lemma slotted_of_ne (s : Sys) (m : Message) {j : ℕ} (v : Iovec) (h : j ≠ i) :
    (Requests.slotted s m i v).iov m j = s.iov m j := by
  simp only [Requests.slotted, Function.update_self, Function.update_of_ne h]

lemma data_vendorClass (h : Ready s id) (hid : id ≠ []) (l : Locals) :
    (Iovec.mk (some .vendorClassIdentifier) (id.length + 2)).data s l =
      some (encodeItem (60, id)) := by
  refine data_eq (r := s.vendorClassIdentifier.drop (id.length + 2)) rfl ?_
  rw [← (h.some hid).2, List.take_append_drop, contents]

lemma data_hostname (hl : l.dhcpHostname = encodeItem (12, name) ++ r) :
    (Iovec.mk (some (.dhcpHostname s.calls)) (name.length + 2)).data s l =
      some (encodeItem (12, name)) := by
  refine data_eq (r := r) rfl ?_
  rw [contents, if_pos rfl, hl]

lemma Holds.slotted {v : Iovec} :
    ∀ {j : ℕ} {ds : List (List UInt8)}, Holds s m l j ds → i < j ∨ j + ds.length ≤ i →
      Holds (slotted s m i v) m l j ds
  | _, [], _, _ => trivial
  | j, d :: ds, ⟨hj, hd, hds⟩, hi => by
    rw [List.length_cons] at hi
    refine ⟨hj, ?_, Holds.slotted hds (by omega)⟩
    rw [slotted_of_ne s m v (by omega)]
    exact hd

lemma Holds.concat :
    ∀ {j : ℕ} {ds : List (List UInt8)}, Holds s m l j ds → j + ds.length < DHCP_IOV_LEN →
      (s.iov m (j + ds.length)).data s l = some d → Holds s m l j (ds ++ [d])
  | j, [], _, hj, hd => ⟨hj, hd, trivial⟩
  | j, e :: ds, ⟨hj, he, hds⟩, hlt, hd => by
    have hadd : j + (e :: ds).length = j + 1 + ds.length := by
      rw [List.length_cons]
      omega
    rw [hadd] at hlt hd
    exact ⟨hj, he, Holds.concat hds hlt hd⟩

lemma returns_end (h : Ready s id) (h1 : s.iov m 1 = ⟨some (.bootp s.calls), sizeofBootpHdr⟩)
    (ds : List (List UInt8)) (hds : Holds s m l 4 ds) (hi : 4 + ds.length = i)
    (hlt : i < DHCP_IOV_LEN) (hQ : ∀ r s', Ready s' id → s'.handed = s.handed ++
      [[headerBytes l.bootp, hdrOf s.dhcpRequestHdr m, dhcpParams] ++ ds ++ [dhcpEnd]] → Q r s') :
    Returns (setSlot m i ⟨some .dhcpEnd, dhcpEnd.length⟩) s fun _ s' =>
      Returns (packetSend m l (i + 1)) s' Q := by
  subst hi
  rw [returns_setSlot hlt]
  have hready := (h.slotted m ⟨some .dhcpEnd, dhcpEnd.length⟩ (by omega : 4 + ds.length ≠ 2)
    (by omega)).slotted m ⟨some .ipudpHdrs, sizeofHeader⟩ (by decide : 0 ≠ 2) (by decide)
  have hends : Holds (Requests.slotted (Requests.slotted s m (4 + ds.length)
      ⟨some .dhcpEnd, dhcpEnd.length⟩) m 0 ⟨some .ipudpHdrs, sizeofHeader⟩) m l 4
      (ds ++ [dhcpEnd]) := by
    refine ((hds.slotted (Or.inr le_rfl)).slotted (Or.inl (by decide))).concat hlt ?_
    rw [slotted_of_ne _ m _ (by omega), slotted_self]
    rfl
  have hall := holds_leading hready (by
    rw [slotted_of_ne _ m _ (by decide), slotted_of_ne _ m _ (by omega), h1]
    rfl) hends
  refine (returns_packetSend ?_ hall).2 (hQ _ _ (hready.handed _ _) ?_)
  · simp only [List.length_append, List.length_cons, List.length_nil]
    omega
  · rw [List.append_assoc]
    rfl

lemma returns_optional (h : Ready s id) (h1 : s.iov m 1 = ⟨some (.bootp s.calls), sizeofBootpHdr⟩)
    (hname : name.length ≤ SYS_NMLN - 1) (b : BootpHdr) :
    Returns (addVendorClass m 4) s fun i s1 => Returns (addHostname m name i) s1 fun x s2 =>
      Returns (setSlot m x.1 ⟨some .dhcpEnd, dhcpEnd.length⟩) s2 fun _ s3 =>
        Returns (packetSend m ⟨b, x.2⟩ (x.1 + 1)) s3 fun _ s' => Ready s' id ∧
          s'.handed = s.handed ++ [pieces s.dhcpRequestHdr m b id name] := by
  refine (returns_addVendorClass h m).2 ?_
  split_ifs with hid
  · refine (returns_addHostname m hname (by decide)).2 ?_
    rw [pieces, hid]
    split_ifs with hhost
    · refine returns_end (hid ▸ h) h1 [] trivial rfl (by decide : 4 < DHCP_IOV_LEN) ?_
      rw [hhost]
      exact fun r s' hs' he => ⟨hs', he⟩
    · have hslots := (hid ▸ h).slotted m ⟨some (.dhcpHostname s.calls), name.length + 2⟩
        (by decide : 4 ≠ 2) (by decide)
      refine returns_end hslots ?_ [encodeItem (12, name)] ⟨by decide, ?_, trivial⟩ rfl
        (by decide : 5 < DHCP_IOV_LEN) ?_
      · rw [slotted_of_ne s m _ (by decide), h1]
        rfl
      · rw [slotted_self]
        exact data_hostname rfl
      · rw [optional, optional, if_pos rfl, if_neg hhost]
        exact fun r s' hs' he => ⟨hs', he⟩
  · have hvendor := h.slotted m ⟨some .vendorClassIdentifier, id.length + 2⟩ (by decide : 4 ≠ 2)
      (by decide)
    refine (returns_addHostname m hname (by decide)).2 ?_
    rw [pieces, optional, if_neg hid]
    split_ifs with hhost
    · refine returns_end hvendor ?_ [encodeItem (60, id)] ⟨by decide, ?_, trivial⟩ rfl
        (by decide : 5 < DHCP_IOV_LEN) ?_
      · rw [slotted_of_ne s m _ (by decide), h1]
        rfl
      · rw [slotted_self]
        exact data_vendorClass hvendor hid _
      · rw [optional, if_pos hhost]
        exact fun r s' hs' he => ⟨hs', he⟩
    · have hboth := hvendor.slotted m ⟨some (.dhcpHostname s.calls), name.length + 2⟩
        (by decide : 5 ≠ 2) (by decide)
      refine returns_end hboth ?_ [encodeItem (60, id), encodeItem (12, name)]
        ⟨by decide, ?_, by decide, ?_, trivial⟩ rfl (by decide : 6 < DHCP_IOV_LEN) ?_
      · rw [slotted_of_ne _ m _ (by decide), slotted_of_ne s m _ (by decide), h1]
        rfl
      · rw [slotted_of_ne _ m _ (by decide), slotted_self]
        exact data_vendorClass hboth hid _
      · rw [slotted_self]
        exact data_hostname rfl
      · rw [optional, if_neg hhost]
        exact fun r s' hs' he => ⟨hs', he⟩

/-- **`dhcp_send` hands the pieces of the message to `packet_send`.** -/
theorem returns_dhcpSend (h : Ready s id) (dev : Interface) (m : Message) :
    Returns (dhcpSend dev m) s fun _ s' => Ready s' id ∧ s'.handed = s.handed ++
      [pieces s.dhcpRequestHdr m (bootpRequest dev (s.clock 0)) id dev.reqhostname.bytes] := by
  simp only [dhcpSend, returns_bind, returns_modify, returns_time, returns_get]
  rw [returns_setSlot (by decide)]
  exact returns_optional ((h.calls (s.calls + 1) fun i => s.clock (i + 1)).slotted m _ (by decide)
    (by decide)) (slotted_self _ _ _ _) dev.reqhostname.short _

/-! ### The calls of the program -/

lemma overwrite_server (a b c : Quad) :
    overwrite (requestHdr a b) SERVER_IP_OFF (Quad.bytes c) = some (requestHdr c b) :=
  overwrite_eq (by decide : 13 ≤ 21)

lemma overwrite_requested (a b c : Quad) :
    overwrite (requestHdr a b) REQ_IP_OFF (Quad.bytes c) = some (requestHdr a c) :=
  overwrite_eq (by decide : 19 ≤ 21)

lemma returns_poke {a b c : Quad} {off : ℕ} (h : Ready s id)
    (hover : overwrite s.dhcpRequestHdr off (Quad.bytes c) = some (requestHdr a b)) :
    Returns (poke off c) s fun _ s' => Ready s' id ∧ s'.dhcpRequestHdr = requestHdr a b := by
  rw [poke, returns_bind, returns_get, returns_bind, hover, returns_access, returns_set]
  exact ⟨⟨⟨a, b, rfl⟩, h.slots, h.size, h.short, h.none, h.some⟩, rfl⟩

lemma flatten_pieces (dev : Interface) (m : Message) (b : BootpHdr) (id : List UInt8) :
    (pieces (requestHdr dev.serverid dev.ipAddr) m b id dev.reqhostname.bytes).tail.flatten =
      cookie ++ encode 255 (expected m dev id) := by
  have hlead : hdrOf (requestHdr dev.serverid dev.ipAddr) m ++ dhcpParams =
      cookie ++ (leading dev m ++ [(55, dhcpParams)]).flatMap encodeItem := by
    cases m <;> rfl
  have hpair : [hdrOf (requestHdr dev.serverid dev.ipAddr) m, dhcpParams].flatten =
      hdrOf (requestHdr dev.serverid dev.ipAddr) m ++ dhcpParams := by
    rw [List.flatten_cons, List.flatten_singleton]
  rw [pieces, List.append_assoc, List.cons_append, List.tail_cons, List.flatten_append,
    List.flatten_append, ← List.flatMap_def, hpair, hlead, encode, expected]
  simp only [List.flatMap_append, List.append_assoc]
  rfl

/-! ### Runs -/

/-- `dhcp_send_discover` or `dhcp_send_request`. -/
def send (dev : Interface) : Message → Call ℤ
  | .discover => do
    let (_, ret) ← dhcpSendDiscover dev
    return ret
  | .request => dhcpSendRequest dev

lemma returns_send (h : Ready s id) (dev : Interface) (m : Message) :
    Returns (send dev m) s fun _ s' => Ready s' id ∧ ∃ before ds, s'.handed = before ++ [ds] ∧
      ds.length < DHCP_IOV_LEN ∧ ds.tail.flatten = cookie ++ encode 255 (expected m dev id) := by
  have hlen : ∀ hdr b, (pieces hdr m b id dev.reqhostname.bytes).length < DHCP_IOV_LEN := by
    intro hdr b
    have hle : ∀ c d, (optional c d).length ≤ 1 := fun c d => by
      unfold optional
      split_ifs <;> simp
    have h60 := hle 60 id
    have h12 := hle 12 dev.reqhostname.bytes
    simp only [pieces, List.length_append, List.length_map, List.length_cons, List.length_nil]
    change _ < 7
    omega
  cases m with
  | discover =>
    simp only [send, dhcpSendDiscover, returns_bind, returns_pure]
    refine (returns_dhcpSend h _ .discover).mono fun _ s' hs' => ?_
    exact ⟨hs'.1, _, _, hs'.2, hlen _ _, flatten_pieces dev .discover _ id⟩
  | request =>
    obtain ⟨a, b, hab⟩ := h.hdr
    simp only [send, dhcpSendRequest, returns_bind]
    refine (returns_poke h (by rw [hab]; exact overwrite_server a b dev.serverid)).mono ?_
    rintro - s1 ⟨h₁, hab1⟩
    refine (returns_poke h₁ (by rw [hab1]; exact overwrite_requested _ b dev.ipAddr)).mono ?_
    rintro - s2 ⟨h₂, hab2⟩
    refine (returns_dhcpSend h₂ dev .request).mono fun _ s' hs' => ?_
    rw [hab2] at hs'
    exact ⟨hs'.1, _, _, hs'.2, hlen _ _, flatten_pieces dev .request _ id⟩

/-- `set_vendor_identifier` on a text whose length is `k` as an `int`: it keeps the first `k` bytes.
-/
theorem returns_setVendorIdentifier {k : ℕ} (h : Ready s id)
    (hk : wrap 32 new.length = k) (hlt : k < 255) (hle : k ≤ new.length) :
    Returns (setVendorIdentifier new) s fun ok s' => ok = true ∧ Ready s' (new.take k) := by
  have hlen : (new.take k).length = k := List.length_take_of_le hle
  have hfits : 2 + (new.take k).length ≤ s.vendorClassIdentifier.length := by
    rw [h.size]
    omega
  have hslice : slice new ((0 : ℕ) : ℤ) k = some (new.take k) := slice_eq (by omega)
  have hsize := (length_overwritten hfits).trans h.size
  have hbyte : (unsigned 8 k).toUInt8 = UInt8.ofNat (new.take k).length := by
    rw [unsigned_eq (by omega), hlen]
  -- the code and the length are written in front of the data
  have hcode : overwrite (s.vendorClassIdentifier.take 2 ++ new.take k ++
      s.vendorClassIdentifier.drop (2 + (new.take k).length)) ((0 : ℕ) : ℤ)
        [60, (unsigned 8 k).toUInt8] =
      some (encodeItem (60, new.take k) ++
        s.vendorClassIdentifier.drop (2 + (new.take k).length)) := by
    rw [overwrite_eq (by rw [hsize]; decide : 0 + 2 ≤ _), hbyte]
    change some ([60, _] ++ List.drop 2 _) = _
    rw [drop_overwritten hfits]
    rfl
  have hitem : (encodeItem (60, new.take k)).length = k + 2 := congrArg (· + 2) hlen
  rw [setVendorIdentifier]
  simp only [hk]
  rw [if_neg (by omega), returns_bind, returns_get, returns_bind]
  change Returns (access (slice new ((0 : ℕ) : ℤ) k)) _ _
  rw [hslice, returns_access, returns_bind]
  change Returns (access (overwrite _ ((2 : ℕ) : ℤ) _)) _ _
  rw [overwrite_eq hfits, returns_access, returns_bind]
  change Returns (access (overwrite _ ((0 : ℕ) : ℤ) _)) _ _
  rw [hcode, returns_access, returns_bind, returns_set, returns_pure]
  refine ⟨rfl, h.hdr, h.slots, ?_, by omega, fun hnil => ?_, fun _ => ⟨?_, ?_⟩⟩
  · rw [List.length_append, hitem, List.length_drop, h.size]
    omega
  · rw [hnil, List.length_nil] at hlen
    change (k : ℤ) + 2 ≤ 2
    omega
  · rw [hlen]
  · rw [hlen]
    exact List.take_left' hitem

lemma returns_setVendorIdentifier_long (hlong : 255 ≤ new.length) (hlt : new.length < 2 ^ 31)
    {Q : Bool → Sys → Prop} : Returns (setVendorIdentifier new) s Q ↔ Q false s := by
  have hwrap : wrap 32 new.length = new.length :=
    wrap_eq (by decide) (by omega) (by norm_num; omega)
  rw [setVendorIdentifier]
  simp only [hwrap]
  rw [if_pos (by omega), returns_pure]

end

/-- The calls of the program that touch the static data. -/
inductive Op
  | setVendorIdentifier (id : List UInt8)
  | send (m : Message) (dev : Interface)

def Op.exec : Op → Call Unit
  | .setVendorIdentifier id => do let _ ← DhcpSend.setVendorIdentifier id
  | .send m dev => do let _ ← Requests.send dev m

def run : List Op → Call Unit
  | [] => return ()
  | op :: ops => do
    op.exec
    run ops

def Op.identifier (id : List UInt8) : Op → List UInt8
  | .setVendorIdentifier new => if new.length < 255 then new else id
  | .send _ _ => id

/-- **The vendor class identifier after some calls**: the last one that was accepted. -/
def identifier (ops : List Op) : List UInt8 := ops.foldl Op.identifier []

/-- The identifiers of the calls are of a length that an `int` holds. -/
def Ints (ops : List Op) : Prop := ∀ id, .setVendorIdentifier id ∈ ops → id.length < 2 ^ 31

variable {id : List UInt8}

variable {s : Sys}

lemma returns_exec (h : Ready s id) {op : Op} (hop : Ints [op]) :
    Returns op.exec s fun _ s' => Ready s' (op.identifier id) := by
  cases op with
  | setVendorIdentifier new =>
    have hlt : new.length < 2 ^ 31 := hop new (List.mem_singleton.2 rfl)
    rw [Op.exec, Op.identifier, returns_bind]
    split_ifs with hshort
    · refine (returns_setVendorIdentifier h (wrap_eq (by decide) (by omega) (by norm_num; omega))
        hshort le_rfl).mono fun ok s' hs' => ?_
      rw [List.take_length] at hs'
      exact returns_pure.2 hs'.2
    · exact (returns_setVendorIdentifier_long (not_lt.1 hshort) hlt).2 (returns_pure.2 h)
  | send m dev =>
    rw [Op.exec, returns_bind]
    exact (returns_send h dev m).mono fun _ s' hs' => returns_pure.2 hs'.1

lemma returns_run : ∀ (ops : List Op) {s : Sys} {id : List UInt8}, Ready s id → Ints ops →
    Returns (run ops) s fun _ s' => Ready s' (ops.foldl Op.identifier id)
  | [], s, id, h, _ => returns_pure.2 h
  | op :: ops, s, id, h, hints => by
    rw [run, returns_bind, List.foldl_cons]
    have hop : Ints [op] := fun new hnew =>
      hints new (List.mem_cons.2 (Or.inl (List.mem_singleton.1 hnew)))
    refine (returns_exec h hop).mono fun _ s1 h₁ => ?_
    exact returns_run ops h₁ fun new hnew => hints new (List.mem_cons_of_mem op hnew)

/-! ### Well-formed requests -/

lemma expected_encodable (m : Message) (dev : Interface)
    (hid : id.length < 255) : ∀ x ∈ expected m dev id, isCode x.1 ∧ x.2.length < 256 := by
  have hopt : ∀ (c : UInt8) (d : List UInt8), isCode c → d.length < 256 →
      ∀ x ∈ optional c d, isCode x.1 ∧ x.2.length < 256 := by
    intro c d hc hd x hx
    unfold optional at hx
    split_ifs at hx with hnil
    · exact absurd hx List.not_mem_nil
    · rw [List.mem_singleton.1 hx]
      exact ⟨hc, hd⟩
  have hhost : dev.reqhostname.bytes.length < 256 :=
    lt_of_le_of_lt dev.reqhostname.short (by decide)
  have hlead : ∀ x ∈ leading dev m, isCode x.1 ∧ x.2.length < 256 := by
    cases m with
    | discover => simp [leading, isCode]
    | request => simp [leading, isCode, Quad.bytes]
  intro x hx
  rcases List.mem_append.1 hx with hx | hx
  · rcases List.mem_append.1 hx with hx | hx
    · rcases List.mem_append.1 hx with hx | hx
      · exact hlead x hx
      · rw [List.mem_singleton.1 hx]
        decide
    · exact hopt 60 id (by decide) (by omega) x hx
  · exact hopt 12 _ (by decide) hhost x hx

/-- What a call of `packet_send` was handed: at most the slots there are, and after the header the
cookie and bytes that decode to `xs`. -/
def Handed (s : Sys) (xs : List Item) : Prop :=
  ∃ before ds body, s.handed = before ++ [ds] ∧ ds.length < DHCP_IOV_LEN ∧
    ds.tail.flatten = cookie ++ body ∧ decode isCode 255 body = some xs

lemma returns_send_handed (h : Ready s id) (dev : Interface)
    (m : Message) : Returns (send dev m) s fun _ s' => Handed s' (expected m dev id) := by
  refine (returns_send h dev m).mono ?_
  rintro - s' ⟨-, before, ds, hhanded, hlen, hbytes⟩
  exact ⟨before, ds, _, hhanded, hlen, hbytes, decode_encode _ (expected_encodable m dev h.short)⟩

/-- **DHCP requests are well formed.**  After any calls, a message of any device is handed to
`packet_send` as the cookie and the well-formed options of the message, in order and with one end
option, and no slot beyond the array is used. -/
theorem dhcp_requests_decode (clock sendmsg : ℕ → ℤ) (stack : Vector UInt8 (SYS_NMLN + 2))
    (ops : List Op) (hints : Ints ops) (m : Message) (dev : Interface) :
    Returns (run ops >>= fun _ => send dev m) (Sys.start clock sendmsg stack) fun _ s' =>
      Handed s' (expected m dev (identifier ops)) := by
  rw [returns_bind]
  refine (returns_run ops (ready_start clock sendmsg stack) hints).mono fun _ s1 h₁ => ?_
  exact returns_send_handed h₁ dev m

/-- A device with the host name `h`. -/
def sampleDevice : Interface where
  toNetdev := { Netdev.zero with serverid := ⟨10, 0, 0, 1⟩, ipAddr := ⟨10, 0, 0, 2⟩ }
  hwtype := 1
  hwlen := 6
  openTime := 0
  reqhostname := ⟨[104], by decide, by decide⟩

/-- A request after a discover, with the vendor class identifier `v`. -/
theorem dhcp_requests_decode_sample :
    Returns (run [.setVendorIdentifier [118], .send .discover sampleDevice] >>= fun _ =>
        send sampleDevice .request)
      (Sys.start (fun _ => 0) (fun _ => 0) (Vector.replicate _ 0)) fun _ s' =>
      Handed s' [(53, [3]), (54, [10, 0, 0, 1]), (50, [10, 0, 0, 2]),
        (55, [1, 3, 6, 12, 15, 17, 26, 28, 40]), (60, [118]), (12, [104])] := by
  refine dhcp_requests_decode (fun _ => 0) (fun _ => 0) (Vector.replicate _ 0)
    [.setVendorIdentifier [118], .send .discover sampleDevice] ?_ .request sampleDevice
  simp [Ints]

/-! ### An identifier that is too long for an `int` -/

lemma optional_injective (c : UInt8) : Function.Injective (optional c) := by
  intro a b h
  unfold optional at h
  split_ifs at h with ha hb hb
  · rw [ha, hb]
  · cases h
    rfl

lemma expected_injective (m : Message) (dev : Interface) : Function.Injective (expected m dev) := by
  intro a b h
  exact optional_injective 60 (List.append_cancel_left (List.append_cancel_right h))

def hugeIdentifier : List UInt8 := List.replicate (2 ^ 32 + 5) 65

/-- **An identifier of 4 GiB and five bytes is accepted**, and only five bytes of it are sent. -/
theorem huge_identifier_cut :
    Returns (setVendorIdentifier hugeIdentifier) (Sys.start (fun _ => 0) (fun _ => 0)
        (Vector.replicate _ 0)) fun ok s => ok = true ∧
      Returns (send sampleDevice .discover) s fun _ s' =>
        Handed s' (expected .discover sampleDevice (List.replicate 5 65)) ∧
        expected .discover sampleDevice (List.replicate 5 65) ≠
          expected .discover sampleDevice hugeIdentifier := by
  have hlen : hugeIdentifier.length = 2 ^ 32 + 5 := List.length_replicate
  have hwrap : wrap 32 hugeIdentifier.length = (5 : ℕ) := by
    rw [hlen]
    decide
  have htake : hugeIdentifier.take 5 = List.replicate 5 65 := by
    rfl
  refine (returns_setVendorIdentifier (ready_start _ _ _) hwrap (by decide) (by omega)).mono ?_
  rintro ok s ⟨hok, hs⟩
  refine ⟨hok, (returns_send_handed hs sampleDevice .discover).mono fun _ s' h' => ⟨h', ?_⟩⟩
  intro heq
  have := congrArg List.length (expected_injective .discover sampleDevice heq)
  rw [hlen, List.length_replicate] at this
  omega

end Klibc.Ipconfig.Requests
