import Klibc.Ipconfig.Setup

/-! # The first packet of a device

`add_one_dev` selects the state an entry starts from by the capabilities of its device, and those
are computed in four places. `setUp_sound` follows them through every set-up: six sets can arrive
(`capabilitySets`), and the one for which no state is selected is `CAP_RARP` alone. It does arrive,
from `rarp`, from a template, and from every device that cannot broadcast. `first_packet_iff` says
that an entry is complete, and that a packet is sent for it at the first timeout with the link up,
if and only if its device has another set. With none of that set, the program starts as the theorems
about its runs assume (`start_of_sound`). -/

namespace Klibc.Ipconfig.FirstPacket

open Device DhcpSend Main Runs List Setup Lib.Abort
open Stdio.Vsnprintf (Arch arch64 chr)

/-! ### The capabilities that arrive -/

def capabilitySets : List UInt32 :=
  [0, CAP_BOOTP, CAP_BOOTP ||| CAP_DHCP, CAP_RARP, CAP_BOOTP ||| CAP_RARP,
    CAP_BOOTP ||| CAP_DHCP ||| CAP_RARP]

lemma mem_capabilitySets {c : UInt32} : c ∈ capabilitySets ↔
    c = 0 ∨ c = CAP_BOOTP ∨ c = CAP_BOOTP ||| CAP_DHCP ∨ c = CAP_RARP ∨
      c = CAP_BOOTP ||| CAP_RARP ∨ c = CAP_BOOTP ||| CAP_DHCP ||| CAP_RARP := by
  simp [capabilitySets, not_mem_nil]

lemma and_mem_capabilitySets {a b : UInt32} (ha : a ∈ capabilitySets)
    (hb : b ∈ capabilitySets) : a &&& b ∈ capabilitySets := by
  rw [mem_capabilitySets] at ha hb
  rcases ha with rfl | rfl | rfl | rfl | rfl | rfl <;>
    rcases hb with rfl | rfl | rfl | rfl | rfl | rfl <;> decide

variable {dev : Candidate} {ip : List UInt8} {e : Entry} {arch : Arch}

lemma parseProto_mem {caps : UInt32} (h : parseProto ip = some caps) : caps ∈ capabilitySets := by
  unfold parseProto at h
  split_ifs at h <;> cases h <;> decide

variable {dev dev' : Candidate} {s : Globals}

lemma parseOption_caps {opt : ℕ} (hdev : dev.caps ∈ capabilitySets)
    (h : parseOption arch opt ip dev = some dev') : dev'.caps ∈ capabilitySets := by
  unfold parseOption at h
  split at h
  case h_1 =>
    obtain ⟨a, -, rfl⟩ := Option.map_eq_some_iff.1 h
    exact mem_cons_self
  case h_7 =>
    obtain ⟨caps, hcaps, rfl⟩ := Option.map_eq_some_iff.1 h
    exact parseProto_mem hcaps
  -- the other options leave the capabilities alone
  case h_5 => cases h; exact hdev
  case h_6 => cases h; exact hdev
  case h_8 => cases h; exact hdev
  all_goals
    obtain ⟨a, -, rfl⟩ := Option.map_eq_some_iff.1 h
    exact hdev

lemma parseOptions_caps : ∀ {pieces : List (List UInt8)} {opt : ℕ}
    {dev dev' : Candidate}, dev.caps ∈ capabilitySets →
    parseOptions arch opt pieces dev = some dev' → dev'.caps ∈ capabilitySets
  | [], opt, dev, dev', hdev, h => by
    cases h
    exact hdev
  | ip :: rest, opt, dev, dev', hdev, h => by
    unfold parseOptions at h
    split_ifs at h
    · cases h
      exact hdev
    · exact parseOptions_caps hdev h
    · obtain ⟨dev1, h₁, h₂⟩ := Option.bind_eq_some_iff.1 h
      exact parseOptions_caps (parseOption_caps hdev h₁) h₂

lemma netdevInitIf_caps {io : Ioctls}
    (h : netdevInitIf io dev = some dev') : dev'.caps = dev.caps := by
  have haddr (d : Candidate) : (currentAddresses io d).caps = d.caps := by
    unfold currentAddresses
    split_ifs <;> rfl
  unfold netdevInitIf at h
  split_ifs at h
  obtain ⟨mtu, -, h⟩ := Option.bind_eq_some_iff.1 h
  obtain ⟨hw, -, h⟩ := Option.bind_eq_some_iff.1 h
  obtain ⟨hwlen, -, h⟩ := Option.bind_eq_some_iff.1 h
  rw [← Option.some.inj h, haddr]

lemma bootpInitIf_caps {a : Answers} (hdev : dev.caps ∈ capabilitySets)
    (h : bootpInitIf a dev = some dev') : dev'.caps ∈ capabilitySets := by
  have hclear {c : UInt32} (hc : c ∈ capabilitySets) :
      c &&& ~~~(CAP_BOOTP ||| CAP_DHCP) ∈ capabilitySets := by
    rw [mem_capabilitySets] at hc
    rcases hc with rfl | rfl | rfl | rfl | rfl | rfl <;> decide
  unfold bootpInitIf at h
  split at h
  · cases h
  · split_ifs at h
    · cases h
      exact hclear hdev
    · cases h
      exact hdev

/-! ### The state that is selected -/

lemma startState_cases (h : dev.caps ∈ capabilitySets) (h0 : dev.caps ≠ 0) :
    (∃ st, startState dev = some st ∧ Active st ∧ dev.caps ≠ CAP_RARP) ∨
      startState dev = none ∧ dev.caps = CAP_RARP := by
  have hcaps {c : UInt32} (hc : c ∈ capabilitySets) (h0 : c ≠ 0) (hdhcp : c &&& CAP_DHCP = 0)
      (hbootp : c &&& CAP_BOOTP = 0) : c = CAP_RARP := by
    rw [mem_capabilitySets] at hc
    rcases hc with rfl | rfl | rfl | rfl | rfl | rfl
    case inr.inr.inr.inl => rfl
    all_goals first
      | exact absurd rfl h0
      | exact absurd hbootp (by decide)
  have hdhcp : CAP_RARP &&& CAP_DHCP = 0 := by decide
  have hbootp : CAP_RARP &&& CAP_BOOTP = 0 := by decide
  unfold startState
  split_ifs with h1 h2 h3
  · exact .inl ⟨_, rfl, .inr (.inl rfl), fun h => h1.1 (by rw [h, hdhcp])⟩
  · exact .inl ⟨_, rfl, .inr (.inr rfl), fun h => h2 (by rw [h, hdhcp])⟩
  · exact .inl ⟨_, rfl, .inl rfl, fun h => h3 (by rw [h, hbootp])⟩
  · exact .inr ⟨rfl, hcaps h h0 (by simpa using h2) (by simpa using h3)⟩

/-! ### The invariant of the set-up -/

/-- The device of an entry, and the entry as `add_one_dev` made it. -/
structure Made (dev : Candidate) (e : Entry) : Prop where
  caps : dev.caps ∈ capabilitySets
  nonzero : dev.caps ≠ 0
  state : e.state = startState dev
  restart : e.restartState = startState dev
  retry : e.retryPeriod = 1

def netdevs (devs : List Candidate) (d : ℕ) : Netdev := (devs.getD d Candidate.zero).toNetdev

/-- **The invariant.** -/
structure Sound (s : Globals) : Prop where
  default : s.defaultCaps ∈ capabilitySets
  made : ∀ e ∈ s.slist, ∃ dev, s.devs[e.dev]? = some dev ∧ Made dev e
  distinct : (s.slist.map Entry.dev).Nodup
  ifaces : ∃ l, IsIfaces (netdevs s.devs) s.ifaces l ∧ l.Nodup ∧ (∀ d ∈ l, d < s.devs.length) ∧
    ∀ e ∈ s.slist, e.dev ∉ l

lemma Sound.start : Sound Globals.start where
  default := by decide
  made := by simp [Globals.start]
  distinct := by simp [Globals.start]
  ifaces := ⟨[], rfl, nodup_nil, by simp, by simp⟩

lemma Sound.dev_lt (h : Sound s) (he : e ∈ s.slist) : e.dev < s.devs.length := by
  obtain ⟨dev, hdev, -⟩ := h.made e he
  exact (List.getElem?_eq_some_iff.1 hdev).1

lemma netdevs_append {devs : List Candidate} (dev : Candidate) {d : ℕ} (hd : d < devs.length) :
    netdevs (devs ++ [dev]) d = netdevs devs d := by
  unfold netdevs
  rw [getD_append _ _ _ _ hd]

lemma Sound.made_append (h : Sound s) (dev : Candidate)
    (he : e ∈ s.slist) : ∃ dev', (s.devs ++ [dev])[e.dev]? = some dev' ∧ Made dev' e := by
  obtain ⟨dev', hdev', hmade⟩ := h.made e he
  exact ⟨dev', by rw [getElem?_append_left (h.dev_lt he), hdev'], hmade⟩

lemma Sound.add (h : Sound s) (hmade : Made dev e) (hdev : e.dev = s.devs.length) :
    Sound { s with devs := s.devs ++ [dev], slist := e :: s.slist } := by
  obtain ⟨l, hl, hnd, hlt, hout⟩ := h.ifaces
  refine ⟨h.default, fun e' he' => ?_, ?_, l, ?_, hnd, fun d hd => ?_, fun e' he' => ?_⟩
  · rcases mem_cons.1 he' with rfl | he'
    · exact ⟨dev, by simp [hdev], hmade⟩
    · exact h.made_append dev he'
  · refine nodup_cons.2 ⟨fun hmem => ?_, h.distinct⟩
    obtain ⟨e', he', heq⟩ := mem_map.1 hmem
    have := h.dev_lt he'
    omega
  · exact IsIfaces.congr (fun d hd => by rw [netdevs_append dev (hlt d hd)]) hl
  · have := hlt d hd
    simp only [length_append, length_singleton]
    omega
  · rcases mem_cons.1 he' with rfl | he'
    · intro hmem
      have := hlt _ hmem
      omega
    · exact hout e' he'

lemma Sound.complete (h : Sound s) (n : ℕ) (hnext : dev.next = s.ifaces) :
    Sound { s with devs := s.devs ++ [dev], configured := n, ifaces := some s.devs.length } := by
  obtain ⟨l, hl, hnd, hlt, hout⟩ := h.ifaces
  refine ⟨h.default, fun e he => h.made_append dev he, h.distinct, s.devs.length :: l,
    ⟨rfl, ?_⟩, nodup_cons.2 ⟨fun hmem => ?_, hnd⟩, fun d hd => ?_, fun e he hmem => ?_⟩
  · have hlast : (netdevs (s.devs ++ [dev]) s.devs.length).next = s.ifaces := by
      simp [netdevs, hnext]
    show IsIfaces _ (netdevs (s.devs ++ [dev]) s.devs.length).next l
    rw [hlast]
    exact IsIfaces.congr (fun d hd => by rw [netdevs_append dev (hlt d hd)]) hl
  · have := hlt _ hmem
    omega
  · simp only [length_append, length_singleton]
    rcases mem_cons.1 hd with rfl | hd
    · omega
    · have := hlt d hd
      omega
  · have := h.dev_lt he
    rcases mem_cons.1 hmem with heq | hmem
    · omega
    · exact hout e he hmem

/-! ### Every call keeps it -/

section
variable {arch : Arch} {host : ℕ → Answers}

lemma keeps_ask {α : Type} (f : Answers → α) : Keeps Sound (ask host f) fun _ => True :=
  keeps_access fun _ hs => ⟨⟨hs.default, hs.made, hs.distinct, hs.ifaces⟩, trivial⟩

lemma keeps_setBringupFirst : Keeps Sound setBringupFirst fun _ => True :=
  keeps_access fun _ hs => ⟨⟨hs.default, hs.made, hs.distinct, hs.ifaces⟩, trivial⟩

variable {dev : Candidate}

lemma keeps_parseInfo (hdev : dev.caps ∈ capabilitySets) (info : List UInt8) :
    Keeps Sound (parseInfo arch dev info) fun dev => dev.caps ∈ capabilitySets := by
  unfold parseInfo
  split
  split_ifs
  · exact keeps_ofOption fun dev' h => parseOptions_caps hdev h
  · exact (keeps_ofOption fun caps h => parseProto_mem h).bind fun caps hcaps =>
      keeps_setBringupFirst.bind fun _ _ => keeps_pure hcaps
  · exact keeps_pure hdev

lemma keeps_addOneDev (hdev : dev.caps ∈ capabilitySets) (h0 : dev.caps ≠ 0) :
    Keeps Sound (addOneDev host dev) fun _ => True := by
  refine (keeps_ask _).bind fun ok _ => ?_
  split_ifs
  · exact (keeps_ask _).bind fun now _ => keeps_access fun s hs =>
      ⟨hs.add ⟨hdev, h0, rfl, rfl, rfl⟩ rfl, trivial⟩
  · exact keeps_pure trivial

lemma keeps_completeNew (dev : Candidate) : Keeps Sound (completeNew dev) fun _ => True :=
  keeps_access fun _ hs => ⟨hs.complete _ rfl, trivial⟩

lemma keeps_bringupDevice (hdev : dev.caps ∈ capabilitySets) :
    Keeps Sound (bringupDevice host dev) fun _ => True := by
  refine (keeps_ask _).bind fun up _ => ?_
  split_ifs with hup h0
  · exact keeps_addOneDev hdev h0
  · exact keeps_completeNew dev
  · exact keeps_pure trivial

/-- What `add_device` returns. -/
def Usable (x : Option Candidate) : Prop := ∀ dev, x = some dev → dev.caps ∈ capabilitySets

lemma keeps_addAllDevices {add : List UInt8 → Call Globals (Option Candidate)}
    (hadd : ∀ info, Keeps Sound (add info) Usable) {template : Candidate}
    (htemplate : template.caps ∈ capabilitySets) :
    Keeps Sound (addAllDevices arch host add template) fun _ => True := by
  refine (keeps_ask _).bind fun d _ => keeps_forM fun de _ => ?_
  split_ifs
  · refine (hadd _).bind fun x hx => ?_
    rcases x with _ | dev
    · exact keeps_pure trivial
    · exact keeps_bringupDevice (and_mem_capabilitySets (hx dev rfl) htemplate)
  · exact keeps_pure trivial

lemma keeps_parseDevice {addAll : Candidate → Call Globals Unit}
    (hall : ∀ dev : Candidate, dev.caps ∈ capabilitySets → Keeps Sound (addAll dev) fun _ => True)
    (hdev : dev.caps ∈ capabilitySets) (info : List UInt8) :
    Keeps Sound (parseDevice arch addAll dev info) fun r => r.1.caps ∈ capabilitySets := by
  refine (keeps_parseInfo hdev info).bind fun dev' hdev' => ?_
  split_ifs
  · exact (hall dev' hdev').bind fun _ _ => keeps_setBringupFirst.bind fun _ _ => keeps_pure hdev'
  · exact keeps_pure hdev'

lemma keeps_addDevice : ∀ (depth : ℕ) (info : List UInt8),
    Keeps Sound (addDevice arch host depth info) Usable
  | 0, _ => keeps_failure
  | depth + 1, info => by
    refine (keeps_ask _).bind fun ok _ => ?_
    split_ifs
    swap
    · exact keeps_failure
    have hcaps : Keeps Sound (access fun s : Globals => (s.defaultCaps, s))
        fun caps => caps ∈ capabilitySets := keeps_access fun s hs => ⟨hs, hs.default⟩
    refine hcaps.bind fun caps hcaps => ?_
    refine (keeps_parseDevice (fun dev hdev => keeps_addAllDevices (keeps_addDevice depth) hdev)
      hcaps info).bind fun r hr => ?_
    obtain ⟨dev, one⟩ := r
    dsimp only
    split_ifs
    · refine (keeps_ask _).bind fun a _ => keeps_pure fun dev2 h => ?_
      obtain ⟨dev1, h₁, h₂⟩ := Option.bind_eq_some_iff.1 h
      exact bootpInitIf_caps (by rw [netdevInitIf_caps h₁]; exact hr) h₂
    · exact keeps_pure fun dev h => nomatch h

lemma keeps_handleArg (depth : ℕ) (arg : Arg) :
    Keeps Sound (handleArg arch host depth arg) fun _ => True := by
  cases arg with
  | caps optarg =>
    exact (keeps_ofOption fun caps h => parseProto_mem h).bind fun caps hcaps =>
      keeps_access fun s hs => ⟨⟨hcaps, hs.made, hs.distinct, hs.ifaces⟩, trivial⟩
  | device info =>
    refine (keeps_addDevice depth info).bind fun x hx => ?_
    rcases x with _ | dev
    · exact keeps_pure trivial
    · exact keeps_bringupDevice (hx dev rfl)

/-- **Every set-up keeps the invariant**, whether it is given up or not. -/
theorem setUp_sound (arch : Arch) (host : ℕ → Answers) (depth : ℕ) (args : List Arg) :
    Sound (setUp arch host depth args) :=
  (keeps_forM (fun arg _ => keeps_handleArg depth arg) _ Sound.start).1

end

/-! ### The start of the runs -/

def entryOf (s : State) : Entry :=
  ⟨some s.state, some s.restartState, s.expire, s.retryPeriod, s.dev⟩

lemma Made.exists_added {dev : Candidate} {e : Entry} (h : Made dev e)
    (hcaps : dev.caps ≠ CAP_RARP) : ∃ s, entryOf s = e ∧ Added s := by
  obtain ⟨st, hst, hactive, -⟩ | ⟨-, hrarp⟩ := startState_cases h.caps h.nonzero
  · refine ⟨⟨st, st, e.expire, e.retryPeriod, e.dev⟩, ?_, hactive, rfl, h.retry⟩
    have hstate : e.state = some st := h.state.trans hst
    have hrestart : e.restartState = some st := h.restart.trans hst
    rw [entryOf, ← hstate]
    exact congrArg (Entry.mk e.state · e.expire e.retryPeriod e.dev) (hstate.trans hrestart.symm)
  · exact absurd hrarp hcaps

/-- **Without a device that has `CAP_RARP` alone, the program starts as its runs assume.** -/
theorem start_of_sound {s : Globals} (h : Sound s)
    (hcaps : ∀ e ∈ s.slist, ∀ dev, s.devs[e.dev]? = some dev → dev.caps ≠ CAP_RARP)
    (sock : List Packet.SockItem) : ∃ slist : List State, slist.map entryOf = s.slist ∧
      Start ⟨slist, netdevs s.devs, s.ifaces, s.configured, sock, []⟩ := by
  obtain ⟨added, hmap⟩ :
      s.slist ∈ Set.range (List.map fun st : {st // Added st} => entryOf st) := by
    rw [Set.range_list_map]
    intro e he
    obtain ⟨dev, hdev, hmade⟩ := h.made e he
    obtain ⟨st, rfl, hst⟩ := hmade.exists_added (hcaps e he dev hdev)
    exact ⟨⟨st, hst⟩, rfl⟩
  have hslist : (added.map Subtype.val).map entryOf = s.slist := by
    rw [← hmap, map_map]
    rfl
  have hdevs : (added.map Subtype.val).map State.dev = s.slist.map Entry.dev := by
    rw [← hslist, map_map, map_map, map_map]
    rfl
  obtain ⟨l, hl, hnd, -, hout⟩ := h.ifaces
  refine ⟨added.map Subtype.val, hslist, fun st hst => ?_, by rw [hdevs]; exact h.distinct, rfl, l,
    hl, hnd, fun st hst => ?_⟩
  · obtain ⟨x, -, rfl⟩ := mem_map.1 hst
    exact x.2
  · exact hout (entryOf st) (by rw [← hslist]; exact mem_map_of_mem hst)

/-! ### The first timeout -/

/-- `DEVST_…`. -/
def code : DevState → ℤ
  | .up => 0
  | .bootp => 1
  | .dhcpdisc => 2
  | .dhcpreq => 3
  | .complete => 4
  | .error => 5

/-- The numbers in a `struct state`. -/
structure Cells where
  state : ℤ
  restartState : ℤ
  expire : ℤ
  retryPeriod : ℤ

/-- The packets that `process_timeout_event` sends. -/
inductive Sent
  | bootpRequest | dhcpDiscover | dhcpRequest
  deriving DecidableEq

/-- `process_timeout_event` on whatever numbers there are, and what it sends. -/
def timeoutCells (now : ℤ) (running : Bool) (ret : ℤ) (c : Cells) : Cells × Option Sent :=
  if ¬ running then ({ c with expire := now + 1, state := c.restartState }, none)
  else
    let c := if c.state = code .error then { c with state := c.restartState } else c
    let (c, sent, ret) :=
      if c.state = code .bootp then
        ({ c with restartState := code .bootp }, some Sent.bootpRequest, ret)
      else if c.state = code .dhcpdisc then
        ({ c with restartState := code .dhcpdisc }, some Sent.dhcpDiscover, ret)
      else if c.state = code .dhcpreq then
        ({ c with restartState := code .dhcpdisc }, some Sent.dhcpRequest, ret)
      else (c, none, 0)
    if ret = -1 then ({ c with state := code .error, expire := now + 10 }, sent)
    else
      let retry := c.retryPeriod * 2
      ({ c with
        expire := now + c.retryPeriod, retryPeriod := if retry > 60 then 60 else retry }, sent)

def cellsOf (s : State) : Cells := ⟨code s.state, code s.restartState, s.expire, s.retryPeriod⟩

/-- **On the states, it is `process_timeout_event` of the runs.** -/
theorem timeoutCells_cellsOf (now : ℤ) (running : Bool) (ret : ℤ) (s : State) (w : World) :
    (timeoutCells now running ret (cellsOf s)).1 =
      cellsOf (processTimeoutEvent now running ret s w).1 := by
  obtain ⟨st, restart, expire, retry, d⟩ := s
  cases running with
  | false => rfl
  | true =>
    by_cases hret : ret = -1
    · cases st <;> cases restart <;>
        simp [timeoutCells, processTimeoutEvent, cellsOf, code, hret]
    · cases st <;> cases restart <;>
        simp [timeoutCells, processTimeoutEvent, cellsOf, code, hret]

/-- What is in the memory of an entry, if `malloc` gave it with `old` in its first two fields. -/
def memoryOf (old : ℤ × ℤ) (e : Entry) : Cells :=
  ⟨e.state.elim old.1 code, e.restartState.elim old.2 code, e.expire, e.retryPeriod⟩

def linkDown (times : List ℤ) (c : Cells) : Cells :=
  times.foldl (fun c now => (timeoutCells now false 0 c).1) c

/-- A packet is sent at the first timeout with the link up. -/
def SendsFirst (e : Entry) : Prop := ∀ (old : ℤ × ℤ) (down : List ℤ) (now ret : ℤ),
  (timeoutCells now true ret (linkDown down (memoryOf old e))).2 ≠ none

/-- Both fields are set to one of the three states. -/
def Selected (e : Entry) : Prop :=
  (∃ st, e.state = some st ∧ Active st) ∧ ∃ st, e.restartState = some st ∧ Active st

lemma linkDown_state {v : ℤ} : ∀ (times : List ℤ) {c : Cells}, c.state = v →
    c.restartState = v → (linkDown times c).state = v
  | [], _, hs, _ => hs
  | now :: times, c, _, hr => linkDown_state times
      (c := (timeoutCells now false 0 c).1) hr hr

lemma timeoutCells_sends {st : DevState} (h : Active st) (now ret : ℤ) {c : Cells}
    (hc : c.state = code st) : (timeoutCells now true ret c).2 ≠ none := by
  obtain ⟨state, restart, expire, retry⟩ := c
  obtain rfl : state = code st := hc
  by_cases hret : ret = -1
  · rcases h with rfl | rfl | rfl <;> simp [timeoutCells, code, hret]
  · rcases h with rfl | rfl | rfl <;> simp [timeoutCells, code, hret]

/-- **The first packet**: for every entry of every set-up, a state is selected and a packet is sent
at the first timeout, unless the device has `CAP_RARP` alone. -/
theorem first_packet_iff {arch : Arch} {host : ℕ → Answers} {depth : ℕ} {args : List Arg} {i : ℕ}
    {e : Entry} (hi : (setUp arch host depth args).slist[i]? = some e) :
    ∃ dev, (setUp arch host depth args).devs[e.dev]? = some dev ∧ dev.caps ≠ 0 ∧
      (Selected e ∧ SendsFirst e ↔ dev.caps ≠ CAP_RARP) := by
  obtain ⟨dev, hdev, hmade⟩ := (setUp_sound arch host depth args).made e (mem_of_getElem? hi)
  refine ⟨dev, hdev, hmade.nonzero, ?_⟩
  obtain ⟨st, hst, hactive, hcaps⟩ | ⟨hnone, hcaps⟩ := startState_cases hmade.caps hmade.nonzero
  · have hstate : e.state = some st := hmade.state.trans hst
    have hrestart : e.restartState = some st := hmade.restart.trans hst
    refine iff_of_true ⟨⟨⟨st, hstate, hactive⟩, st, hrestart, hactive⟩, ?_⟩ hcaps
    intro old down now ret
    refine timeoutCells_sends hactive now ret (linkDown_state down ?_ ?_)
    · simp [memoryOf, hstate]
    · simp [memoryOf, hrestart]
  · refine iff_of_false ?_ fun h => h hcaps
    rintro ⟨⟨⟨st, hst, -⟩, -⟩, -⟩
    rw [hmade.state, hnone] at hst
    cases hst

def oneDevice (mtu : ℤ) (_ : ℕ) : Answers where
  now := 0
  malloc := true
  ioctls := ⟨true, true, some mtu, some (ARPHRD_ETHER, Vector.replicate 16 0), none, none, none⟩
  flags := some 0x2
  lrand48 := INADDR_ANY
  up := true
  dir := some [⟨[chr 'e', chr 't', chr 'h', chr '0'], some [chr '2']⟩]

/-- No state is selected for `eth0` with an MTU below 364, nor with the operand `ip=rarp`. -/
theorem rarp_alone_unset :
    (setUp arch64 (oneDevice 300) 1 [.device [chr 'e', chr 't', chr 'h', chr '0']]).slist =
        [⟨none, none, 0, 1, 0⟩] ∧
      (setUp arch64 (oneDevice 1500) 2
        [.device [chr 'i', chr 'p', chr '=', chr 'r', chr 'a', chr 'r', chr 'p']]).slist =
        [⟨none, none, 0, 1, 0⟩] := by
  decide +kernel

/-- A packet is sent for `eth0` with the default capabilities. -/
theorem first_packet_iff_eth0 :
    let s := setUp arch64 (oneDevice 1500) 1 [.device [chr 'e', chr 't', chr 'h', chr '0']]
    let e : Entry := ⟨some .dhcpdisc, some .dhcpdisc, 0, 1, 0⟩
    s.slist[0]? = some e ∧ ∃ dev, s.devs[0]? = some dev ∧ dev.caps ≠ 0 ∧
      (Selected e ∧ SendsFirst e ↔ dev.caps ≠ CAP_RARP) := by
  intro s e
  have hi : s.slist[0]? = some e := by decide +kernel
  exact ⟨hi, first_packet_iff hi⟩

end Klibc.Ipconfig.FirstPacket
