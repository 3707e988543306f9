import Klibc.Ipconfig.Main
import Klibc.Ipconfig.Walkers

/-! # Runs of the state machine

What one event can do to a device is said once (`receive_cases`, `timeout_cases`); the results are
about every state some run leads to. `complete_only_by_reply`: a device becomes complete only by a
reply to it, received in the right state, and with the address of that reply; that the reply is an
acknowledgement needs that `dhcp_parse` does not misread its type. `reach_invariants`:
the states and timers stay in their ranges, no device leaves `DEVST_COMPLETE`, `complete_device` is
called at most once for a device, and `ifaces` stays a list without repetition. -/

namespace Klibc.Ipconfig.Runs

open Device BootpProto DhcpProto List Packet Main Lib.Transition
open Framing (Framed)
open Walkers (Carries Scans TypeIntact)

/-- The states a device is added with, and receives in. -/
def Active (st : DevState) : Prop := st = .bootp ∨ st = .dhcpdisc ∨ st = .dhcpreq

instance (st : DevState) : Decidable (Active st) := by unfold Active; infer_instance

def Working (st : DevState) : Prop := Active st ∨ st = .complete ∨ st = .error

/-! ### One receive event -/

/-- The world after a receive function left `dev` and `q`. -/
def afterRecv (w : World) (d : ℕ) (dev : Netdev) (q : List SockItem) : World :=
  { w.setDev d dev with sock := q }

def Receives (ports : Ports) (env : RecvEnv) (st : DevState) (dev : Netdev) (q : List SockItem)
    (ret : ℤ) (dev' : Netdev) (q' : List SockItem) : Prop :=
  (st = .bootp ∧ bootpRecvReply ports env dev q = some (ret, dev', q')) ∨
    ((st = .dhcpdisc ∨ st = .dhcpreq) ∧ dhcpRecv ports env dev q = some (ret, dev', q'))

lemma bootpSwitch_cases (ret : ℤ) : ((bootpSwitch ret).1 = .complete ∧ ret = 1) ∨
    (Active (bootpSwitch ret).1 ∨ (bootpSwitch ret).1 = .error) := by
  unfold bootpSwitch; split_ifs <;> simp_all [Active]

lemma discSwitch_cases (ret : ℤ) : Active (discSwitch ret).1 ∨ (discSwitch ret).1 = .error := by
  unfold discSwitch; split_ifs <;> simp [Active]

lemma reqSwitch_cases (ret : ℤ) : ((reqSwitch ret).1 = .complete ∧ ret = 5) ∨
    (Active (reqSwitch ret).1 ∨ (reqSwitch ret).1 = .error) := by
  unfold reqSwitch; split_ifs <;> simp_all [Active]

variable {ports : Ports} {s : State} {sys sys' : Sys} {i : ℕ} {now : ℤ} {e : Event}

lemma finishReceive_of_ne (now : ℤ) (w : World) (h : Bool) (hs : s.state ≠ .complete) :
    ∃ x, finishReceive now s w h = ({ s with expire := x }, w, h) := by
  obtain ⟨st, r, e, p, d⟩ := s
  cases st with
  | complete => exact absurd rfl hs
  | error => exact ⟨now + 10, rfl⟩
  | up | bootp | dhcpdisc | dhcpreq => exact ⟨e, rfl⟩

variable {l : List State} {env : RecvEnv} {w w' : World} {sys : Sys} {h : Bool}

variable {ret : ℤ} {s' s t : State}

lemma receiveCase_cases {recv : Netdev → List SockItem → Option (ℤ × Netdev × List SockItem)}
    {restart : DevState} {act : ℤ → DevState × Bool} {c : ℤ}
    (hact : ∀ ret, (act ret).1 = .complete ∧ ret = c ∨ (Active (act ret).1 ∨ (act ret).1 = .error))
    (hp : receiveCase recv restart act now s w = some (s', w', h)) :
    ∃ ret dev q st x, recv (w.devs s.dev) w.sock = some (ret, dev, q) ∧ st = (act ret).1 ∧
      s' = { s with state := st, restartState := restart, expire := x } ∧
      ((st = .complete ∧ w' = completeDevice s.dev (afterRecv w s.dev dev q) ∧ ret = c) ∨
       ((Active st ∨ st = .error) ∧ w' = afterRecv w s.dev dev q)) := by
  unfold receiveCase at hp
  rcases hr : recv (w.devs s.dev) w.sock with _ | ⟨ret, dev, q⟩
  · rw [hr] at hp; cases hp
  · rw [hr] at hp
    have hf := Option.some.inj hp
    rcases hact ret with ⟨hc, hret⟩ | hst
    · refine ⟨ret, dev, q, _, s.expire, rfl, rfl, ?_⟩
      rw [finishReceive, hc] at hf
      simp only [Prod.mk.injEq] at hf
      obtain ⟨rfl, rfl, -⟩ := hf
      rw [hc]
      exact ⟨rfl, Or.inl ⟨rfl, rfl, hret⟩⟩
    · have hne : (act ret).1 ≠ .complete := by
        rintro hc
        rw [hc] at hst
        simp [Active] at hst
      obtain ⟨x, hx⟩ := finishReceive_of_ne now (afterRecv w s.dev dev q) (act ret).2
        (s := { s with restartState := restart, state := (act ret).1 }) hne
      rw [afterRecv] at hx
      rw [hx] at hf
      simp only [Prod.mk.injEq] at hf
      obtain ⟨rfl, rfl, -⟩ := hf
      exact ⟨ret, dev, q, _, x, rfl, rfl, rfl, Or.inr ⟨hst, rfl⟩⟩

/-- **What a receive event can do**: nothing; or it leaves the device in another state than
complete; or it completes the device, in `DEVST_BOOTP` on a reply, in `DEVST_DHCPREQ` on an
acknowledgement. -/
theorem receive_cases (hp : processReceiveEvent ports env now s w = some (s', w', h)) :
    (¬ Active s.state ∧ s' = s ∧ w' = w) ∨
    ∃ ret dev q st restart x, Active s.state ∧
      Receives ports env s.state (w.devs s.dev) w.sock ret dev q ∧ Active restart ∧
      s' = { s with state := st, restartState := restart, expire := x } ∧
      ((st = .complete ∧ w' = completeDevice s.dev (afterRecv w s.dev dev q) ∧
        (s.state = .bootp ∧ ret = 1 ∨ s.state = .dhcpreq ∧ ret = 5)) ∨
       ((Active st ∨ st = .error) ∧ w' = afterRecv w s.dev dev q)) := by
  unfold processReceiveEvent at hp
  split at hp
  case h_3 hst =>
    obtain ⟨ret, dev, q, st, x, hr, -, hs', hw⟩ := receiveCase_cases bootpSwitch_cases hp
    refine Or.inr ⟨ret, dev, q, st, .bootp, x, by simp [hst, Active], Or.inl ⟨hst, hr⟩,
      by simp [Active], hs', ?_⟩
    rcases hw with ⟨hc, hw, hret⟩ | hw
    · exact Or.inl ⟨hc, hw, Or.inl ⟨hst, hret⟩⟩
    · exact Or.inr hw
  case h_4 hst =>
    obtain ⟨ret, dev, q, st, x, hr, hact, hs', hw⟩ :=
      receiveCase_cases (c := 0) (fun ret => Or.inr (discSwitch_cases ret)) hp
    refine Or.inr ⟨ret, dev, q, st, .dhcpdisc, x, by simp [hst, Active],
      Or.inr ⟨Or.inl hst, hr⟩, by simp [Active], hs', ?_⟩
    rcases hw with ⟨hc, -, -⟩ | hw
    · have := discSwitch_cases ret
      rw [← hact, hc] at this
      simp [Active] at this
    · exact Or.inr hw
  case h_5 hst =>
    obtain ⟨ret, dev, q, st, x, hr, -, hs', hw⟩ := receiveCase_cases reqSwitch_cases hp
    refine Or.inr ⟨ret, dev, q, st, .dhcpdisc, x, by simp [hst, Active],
      Or.inr ⟨Or.inr hst, hr⟩, by simp [Active], hs', ?_⟩
    rcases hw with ⟨hc, hw, hret⟩ | hw
    · exact Or.inl ⟨hc, hw, Or.inr ⟨hst, hret⟩⟩
    · exact Or.inr hw
  -- in the other states the event returns at once
  all_goals
    rename_i hst
    simp only [Option.some.injEq, Prod.mk.injEq] at hp
    exact Or.inl ⟨by simp [hst, Active], hp.1.symm, hp.2.1.symm⟩

/-! ### One timeout event -/

lemma setDev_self (w : World) (d : ℕ) : w.setDev d (w.devs d) = w := by simp [World.setDev]

/-- The ways a timeout event leaves a device, and the world around it. -/
def TimesOut (now : ℤ) (s : State) (w : World) (r : State × World) : Prop :=
  ∃ st restart x p dev, r.1 =
      { s with state := st, restartState := restart, expire := x, retryPeriod := p } ∧
    (Active st ∨ st = .error) ∧ Active restart ∧
    (p = s.retryPeriod ∨ p = min (s.retryPeriod * 2) 60) ∧
    r.2 = w.setDev s.dev dev ∧ dev.next = (w.devs s.dev).next ∧ (1 ≤ s.retryPeriod → now < x)

lemma timesOut_sent (now ret : ℤ) (restart : DevState) (dev : Netdev) (hst : Active s.state)
    (hr : Active restart) (hdev : dev.next = (w.devs s.dev).next) :
    TimesOut now s w (if ret = -1 then
      ({ s with restartState := restart, state := .error, expire := now + 10 }, w.setDev s.dev dev)
    else ({ s with
      restartState := restart, expire := now + s.retryPeriod,
      retryPeriod := if s.retryPeriod * 2 > 60 then 60 else s.retryPeriod * 2 },
        w.setDev s.dev dev)) := by
  split_ifs with hret hp
  · exact ⟨_, _, _, _, dev, rfl, Or.inr rfl, hr, Or.inl rfl, rfl, hdev, by omega⟩
  · exact ⟨_, _, _, _, dev, rfl, Or.inl hst, hr, Or.inr (by omega), rfl, hdev, by omega⟩
  · exact ⟨_, _, _, _, dev, rfl, Or.inl hst, hr, Or.inr (by omega), rfl, hdev, by omega⟩

lemma timeout_send (hst : Active s.state) :
    TimesOut now s w (processTimeoutEvent now true ret s w) := by
  obtain ⟨st, r, e, p, d⟩ := s
  have hact := hst
  rcases hst with rfl | rfl | rfl
  · simpa [processTimeoutEvent, setDev_self] using
      timesOut_sent now ret .bootp (w.devs d) hact (by decide) rfl
  · simpa [processTimeoutEvent] using timesOut_sent (w := w) now ret .dhcpdisc
      { w.devs d with ipAddr := INADDR_ANY, ipGateway := INADDR_ANY } hact (by decide) rfl
  · simpa [processTimeoutEvent, setDev_self] using
      timesOut_sent now ret .dhcpdisc (w.devs d) hact (by decide) rfl

/-- **What a timeout event can do** to a device that is not complete. -/
theorem timeout_cases (now : ℤ) (running : Bool) (ret : ℤ) (w : World)
    (hst : Active s.state ∨ s.state = .error) (hr : Active s.restartState) :
    TimesOut now s w (processTimeoutEvent now running ret s w) := by
  cases running with
  | false =>
    refine ⟨s.restartState, s.restartState, now + 1, s.retryPeriod, w.devs s.dev, ?_, Or.inl hr, hr,
      Or.inl rfl, ?_, rfl, by omega⟩
    · simp [processTimeoutEvent]
    · simp [processTimeoutEvent, setDev_self]
  | true =>
    rcases hst with hst | hst
    · exact timeout_send hst
    · -- after an error the event is that of the restart state
      have hrs : processTimeoutEvent now true ret s w =
          processTimeoutEvent now true ret { s with state := s.restartState } w := by
        obtain ⟨st, r, e, p, d⟩ := s
        simp only at hst hr
        subst hst
        rcases hr with rfl | rfl | rfl <;> rfl
      rw [hrs]
      exact timeout_send (s := { s with state := s.restartState }) hr

/-! ### One device along a run -/

lemma step_at (h : Step ports sys e sys') (hs : sys.slist[i]? = some s) :
    ∃ s', sys'.slist[i]? = some s' ∧ (s' = s ∨
      (∃ now env hd, e = .receive i now env ∧
        processReceiveEvent ports env now s sys.world = some (s', sys'.world, hd)) ∨
      (∃ now running ret, e = .timeout i now running ret ∧ s.state ≠ .complete ∧
        processTimeoutEvent now running ret s sys.world = (s', sys'.world))) := by
  have hi : i < sys.slist.length := (List.getElem?_eq_some_iff.mp hs).1
  cases h with
  | arrive x => exact ⟨s, hs, Or.inl rfl⟩
  | @receive j now env t t' w' hd ht hp =>
    by_cases hij : j = i
    · subst hij
      rw [hs] at ht
      obtain rfl := Option.some.inj ht
      exact ⟨t', by simp [hi], Or.inr (Or.inl ⟨now, env, hd, rfl, hp⟩)⟩
    · exact ⟨s, by rw [getElem?_set_ne hij]; exact hs, Or.inl rfl⟩
  | @timeout j now running ret t ht hc =>
    by_cases hij : j = i
    · subst hij
      rw [hs] at ht
      obtain rfl := Option.some.inj ht
      exact ⟨(processTimeoutEvent now running ret s sys.world).1, by simp [hi],
        Or.inr (Or.inr ⟨now, running, ret, rfl, hc, rfl⟩)⟩
    · exact ⟨s, by rw [getElem?_set_ne hij]; exact hs, Or.inl rfl⟩

/-- An entry of `slist` after it was added. -/
structure Sound (s : State) : Prop where
  state : Working s.state
  restart : Active s.restartState
  retry : 1 ≤ s.retryPeriod ∧ s.retryPeriod ≤ 60

lemma Sound.of_receive (hs : Sound s)
    (hp : processReceiveEvent ports env now s w = some (s', w', h)) : Sound s' := by
  rcases receive_cases hp with ⟨-, rfl, -⟩ | ⟨ret, dev, q, st, restart, x, -, -, hr, rfl, hst⟩
  · exact hs
  · refine ⟨?_, hr, hs.retry⟩
    rcases hst with ⟨rfl, -⟩ | ⟨h | rfl, -⟩
    · exact Or.inr (Or.inl rfl)
    · exact Or.inl h
    · exact Or.inr (Or.inr rfl)

lemma Sound.active_or_error (hs : Sound s) (hc : s.state ≠ .complete) :
    Active s.state ∨ s.state = .error := by
  rcases hs.state with h | h | h
  · exact Or.inl h
  · exact absurd h hc
  · exact Or.inr h

lemma Sound.of_timeout (hs : Sound s) (now : ℤ) (running : Bool) (ret : ℤ) (w : World)
    (hc : s.state ≠ .complete) : Sound (processTimeoutEvent now running ret s w).1 := by
  obtain ⟨st, restart, x, p, dev, h1, hst, hr, hp, -⟩ :=
    timeout_cases now running ret w (hs.active_or_error hc) hs.restart
  have hretry := hs.retry
  rw [h1]
  refine ⟨?_, hr, ?_⟩
  · rcases hst with h | rfl
    · exact Or.inl h
    · exact Or.inr (Or.inr rfl)
  · rcases hp with rfl | rfl
    · exact hretry
    · simp only; omega

lemma Sound.of_step
    (h : Step ports sys e sys') (hi : sys.slist[i]? = some s) (hi' : sys'.slist[i]? = some s')
    (hs : Sound s) : Sound s' := by
  obtain ⟨t, ht, hcase⟩ := step_at h hi
  rw [hi'] at ht
  obtain rfl := Option.some.inj ht
  rcases hcase with rfl | ⟨now, env, hd, -, hp⟩ | ⟨now, running, ret, -, hc, hp⟩
  · exact hs
  · exact hs.of_receive hp
  · have := hs.of_timeout now running ret sys.world hc
    rwa [hp] at this

lemma Sound.of_steps {es : List Event}
    (h : Steps (Step ports) sys es sys') (hi : sys.slist[i]? = some s) (hs : Sound s) :
    ∃ s', sys'.slist[i]? = some s' ∧ Sound s' :=
  h.induct (I := fun sys => ∃ s, sys.slist[i]? = some s ∧ Sound s)
    (fun _ _ _ ⟨_, hi, hs⟩ hstep => by
      obtain ⟨s', hi', -⟩ := step_at hstep hi
      exact ⟨s', hi', Sound.of_step hstep hi hi' hs⟩) ⟨s, hi, hs⟩

/-- The entry `add_one_dev` makes: state and restart state are the same, one of `DEVST_BOOTP`,
`DEVST_DHCPDISC` and `DEVST_DHCPREQ`, and the first retry is after one second. -/
structure Added (s : State) : Prop where
  state : Active s.state
  restart : s.restartState = s.state
  retry : s.retryPeriod = 1

lemma Added.sound (h : Added s) : Sound s :=
  ⟨Or.inl h.state, by rw [h.restart]; exact h.state, by rw [h.retry]; omega⟩

/-- A receive function that returns `1` in `DEVST_BOOTP`, or `DHCPACK` in `DEVST_DHCPREQ`, was given
a reply to the device. -/
theorem receives_reply {st : DevState} {dev dev' : Netdev}
    {q q' : List SockItem} (h : Receives ports env st dev q ret dev' q')
    (hret : st = .bootp ∧ ret = 1 ∨ st = .dhcpreq ∧ ret = 5) :
    ∃ bytes, q = .datagram bytes :: q' ∧ IsReplyTo dev bytes ∧
      (st = .bootp ∨ st = .dhcpreq ∧
        (dhcpScan (extsOf 1500 env bytes) (extlenOf 1500 bytes)).type = DHCPACK) ∧
      dev'.ipAddr = (bootpHdrOf bytes).yiaddr := by
  rcases h with ⟨rfl, h⟩ | ⟨hst, h⟩
  · have hret1 : ret = 1 := by simpa using hret
    rcases recvReply_cases h with ⟨h1, -⟩ | ⟨bytes, hq, hrep, hp⟩
    · omega
    · simp only [Prod.mk.injEq] at hp
      exact ⟨bytes, hq, hrep, Or.inl rfl, by rw [hp.2, bootpParse_ipAddr]⟩
  · have hst5 : st = .dhcpreq ∧ ret = 5 := by
      rcases hret with ⟨h1, -⟩ | h1
      · rcases hst with h2 | h2 <;> rw [h1] at h2 <;> cases h2
      · exact h1
    rcases recvReply_cases h with ⟨h1, -⟩ | ⟨bytes, hq, hrep, hp⟩
    · omega
    · simp only [Prod.mk.injEq] at hp
      obtain ⟨hack, haddr⟩ := dhcpParse_ack (hp.1.symm.trans hst5.2)
      exact ⟨bytes, hq, hrep, Or.inr ⟨hst5.1, hack⟩, by rw [hp.2]; exact haddr⟩

/-- **A device becomes complete only by a reply.** In every run from a state in which the device was
added, the event that completes it is a receive event of that device; the datagram at the head of
the socket is a reply with its transaction id and hardware address, received in `DEVST_BOOTP`, or an
acknowledgement received in `DEVST_DHCPREQ`; and `complete_device` is called with the `yiaddr` of
that datagram as the address. The type of what is received in `DEVST_DHCPREQ` has to be intact. -/
theorem complete_only_by_reply (ports : Ports) (sys0 sys sys' : Sys) (es : List Event) (e : Event)
    (i : ℕ) (s0 s s' : State) (h0 : sys0.slist[i]? = some s0) (hadd : Added s0)
    (hrun : Steps (Step ports) sys0 es sys) (hstep : Step ports sys e sys')
    (hs : sys.slist[i]? = some s) (hs' : sys'.slist[i]? = some s') (hne : s.state ≠ .complete)
    (hc : s'.state = .complete)
    (hintact : ∀ now env bytes rest, e = .receive i now env →
      sys.world.sock = .datagram bytes :: rest → s.state = .dhcpreq →
      TypeIntact (extsOf 1500 env bytes) (extlenOf 1500 bytes)) :
    ∃ now env bytes rest dev, e = .receive i now env ∧
      sys.world.sock = .datagram bytes :: rest ∧ IsReplyTo (sys.world.devs s.dev) bytes ∧
      (s.state = .bootp ∨ s.state = .dhcpreq ∧
        Carries (extsOf 1500 env bytes) (extlenOf 1500 bytes) DHCPACK) ∧
      sys'.world.completed = sys.world.completed ++ [(s.dev, dev)] ∧
      dev.ipAddr = (bootpHdrOf bytes).yiaddr := by
  obtain ⟨t, ht, hsound⟩ := Sound.of_steps hrun h0 hadd.sound
  rw [hs] at ht
  obtain rfl := Option.some.inj ht
  obtain ⟨t', ht', hcase⟩ := step_at hstep hs
  rw [hs'] at ht'
  obtain rfl := Option.some.inj ht'
  rcases hcase with rfl | ⟨now, env, hd, rfl, hp⟩ | ⟨now, running, ret, -, -, hp⟩
  · exact absurd hc hne
  · rcases receive_cases hp with ⟨-, rfl, -⟩ | ⟨ret, dev, q, st, restart, x, -, hrecv, -, rfl, hst⟩
    · exact absurd hc hne
    · rcases hst with ⟨-, hw, hret⟩ | ⟨hst, -⟩
      · obtain ⟨bytes, hq, hrep, hack, haddr⟩ := receives_reply hrecv hret
        have hcarries : s.state = .bootp ∨ s.state = .dhcpreq ∧
            Carries (extsOf 1500 env bytes) (extlenOf 1500 bytes) DHCPACK :=
          hack.imp_right fun ⟨hst, htype⟩ => ⟨hst,
            htype ▸ (hintact now env bytes q rfl hq hst).carries (by rw [htype]; decide)⟩
        refine ⟨now, env, bytes, q, dev, rfl, hq, hrep, hcarries, ?_, haddr⟩
        rw [hw]
        simp [completeDevice, afterRecv, World.setDev]
      · simp only at hc
        subst hc
        simp [Active] at hst
  · obtain ⟨st, restart, x, p, dev, h1, hst, -⟩ :=
      timeout_cases now running ret sys.world (hsound.active_or_error hne) hsound.restart
    rw [hp] at h1
    simp only at h1
    subst h1
    simp only at hc
    subst hc
    simp [Active] at hst

/-- The headers of a DHCP message with `yiaddr` 10.0.0.6 and twelve bytes of options, to a device
with transaction id and hardware address 0. -/
def replyHeaders : List UInt8 :=
  [69, 0, 1, 20, 0, 0, 0, 0, 64, 17, 111, 217, 10, 0, 0, 1, 255, 255, 255, 255] ++
    [0, 67, 0, 68, 1, 0, 0, 0] ++ [2, 1, 6, 0] ++ List.replicate 12 0 ++ [10, 0, 0, 6] ++
    List.replicate 216 0

def dhcpReply (opts : List UInt8) : List UInt8 := replyHeaders ++ opts

def calmEnv : RecvEnv := ⟨true, false, fun _ => 0, fun _ => 0⟩

lemma options_dhcpReply (opts : List UInt8) (h : opts.length = 12) :
    extsOf 1500 calmEnv (dhcpReply opts) = (fun k => opts.getD k 0) ∧
      extlenOf 1500 (dhcpReply opts) = 12 := by
  have hfront : replyHeaders.length = 264 := by decide +kernel
  have hlength : (dhcpReply opts).length = 276 := by rw [dhcpReply, length_append, hfront, h]
  have hfirst : (dhcpReply opts).getD 0 0 = 69 := rfl
  have hoff : bootpOff (dhcpReply opts) = 28 := by rw [bootpOff, hfirst]; rfl
  have hsize : 28 + sizeofBootpHdr = 264 := rfl
  have hlen : recvLen 1500 (dhcpReply opts) = 276 := by
    rw [recvLen, hlength, hoff]
    rfl
  refine ⟨funext fun k => ?_, by rw [extlenOf, hlen, hoff]; rfl⟩
  rw [extsOf, received, hlen, hlength, hoff, hsize, dhcpReply]
  by_cases hk : k < 12
  · rw [if_pos (by omega), getD_append_right _ _ _ _ (by omega), hfront, Nat.add_sub_cancel_left]
  · rw [if_neg (by omega), getD_eq_default _ _ (by omega)]
    rfl

/-- One device in `DEVST_DHCPREQ`, with such a message on the socket. -/
def requestSys (opts : List UInt8) : Sys :=
  ⟨[⟨.dhcpreq, .dhcpreq, 0, 1, 0⟩],
    ⟨fun _ => Netdev.zero, none, 0, [.datagram (dhcpReply opts)], []⟩⟩

/-- The options of a message of type `t`, and those of an offer with the bytes of an acknowledgement
behind its end option. -/
def typeOptions (t : UInt8) : List UInt8 := [99, 130, 83, 99, 53, 1, t, 255, 0, 0, 0, 0]

def offerThenAckOptions : List UInt8 := [99, 130, 83, 99, 53, 1, 2, 255, 0, 53, 1, 5]

lemma requestSys_receive (opts : List UInt8) (h : ((processReceiveEvent ⟨68, 67⟩ calmEnv 5
      ⟨.dhcpreq, .dhcpreq, 0, 1, 0⟩ (requestSys opts).world).map fun r => r.1.state) =
        some .complete) : ∃ s' w',
    Step ⟨68, 67⟩ (requestSys opts) (.receive 0 5 calmEnv) ⟨[s'], w'⟩ ∧ s'.state = .complete := by
  obtain ⟨⟨s', w', h⟩, hr, hc⟩ := Option.map_eq_some_iff.mp h
  exact ⟨s', w', Step.receive rfl hr, hc⟩

section
variable (t : UInt8)

lemma framed_typeOptions : Framed (fun k => (typeOptions t).getD k 0) 4 [4] 7 :=
  .opt (show (53 : UInt8) ≠ 0 by decide) (show (53 : UInt8) ≠ 255 by decide) (.fin rfl)

lemma scans_typeOptions : Scans (fun k => (typeOptions t).getD k 0) 12 7 [7] :=
  .opt (by decide) (show (255 : UInt8) ≠ 0 by decide) (.pad (show 9 < 12 by decide) rfl
    (.pad (show 10 < 12 by decide) rfl (.pad (show 11 < 12 by decide) rfl (.stop (le_refl 12)))))

end

lemma typeIntact_ack : TypeIntact (extsOf 1500 calmEnv (dhcpReply (typeOptions 5)))
    (extlenOf 1500 (dhcpReply (typeOptions 5))) := by
  rw [(options_dhcpReply _ rfl).1, (options_dhcpReply _ rfl).2]
  refine ⟨[4], 7, [7], framed_typeOptions 5, by decide, scans_typeOptions 5, fun o ho => ?_,
    fun t ht => absurd (show none = some t from ht) (by simp)⟩
  obtain rfl : 4 = o := Option.some.inj ho
  decide

theorem complete_only_by_reply_ack : ∃ (sys' : Sys) (dev : Netdev),
    Step ⟨68, 67⟩ (requestSys (typeOptions 5)) (.receive 0 5 calmEnv) sys' ∧
      sys'.world.completed = [(0, dev)] ∧ ∃ env bytes,
        Carries (extsOf 1500 env bytes) (extlenOf 1500 bytes) DHCPACK ∧
        dev.ipAddr = (bootpHdrOf bytes).yiaddr := by
  obtain ⟨s', w', hstep, hc⟩ := requestSys_receive (typeOptions 5) (by decide +kernel)
  have hadd : Added ⟨.dhcpreq, .dhcpreq, 0, 1, 0⟩ := ⟨by decide, rfl, rfl⟩
  obtain ⟨now, env, bytes, rest, dev, -, -, -, hack, hlog, haddr⟩ :=
    complete_only_by_reply ⟨68, 67⟩ (requestSys (typeOptions 5)) _ _ [] _ 0
      ⟨.dhcpreq, .dhcpreq, 0, 1, 0⟩ _ _ rfl hadd (Steps.nil _) hstep rfl rfl (by decide) hc (by
        rintro now env bytes rest he hsock -
        obtain ⟨-, -, rfl⟩ := Event.receive.inj he
        obtain ⟨hbytes, -⟩ := List.cons.inj hsock
        obtain rfl := SockItem.datagram.inj hbytes
        exact typeIntact_ack)
  exact ⟨_, dev, hstep, hlog, env, bytes, (hack.resolve_left (by decide)).2, haddr⟩

/-- **Bytes behind the end option complete the device**: an offer that is received in
`DEVST_DHCPREQ` is taken for an acknowledgement. -/
theorem complete_by_offer : Added ⟨.dhcpreq, .dhcpreq, 0, 1, 0⟩ ∧ (∃ s' w',
    Step ⟨68, 67⟩ (requestSys offerThenAckOptions) (.receive 0 5 calmEnv) ⟨[s'], w'⟩ ∧
      s'.state = .complete) ∧
    Carries (extsOf 1500 calmEnv (dhcpReply offerThenAckOptions))
      (extlenOf 1500 (dhcpReply offerThenAckOptions)) DHCPOFFER ∧
    ¬Carries (extsOf 1500 calmEnv (dhcpReply offerThenAckOptions))
      (extlenOf 1500 (dhcpReply offerThenAckOptions)) DHCPACK := by
  have hoffer : Carries (extsOf 1500 calmEnv (dhcpReply offerThenAckOptions))
      (extlenOf 1500 (dhcpReply offerThenAckOptions)) DHCPOFFER :=
    (options_dhcpReply offerThenAckOptions rfl).1 ▸
      (options_dhcpReply offerThenAckOptions rfl).2 ▸
        ⟨by decide, [4], 7, .opt (by decide) (by decide) (.fin (by decide)), by decide, by decide⟩
  exact ⟨⟨by decide, rfl, rfl⟩, requestSys_receive _ (by decide +kernel), hoffer,
    fun hack => absurd (hoffer.unique hack) (by decide)⟩

/-! ### The whole program along a run -/

/-- The devices on the list at a pointer, following `next` to its end. -/
def IsIfaces (devs : ℕ → Netdev) : Option ℕ → List ℕ → Prop
  | p, [] => p = none
  | p, d :: l => p = some d ∧ IsIfaces devs (devs d).next l

lemma IsIfaces.congr {devs devs' : ℕ → Netdev} : ∀ {l : List ℕ} {p : Option ℕ},
    (∀ d ∈ l, (devs' d).next = (devs d).next) → IsIfaces devs p l → IsIfaces devs' p l
  | [], _, _, hl => hl
  | d :: l, p, h, hl => by
    refine ⟨hl.1, ?_⟩
    rw [h d (by simp)]
    exact IsIfaces.congr (fun d' hd' => h d' (by simp [hd'])) hl.2

/-- `slist` as `add_one_dev` fills it, with some devices configured before. -/
structure Start (sys : Sys) : Prop where
  added : ∀ s ∈ sys.slist, Added s
  devs : (sys.slist.map State.dev).Nodup
  log : sys.world.completed = []
  ifaces : ∃ l, IsIfaces sys.world.devs sys.world.ifaces l ∧ l.Nodup ∧
    ∀ s ∈ sys.slist, s.dev ∉ l

/-- **The invariant of the program.** -/
structure Inv (sys : Sys) : Prop where
  sound : ∀ s ∈ sys.slist, Sound s
  devs : (sys.slist.map State.dev).Nodup
  log : (sys.world.completed.map Prod.fst).Nodup
  done : ∀ s ∈ sys.slist, s.state ≠ .complete → s.dev ∉ sys.world.completed.map Prod.fst
  ifaces : ∃ l, IsIfaces sys.world.devs sys.world.ifaces l ∧ l.Nodup ∧
    ∀ s ∈ sys.slist, s.state ≠ .complete → s.dev ∉ l

lemma Start.inv (h : Start sys) : Inv sys := by
  obtain ⟨l, hl, hnd, hout⟩ := h.ifaces
  refine ⟨fun s hs => (h.added s hs).sound, h.devs, by simp [h.log], by simp [h.log], l, hl, hnd,
    fun s hs _ => hout s hs⟩

lemma mem_set_cases {a : State} (h : t ∈ l.set i a) :
    t = a ∨ ∃ j, j ≠ i ∧ l[j]? = some t := by
  obtain ⟨j, hj⟩ := mem_iff_getElem?.mp h
  by_cases hij : j = i
  · subst hij
    rw [List.getElem?_set_self (by
      have := (List.getElem?_eq_some_iff.mp hj).1
      simpa using this)] at hj
    exact Or.inl (Option.some.inj hj).symm
  · rw [getElem?_set_ne (fun h => hij h.symm)] at hj
    exact Or.inr ⟨j, hij, hj⟩

lemma dev_ne (hnd : (l.map State.dev).Nodup) {i j : ℕ}
    (hs : l[i]? = some s) (ht : l[j]? = some t) (hij : j ≠ i) : t.dev ≠ s.dev := by
  intro h
  apply hij
  obtain ⟨hi, rfl⟩ := List.getElem?_eq_some_iff.mp hs
  obtain ⟨hj, rfl⟩ := List.getElem?_eq_some_iff.mp ht
  have hi' : i < (l.map State.dev).length := by simpa using hi
  have hj' : j < (l.map State.dev).length := by simpa using hj
  have hget : (l.map State.dev)[j] = (l.map State.dev)[i] := by simpa using h
  exact (List.Nodup.getElem_inj_iff hnd).mp hget

lemma map_dev_set (hs : l[i]? = some s)
    (h : s'.dev = s.dev) : (l.set i s').map State.dev = l.map State.dev := by
  obtain ⟨hi, rfl⟩ := List.getElem?_eq_some_iff.mp hs
  have hi' : i < (l.map State.dev).length := by simpa using hi
  have hget : s'.dev = (l.map State.dev)[i] := by rw [getElem_map, h]
  rw [map_set, hget, set_getElem_self]

lemma Inv.of_update (h : Inv sys)
    (dev : Netdev) (hs : sys.slist[i]? = some s) (hsound : Sound s') (hdev : s'.dev = s.dev)
    (hne : s.state ≠ .complete) (hdevs : w'.devs = Function.update sys.world.devs s.dev dev)
    (hif : w'.ifaces = sys.world.ifaces) (hlog : w'.completed = sys.world.completed) :
    Inv ⟨sys.slist.set i s', w'⟩ := by
  have hmem : s ∈ sys.slist := mem_iff_getElem?.mpr ⟨i, hs⟩
  obtain ⟨l, hl, hnd, hout⟩ := h.ifaces
  have hold : ∀ t ∈ sys.slist.set i s', t.state ≠ .complete →
      ∃ t' ∈ sys.slist, t'.state ≠ .complete ∧ t'.dev = t.dev := by
    intro t ht htc
    rcases mem_set_cases ht with rfl | ⟨j, -, hj⟩
    · exact ⟨s, hmem, hne, hdev.symm⟩
    · exact ⟨t, mem_iff_getElem?.mpr ⟨j, hj⟩, htc, rfl⟩
  refine ⟨?_, by rw [map_dev_set hs hdev]; exact h.devs, by rw [hlog]; exact h.log, ?_, l, ?_, hnd,
    ?_⟩
  · intro t ht
    rcases mem_or_eq_of_mem_set ht with ht | rfl
    · exact h.sound t ht
    · exact hsound
  · intro t ht htc
    obtain ⟨t', ht', htc', hd⟩ := hold t ht htc
    rw [hlog, ← hd]
    exact h.done t' ht' htc'
  · simp only [hif, hdevs]
    refine hl.congr fun d hd => ?_
    have hds : d ≠ s.dev := fun heq => hout s hmem hne (heq ▸ hd)
    rw [Function.update_of_ne hds]
  · intro t ht htc
    obtain ⟨t', ht', htc', hd⟩ := hold t ht htc
    rw [← hd]
    exact hout t' ht' htc'

lemma Inv.of_complete {dev : Netdev} {q : List SockItem}
    (h : Inv sys) (hs : sys.slist[i]? = some s) (hsound : Sound s') (hdev : s'.dev = s.dev)
    (hne : s.state ≠ .complete) (hc : s'.state = .complete) :
    Inv ⟨sys.slist.set i s', completeDevice s.dev (afterRecv sys.world s.dev dev q)⟩ := by
  have hmem : s ∈ sys.slist := mem_iff_getElem?.mpr ⟨i, hs⟩
  obtain ⟨l, hl, hnd, hout⟩ := h.ifaces
  -- an entry still working is another one than `i`, with another device
  have hold : ∀ t ∈ sys.slist.set i s', t.state ≠ .complete →
      t ∈ sys.slist ∧ t.dev ≠ s.dev := by
    intro t ht htc
    rcases mem_set_cases ht with rfl | ⟨j, hji, hj⟩
    · exact absurd hc htc
    · exact ⟨mem_iff_getElem?.mpr ⟨j, hj⟩, dev_ne h.devs hs hj hji⟩
  have hlog : (completeDevice s.dev (afterRecv sys.world s.dev dev q)).completed.map Prod.fst =
      sys.world.completed.map Prod.fst ++ [s.dev] := by
    simp [completeDevice, afterRecv, World.setDev]
  refine ⟨?_, by rw [map_dev_set hs hdev]; exact h.devs, ?_, ?_, s.dev :: l, ⟨rfl, ?_⟩, ?_, ?_⟩
  · intro t ht
    rcases mem_or_eq_of_mem_set ht with ht | rfl
    · exact h.sound t ht
    · exact hsound
  · rw [hlog, nodup_append]
    refine ⟨h.log, by simp, ?_⟩
    intro a ha b hb
    rw [mem_singleton.mp hb]
    exact fun heq => h.done s hmem hne (heq ▸ ha)
  · intro t ht htc
    obtain ⟨ht', hd⟩ := hold t ht htc
    rw [hlog, mem_append, not_or]
    exact ⟨h.done t ht' htc, by simpa using hd⟩
  · have hnext : ((completeDevice s.dev (afterRecv sys.world s.dev dev q)).devs s.dev).next =
        sys.world.ifaces := by
      simp [completeDevice, afterRecv, World.setDev]
    rw [hnext]
    refine hl.congr fun d hd => ?_
    have hds : d ≠ s.dev := fun heq => hout s hmem hne (heq ▸ hd)
    simp [completeDevice, afterRecv, World.setDev, Function.update_of_ne hds]
  · exact nodup_cons.mpr ⟨hout s hmem hne, hnd⟩
  · intro t ht htc
    obtain ⟨ht', hd⟩ := hold t ht htc
    simp only [mem_cons, not_or]
    exact ⟨hd, hout t ht' htc⟩

lemma Inv.of_step (h : Inv sys) (hstep : Step ports sys e sys') : Inv sys' := by
  cases hstep with
  | arrive x => exact ⟨h.sound, h.devs, h.log, h.done, h.ifaces⟩
  | @receive i now env s s' w' hd hs hp =>
    have hmem : s ∈ sys.slist := mem_iff_getElem?.mpr ⟨i, hs⟩
    have hsound := (h.sound s hmem).of_receive hp
    rcases receive_cases hp with ⟨-, rfl, rfl⟩ | ⟨ret, dev, q, st, restart, x, hact, -, -, rfl, hst⟩
    · have : sys.slist.set i s' = sys.slist := by
        obtain ⟨hi, rfl⟩ := List.getElem?_eq_some_iff.mp hs
        exact set_getElem_self hi
      rw [this]
      exact h
    · have hne : s.state ≠ .complete := by rintro hc; rw [hc] at hact; simp [Active] at hact
      rcases hst with ⟨rfl, rfl, -⟩ | ⟨-, rfl⟩
      · exact h.of_complete hs hsound rfl hne rfl
      · exact h.of_update dev hs hsound rfl hne rfl rfl rfl
  | @timeout i now running ret s hs hc =>
    have hmem : s ∈ sys.slist := mem_iff_getElem?.mpr ⟨i, hs⟩
    have hold := h.sound s hmem
    have hsound := hold.of_timeout now running ret sys.world hc
    obtain ⟨st, restart, x, p, dev, h1, -, -, -, h2, -⟩ :=
      timeout_cases now running ret sys.world (hold.active_or_error hc) hold.restart
    refine h.of_update dev hs hsound (by rw [h1]) hc ?_ ?_ ?_ <;> rw [h2] <;> rfl

lemma step_complete
    (hstep : Step ports sys e sys') (hs : sys.slist[i]? = some s) (hc : s.state = .complete) :
    ∃ s', sys'.slist[i]? = some s' ∧ s'.state = .complete := by
  obtain ⟨s', hs', hcase⟩ := step_at hstep hs
  refine ⟨s', hs', ?_⟩
  rcases hcase with rfl | ⟨now, env, hd, -, hp⟩ | ⟨now, running, ret, -, hne, -⟩
  · exact hc
  · rcases receive_cases hp with ⟨-, rfl, -⟩ | ⟨ret, dev, q, st, restart, x, hact, -⟩
    · exact hc
    · rw [hc] at hact; simp [Active] at hact
  · exact absurd hc hne

/-! ### The loops -/

/-- **The invariants of the loop.** In every state that some run of events leads to from devices as
`add_one_dev` adds them: the states, restart states and retry periods are in their ranges; a timeout
event sets the timer to a later time; no event takes a device out of `DEVST_COMPLETE`;
`complete_device` was called at most once for a device; and `ifaces` is a list that ends, without
repetition. -/
theorem reach_invariants (ports : Ports) (sys : Sys) (h : Reach Start (Step ports) sys) :
    (∀ s ∈ sys.slist, Working s.state ∧ Active s.restartState ∧ 1 ≤ s.retryPeriod ∧
      s.retryPeriod ≤ 60) ∧
    (∀ s ∈ sys.slist, s.state ≠ .complete → ∀ now running ret,
      now < (processTimeoutEvent now running ret s sys.world).1.expire) ∧
    (∀ e sys', Step ports sys e sys' → ∀ (i : ℕ) (s : State), sys.slist[i]? = some s →
      s.state = .complete → ∃ s', sys'.slist[i]? = some s' ∧ s'.state = .complete) ∧
    (sys.world.completed.map Prod.fst).Nodup ∧
    ∃ l, IsIfaces sys.world.devs sys.world.ifaces l ∧ l.Nodup := by
  have hinv : Inv sys := h.induct (fun _ hs => hs.inv) (fun _ _ _ hi hs => hi.of_step hs)
  refine ⟨fun s hs => ?_, fun s hs hc now running ret => ?_, fun e sys' hstep i s hs hc => ?_,
    hinv.log, ?_⟩
  · have := hinv.sound s hs
    exact ⟨this.state, this.restart, this.retry⟩
  · have hsound := hinv.sound s hs
    obtain ⟨st, restart, x, p, dev, h1, -, -, -, -, -, hx⟩ :=
      timeout_cases now running ret sys.world (hsound.active_or_error hc) hsound.restart
    rw [h1]
    exact hx hsound.retry.1
  · exact step_complete hstep hs hc
  · obtain ⟨l, hl, hnd, -⟩ := hinv.ifaces
    exact ⟨l, hl, hnd⟩

theorem reach_invariants_ack : ∃ sys, Reach Start (Step ⟨68, 67⟩) sys ∧
    (∃ s ∈ sys.slist, s.state = .complete) ∧ (sys.world.completed.map Prod.fst).Nodup ∧
    ∃ l, IsIfaces sys.world.devs sys.world.ifaces l ∧ l.Nodup := by
  obtain ⟨s', w', hstep, hc⟩ := requestSys_receive (typeOptions 5) (by decide +kernel)
  have hstart : Start (requestSys (typeOptions 5)) := by
    refine ⟨?_, by decide, rfl, [], rfl, by simp, by simp⟩
    intro s hs
    rw [mem_singleton.mp hs]
    exact ⟨by decide, rfl, rfl⟩
  have hreach : Reach Start (Step ⟨68, 67⟩) ⟨[s'], w'⟩ := Reach.step (Reach.init hstart) hstep
  obtain ⟨-, -, -, hlog, hifaces⟩ := reach_invariants ⟨68, 67⟩ _ hreach
  exact ⟨_, hreach, ⟨s', by simp, hc⟩, hlog, hifaces⟩

end Klibc.Ipconfig.Runs
