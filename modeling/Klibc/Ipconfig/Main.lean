import Klibc.Ipconfig.Packet
import Klibc.Lib.Transition

/-! # The state machine of ipconfig

The event handlers and the loop of `main.c`. A device is a pointer, so the devices are a function
from numbers to `Netdev` and a `State` names the device it drives; `ifaces` and the fields `next`
make the linked list of configured interfaces. `World` holds what the handlers share: the devices,
that list, the socket, and the log of the calls of `complete_device` with the configuration each was
called with.

The handlers are driven by events in any order (`Step`): a datagram or a socket error arrives,
`process_receive_event` runs on one device, `process_timeout_event` runs on one device that is not
complete. `doPktRecv` and `loopPass`, the two loops over the devices, are runs of such events
(`doPktRecv_steps`, `loopPass_steps`). -/

namespace Klibc.Ipconfig.Main

open Device Packet Lib.Transition

/-- The states `DEVST_…` of a device. -/
inductive DevState
  | up | bootp | dhcpdisc | dhcpreq | complete | error
  deriving DecidableEq

/-- `struct state`. The times `expire` and `now` are integers without a bound here: a `time_t` of 64
bits does not come to its bounds, one of 32 bits overflows in 2038. -/
structure State where
  state : DevState
  restartState : DevState
  expire : ℤ
  retryPeriod : ℤ
  dev : ℕ
  deriving DecidableEq

structure World where
  devs : ℕ → Netdev
  ifaces : Option ℕ
  configured : ℕ
  sock : List SockItem
  completed : List (ℕ × Netdev)

/-! ### Completing a device -/

/-- `inet_class_netmask`: the class is in the first byte of the address. -/
def inetClassNetmask (ip : Quad) : Quad :=
  if ip.b0 &&& 0x80 = 0 then ⟨255, 0, 0, 0⟩
  else if ip.b0 &&& 0xc0 = 0x80 then ⟨255, 255, 0, 0⟩
  else if ip.b0 &&& 0xe0 = 0xc0 then ⟨255, 255, 255, 0⟩
  else INADDR_ANY

/-- `(addr & mask) | ~mask`. -/
def broadcastOf (addr mask : Quad) : Quad :=
  ⟨(addr.b0 &&& mask.b0) ||| ~~~ mask.b0, (addr.b1 &&& mask.b1) ||| ~~~ mask.b1,
    (addr.b2 &&& mask.b2) ||| ~~~ mask.b2, (addr.b3 &&& mask.b3) ||| ~~~ mask.b3⟩

/-- `postprocess_device`. -/
def postprocessDevice (dev : Netdev) : Netdev :=
  let dev := if dev.ipNetmask = INADDR_ANY then
    { dev with ipNetmask := inetClassNetmask dev.ipAddr } else dev
  if dev.ipBroadcast = INADDR_ANY then
    { dev with ipBroadcast := broadcastOf dev.ipAddr dev.ipNetmask } else dev

def World.setDev (w : World) (d : ℕ) (dev : Netdev) : World :=
  { w with devs := Function.update w.devs d dev }

/-- `complete_device`: fill in the defaults, log the configuration, and put the device in front of
`ifaces`. -/
def completeDevice (d : ℕ) (w : World) : World :=
  let dev := postprocessDevice (w.devs d)
  { w.setDev d { dev with next := w.ifaces } with
    configured := w.configured + 1
    ifaces := some d
    completed := w.completed ++ [(d, w.devs d)] }

/-! ### `process_receive_event` -/

/-- `switch (bootp_recv_reply(s->dev))`: the new state, and `handled`. -/
def bootpSwitch (ret : ℤ) : DevState × Bool :=
  if ret = -1 then (.error, true)
  else if ret = 0 then (.bootp, false)
  else if ret = 1 then (.complete, true)
  else (.bootp, true)

/-- `switch (dhcp_recv_offer(s->dev))`. The request sent on an offer changes no state. -/
def discSwitch (ret : ℤ) : DevState × Bool :=
  if ret = -1 then (.error, true)
  else if ret = 0 then (.dhcpdisc, false)
  else if ret = 2 then (.dhcpreq, true)
  else (.dhcpdisc, true)

/-- `switch (dhcp_recv_ack(s->dev))`. -/
def reqSwitch (ret : ℤ) : DevState × Bool :=
  if ret = -1 then (.error, true)
  else if ret = 0 then (.dhcpreq, false)
  else if ret = 5 then (.complete, true)
  else if ret = 6 then (.dhcpdisc, true)
  else (.dhcpreq, true)

/-- The end of `process_receive_event`, after a receive function returned. -/
def finishReceive (now : ℤ) (s : State) (w : World) (handled : Bool) : State × World × Bool :=
  match s.state with
  | .complete => (s, completeDevice s.dev w, handled)
  | .error => ({ s with expire := now + 10 }, w, handled)
  | _ => (s, w, handled)

/-- A case of the first `switch` of `process_receive_event`: set `restart_state`, receive, and act
on the return value. -/
def receiveCase (recv : Netdev → List SockItem → Option (ℤ × Netdev × List SockItem))
    (restart : DevState) (act : ℤ → DevState × Bool) (now : ℤ) (s : State) (w : World) :
    Option (State × World × Bool) :=
  match recv (w.devs s.dev) w.sock with
  | none => none
  | some (ret, dev, q) =>
    some (finishReceive now { s with restartState := restart, state := (act ret).1 }
      { w.setDev s.dev dev with sock := q } (act ret).2)

/-- `process_receive_event`; no result while it waits for a datagram. -/
def processReceiveEvent (ports : Ports) (env : RecvEnv) (now : ℤ) (s : State) (w : World) :
    Option (State × World × Bool) :=
  match s.state with
  | .error => some (s, w, false)
  | .complete => some (s, w, false)
  | .bootp => receiveCase (bootpRecvReply ports env) .bootp bootpSwitch now s w
  | .dhcpdisc => receiveCase (dhcpRecv ports env) .dhcpdisc discSwitch now s w
  | .dhcpreq => receiveCase (dhcpRecv ports env) .dhcpdisc reqSwitch now s w
  | .up => some (s, w, false)

/-! ### `process_timeout_event` -/

/-- `process_timeout_event`: `running` is what `netdev_running` says of the link, `ret` what the
send function called returns. Only `dhcp_send_discover` changes the device. -/
def processTimeoutEvent (now : ℤ) (running : Bool) (ret : ℤ) (s : State) (w : World) :
    State × World :=
  if ¬ running then ({ s with expire := now + 1, state := s.restartState }, w)
  else
    let s := if s.state = .error then { s with state := s.restartState } else s
    let (s, w, ret) := match s.state with
      | .bootp => ({ s with restartState := .bootp }, w, ret)
      | .dhcpdisc => ({ s with restartState := .dhcpdisc },
          w.setDev s.dev { w.devs s.dev with ipAddr := INADDR_ANY, ipGateway := INADDR_ANY }, ret)
      | .dhcpreq => ({ s with restartState := .dhcpdisc }, w, ret)
      | _ => (s, w, 0)
    if ret = -1 then ({ s with state := .error, expire := now + 10 }, w)
    else
      let retry := s.retryPeriod * 2
      ({ s with expire := now + s.retryPeriod, retryPeriod := if retry > 60 then 60 else retry }, w)

/-! ### The two loops over the devices -/

/-- `do_pkt_recv`: every device in turn. The result is the devices done with, those still to do if a
call waits, the world, and the or of the return values. -/
def doPktRecv (ports : Ports) (now : ℤ) : List (State × RecvEnv) → World →
    List State × List (State × RecvEnv) × World × Bool
  | [], w => ([], [], w, false)
  | (s, env) :: rest, w =>
    match processReceiveEvent ports env now s w with
    | none => ([], (s, env) :: rest, w, false)
    | some (s', w', handled) =>
      let r := doPktRecv ports now rest w'
      (s' :: r.1, r.2.1, r.2.2.1, handled || r.2.2.2)

/-- The first `for` of `loop`: the devices that are not complete and whose timer has expired. -/
def loopPass (now : ℤ) : List (State × Bool × ℤ) → World → List State × World
  | [], w => ([], w)
  | (s, running, ret) :: rest, w =>
    if s.state = .complete ∨ ¬ (s.expire - now ≤ 0) then
      let r := loopPass now rest w
      (s :: r.1, r.2)
    else
      let (s', w') := processTimeoutEvent now running ret s w
      let r := loopPass now rest w'
      (s' :: r.1, r.2)

/-! ### Runs -/

/-- The program: `slist` and the globals. -/
structure Sys where
  slist : List State
  world : World

inductive Event
  | arrive (x : SockItem)
  | receive (i : ℕ) (now : ℤ) (env : RecvEnv)
  | timeout (i : ℕ) (now : ℤ) (running : Bool) (ret : ℤ)

/-- **One event.** -/
inductive Step (ports : Ports) : Sys → Event → Sys → Prop
  | arrive (sys : Sys) (x : SockItem) :
      Step ports sys (.arrive x) { sys with world.sock := sys.world.sock ++ [x] }
  | receive {sys : Sys} {i : ℕ} {now : ℤ} {env : RecvEnv} {s s' : State} {w' : World} {h : Bool} :
      sys.slist[i]? = some s → processReceiveEvent ports env now s sys.world = some (s', w', h) →
      Step ports sys (.receive i now env) ⟨sys.slist.set i s', w'⟩
  | timeout {sys : Sys} {i : ℕ} {now : ℤ} {running : Bool} {ret : ℤ} {s : State} :
      sys.slist[i]? = some s → s.state ≠ .complete →
      Step ports sys (.timeout i now running ret)
        ⟨sys.slist.set i (processTimeoutEvent now running ret s sys.world).1,
          (processTimeoutEvent now running ret s sys.world).2⟩

lemma getElem?_middle {α : Type*} (pre : List α) (a : α) (rest : List α) :
    (pre ++ a :: rest)[pre.length]? = some a := by simp

/-- **`do_pkt_recv` is a run**: one receive event for each device it comes to. -/
theorem doPktRecv_steps (ports : Ports) (now : ℤ) : ∀ (todo : List (State × RecvEnv))
    (pre : List State) (w : World), ∃ es, Steps (Step ports) ⟨pre ++ todo.map Prod.fst, w⟩ es
      ⟨pre ++ (doPktRecv ports now todo w).1 ++ (doPktRecv ports now todo w).2.1.map Prod.fst,
        (doPktRecv ports now todo w).2.2.1⟩
  | [], pre, w => ⟨[], by simpa [doPktRecv] using Steps.nil _⟩
  | (s, env) :: rest, pre, w => by
    rcases hp : processReceiveEvent ports env now s w with _ | ⟨s', w', handled⟩
    · exact ⟨[], by simpa [doPktRecv, hp] using Steps.nil _⟩
    · obtain ⟨es, hes⟩ := doPktRecv_steps ports now rest (pre ++ [s']) w'
      have h1 : Step ports ⟨pre ++ s :: rest.map Prod.fst, w⟩ (.receive pre.length now env)
          ⟨(pre ++ s :: rest.map Prod.fst).set pre.length s', w'⟩ :=
        Step.receive (getElem?_middle pre s _) hp
      refine ⟨.receive pre.length now env :: es, Steps.cons h1 ?_⟩
      simpa [doPktRecv, hp] using hes

/-- **A pass of `loop` over its devices is a run** of timeout events. -/
theorem loopPass_steps (ports : Ports) (now : ℤ) : ∀ (todo : List (State × Bool × ℤ))
    (pre : List State) (w : World), ∃ es, Steps (Step ports) ⟨pre ++ todo.map Prod.fst, w⟩ es
      ⟨pre ++ (loopPass now todo w).1, (loopPass now todo w).2⟩
  | [], pre, w => ⟨[], by simpa [loopPass] using Steps.nil _⟩
  | (s, running, ret) :: rest, pre, w => by
    by_cases hs : s.state = .complete ∨ ¬ (s.expire - now ≤ 0)
    · obtain ⟨es, hes⟩ := loopPass_steps ports now rest (pre ++ [s]) w
      refine ⟨es, ?_⟩
      unfold loopPass
      rw [if_pos hs]
      simpa using hes
    · obtain ⟨es, hes⟩ := loopPass_steps ports now rest
        (pre ++ [(processTimeoutEvent now running ret s w).1])
        (processTimeoutEvent now running ret s w).2
      have hc : s.state ≠ .complete := fun h => hs (Or.inl h)
      have h1 : Step ports ⟨pre ++ s :: rest.map Prod.fst, w⟩
          (.timeout pre.length now running ret) _ :=
        Step.timeout (getElem?_middle pre s _) hc
      refine ⟨.timeout pre.length now running ret :: es, Steps.cons h1 ?_⟩
      unfold loopPass
      rw [if_neg hs]
      simpa using hes

end Klibc.Ipconfig.Main
