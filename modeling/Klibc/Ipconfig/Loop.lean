import Klibc.Ipconfig.FirstPacket

/-! # The loop of ipconfig

`loop` of `main.c` after `packet_open`: a step is a pass over the devices, a turn of the `for`
around `poll`, or a packet that arrives. `loop_run`: `loop` returns 0 when it is finished, and -1
when it is not and `loop_timeout` is over; it never waits when it is finished, and the first wait
after a pass ends before a timer expires. -/

namespace Klibc.Ipconfig.Loop

open Packet Main Runs List Setup FirstPacket Lib.Transition
open Stdio.Vsnprintf (Arch arch64 chr)

structure Config where
  ports : Ports
  bringupFirst : Bool
  loopTimeout : ℤ

/-- The host: a packet arrives; the links a pass finds, and what its send functions return; the
returns of `poll` and of `gettimeofday` after it. -/
inductive Answer
  | arrived (x : SockItem)
  | links (link : State → Bool × ℤ)
  | polled (readable : Bool) (now : ℤ × ℤ) (env : State → RecvEnv)

inductive Pc
  | pass
  | poll (x : ℕ) (timeoutMs : ℤ)
  | returned (rc : ℤ)

/-- The variables of `loop`; `now` is `tv_sec` and `tv_usec`. -/
structure Frame where
  sys : Sys
  start : ℤ
  now : ℤ × ℤ
  pc : Pc

variable (c : Config) (f : Frame)

def completes (l : List State) : List Bool := l.map (·.state = .complete)

/-- `pending == 0 || (bringup_first && done)`. -/
def finished (l : List State) : Bool :=
  (completes l).count false = 0 || c.bringupFirst && (completes l).count true ≠ 0

def timeout (now : ℤ) (l : List State) : ℤ :=
  (l.filter (·.state ≠ .complete)).foldl
    (fun t s => if t > s.expire - now then s.expire - now else t) 60

/-- The first `for`, and the test after it. No timeout completes a device, so that `timeout` may be
computed at the end. -/
def pass (link : State → Bool × ℤ) : Frame :=
  let r := loopPass f.now.1 (f.sys.slist.map fun s => (s, link s)) f.sys.world
  { f with
    sys := ⟨r.1, r.2⟩
    pc := if finished c f.sys.slist then .returned 0
      else .poll 0 (timeout f.now.1 r.1 * 1000) }

/-- `do_pkt_recv`, if there is something to read; no result while it waits. -/
def receive (ports : Ports) (readable : Bool) (now : ℤ) (env : State → RecvEnv) (sys : Sys) :
    Option (Sys × Bool) :=
  let r := doPktRecv ports now (sys.slist.map fun s => (s, env s)) sys.world
  if ¬ readable then some (sys, false)
  else if r.2.1.isEmpty then some (⟨r.1, r.2.2.1⟩, r.2.2.2) else none

/-- A turn of the `for` over `x`, with the arithmetic of `int` wrapped at its end. -/
def pollTurn (x : ℕ) (ms : ℤ) (readable : Bool) (now : ℤ × ℤ) (env : State → RecvEnv) :
    Option Frame :=
  let ms := if ms ≤ 0 then 100 else ms
  let deltaMs := (now.1 - f.now.1) * 1000 + (now.2 - f.now.2).tdiv 1000
  (receive c.ports readable now.1 env f.sys).map fun r => ⟨r.1, f.start, now,
    if r.2 then .pass
    else if 0 ≤ c.loopTimeout ∧ c.loopTimeout ≤ now.1 - f.start then .returned (-1)
    else if x + 1 < 2 then .poll (x + 1) ((ms - deltaMs).bmod 4294967296)
    else .pass⟩

def step (a : Answer) : Option Frame :=
  match a, f.pc with
  | .arrived x, _ => some { f with sys.world.sock := f.sys.world.sock ++ [x] }
  | .links link, .pass => some (pass c f link)
  | .polled readable now env, .poll x ms => pollTurn c f x ms readable now env
  | _, _ => none

/-! ### What a step keeps -/

/-- What holds at each place. -/
def AtPc (l : List State) (now start : ℤ) : Pc → Prop
  | .pass => True
  | .poll x ms => finished c l = false ∧ (x = 0 → 1000 ≤ ms ∧ ms ≤ 60000 ∧
      ∀ s ∈ l, s.state ≠ .complete → ms ≤ (s.expire - now) * 1000)
  | .returned rc => rc = 0 ∧ finished c l ∨
      rc = -1 ∧ finished c l = false ∧ 0 ≤ c.loopTimeout ∧ c.loopTimeout ≤ now - start

structure Safe : Prop where
  reach : Reach Start (Step c.ports) f.sys
  atPc : AtPc c f.sys.slist f.now.1 f.start f.pc

variable {c f} {ports : Ports} {now : ℤ} {env : State → RecvEnv}

lemma finished_congr {l l' : List State} (h : completes l' = completes l) :
    finished c l' = finished c l := by
  unfold finished
  rw [h]

lemma foldl_timeout (now : ℤ) : ∀ (l : List State) (t : ℤ),
    let r := l.foldl (fun t s => if t > s.expire - now then s.expire - now else t) t
    r ≤ t ∧ (∀ s ∈ l, r ≤ s.expire - now) ∧ (1 ≤ t → (∀ s ∈ l, now < s.expire) → 1 ≤ r)
  | [], t => by simp
  | s :: l, t => by
    have ih := foldl_timeout now l (if t > s.expire - now then s.expire - now else t)
    grind

lemma loopPass_spec (link : State → Bool × ℤ) (now : ℤ) : ∀ (l : List State) (w : World),
    (∀ s ∈ l, Runs.Sound s) →
    let l' := (loopPass now (l.map fun s => (s, link s)) w).1
    completes l' = completes l ∧ ∀ s ∈ l', s.state ≠ .complete → now < s.expire
  | [], w, _ => by simp [loopPass]
  | s :: l, w, h => by
    have hs := h s mem_cons_self
    have ih := fun w => loopPass_spec link now l w fun t ht => h t (mem_cons_of_mem _ ht)
    rw [map_cons, loopPass]
    split_ifs with hskip
    · grind [completes]
    · obtain ⟨st, restart, x, p, dev, h1, hst, -, -, -, -, hx⟩ := timeout_cases now (link s).1
        (link s).2 w (hs.active_or_error fun hc => hskip (Or.inl hc)) hs.restart
      have := hx hs.retry.1
      grind [completes, Active]

lemma unhandled_state {env : RecvEnv} {s s' : State} {w w' : World}
    (h : processReceiveEvent ports env now s w = some (s', w', false)) : s'.state = s.state := by
  grind [processReceiveEvent, receiveCase, finishReceive, bootpSwitch, discSwitch, reqSwitch]

lemma completes_doPktRecv : ∀ {l : List State} {w : World},
    let r := doPktRecv ports now (l.map fun s => (s, env s)) w
    r.2.1 = [] → r.2.2.2 = false → completes r.1 = completes l
  | [], _, _, _ => rfl
  | s :: l, w, hall, hun => by
    rw [map_cons, doPktRecv] at *
    rcases hp : processReceiveEvent ports (env s) now s w with _ | ⟨s', w', handled⟩
    · simp [hp] at hall
    · simp only [hp, Bool.or_eq_false_iff] at hall hun ⊢
      obtain ⟨rfl, hun⟩ := hun
      have ih := completes_doPktRecv hall hun
      grind [completes, unhandled_state hp]

lemma receive_spec {readable : Bool} {sys : Sys} {r : Sys × Bool} (h : Reach Start (Step ports) sys)
    (hr : receive ports readable now env sys = some r) : Reach Start (Step ports) r.1 ∧
      (r.2 = false → completes r.1.slist = completes sys.slist) := by
  obtain ⟨es, hes⟩ := doPktRecv_steps ports now (sys.slist.map fun s => (s, env s)) [] sys.world
  simp only [receive] at hr
  split_ifs at hr with _ hall <;> cases hr
  · have hall := isEmpty_iff.1 hall
    exact ⟨h.steps (by simpa [hall, Function.comp_def] using hes), completes_doPktRecv hall⟩
  · exact ⟨h, fun _ => rfl⟩

lemma Safe.pass (h : Safe c f) (link : State → Bool × ℤ) : Safe c (pass c f link) := by
  have hinv : Inv f.sys := h.reach.induct (fun _ hs => hs.inv) fun _ _ _ hi hs => hi.of_step hs
  obtain ⟨es, hes⟩ := loopPass_steps c.ports f.now.1 (f.sys.slist.map fun s => (s, link s)) []
    f.sys.world
  obtain ⟨hc, hexp⟩ := loopPass_spec link f.now.1 f.sys.slist f.sys.world hinv.sound
  refine ⟨h.reach.steps (by simpa [Loop.pass, Function.comp_def] using hes), ?_⟩
  by_cases hfin : finished c f.sys.slist
  · simp [Loop.pass, AtPc, hfin, finished_congr hc]
  · have := foldl_timeout f.now.1 ((Loop.pass c f link).sys.slist.filter (·.state ≠ .complete)) 60
    simp only [Loop.pass, AtPc, hfin, finished_congr hc, timeout] at *
    grind

lemma Safe.pollTurn {readable : Bool} {now : ℤ × ℤ} {x : ℕ} {ms : ℤ} (h : Safe c f)
    (hpc : f.pc = .poll x ms) {f' : Frame} (hs : pollTurn c f x ms readable now env = some f') :
    Safe c f' := by
  obtain ⟨r, hr, rfl⟩ := Option.map_eq_some_iff.1 hs
  obtain ⟨hreach, hc⟩ := receive_spec h.reach hr
  have hat : AtPc c f.sys.slist f.now.1 f.start (.poll x ms) := hpc ▸ h.atPc
  have hfin := fun hun => (finished_congr (hc hun)).trans hat.1
  refine ⟨hreach, ?_⟩
  dsimp only
  split_ifs <;> grind [AtPc]

/-- The frames that `loop` comes to from these globals. -/
def Comes (c : Config) (s : Globals) (slist : List State) : Frame → Prop :=
  Reach (fun f => ∃ now, f =
      ⟨⟨slist, netdevs s.devs, s.ifaces, s.configured, [], []⟩, now.1, now, .pass⟩)
    fun f a f' => step c f a = some f'

/-- **Every run of `loop`**, from every set-up without a device that has `CAP_RARP` alone. -/
theorem loop_run (arch : Arch) (host : ℕ → Answers) (depth : ℕ) (args : List Arg) (c : Config) :
    let s := setUp arch host depth args
    (∀ dev ∈ s.devs, dev.caps ≠ CAP_RARP) →
    ∃ slist, slist.map entryOf = s.slist ∧ ∀ f, Comes c s slist f → Safe c f := by
  intro s hcaps
  obtain ⟨slist, hmap, hstart⟩ := start_of_sound (setUp_sound arch host depth args)
    (fun _ _ dev hdev => hcaps dev (mem_of_getElem? hdev)) []
  refine ⟨slist, hmap, fun f hf => hf.induct ?_ fun f a f' h hs => ?_⟩
  · rintro _ ⟨now, rfl⟩
    exact ⟨Reach.init hstart, trivial⟩
  · unfold step at hs
    split at hs
    · cases hs
      exact ⟨h.reach.step (.arrive _ _), h.atPc⟩
    · cases hs
      exact h.pass _
    · next hpc => exact h.pollTurn hpc hs
    · cases hs

theorem loop_run_eth0 :
    let s := setUp arch64 (oneDevice 1500) 1 [.device [chr 'e', chr 't', chr 'h', chr '0']]
    let c : Config := ⟨⟨68, 67⟩, false, -1⟩
    s.slist ≠ [] ∧ ∃ slist, slist.map entryOf = s.slist ∧ ∀ f, Comes c s slist f → Safe c f :=
  ⟨by decide +kernel, loop_run _ _ _ _ _ (by decide +kernel)⟩

end Klibc.Ipconfig.Loop
