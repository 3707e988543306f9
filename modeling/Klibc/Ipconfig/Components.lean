import Klibc.Inet.InetAton
import Klibc.Ipconfig.Setup

/-! # The components of a description

`parse_device` cuts a description at its colons while it goes over it. `optionLoop` is that loop, on
the characters; it does what `parseOptions` does with the list of the components. The positional
reading of a description is `positional`: each component has a field of its own, and an empty one
leaves it as it was. Without an abort the loop leaves exactly that (`parse_device_positional`). -/

namespace Klibc.Ipconfig.Components

open Device DhcpSend Setup Inet.InetAton Inet.InetPton Lib.Abort
open Stdio.Vsnprintf (Arch arch64 chr)

/-! ### The loop on the characters -/

lemma length_tail_dropWhile_lt {ip : List UInt8} (h : ip ≠ []) (p : UInt8 → Bool) :
    (ip.dropWhile p).tail.length < ip.length := by
  have hle := (List.dropWhile_suffix (l := ip) p).length_le
  have hpos := List.length_pos_iff.2 h
  rw [List.length_tail]
  omega

/-- The `for` of `parse_device`: `*cp++ = '\0'` ends the component, and `cp` is behind the colon. A
null `cp` ends the loop like one at the end of the string. -/
def optionLoop (arch : Arch) (opt : ℕ) (ip : List UInt8) (dev : Candidate) : Option Candidate :=
  if h : ip = [] then some dev
  else
    let cp := (ip.dropWhile (· ≠ chr ':')).tail
    if 6 < opt then none
    else if ip.takeWhile (· ≠ chr ':') = [] then optionLoop arch (opt + 1) cp dev
    else do
      let dev ← parseOption arch opt (ip.takeWhile (· ≠ chr ':')) dev
      optionLoop arch (opt + 1) cp dev
termination_by ip.length
decreasing_by all_goals exact length_tail_dropWhile_lt h _

section
variable {ip : List UInt8}

lemma splitOn_of_mem (h : chr ':' ∈ ip) : ip.splitOn (chr ':') =
    ip.takeWhile (· ≠ chr ':') :: (ip.dropWhile (· ≠ chr ':')).tail.splitOn (chr ':') := by
  obtain ⟨x, rest, hcut⟩ := List.exists_cons_of_ne_nil
    (fun hnil => by simpa using List.dropWhile_eq_nil_iff.1 hnil _ h :
      ip.dropWhile (· ≠ chr ':') ≠ [])
  have hx : x = chr ':' := by
    have := List.head?_dropWhile_not (· ≠ chr ':') ip
    rw [hcut] at this
    simpa using this
  have hfront : ∀ c ∈ ip.takeWhile (· ≠ chr ':'), (c == chr ':') = false := by
    intro c hc
    simpa using List.mem_takeWhile_imp hc
  conv_lhs => rw [← List.takeWhile_append_dropWhile (l := ip) (p := (· ≠ chr ':')), hcut, hx]
  rw [hcut, List.tail_cons]
  exact List.splitOnP_append_cons_of_forall_mem hfront _ (by simp) _

lemma takeWhile_of_notMem (h : chr ':' ∉ ip) : ip.takeWhile (· ≠ chr ':') = ip :=
  List.takeWhile_eq_self_iff.2 fun c hc => by simpa using fun heq : c = chr ':' => h (heq ▸ hc)

lemma dropWhile_of_notMem (h : chr ':' ∉ ip) : ip.dropWhile (· ≠ chr ':') = [] :=
  List.dropWhile_eq_nil_iff.2 fun c hc => by simpa using fun heq : c = chr ':' => h (heq ▸ hc)

end

/-- **The loop on the characters** is the one over the components. -/
theorem optionLoop_eq (arch : Arch) (opt : ℕ) (ip : List UInt8) (dev : Candidate) :
    optionLoop arch opt ip dev = parseOptions arch opt (ip.splitOn (chr ':')) dev := by
  induction hn : ip.length using Nat.strong_induction_on generalizing opt ip dev with
  | _ n ih =>
    rw [optionLoop]
    by_cases h : ip = []
    · subst h
      rw [dif_pos rfl, List.splitOn_nil, parseOptions, if_pos ⟨rfl, rfl⟩]
    have hlt := length_tail_dropWhile_lt h (· ≠ chr ':')
    rw [dif_neg h]
    by_cases hcolon : chr ':' ∈ ip
    · have hrest : ¬(ip.takeWhile (· ≠ chr ':') = [] ∧
          (ip.dropWhile (· ≠ chr ':')).tail.splitOn (chr ':') = []) :=
        fun hnil => List.splitOnP_ne_nil _ _ hnil.2
      rw [splitOn_of_mem hcolon, parseOptions, if_neg hrest]
      simp only [ih _ (hn ▸ hlt) _ _ _ rfl]
    · -- The last component: the loop ends behind it.
      have hend (dev : Candidate) : optionLoop arch (opt + 1) [] dev = some dev := by
        rw [optionLoop, dif_pos rfl]
      have hlast : ¬(ip = [] ∧ ([] : List (List UInt8)) = []) := fun hnil => h hnil.1
      rw [List.splitOn_eq_singleton hcolon, parseOptions, if_neg hlast,
        takeWhile_of_notMem hcolon, dropWhile_of_notMem hcolon, List.tail_nil]
      simp only [hend, parseOptions, if_neg h]

/-! ### The positional reading -/

/-- The text behind the first `n` colons. -/
def behind : ℕ → List UInt8 → List UInt8
  | 0, ip => ip
  | n + 1, ip => (behind n ip).dropWhile (· ≠ chr ':') |>.tail

/-- **Component** `n` of a description. -/
def component (ip : List UInt8) (n : ℕ) : List UInt8 := (behind n ip).takeWhile (· ≠ chr ':')

section
variable (arch : Arch)

def Unparsable (n : ℕ) (c : List UInt8) : Prop :=
  c ≠ [] ∧ (n < 4 ∧ parseAddr arch c = none ∨ n = 6 ∧ parseProto c = none)

instance (n : ℕ) (c : List UInt8) : Decidable (Unparsable arch n c) :=
  inferInstanceAs (Decidable (_ ∧ _))

def parsed {α : Type} (parse : List UInt8 → Option α) (c : List UInt8) (old : α) : α :=
  if c = [] then old else (parse c).getD old

/-- The device after component `n`. -/
def assign (n : ℕ) (c : List UInt8) (dev : Candidate) : Candidate :=
  match n with
  | 0 => { dev with
      ipAddr := parsed (parseAddr arch) c dev.ipAddr
      caps := if c = [] then dev.caps else 0 }
  | 1 => { dev with ipServer := parsed (parseAddr arch) c dev.ipServer }
  | 2 => { dev with ipGateway := parsed (parseAddr arch) c dev.ipGateway }
  | 3 => { dev with ipNetmask := parsed (parseAddr arch) c dev.ipNetmask }
  | 4 => { dev with
      hostname := if c = [] then dev.hostname else hostnameOf c
      reqhostname := if c = [] then dev.reqhostname else Hostname.ofArray (hostnameOf c) }
  | 5 => { dev with name := if c = [] then dev.name else some c }
  | 6 => { dev with caps := parsed parseProto c dev.caps }
  | _ => dev

/-- **The positional reading** of the components `c` into the fields of a device. -/
def positional (c : ℕ → List UInt8) (dev : Candidate) : Candidate :=
  { dev with
    ipAddr := parsed (parseAddr arch) (c 0) dev.ipAddr
    ipServer := parsed (parseAddr arch) (c 1) dev.ipServer
    ipGateway := parsed (parseAddr arch) (c 2) dev.ipGateway
    ipNetmask := parsed (parseAddr arch) (c 3) dev.ipNetmask
    hostname := if c 4 = [] then dev.hostname else hostnameOf (c 4)
    reqhostname := if c 4 = [] then dev.reqhostname else Hostname.ofArray (hostnameOf (c 4))
    name := if c 5 = [] then dev.name else some (c 5)
    caps := parsed parseProto (c 6) (if c 0 = [] then dev.caps else 0) }

lemma positional_eq (c : ℕ → List UInt8) (dev : Candidate) :
    positional arch c dev = (List.range 7).foldl (fun dev n => assign arch n (c n) dev) dev := by
  have hrange : List.range 7 = [0, 1, 2, 3, 4, 5, 6] := rfl
  rw [hrange]
  simp [assign, positional]

variable {arch}

lemma parseOption_eq {n : ℕ} {c : List UInt8} (hn : n ≤ 6) (hc : c ≠ []) (dev : Candidate) :
    parseOption arch n c dev =
      if Unparsable arch n c then none else some (assign arch n c dev) := by
  have haddr {f : Quad → Candidate} {a : Option Quad} {old : Quad} (h4 : n < 4)
      (ha : parseAddr arch c = a) :
      a.map f = if Unparsable arch n c then none else some (f (a.getD old)) := by
    have h6 : n ≠ 6 := by omega
    cases a <;> simp [Unparsable, hc, h4, h6, ha]
  interval_cases n
  · simpa [parseOption, assign, parsed, hc] using haddr (by omega) rfl
  · simpa [parseOption, assign, parsed, hc] using haddr (by omega) rfl
  · simpa [parseOption, assign, parsed, hc] using haddr (by omega) rfl
  · simpa [parseOption, assign, parsed, hc] using haddr (by omega) rfl
  · simp [parseOption, assign, Unparsable, hc]
  · simp [parseOption, assign, Unparsable, hc]
  · cases hp : parseProto c <;> simp [parseOption, assign, parsed, Unparsable, hc, hp]

lemma optionLoop_behind {n : ℕ} (hn : n ≤ 6) (ip : List UInt8) (dev : Candidate) :
    optionLoop arch n (behind n ip) dev =
      if Unparsable arch n (component ip n) then none
      else optionLoop arch (n + 1) (behind (n + 1) ip) (assign arch n (component ip n) dev) := by
  have hempty (hc : component ip n = []) :
      ¬Unparsable arch n (component ip n) ∧ assign arch n (component ip n) dev = dev := by
    refine ⟨fun hbad => hbad.1 hc, ?_⟩
    rw [hc]
    interval_cases n <;> rfl
  by_cases hend : behind n ip = []
  · have hc : component ip n = [] := by rw [component, hend, List.takeWhile_nil]
    have hnext : behind (n + 1) ip = [] := by rw [behind, hend, List.dropWhile_nil, List.tail_nil]
    rw [if_neg (hempty hc).1, (hempty hc).2, hend, hnext, optionLoop, optionLoop, dif_pos rfl,
      dif_pos rfl]
  rw [optionLoop, dif_neg hend]
  by_cases hc : component ip n = []
  · simp only [if_neg (Nat.not_lt.2 hn), if_neg (hempty hc).1, (hempty hc).2]
    exact if_pos hc
  · simp only [if_neg (Nat.not_lt.2 hn)]
    rw [show (behind n ip).takeWhile (· ≠ chr ':') = component ip n from rfl, if_neg hc,
      parseOption_eq hn hc]
    split <;> rfl

/-- Where the loop gives up: at a component that cannot be parsed, and at anything behind the
seventh colon. -/
def Aborts (arch : Arch) (ip : List UInt8) : Prop :=
  (∃ n < 7, Unparsable arch n (component ip n)) ∨ behind 7 ip ≠ []

instance (ip : List UInt8) : Decidable (Aborts arch ip) := inferInstanceAs (Decidable (_ ∨ _))

variable (ip : List UInt8)

lemma optionLoop_turns : ∀ k ≤ 7, ∀ dev,
    optionLoop arch (7 - k) (behind (7 - k) ip) dev =
      if (∃ n < 7, 7 - k ≤ n ∧ Unparsable arch n (component ip n)) ∨ behind 7 ip ≠ [] then none
      else some ((List.range' (7 - k) k).foldl
        (fun dev n => assign arch n (component ip n) dev) dev) := by
  intro k
  induction k with
  | zero =>
    intro _ dev
    have hlate : ¬∃ n < 7, 7 - 0 ≤ n ∧ Unparsable arch n (component ip n) := by
      rintro ⟨n, hn, hle, -⟩
      omega
    simp only [hlate, false_or]
    rw [Nat.sub_zero, optionLoop]
    by_cases hend : behind 7 ip = [] <;> simp [hend]
  | succ k ih =>
    intro hk dev
    have hnext : 7 - (k + 1) + 1 = 7 - k := by omega
    rw [optionLoop_behind (by omega), hnext, ih (by omega), List.range'_succ, hnext,
      List.foldl_cons]
    by_cases hbad : Unparsable arch (7 - (k + 1)) (component ip (7 - (k + 1)))
    · rw [if_pos hbad, if_pos (.inl ⟨_, by omega, le_rfl, hbad⟩)]
    · have hlater : (∃ n < 7, 7 - (k + 1) ≤ n ∧ Unparsable arch n (component ip n)) ↔
          ∃ n < 7, 7 - k ≤ n ∧ Unparsable arch n (component ip n) := by
        refine exists_congr fun n => and_congr_right fun _ => and_congr_left fun h => ?_
        have hne : n ≠ 7 - (k + 1) := fun heq => hbad (heq ▸ h)
        omega
      rw [if_neg hbad]
      simp only [hlater]

/-- **The whole loop** gives up, or assigns by position. -/
theorem optionLoop_positional (dev : Candidate) :
    optionLoop arch 0 ip dev =
      if Aborts arch ip then none else some (positional arch (component ip) dev) := by
  simpa [positional_eq, List.range_eq_range', behind, Aborts] using
    @optionLoop_turns arch ip 7 le_rfl dev

/-! ### The host name -/

lemma toList_hostnameOf : (hostnameOf ip).toList =
    ip.take (SYS_NMLN - 1) ++ List.replicate (SYS_NMLN - (ip.take (SYS_NMLN - 1)).length) 0 := by
  have hlen : (ip.take (SYS_NMLN - 1)).length ≤ SYS_NMLN - 1 := List.length_take_le _ _
  have hpos : 0 < SYS_NMLN := by decide
  rw [hostnameOf, Vector.toList_ofFn]
  generalize SYS_NMLN = n at *
  refine List.ext_getElem ?_ fun k hk hk' => ?_
  · rw [List.length_ofFn, List.length_append, List.length_replicate]
    omega
  · rw [List.getElem_ofFn, List.getElem_append]
    by_cases hlt : k < n - 1 <;> by_cases hin : k < ip.length <;>
      simp [hlt, hin, List.getD_eq_getElem?_getD]

/-- **The name that is stored** is cut to the size of the array. -/
theorem cString_hostnameOf {ip : List UInt8} (h : 0 ∉ ip) :
    cString (hostnameOf ip) = ip.take (SYS_NMLN - 1) := by
  have hname : ∀ c ∈ ip.take (SYS_NMLN - 1), decide (c ≠ 0) = true := by
    intro c hc
    simpa using fun heq : c = 0 => h (heq ▸ List.mem_of_mem_take hc)
  have hzeros (n : ℕ) : (List.replicate n (0 : UInt8)).takeWhile (· ≠ 0) = [] := by
    cases n <;> simp [List.replicate_succ]
  rw [cString, toList_hostnameOf, List.takeWhile_append_of_pos hname, hzeros, List.append_nil,
    List.take_take, min_self]

lemma bytes_ofArray (a : Vector UInt8 SYS_NMLN) : (Hostname.ofArray a).bytes = cString a := rfl

lemma zero_notMem_component {ip : List UInt8} (h : 0 ∉ ip) (n : ℕ) : 0 ∉ component ip n := by
  have hbehind : ∀ n, 0 ∉ behind n ip := by
    intro n
    induction n with
    | zero => exact h
    | succ n ih => exact fun hmem => ih ((List.dropWhile_suffix _).mem (List.mem_of_mem_tail hmem))
  exact fun hmem => hbehind n ((List.takeWhile_prefix _).mem hmem)

lemma zero_notMem_skipIp {info : List UInt8} (h : 0 ∉ info) : 0 ∉ (skipIp info).2 := by
  unfold skipIp
  split
  · exact fun hmem => h (List.mem_of_mem_drop hmem)
  · split
    · exact fun hmem => h (List.mem_of_mem_drop hmem)
    · exact h

/-! ### `parse_device` -/

/-- **A description with a colon.** `parse_device` gives up if and only if a component that is not
empty cannot be parsed or something follows the seventh colon. Otherwise it goes on with the
positional reading of the components; a host name stands in both fields, cut to the size of the
array. -/
theorem parse_device_positional (arch : Arch) (addAllDevices : Candidate → Call Globals Unit)
    (dev : Candidate) (info : List UInt8) (g : Globals) (hstr : 0 ∉ info)
    (hcolon : chr ':' ∈ (skipIp info).2) :
    let ip := (skipIp info).2
    let dev' := positional arch (component ip) dev
    (Aborts arch ip → exec (parseDevice arch addAllDevices dev info) g = (none, g)) ∧
    (¬Aborts arch ip → exec (parseDevice arch addAllDevices dev info) g =
      if dev'.forAll then
        exec (do addAllDevices dev'; setBringupFirst; pure (dev', false)) g
      else (some (dev', true), g)) ∧
    (component ip 4 ≠ [] →
      cString dev'.hostname = (component ip 4).take (SYS_NMLN - 1) ∧
      dev'.reqhostname.bytes = (component ip 4).take (SYS_NMLN - 1)) := by
  intro ip dev'
  have hinfo : parseInfo arch dev info = ofOption (if Aborts arch ip then none else some dev') := by
    rw [parseInfo, ← optionLoop_positional, optionLoop_eq]
    exact if_neg (not_not.2 hcolon)
  have hexec (x : Option Candidate) : exec (ofOption x) g = (x, g) := rfl
  refine ⟨fun hbad => ?_, fun hgood => ?_, fun hname => ?_⟩
  · rw [parseDevice, exec_bind, hinfo, hexec, if_pos hbad]
    rfl
  · rw [parseDevice, exec_bind, hinfo, hexec, if_neg hgood]
    change exec (if dev'.forAll then _ else _) g = _
    split <;> rfl
  · have hstored : cString (hostnameOf (component ip 4)) = (component ip 4).take (SYS_NMLN - 1) :=
      cString_hostnameOf (zero_notMem_component (zero_notMem_skipIp hstr) 4)
    constructor
    · have hfield : dev'.hostname = hostnameOf (component ip 4) := if_neg hname
      rw [hfield, hstored]
    · have hfield : dev'.reqhostname = Hostname.ofArray (hostnameOf (component ip 4)) :=
        if_neg hname
      rw [hfield, bytes_ofArray, hstored]

/-- A client address, an empty component, a device and a protocol. -/
theorem parse_device_positional_off :
    let dev : Candidate := { Candidate.zero with caps := 7 }
    exec (parseDevice arch64 (fun _ => pure ()) dev
      [49, 46, 50, 46, 51, 46, 52, 58, 58, 58, 58, 58, 101, 58, 111, 102, 102]) Globals.start =
    (some ({ dev with ipAddr := ⟨1, 2, 3, 4⟩, name := some [101], caps := 0 }, true),
      Globals.start) := by
  intro dev
  refine ((parse_device_positional arch64 (fun _ => pure ()) dev _ Globals.start (by decide)
    (by decide)).2.1 (by decide +kernel)).trans ?_
  rfl

end

end Klibc.Ipconfig.Components
