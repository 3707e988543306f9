import Klibc.Ipconfig.Framing
import Klibc.Ipconfig.DhcpProto

/-! # The two option walkers

`dhcp_parse` walks the options area before `bootp_parse` does, for the message type (option 53) and
the server identifier (option 54). Its loop has no case for the end option: it takes the byte after
it for a length and goes on up to `extlen`. `Scans exts extlen i os` are the options it sees from
`i` on.

On a well-formed area these are the options of the format followed by those it makes out in the
bytes from the end option on (`scans_of_framed`). So the type and identifier it extracts are the
ones the message carries iff the options that carry them have the bytes read, and nothing it makes
out after the end says otherwise (`dhcpScan_agrees_iff`). -/

namespace Klibc.Ipconfig.Walkers

open Device BootpProto DhcpProto Framing

/-- **The options the loop of `dhcp_parse` sees** from offset `i` on. -/
inductive Scans (exts : Bytes) (extlen : ℕ) : ℕ → List ℕ → Prop
  | stop {i : ℕ} : extlen ≤ i → Scans exts extlen i []
  | pad {i : ℕ} {os : List ℕ} : i < extlen → exts i = 0 → Scans exts extlen (i + 1) os →
      Scans exts extlen i os
  | opt {i : ℕ} {os : List ℕ} : i < extlen → exts i ≠ 0 →
      Scans exts extlen (i + 2 + optLen exts i) os → Scans exts extlen i (i :: os)

/-- The last of the options `os` with code `c`. -/
def lastOpt (exts : Bytes) (c : UInt8) (os : List ℕ) : Option ℕ :=
  (os.filter fun o => exts o == c).getLast?

variable {exts : Bytes} {extlen : ℕ}

lemma exists_scans (exts : Bytes) (extlen i : ℕ) : ∃ os, Scans exts extlen i os := by
  refine area_induct (fun i hi => ⟨[], .stop hi⟩) (fun i hi ih => ?_) i
  by_cases h0 : exts i = 0
  · obtain ⟨os, hos⟩ := ih (i + 1) (by omega)
    exact ⟨os, .pad hi h0 hos⟩
  · obtain ⟨os, hos⟩ := ih (i + 2 + optLen exts i) (by omega)
    exact ⟨i :: os, .opt hi h0 hos⟩

lemma lastOpt_append (c : UInt8) (os ts : List ℕ) :
    lastOpt exts c (os ++ ts) = (lastOpt exts c ts).or (lastOpt exts c os) := by
  unfold lastOpt
  rw [List.filter_append, List.getLast?_append]

lemma foldl_lastOpt {β : Type*} (c : UInt8) (f : ℕ → β) (os : List ℕ) (b : β) :
    os.foldl (fun b o => if exts o = c then f o else b) b = (lastOpt exts c os).elim b f := by
  induction os using List.reverseRecOn generalizing b with
  | nil => rfl
  | append_singleton os o ih =>
    rw [List.foldl_append, ih, lastOpt_append]
    by_cases h : exts o = c <;> simp [lastOpt, h]

variable {os ts : List ℕ}

lemma dhcpLoop_spec {i : ℕ} (h : Scans exts extlen i os) :
    ∀ (fuel : ℕ) (s : Scan), extlen ≤ i + fuel →
      (dhcpLoop exts extlen fuel i s).type =
        (lastOpt exts 53 os).elim s.type (fun o => exts (o + 2)) ∧
      (dhcpLoop exts extlen fuel i s).serverid =
        (lastOpt exts 54 os).elim s.serverid (fun o => load32 exts (o + 2)) := by
  simp only [← foldl_lastOpt]
  induction h with
  | stop hi =>
    intro fuel s _
    cases fuel with
    | zero => simp [dhcpLoop]
    | succ fuel => simp [dhcpLoop, Nat.not_lt.mpr hi]
  | pad hi h0 _ ih =>
    intro fuel s hf
    obtain ⟨fuel, rfl⟩ : ∃ k, fuel = k + 1 := ⟨fuel - 1, by omega⟩
    simp only [dhcpLoop, hi, h0, if_true]
    exact ih fuel { s with reads := s.reads ++ [_] } (by omega)
  | opt hi h0 _ ih =>
    intro fuel s hf
    obtain ⟨fuel, rfl⟩ : ∃ k, fuel = k + 1 := ⟨fuel - 1, by omega⟩
    simp only [dhcpLoop, hi, h0, if_true, if_false]
    exact ih fuel (dhcpOption exts _ s) (by omega)

/-- On a well-formed area the walk sees the options of the format, and then goes on at the end
option. -/
theorem scans_of_framed {i e : ℕ} (hf : Framed exts i os e) (he : e < extlen)
    (ht : Scans exts extlen e ts) : Scans exts extlen i (os ++ ts) := by
  induction hf with
  | fin _ => exact ht
  | pad h0 hf' ih =>
    have := hf'.le
    exact Scans.pad (by omega) h0 (ih he ht)
  | opt h0 _ hf' ih =>
    have := hf'.le
    exact Scans.opt (by omega) h0 (ih he ht)

/-! ### What the message says -/

/-- The message type: the value of the last option 53, `0` if there is none. -/
def msgType (exts : Bytes) (os : List ℕ) : Option UInt8 :=
  match lastOpt exts 53 os with
  | none => some 0
  | some o => (optData exts o).head?

/-- The server identifier: the value of the last option 54, `INADDR_NONE` if there is none. -/
def msgServer (exts : Bytes) (os : List ℕ) : Option Quad :=
  match lastOpt exts 54 os with
  | none => some INADDR_NONE
  | some o => if 4 ≤ (optData exts o).length then some (dataAddr (optData exts o)) else none

/-- The last options 53 and 54 have the bytes that are read as their values. -/
def HasValues (exts : Bytes) (os : List ℕ) : Prop :=
  (∀ o, lastOpt exts 53 os = some o → 1 ≤ optLen exts o) ∧
    ∀ o, lastOpt exts 54 os = some o → 4 ≤ optLen exts o

/-- What the walk takes for options 53 and 54 from the end option on says nothing new. -/
def SilentTail (exts : Bytes) (os ts : List ℕ) : Prop :=
  (∀ t, lastOpt exts 53 ts = some t → msgType exts os = some (exts (t + 2))) ∧
    ∀ t, lastOpt exts 54 ts = some t → msgServer exts os = some (load32 exts (t + 2))

lemma head?_optData {o : ℕ} (h : 1 ≤ optLen exts o) :
    (optData exts o).head? = some (exts (o + 2)) := by
  obtain ⟨n, hn⟩ : ∃ n, optLen exts o = n + 1 := ⟨optLen exts o - 1, by omega⟩
  rw [optData, hn, List.range'_succ]; rfl

lemma msgType_eq_some_iff {v : UInt8} : msgType exts os = some v ↔
    (∀ o, lastOpt exts 53 os = some o → 1 ≤ optLen exts o) ∧
      v = (lastOpt exts 53 os).elim 0 (fun o => exts (o + 2)) := by
  unfold msgType
  cases h : lastOpt exts 53 os with
  | none => simp [eq_comm]
  | some o =>
    simp only [Option.some.injEq, forall_eq', Option.elim_some]
    by_cases hl : 1 ≤ optLen exts o
    · rw [head?_optData hl, Option.some.injEq]
      exact ⟨fun h => ⟨hl, h.symm⟩, fun h => h.2.symm⟩
    · have : (optData exts o).head? = none := by
        rw [List.head?_eq_none_iff, ← List.length_eq_zero_iff, length_optData]; omega
      rw [this]
      exact iff_of_false (by simp) (fun h => hl h.1)

lemma msgServer_eq_some_iff {v : Quad} : msgServer exts os = some v ↔
    (∀ o, lastOpt exts 54 os = some o → 4 ≤ optLen exts o) ∧
      v = (lastOpt exts 54 os).elim INADDR_NONE (fun o => load32 exts (o + 2)) := by
  unfold msgServer
  cases h : lastOpt exts 54 os with
  | none => simp [eq_comm]
  | some o =>
    simp only [Option.some.injEq, forall_eq', Option.elim_some, length_optData]
    by_cases hl : 4 ≤ optLen exts o
    · rw [if_pos hl, Option.some.injEq, load32_eq hl]
      exact ⟨fun h => ⟨hl, h.symm⟩, fun h => h.2.symm⟩
    · rw [if_neg hl]
      exact iff_of_false (by simp) (fun h => hl h.1)

lemma tail_iff {α : Type} {m : Option α} {d : α} {f : ℕ → α} {P : Prop} (code : UInt8)
    (hm : ∀ v, m = some v ↔ P ∧ v = (lastOpt exts code os).elim d f) (ts : List ℕ) :
    m = some (((lastOpt exts code ts).or (lastOpt exts code os)).elim d f) ↔
      P ∧ ∀ t, lastOpt exts code ts = some t → m = some (f t) := by
  cases h : lastOpt exts code ts with
  | none => simp [hm]
  | some t =>
    simp only [Option.some_or, Option.elim_some, Option.some.injEq, forall_eq']
    exact ⟨fun h => ⟨((hm _).1 h).1, h⟩, fun h => h.2⟩

section
variable {e : ℕ} (hc : Cookie exts extlen) (hf : Framed exts 4 os e) (he : e < extlen)
  (ht : Scans exts extlen e ts)
include hc hf he ht

/-- The type that `dhcp_parse` extracts, by what is before and what is behind the end option. -/
lemma dhcpScan_type : (dhcpScan exts extlen).type =
    ((lastOpt exts 53 ts).or (lastOpt exts 53 os)).elim 0 fun o => exts (o + 2) := by
  rw [dhcpScan, if_pos hc, ← lastOpt_append]
  exact (dhcpLoop_spec (scans_of_framed hf he ht) extlen _ (by omega)).1

lemma type_agrees_iff : msgType exts os = some (dhcpScan exts extlen).type ↔
    (∀ o, lastOpt exts 53 os = some o → 1 ≤ optLen exts o) ∧
      ∀ t, lastOpt exts 53 ts = some t → msgType exts os = some (exts (t + 2)) := by
  rw [dhcpScan_type hc hf he ht, tail_iff 53 fun _ => msgType_eq_some_iff]

lemma agrees_iff_of_scans : (msgType exts os = some (dhcpScan exts extlen).type ∧
      msgServer exts os = some (dhcpScan exts extlen).serverid) ↔
      HasValues exts os ∧ SilentTail exts os ts := by
  have hserver := (dhcpLoop_spec (scans_of_framed hf he ht) extlen
    ⟨0, INADDR_NONE, cookieReads exts extlen⟩ (by omega)).2
  rw [lastOpt_append] at hserver
  rw [type_agrees_iff hc hf he ht, dhcpScan, if_pos hc, hserver,
    tail_iff 54 fun _ => msgServer_eq_some_iff]
  unfold HasValues SilentTail
  tauto

end

/-- **The walkers agree.** On an area that starts with the cookie and is well formed up to its end
option, followed by anything, `dhcp_parse` extracts the message type and server identifier of the
options before the end if and only if the last options 53 and 54 have values and what the walk makes
out from the end option on says nothing new. -/
theorem dhcpScan_agrees_iff (exts : Bytes) (extlen e : ℕ) (os : List ℕ)
    (hc : Cookie exts extlen) (hf : Framed exts 4 os e) (he : e < extlen) :
    (msgType exts os = some (dhcpScan exts extlen).type ∧
      msgServer exts os = some (dhcpScan exts extlen).serverid) ↔
      HasValues exts os ∧ ∃ ts, Scans exts extlen e ts ∧ SilentTail exts os ts := by
  constructor
  · intro h
    obtain ⟨ts, hts⟩ := exists_scans exts extlen e
    obtain ⟨hval, hsilent⟩ := (agrees_iff_of_scans hc hf he hts).1 h
    exact ⟨hval, ts, hts, hsilent⟩
  · rintro ⟨hval, ts, hts, hsilent⟩
    exact (agrees_iff_of_scans hc hf he hts).2 ⟨hval, hsilent⟩

/-- The area is that of a message of type `t`: it starts with the cookie and is well formed, and the
last option 53 before its end says so. -/
def Carries (exts : Bytes) (extlen : ℕ) (t : UInt8) : Prop :=
  Cookie exts extlen ∧ ∃ os e, Framed exts 4 os e ∧ e < extlen ∧ msgType exts os = some t

lemma Carries.unique {t t' : UInt8} (h : Carries exts extlen t) (h' : Carries exts extlen t') :
    t = t' := by
  obtain ⟨-, os, e, hf, -, ht⟩ := h
  obtain ⟨-, os', e', hf', -, ht'⟩ := h'
  obtain ⟨rfl, -⟩ := hf.unique hf'
  exact Option.some.inj (ht.symm.trans ht')

/-- The area is well formed, its last option 53 has a value, and what the walk takes for an option
53 from the end option on says nothing new. -/
def TypeIntact (exts : Bytes) (extlen : ℕ) : Prop :=
  ∃ os e ts, Framed exts 4 os e ∧ e < extlen ∧ Scans exts extlen e ts ∧
    (∀ o, lastOpt exts 53 os = some o → 1 ≤ optLen exts o) ∧
      ∀ t, lastOpt exts 53 ts = some t → msgType exts os = some (exts (t + 2))

/-- The type that is extracted is then the one that the message carries. -/
theorem TypeIntact.carries (h : TypeIntact exts extlen) (ht : (dhcpScan exts extlen).type ≠ 0) :
    Carries exts extlen (dhcpScan exts extlen).type := by
  have hc : Cookie exts extlen := by
    by_contra hc
    exact ht (by rw [dhcpScan, if_neg hc])
  obtain ⟨os, e, ts, hf, he, hts, hval, hsilent⟩ := h
  exact ⟨hc, os, e, hf, he, (type_agrees_iff hc hf he hts).2 ⟨hval, hsilent⟩⟩

/-- An offer with a server identifier, nothing after its end option. -/
def offer : Bytes := fun i =>
  ([99, 130, 83, 99, 53, 1, 2, 54, 4, 10, 0, 0, 1, 255, 0] : List UInt8).getD i 0

theorem dhcpScan_agrees_offer : msgType offer [4, 7] = some (dhcpScan offer 15).type ∧
    msgServer offer [4, 7] = some (dhcpScan offer 15).serverid :=
  (dhcpScan_agrees_iff offer 15 13 [4, 7] (by decide)
    (.opt (by decide) (by decide) (.opt (by decide) (by decide) (.fin (by decide))))
    (by decide)).mpr
    ⟨⟨fun o h => by cases h; decide, fun o h => by cases h; decide⟩, [13],
      .opt (by decide) (by decide) (.stop (by decide)),
      fun t h => (by cases h), fun t h => (by cases h)⟩

/-- An offer, with the bytes of an acknowledgement after its end option. -/
def offerThenAck : Bytes := fun i =>
  ([99, 130, 83, 99, 53, 1, 2, 255, 0, 53, 1, 5] : List UInt8).getD i 0

/-- **Bytes after the end option do count**: this offer is taken for an acknowledgement. -/
theorem dhcpScan_offerThenAck : Cookie offerThenAck 12 ∧ Framed offerThenAck 4 [4] 7 ∧
    msgType offerThenAck [4] = some DHCPOFFER ∧ (dhcpScan offerThenAck 12).type = DHCPACK := by
  refine ⟨by decide, .opt (by decide) (by decide) (.fin (by decide)), by decide, by decide⟩

end Klibc.Ipconfig.Walkers
