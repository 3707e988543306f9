import Klibc.Ipconfig.BootpProto

/-! # Option framing: what `bootp_parse` should decode and what it does

`Framed exts i os e` is the format of an options area from offset `i` on: pads, options (code byte,
length byte, that many data bytes) at the offsets `os`, and the end option at `e`. The configuration
such an area describes is `os.foldl (applyAt exts)`: the options in order, each applied to the
fields it names (`applyOption`).

`Walks exts extlen i os` are the options the loop of `bootp_parse` decodes from `i` on. It moves on
by `cut`, the length the option was cut to, so that it leaves the format after a name of more than
64 bytes. `walks_eq_iff` says exactly when the two agree: the bytes of such a name past the 64th
have to be pads, or pads and an end option if no option follows (`Synced`). -/

namespace Klibc.Ipconfig.Framing

open Device BootpProto

/-! ### The format -/

def optLen (exts : Bytes) (o : ℕ) : ℕ := (exts (o + 1)).toNat

def optData (exts : Bytes) (o : ℕ) : List UInt8 := (List.range' (o + 2) (optLen exts o)).map exts

/-- **The format of an options area**: options at the offsets `os` and the end option at `e`. -/
inductive Framed (exts : Bytes) : ℕ → List ℕ → ℕ → Prop
  | fin {i : ℕ} : exts i = 255 → Framed exts i [] i
  | pad {i e : ℕ} {os : List ℕ} : exts i = 0 → Framed exts (i + 1) os e → Framed exts i os e
  | opt {i e : ℕ} {os : List ℕ} : exts i ≠ 0 → exts i ≠ 255 →
      Framed exts (i + 2 + optLen exts i) os e → Framed exts i (i :: os) e

variable {exts : Bytes} {o : ℕ}

lemma Framed.le {i e : ℕ} {os : List ℕ} (h : Framed exts i os e) : i ≤ e := by
  induction h with
  | fin _ => exact le_rfl
  | pad _ _ ih => omega
  | opt _ _ _ ih => omega

/-- An area is framed in one way only. -/
lemma Framed.unique {i e e' : ℕ} {os os' : List ℕ} (h : Framed exts i os e)
    (h' : Framed exts i os' e') : os = os' ∧ e = e' := by
  induction h generalizing os' with
  | fin hend =>
    cases h' with
    | fin => exact ⟨rfl, rfl⟩
    | pad h0 => exact absurd (hend.symm.trans h0) (by decide)
    | opt _ hne => exact absurd hend hne
  | pad h0 _ ih =>
    cases h' with
    | fin hend => exact absurd (hend.symm.trans h0) (by decide)
    | pad _ hf => exact ih hf
    | opt hne => exact absurd h0 hne
  | opt hne hne' _ ih =>
    cases h' with
    | fin hend => exact absurd hend hne'
    | pad h0 => exact absurd h0 hne
    | opt _ _ hf =>
      obtain ⟨rfl, rfl⟩ := ih hf
      exact ⟨rfl, rfl⟩

lemma Framed.le_mem {i e : ℕ} {os : List ℕ} (h : Framed exts i os e) : ∀ o ∈ os, i ≤ o := by
  induction h with
  | fin _ => simp
  | pad _ _ ih => intro o ho; have := ih o ho; omega
  | opt _ _ _ ih =>
    intro o ho
    rcases List.mem_cons.mp ho with rfl | ho
    · exact le_rfl
    · have := ih o ho; omega

/-! ### What an option means -/

def dataAddr (d : List UInt8) : Quad := ⟨d.getD 0 0, d.getD 1 0, d.getD 2 0, d.getD 3 0⟩

/-- A text stored in an array of `n` bytes: as much of it as fits, and a NUL. -/
def storeStr {n : ℕ} (dst : Vector UInt8 n) (d : List UInt8) : Vector UInt8 n :=
  Vector.ofFn fun k =>
    if k.val < min d.length (n - 1) then d.getD k 0
    else if k.val = min d.length (n - 1) then 0 else dst.get k

/-- The configuration after the option with code `c` and data `d`. -/
def applyOption (dev : Netdev) (c : UInt8) (d : List UInt8) : Netdev :=
  match optCode c with
  | .subnetMask => if d.length = 4 then { dev with ipNetmask := dataAddr d } else dev
  | .defaultGateway => if 4 ≤ d.length then { dev with ipGateway := dataAddr d } else dev
  | .dnsServer =>
    if 8 ≤ d.length then
      { dev with ipNameserver0 := dataAddr d, ipNameserver1 := dataAddr (d.drop 4) }
    else if 4 ≤ d.length then { dev with ipNameserver0 := dataAddr d } else dev
  | .hostName => { dev with hostname := storeStr dev.hostname d }
  | .domainName => { dev with dnsdomainname := storeStr dev.dnsdomainname d }
  | .rootPath => { dev with bootpath := storeStr dev.bootpath d }
  | .interfaceMtu =>
    if d.length = 2 then
      { dev with mtu := (d.getD 0 0).toNat * 2 ^ 8 + (d.getD 1 0).toNat }
    else dev
  | .broadcastAddr => if d.length = 4 then { dev with ipBroadcast := dataAddr d } else dev
  | .nisDomainName => { dev with nisdomainname := storeStr dev.nisdomainname d }
  | .serverIdentifier =>
    if d.length = 4 ∧ dev.ipServer = INADDR_ANY then { dev with ipServer := dataAddr d } else dev
  | .other => dev

def applyAt (exts : Bytes) (dev : Netdev) (o : ℕ) : Netdev :=
  applyOption dev (exts o) (optData exts o)

lemma length_optData (exts : Bytes) (o : ℕ) : (optData exts o).length = optLen exts o := by
  simp [optData]

lemma getD_optData {k : ℕ} (h : k < optLen exts o) :
    (optData exts o).getD k 0 = exts (o + 2 + k) := by
  rw [List.getD_eq_getElem _ _ (by rw [length_optData]; exact h)]
  simp [optData]

lemma optLen_le (exts : Bytes) (o : ℕ) : optLen exts o ≤ 255 := by
  have := (exts (o + 1)).toNat_lt
  unfold optLen; omega

lemma load32_eq (h : 4 ≤ optLen exts o) : load32 exts (o + 2) = dataAddr (optData exts o) := by
  unfold load32 dataAddr
  rw [getD_optData (by omega), getD_optData (by omega), getD_optData (by omega),
    getD_optData (by omega)]

lemma load32_add_four (h : 8 ≤ optLen exts o) :
    load32 exts (o + 2 + 4) = dataAddr ((optData exts o).drop 4) := by
  have hd : ∀ k, ((optData exts o).drop 4).getD k 0 = (optData exts o).getD (4 + k) 0 := by
    intro k; simp [List.getD_eq_getElem?_getD]
  unfold load32 dataAddr
  rw [hd, hd, hd, hd, getD_optData (by omega), getD_optData (by omega), getD_optData (by omega),
    getD_optData (by omega)]

lemma clamp_eq (cap len : ℕ) : clamp cap len = min len (cap - 1) := by
  unfold clamp; split_ifs <;> omega

lemma copyStr_eq {n : ℕ} (exts : Bytes) (o : ℕ) (dst : Vector UInt8 n) :
    copyStr exts (o + 2) (clamp n (optLen exts o)) dst = storeStr dst (optData exts o) := by
  unfold copyStr storeStr
  rw [clamp_eq, length_optData]
  congr 1
  funext k
  by_cases h : k.val < min (optLen exts o) (n - 1)
  · rw [if_pos h, if_pos h, getD_optData (by omega)]
  · rw [if_neg h, if_neg h]

/-! ### What the `switch` of `bootp_parse` does -/

def cut (exts : Bytes) (o : ℕ) : ℕ :=
  match optCode (exts o) with
  | .hostName | .domainName | .nisDomainName => min (optLen exts o) (SYS_NMLN - 1)
  | _ => optLen exts o

lemma cut_le (exts : Bytes) (o : ℕ) : cut exts o ≤ optLen exts o := by unfold cut; split <;> omega

lemma bootpOption_dev (exts : Bytes) (dev : Netdev) (o : ℕ) :
    (bootpOption exts dev (exts o) (optLen exts o) (o + 2)).dev = applyAt exts dev o := by
  unfold bootpOption applyAt applyOption
  simp only [length_optData, copyStr_eq]
  cases optCode (exts o) with
  | dnsServer =>
    dsimp only
    by_cases h8 : 8 ≤ optLen exts o
    · rw [if_pos (by omega), if_pos h8, if_pos h8, load32_eq (by omega), load32_add_four h8]
    · rw [if_neg h8]
      split_ifs with h4
      · rw [load32_eq h4]
      · rfl
  | interfaceMtu =>
    dsimp only
    split_ifs with h
    · rw [load16, getD_optData (by omega), getD_optData (by omega)]
    · rfl
  | hostName | domainName | rootPath | nisDomainName | other => rfl
  | subnetMask | defaultGateway | broadcastAddr | serverIdentifier =>
    dsimp only
    split_ifs with h
    · rw [load32_eq (by omega)]
    · rfl

lemma bootpOption_len (exts : Bytes) (dev : Netdev) (o : ℕ) :
    (bootpOption exts dev (exts o) (optLen exts o) (o + 2)).len = cut exts o := by
  unfold bootpOption cut
  cases optCode (exts o) with
  | hostName | domainName | nisDomainName => exact clamp_eq _ _
  | rootPath =>
    -- the 255 bytes of a longest option fit in the boot path
    have h255 := optLen_le exts o
    dsimp only
    rw [clamp_eq, BPLEN]; omega
  | other => rfl
  | subnetMask | defaultGateway | broadcastAddr | serverIdentifier | dnsServer | interfaceMtu =>
    dsimp only
    split_ifs <;> rfl

/-! ### The options the loop decodes -/

/-- **The options decoded by the loop of `bootp_parse`** from offset `i` on. -/
inductive Walks (exts : Bytes) (extlen : ℕ) : ℕ → List ℕ → Prop
  | stop {i : ℕ} : extlen ≤ i → Walks exts extlen i []
  | fin {i : ℕ} : i < extlen → exts i = 255 → Walks exts extlen i []
  | pad {i : ℕ} {os : List ℕ} : i < extlen → exts i = 0 → Walks exts extlen (i + 1) os →
      Walks exts extlen i os
  | opt {i : ℕ} {os : List ℕ} : i < extlen → exts i ≠ 0 → exts i ≠ 255 →
      Walks exts extlen (i + 2 + cut exts i) os → Walks exts extlen i (i :: os)

section
variable {exts : Bytes} {extlen : ℕ}

/-- Induction on what is left of the area. -/
@[elab_as_elim]
lemma area_induct {P : ℕ → Prop} (stop : ∀ i, extlen ≤ i → P i)
    (step : ∀ i < extlen, (∀ j, i < j → P j) → P i) (i : ℕ) : P i := by
  induction hn : extlen - i using Nat.strong_induction_on generalizing i with
  | _ n ih =>
    by_cases hi : i < extlen
    · exact step i hi fun j hj => ih (extlen - j) (by omega) j rfl
    · exact stop i (by omega)

lemma exists_walks (exts : Bytes) (extlen i : ℕ) : ∃ os, Walks exts extlen i os := by
  refine area_induct (fun i hi => ⟨[], .stop hi⟩) (fun i hi ih => ?_) i
  by_cases h0 : exts i = 0
  · obtain ⟨os, hos⟩ := ih (i + 1) (by omega)
    exact ⟨os, .pad hi h0 hos⟩
  · by_cases h255 : exts i = 255
    · exact ⟨[], .fin hi h255⟩
    · obtain ⟨os, hos⟩ := ih (i + 2 + cut exts i) (by omega)
      exact ⟨i :: os, .opt hi h0 h255 hos⟩

variable {os : List ℕ}

/-- **What the loop computes**: it applies the options it decodes, in order. -/
theorem bootpLoop_spec {i : ℕ} (h : Walks exts extlen i os) :
    ∀ (fuel : ℕ) (w : Walk), extlen ≤ i + fuel →
      (bootpLoop exts extlen fuel i w).dev = os.foldl (applyAt exts) w.dev ∧
      (bootpLoop exts extlen fuel i w).opts = w.opts ++ os := by
  induction h with
  | stop hi =>
    intro fuel w _
    cases fuel with
    | zero => simp [bootpLoop]
    | succ fuel => simp [bootpLoop, Nat.not_lt.mpr hi]
  | fin hi hb =>
    intro fuel w hf
    obtain ⟨fuel, rfl⟩ : ∃ k, fuel = k + 1 := ⟨fuel - 1, by omega⟩
    simp [bootpLoop, hi, hb]
  | pad hi hb _ ih =>
    intro fuel w hf
    obtain ⟨fuel, rfl⟩ : ∃ k, fuel = k + 1 := ⟨fuel - 1, by omega⟩
    simp only [bootpLoop, hi, hb, if_true]
    exact ih fuel _ (by omega)
  | @opt i os hi h0 h255 _ ih =>
    intro fuel w hf
    obtain ⟨fuel, rfl⟩ : ∃ k, fuel = k + 1 := ⟨fuel - 1, by omega⟩
    simp only [bootpLoop, hi, h0, h255, if_true, if_false]
    have hlen := bootpOption_len exts w.dev i
    have hdev := bootpOption_dev exts w.dev i
    unfold optLen at hlen hdev
    rw [hlen, hdev]
    obtain ⟨h1, h2⟩ := ih fuel ⟨applyAt exts w.dev i, w.opts ++ [i], w.reads ++ [i, i + 1] ++
      (bootpOption exts w.dev (exts i) (exts (i + 1)).toNat (i + 2)).reads⟩ (by omega)
    exact ⟨h1, by rw [h2, List.append_assoc]; rfl⟩

/-! ### When the loop stays in step with the format -/

def leftover (exts : Bytes) (o : ℕ) : List UInt8 := (optData exts o).drop (cut exts o)

/-- Taken as options, the bytes left over are pads; or pads and an end option, and no option was to
follow. -/
def Harmless (exts : Bytes) (o : ℕ) (os : List ℕ) : Prop :=
  (leftover exts o).dropWhile (· == 0) = [] ∨
    os = [] ∧ ((leftover exts o).dropWhile (· == 0)).head? = some 255

/-- The bytes left over are harmless in every option of the area. -/
def Synced (exts : Bytes) : List ℕ → Prop
  | [] => True
  | o :: os => Harmless exts o os ∧ Synced exts os

lemma leftover_eq (exts : Bytes) (o : ℕ) :
    leftover exts o = (List.range' (o + 2 + cut exts o) (optLen exts o - cut exts o)).map exts := by
  simp [leftover, optData, ← List.map_drop, List.drop_range']

lemma walks_leftover : ∀ (n a : ℕ), a + n ≤ extlen → Walks exts extlen a os →
    (((List.range' a n).map exts).dropWhile (· == 0) = [] ∧ Walks exts extlen (a + n) os) ∨
    (((List.range' a n).map exts).dropWhile (· == 0)).head? = some 255 ∧ os = [] ∨
    (∃ b, (((List.range' a n).map exts).dropWhile (· == 0)).head? = some b ∧ b ≠ 255 ∧
      ∃ q rest, q < a + n ∧ os = q :: rest)
  | 0, a, _, h => Or.inl ⟨rfl, h⟩
  | n + 1, a, ha, h => by
    have hr : (List.range' a (n + 1)).map exts = exts a :: (List.range' (a + 1) n).map exts := by
      rw [List.range'_succ, List.map_cons]
    rw [hr]
    cases h with
    | stop hi => omega
    | fin hi h255 =>
      right; left
      rw [List.dropWhile_cons_of_neg (by simp [h255])]
      exact ⟨by simp [h255], rfl⟩
    | pad hi h0 h' =>
      rw [List.dropWhile_cons_of_pos (by simp [h0])]
      have := walks_leftover n (a + 1) (by omega) h'
      rwa [show a + 1 + n = a + (n + 1) by omega] at this
    | opt hi h0 h255 h' =>
      right; right
      rw [List.dropWhile_cons_of_neg (by simp [h0])]
      exact ⟨exts a, rfl, h255, a, _, by omega, rfl⟩

/-- **The loop decodes the options of the format iff the bytes left over are harmless.** -/
theorem walks_eq_iff {i e : ℕ} (hf : Framed exts i os e) (he : e < extlen) :
    ∀ {os' : List ℕ}, Walks exts extlen i os' → (os' = os ↔ Synced exts os) := by
  induction hf with
  | fin hb =>
    intro os' hw
    cases hw with
    | stop hi => omega
    | fin _ _ => exact iff_of_true rfl trivial
    | pad _ h0 _ => rw [hb] at h0; exact absurd h0 (by decide)
    | opt _ _ h255 _ => exact absurd hb h255
  | pad hb hf' ih =>
    intro os' hw
    have := hf'.le
    cases hw with
    | stop hi => omega
    | fin _ h255 => rw [hb] at h255; exact absurd h255 (by decide)
    | pad _ _ hw' => exact ih he hw'
    | opt _ h0 _ _ => exact absurd hb h0
  | @opt i e os h0 h255 hf' ih =>
    intro os' hw
    have hle := hf'.le
    have hcut := cut_le exts i
    cases hw with
    | stop hi => omega
    | fin _ hb => exact absurd hb h255
    | pad _ hb _ => exact absurd hb h0
    | opt _ _ _ hw' =>
      rw [List.cons.injEq, and_iff_right rfl, Synced, Harmless, leftover_eq]
      have hj : i + 2 + cut exts i + (optLen exts i - cut exts i) = i + 2 + optLen exts i := by
        omega
      rcases walks_leftover (optLen exts i - cut exts i) _ (by omega) hw' with
        ⟨hnil, hw''⟩ | ⟨h255', rfl⟩ | ⟨b, hb, hb255, q, rest, hq, rfl⟩
      · rw [hj] at hw''
        rw [ih he hw'']
        exact ⟨fun h => ⟨Or.inl hnil, h⟩, fun h => h.2⟩
      · constructor
        · rintro rfl
          exact ⟨Or.inr ⟨rfl, h255'⟩, trivial⟩
        · rintro ⟨hnil | ⟨rfl, -⟩, -⟩
          · rw [hnil] at h255'; cases h255'
          · rfl
      · constructor
        · rintro rfl
          have := hf'.le_mem q (by simp)
          omega
        · rintro ⟨hnil | ⟨-, h⟩, -⟩
          · rw [hnil] at hb; cases hb
          · rw [hb] at h; exact absurd (Option.some.inj h) hb255

end

/-! ### Option decoding -/

/-- **Option decoding.** On an area that starts with the cookie and is well formed up to its end
option, `bootp_parse` decodes the options of the format and leaves the configuration they describe,
if and only if the bytes of the names past the 64th are harmless. -/
theorem bootpParse_decodes_iff (dev : Netdev) (hdr : BootpHdr) (exts : Bytes) (extlen e : ℕ)
    (os : List ℕ) (hc : Cookie exts extlen) (hf : Framed exts 4 os e) (he : e < extlen) :
    ((bootpParse dev hdr exts extlen).opts = os ∧
      (bootpParse dev hdr exts extlen).dev = os.foldl (applyAt exts) (bootpReset dev hdr)) ↔
      Synced exts os := by
  obtain ⟨os', hw⟩ := exists_walks exts extlen 4
  obtain ⟨hdev, hopts⟩ := bootpLoop_spec hw extlen
    ⟨bootpReset dev hdr, [], cookieReads exts extlen⟩ (by omega)
  unfold bootpParse
  rw [if_pos hc, hdev, hopts, ← walks_eq_iff hf he hw]
  constructor
  · rintro ⟨h, -⟩; simpa using h
  · rintro rfl; exact ⟨by simp, rfl⟩

def shortName : Bytes := fun i =>
  ([99, 130, 83, 99, 12, 2, 104, 105, 1, 4, 255, 255, 255, 0, 255] : List UInt8).getD i 0

lemma framed_shortName : Framed shortName 4 [4, 8] 14 :=
  .opt (by decide) (by decide) (.opt (by decide) (by decide) (.fin (by decide)))

theorem bootpParse_decodes_shortName :
    (bootpParse Netdev.zero (BootpHdr.load (fun _ => 0) 0) shortName 15).opts = [4, 8] ∧
    (bootpParse Netdev.zero (BootpHdr.load (fun _ => 0) 0) shortName 15).dev =
      [4, 8].foldl (applyAt shortName) (bootpReset Netdev.zero (BootpHdr.load (fun _ => 0) 0)) :=
  (bootpParse_decodes_iff Netdev.zero (BootpHdr.load (fun _ => 0) 0) shortName 15 14 [4, 8]
    (by decide) framed_shortName (by decide)).mpr ⟨Or.inl (by decide), Or.inl (by decide), trivial⟩

/-- A host name of 65 bytes, the last of them 255, and a netmask. -/
def longName : Bytes := fun i =>
  ([99, 130, 83, 99, 12, 65] ++ List.replicate 64 97 ++
    [255, 1, 4, 255, 255, 255, 0, 255] : List UInt8).getD i 0

lemma framed_longName : Framed longName 4 [4, 71] 77 :=
  .opt (by decide) (by decide) (.opt (by decide) (by decide) (.fin (by decide)))

/-- **An over-long name hides the options after it**: the netmask of the reply is not stored. -/
theorem bootpParse_longName : Cookie longName 78 ∧ Framed longName 4 [4, 71] 77 ∧
    (bootpParse Netdev.zero (BootpHdr.load (fun _ => 0) 0) longName 78).dev.ipNetmask = INADDR_ANY ∧
    ([4, 71].foldl (applyAt longName)
      (bootpReset Netdev.zero (BootpHdr.load (fun _ => 0) 0))).ipNetmask = ⟨255, 255, 255, 0⟩ := by
  refine ⟨by decide, framed_longName, by decide, by decide⟩

end Klibc.Ipconfig.Framing
