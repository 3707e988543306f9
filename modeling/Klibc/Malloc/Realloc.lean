import Klibc.Malloc.Sizes

/-! # `realloc`

`realloc` rounds the size like `malloc` does, and hands the rounded size to `malloc`, which rounds
it once more.  It does not look at what `malloc` returns before it copies to it. -/

namespace Klibc.Malloc.Realloc

open List Lib.Memory Lib.Cells Lib.Total Arena Blocks Chains Rounding Calls Sizes

variable {A : Arch} {bl : List Block} {fr : List ℕ} {b : Block} {k n p q len : ℕ} {s s' : Sys}
  {ask : ℕ → Option ℕ}

/-! ### Moving a block -/

/-- **What moving a block does**: `b` is replaced by a new block with room for `k` bytes that begins
with the first `len` bytes of the old one; the other blocks in use keep their places and contents.
-/
structure Moved (A : Arch) (bl : List Block) (s : Sys) (b : Block) (k len q : ℕ) (s' : Sys)
    (bl' : List Block) : Prop where
  rep : ∃ fr', Rep A s' bl' fr'
  fresh : ∃ c, k ≤ c.size ∧ q = c.addr + A.hdr ∧ (∀ d ∈ useds bl, d.addr ≠ c.addr) ∧
    ∀ d, d ∈ useds bl' ↔ d = c ∨ (d ∈ useds bl ∧ d ≠ b)
  keeps : ∀ d ∈ useds bl, d ≠ b → ∀ y, d.addr + A.hdr ≤ y → y < d.stop → s'.mem y = s.mem y
  copied : ∀ i < len, s'.mem (q + i) = s.mem (b.addr + A.hdr + i)

lemma memcpy_eq (h0 : n ≠ 0) (hq : q ≠ 0) (hdst : s.accessible q n = true)
    (hsrc : s.accessible p n = true) : memcpy q p n s = some ((),
      { s with mem := fun x => if q ≤ x ∧ x < q + n then s.mem (p + (x - q)) else s.mem x }) := by
  unfold memcpy
  rw [if_neg h0, if_pos ⟨hq, hdst, hsrc⟩]

variable {Q : ℕ → Sys → Prop} {bl' : List Block} {x : ℕ}

lemma returns_memcpy (h : Allocated A bl s k q s' bl') (hb : b ∈ useds bl)
    (hk : len + A.hdr ≤ k) (hlen : len + A.hdr ≤ b.size) :
    Returns (memcpy q (b.addr + A.hdr) len) s' fun _ s'' => Allocated A bl s k q s'' bl' ∧
      ∀ i < len, s''.mem (q + i) = s.mem (b.addr + A.hdr + i) := by
  have hkeep : ∀ i < len, s'.mem (b.addr + A.hdr + i) = s.mem (b.addr + A.hdr + i) := fun i hi =>
    h.keeps b hb _ (by omega) (by unfold Block.stop; omega)
  by_cases h0 : len = 0
  · subst h0
    exact ⟨(), s', rfl, h, fun i hi => absurd hi (by omega)⟩
  have hsrc : s'.accessible (b.addr + A.hdr) len = true := by
    obtain ⟨fr', hr⟩ := h.rep
    obtain ⟨c, -, -, -, hu⟩ := h.fresh
    refine accessible_iff.2 fun x h1 h2 => (hr.tiles x).2 ⟨b, ?_, by omega, ?_⟩
    · exact (mem_useds.1 ((hu b).2 (.inr hb))).1
    · unfold Block.stop
      omega
  have hq : q ≠ 0 := by
    obtain ⟨c, -, rfl, -⟩ := h.fresh
    have := hdr_eq A
    omega
  refine ⟨(), _, memcpy_eq h0 hq (allocated_accessible h hk) hsrc, ?_, fun i hi => ?_⟩
  · exact allocated_write h hk rfl fun y hy => if_neg hy
  · show (if _ then _ else _) = _
    rw [if_pos (by omega), Nat.add_sub_cancel_left]
    exact hkeep i hi

/-- The end of `realloc`: a new block of `k` bytes, into which `len` bytes are copied. -/
def relocate (A : Arch) (ask : ℕ → Option ℕ) (p k len : ℕ) : Call ℕ := do
  let newptr ← malloc A ask k
  memcpy newptr p len
  free A p
  pure newptr

/-- **A block is moved** if there is a new one to be had. -/
theorem returns_relocate (hr : Rep A s bl fr) (hlegal : Legal A s ask) (hb : b ∈ useds bl)
    (hk : 0 < k) (hw : k + (2 * A.hdr - 1) < A.word) (hav : Available A bl ask (roundSize A k))
    (hlk : len ≤ k) (hlen : len + A.hdr ≤ b.size) :
    Returns (relocate A ask (b.addr + A.hdr) k len) s fun q s' =>
      ∃ bl', Moved A bl s b (roundSize A k) len q s' bl' := by
  have hroom := (roundSize_spec hw).room
  unfold relocate
  simp only [returns_bind, returns_pure]
  refine (returns_malloc hr hlegal hk hw).mono fun q s1 h₁ => ?_
  obtain ⟨bl1, hall⟩ := h₁.1 hav
  refine (returns_memcpy hall hb (by omega) hlen).mono fun _ s2 h₂ => ?_
  obtain ⟨hall2, hcopy⟩ := h₂
  obtain ⟨fr2, hr2⟩ := hall2.rep
  obtain ⟨c, hck, rfl, hne, hu⟩ := hall2.fresh
  refine (returns_free_used hr2 ((hu b).2 (.inr hb))).mono fun _ s3 h3 => ?_
  obtain ⟨bl3, hfreed⟩ := h3
  have hcb : c ≠ b := fun he => hne b hb (he ▸ rfl)
  have hu3 : ∀ d, d ∈ useds bl3 ↔ d = c ∨ (d ∈ useds bl ∧ d ≠ b) := by
    intro d
    rw [hfreed.gone, hu]
    constructor
    · rintro ⟨rfl | hd, hdb⟩
      · exact .inl rfl
      · exact .inr ⟨hd, hdb⟩
    · rintro (rfl | ⟨hd, hdb⟩)
      · exact ⟨.inl rfl, hcb⟩
      · exact ⟨.inr hd, hdb⟩
  refine ⟨bl3, hfreed.rep, ⟨c, hck, rfl, hne, hu3⟩, fun d hd hdb y h1 h2 => ?_, fun i hi => ?_⟩
  · rw [hfreed.keeps d ((hu3 d).2 (.inr ⟨hd, hdb⟩)) y h1 h2, hall2.keeps d hd y h1 h2]
  · rw [← hcopy i hi]
    exact hfreed.keeps c ((hu3 c).2 (.inl rfl)) _ (by omega) (by unfold Block.stop; omega)

lemma returns_relocate_zero (hr : Rep A s bl fr) (hb : b ∈ useds bl) :
    Returns (relocate A ask (b.addr + A.hdr) 0 0) s fun q s' =>
      q = 0 ∧ ∃ bl', Freed A bl s b s' bl' := by
  show Returns (free A (b.addr + A.hdr) >>= fun _ => pure 0) s _
  rw [returns_bind]
  exact (returns_free_used hr hb).mono fun _ s' h => returns_pure.2 ⟨rfl, h⟩

/-! ### Moving a block on any heap -/

lemma memcpy_mapped (h : memcpy q p len s = some ((), s')) : s'.mapped = s.mapped := by
  unfold memcpy at h
  split_ifs at h
  · cases h
    rfl
  · cases h
    rfl

lemma memcpy_null (hlen : 0 < len) : memcpy 0 p len s = none := by
  unfold memcpy
  rw [if_neg (by omega), if_neg fun h => h.1 rfl]

lemma munmap_mapped (h : munmap A p n s = some ((), s')) (hx : s'.mapped x = true) :
    s.mapped x = true := by
  unfold munmap at h
  split_ifs at h
  · cases h
    exact hx
  · cases h
    exact (Bool.and_eq_true_iff.1 hx).1

lemma free_mapped (h : free A p s = some ((), s')) (hx : s'.mapped x = true) :
    s.mapped x = true := by
  unfold free at h
  split_ifs at h
  · cases h
    exact hx
  · obtain ⟨⟨ah, s1⟩, h₁, h⟩ := Option.bind_eq_some_iff.1 h
    obtain ⟨⟨hole, s2⟩, h₂, h⟩ := Option.bind_eq_some_iff.1 h
    rw [← exec_mapped h₁, ← exec_mapped h₂]
    cases hole with
    | none =>
      cases h
      exact hx
    | some hole => exact munmap_mapped h hx

/-- What can be said of a move that ends well: there was a new block to be had, and it is not one
that the address space has no room for. -/
theorem relocate_ok (hr : Rep A s bl fr) (hlegal : Legal A s ask) (hk : k ≠ 0) (hlen : 0 < len)
    (h : Returns (relocate A ask p k len) s fun q s' => q = 0 ∨ Usable A s' q n) :
    Obtainable A s ask (roundSize A k) ∧ n + (4 * A.hdr - 1) < A.word := by
  unfold relocate at h
  simp only [returns_bind, returns_pure] at h
  obtain ⟨q, s1, hm, _, s2, hcp, _, s3, hf, hq⟩ := h
  have hany := malloc_any hr hlegal hk hm
  have hob : Obtainable A s ask (roundSize A k) := by
    by_contra hob
    rw [hany.2 hob, memcpy_null hlen] at hcp
    cases hcp
  obtain ⟨hq0, hclean⟩ := hany.1 hob
  refine ⟨hob, ?_⟩
  by_contra hw
  have hclean3 : Clean A s3 := fun x hx => by
    refine hclean x ?_
    rw [← memcpy_mapped hcp]
    exact free_mapped hf hx
  exact not_usable hclean3 (by omega) (hq.resolve_left hq0)

/-! ### `realloc` -/

/-- A block of `size` bytes is good enough for `n` bytes, and not too good. -/
def InPlace (A : Arch) (size n : ℕ) : Prop := roundSize A n ≤ size ∧ size / 4 ≤ roundSize A n

lemma returns_realloc_iff (hr : Rep A s bl fr) (hb : b ∈ useds bl) (hn : n ≠ 0) :
    Returns (realloc A ask (b.addr + A.hdr) n) s Q ↔
      (InPlace A b.size n → Q (b.addr + A.hdr) s) ∧
      (¬InPlace A b.size n → Returns (relocate A ask (b.addr + A.hdr) (roundSize A n)
        (min (roundSize A n) (b.size - A.hdr))) s Q) := by
  obtain ⟨hmem, hu⟩ := mem_useds.1 hb
  have hh := hdr_eq A
  have hok := hr.good.layout.ok b hmem
  have hmin := hok.min
  have hlt := hok.size_lt
  have hread : exec A (read b.addr .size) s = some (b.size, s) := by
    have hreach := reaches_slot hr.good.layout (fun x => (hr.tiles x).2)
      (f := .size) (.inr ⟨b, hmem, rfl, .inl (by decide)⟩)
    show (if _ then some (table A s.mem b.addr .size, s.mem) else none).map _ = _
    rw [if_pos hreach, (hr.good.tagged b hmem).2]
    rfl
  have hold : sub A b.size A.hdr = b.size - A.hdr := sub_eq (by omega) (by omega)
  have hlen : (if roundSize A n < sub A b.size A.hdr then roundSize A n else sub A b.size A.hdr) =
      min (roundSize A n) (b.size - A.hdr) := by
    rw [hold]
    split_ifs <;> omega
  unfold realloc InPlace
  rw [if_neg (by omega), if_neg hn, sub_ptr hr hmem, returns_bind]
  rw [returns_iff_of_eq hread]
  by_cases hin : roundSize A n ≤ b.size ∧ b.size / 4 ≤ roundSize A n
  · rw [if_pos hin, returns_pure]
    exact ⟨fun h => ⟨fun _ => h, fun hne => (hne hin).elim⟩, fun h => h.1 hin⟩
  · rw [if_neg hin, ← hlen]
    exact ⟨fun h => ⟨fun hp => (hin hp).elim, fun _ => h⟩, fun h => h.2 hin⟩

/-- `realloc(p, n)` returns `NULL` or a block with at least `n` usable bytes. -/
def ReallocOk (A : Arch) (s : Sys) (ask : ℕ → Option ℕ) (p n : ℕ) : Prop :=
  Returns (realloc A ask p n) s fun q s' => q = 0 ∨ Usable A s' q n

/-- Neither rounding wraps, and the block is kept or there is a new one to be had; or the first
rounding wraps to zero. -/
def ReallocCond (A : Arch) (s : Sys) (ask : ℕ → Option ℕ) (p n : ℕ) : Prop :=
  (n + (2 * A.hdr - 1) < A.word ∧ (InPlace A (table A s.mem (p - A.hdr) .size) n ∨
    (roundSize A n + (2 * A.hdr - 1) < A.word ∧
      Obtainable A s ask (roundSize A (roundSize A n))))) ∨
  (A.word ≤ n + (2 * A.hdr - 1) ∧ n + A.hdr ≤ A.word)

/-- **How `realloc` of the block `b` ends**: the block stays, it is moved, or it is freed and `NULL`
returned. -/
inductive Realloced (A : Arch) (bl : List Block) (s : Sys) (b : Block) (n : ℕ) : ℕ → Sys → Prop
  | same : n + A.hdr ≤ b.size → Realloced A bl s b n (b.addr + A.hdr) s
  | moved {k q : ℕ} {s' : Sys} {bl' : List Block} : n + A.hdr ≤ k →
      Moved A bl s b k (min n (b.size - A.hdr)) q s' bl' → Realloced A bl s b n q s'
  | freed {s' : Sys} {bl' : List Block} : Freed A bl s b s' bl' → Realloced A bl s b n 0 s'

lemma Moved.mono_len {len' : ℕ} (h : Moved A bl s b k len q s' bl')
    (hle : len' ≤ len) : Moved A bl s b k len' q s' bl' :=
  ⟨h.rep, h.fresh, h.keeps, fun i hi => h.copied i (hi.trans_le hle)⟩

lemma block_size (hr : Rep A s bl fr) (hb : b ∈ bl) :
    table A s.mem (b.addr + A.hdr - A.hdr) .size = b.size := by
  rw [Nat.add_sub_cancel, (hr.good.tagged b hb).2]

lemma returns_realloc_of (hr : Rep A s bl fr) (hb : b ∈ useds bl)
    (hn : 0 < n) (hc : ReallocCond A s ask (b.addr + A.hdr) n)
    (hsame : n + A.hdr ≤ b.size → Q (b.addr + A.hdr) s)
    (hmove : n + A.hdr ≤ roundSize A n → roundSize A n + (2 * A.hdr - 1) < A.word →
      Available A bl ask (roundSize A (roundSize A n)) →
      Returns (relocate A ask (b.addr + A.hdr) (roundSize A n)
        (min (roundSize A n) (b.size - A.hdr))) s Q)
    (hfree : A.word ≤ n + (2 * A.hdr - 1) → Returns (relocate A ask (b.addr + A.hdr) 0 0) s Q) :
    Returns (realloc A ask (b.addr + A.hdr) n) s Q := by
  obtain ⟨hmem, hu⟩ := mem_useds.1 hb
  have hh := hdr_eq A
  have hmin := (hr.good.layout.ok b hmem).min
  unfold ReallocCond at hc
  rw [block_size hr hmem, obtainable_iff hr] at hc
  rw [returns_realloc_iff hr hb (by omega)]
  rcases hc with ⟨hw, hc⟩ | ⟨hw, hle⟩
  · have hroom := (roundSize_spec hw).room
    refine ⟨fun hin => hsame (hroom.trans hin.1), fun hin => ?_⟩
    obtain ⟨hw', hav⟩ := hc.resolve_left hin
    exact hmove hroom hw' hav
  · have hwrap : roundSize A n = 0 := by rw [roundSize_wrap (by omega) hw, if_pos hle]
    refine ⟨fun hin => ?_, fun _ => ?_⟩
    · have := hin.2
      omega
    · rw [hwrap, Nat.zero_min]
      exact hfree hw

section
variable (hr : Rep A s bl fr)
include hr

/-- **`realloc` of a block in use**, under the condition. -/
theorem returns_realloc (hlegal : Legal A s ask) (hb : b ∈ useds bl)
    (hn : 0 < n) (hc : ReallocCond A s ask (b.addr + A.hdr) n) :
    Returns (realloc A ask (b.addr + A.hdr) n) s (Realloced A bl s b n) := by
  have hmin := (hr.good.layout.ok b (mem_useds.1 hb).1).min
  refine returns_realloc_of hr hb hn hc .same (fun hroom hw hav => ?_) fun _ => ?_
  · refine (returns_relocate hr hlegal hb (by omega) hw hav (by omega) (by omega)).mono ?_
    rintro q s' ⟨bl', hmoved⟩
    have hroom' := (roundSize_spec hw).room
    exact .moved (by omega) (hmoved.mono_len (by omega))
  · refine (returns_relocate_zero hr hb).mono ?_
    rintro _ s' ⟨rfl, bl', hfreed⟩
    exact .freed hfreed

lemma returns_realloc_zero (hb : b ∈ useds bl) :
    Returns (realloc A ask (b.addr + A.hdr) 0) s (Realloced A bl s b 0) := by
  have hh := hdr_eq A
  unfold realloc
  rw [if_neg (by omega), if_pos rfl, returns_bind]
  refine (returns_free_used hr hb).mono fun _ s' h => returns_pure.2 ?_
  obtain ⟨bl', hfreed⟩ := h
  exact .freed hfreed

lemma usable_of_realloced (hb : b ∈ useds bl)
    (h : Realloced A bl s b n q s') : q = 0 ∨ Usable A s' q n := by
  cases h with
  | same hn => exact .inr (usable_of_mem hr (mem_useds.1 hb).1 (mem_useds.1 hb).2 hn)
  | moved hn hm =>
    obtain ⟨fr', hr'⟩ := hm.rep
    obtain ⟨c, hk, rfl, -, hu⟩ := hm.fresh
    obtain ⟨hc, hcu⟩ := mem_useds.1 ((hu c).2 (.inl rfl))
    exact .inr (usable_of_mem hr' hc hcu (hn.trans hk))
  | freed hf => exact .inl rfl

lemma reallocOk_iff (hlegal : Legal A s ask) (hb : b ∈ useds bl) (hn : 0 < n) (hlt : n < A.word) :
    ReallocOk A s ask (b.addr + A.hdr) n ↔ ReallocCond A s ask (b.addr + A.hdr) n := by
  have hh := hdr_eq A
  obtain ⟨hmem, hu⟩ := mem_useds.1 hb
  have hmin := (hr.good.layout.ok b hmem).min
  constructor
  · intro h
    obtain ⟨hsame, hmove⟩ := (returns_realloc_iff hr hb (by omega)).1 h
    unfold ReallocCond
    rw [block_size hr hmem]
    by_cases hin : InPlace A b.size n
    · have husable := (hsame hin).resolve_left (by omega)
      have hle := husable.le (clean_of_rep hr)
      have hpage := hdr_le_page A
      exact .inl ⟨by omega, .inl hin⟩
    · by_cases hw : n + (2 * A.hdr - 1) < A.word
      · have hround := roundSize_spec hw
        have hroom := hround.room
        have hnear := hround.near
        obtain ⟨hob, hlow⟩ := relocate_ok hr hlegal (by omega) (by omega) (hmove hin)
        exact .inl ⟨hw, .inr ⟨by omega, hob⟩⟩
      · have hwrap := roundSize_wrap hlt (by omega)
        split_ifs at hwrap with hle
        · exact .inr ⟨by omega, hle⟩
        · have := (relocate_ok hr hlegal (by omega) (by omega) (hmove hin)).2
          omega
  · intro hc
    exact (returns_realloc hr hlegal hb hn hc).mono fun q s' => usable_of_realloced hr hb

end

end Klibc.Malloc.Realloc
