import Klibc.Malloc.Runs

/-! # `realloc`, all or nothing

What `realloc` should do is one of two things: all (`All`), if there is a block to be had, the old
one included, and otherwise nothing. It does all of it where it can (`returns_all`). But what its
`malloc` returns is not looked at, and the contents are copied to `NULL`; and a size that is rounded
to zero is taken for a request to free the block. So it never does nothing, and
`all_or_nothing_iff` holds. -/

namespace Klibc.Malloc.AllOrNothing

open List Lib.Memory Lib.Total Lib.Transition Arena Blocks Chains Rounding Calls Sizes Realloc Runs

variable {A : Arch} {bl bl' : List Block} {fr fr' : List ℕ} {b c : Block} {k n p q r len : ℕ}
  {s s' : Sys} {ask : ℕ → Option ℕ}

/-! ### What is asked of `realloc` -/

/-- The pointer `p` is that of a block in use. -/
def Live (A : Arch) (s : Sys) (p : ℕ) : Prop :=
  A.hdr ≤ p ∧ OnChain A s .next (p - A.hdr) ∧ table A s.mem (p - A.hdr) .type = arenaTypeUsed

/-- How many bytes there are behind `p`. -/
def usable (A : Arch) (s : Sys) (p : ℕ) : ℕ := table A s.mem (p - A.hdr) .size - A.hdr

/-- A block for `n` bytes is to be had: the one behind `p`, a free one, or one from the kernel. -/
def CanServe (A : Arch) (s : Sys) (ask : ℕ → Option ℕ) (p n : ℕ) : Prop :=
  n + (2 * A.hdr - 1) < A.word ∧ (InPlace A (table A s.mem (p - A.hdr) .size) n ∨
    (roundSize A n + (2 * A.hdr - 1) < A.word ∧
      Obtainable A s ask (roundSize A (roundSize A n))))

/-- **All**: the block behind `q` has room for `n` bytes and begins with the old contents, `p` is
free unless it is the same, and the other live blocks keep their places, sizes and contents. -/
structure All (A : Arch) (s : Sys) (p n q : ℕ) (s' : Sys) : Prop where
  live : Usable A s' q n
  contents : ∀ i < min (usable A s p) n, s'.mem (q + i) = s.mem (p + i)
  freed : q ≠ p → ¬Live A s' p
  others : ∀ r, r ≠ p → Live A s r → Live A s' r ∧ usable A s' r = usable A s r ∧
    ∀ i < usable A s r, s'.mem (r + i) = s.mem (r + i)

/-- All if there is a block to be had, and nothing if there is none. -/
def Behaves (A : Arch) (s : Sys) (ask : ℕ → Option ℕ) (p n : ℕ) : Prop :=
  Returns (realloc A ask p n) s fun q s' =>
    (CanServe A s ask p n → All A s p n q s') ∧ (¬CanServe A s ask p n → q = 0 ∧ s' = s)

/-! ### Live pointers and blocks -/

lemma live_iff (hr : Rep A s bl fr) : Live A s p ↔ ∃ b ∈ useds bl, p = b.addr + A.hdr := by
  constructor
  · rintro ⟨hle, hchain, htype⟩
    obtain ⟨b, hb, he⟩ := (onChain_next_iff hr).1 hchain
    rw [← he, type_eq_used hr hb] at htype
    exact ⟨b, mem_useds.2 ⟨hb, htype⟩, by omega⟩
  · rintro ⟨b, hb, rfl⟩
    obtain ⟨hb, hu⟩ := mem_useds.1 hb
    refine ⟨by omega, ?_, ?_⟩
    · exact (onChain_next_iff hr).2 ⟨b, hb, (Nat.add_sub_cancel ..).symm⟩
    · rw [Nat.add_sub_cancel, type_eq_used hr hb]
      exact hu

lemma usable_eq (hr : Rep A s bl fr) (hb : b ∈ bl) :
    usable A s (b.addr + A.hdr) = b.size - A.hdr := by
  rw [usable, block_size hr hb]

lemma others_of_keeps (hr : Rep A s bl fr) (hr' : Rep A s' bl' fr')
    (hu : ∀ d ∈ useds bl, d ≠ b → d ∈ useds bl')
    (hk : ∀ d ∈ useds bl, d ≠ b → ∀ y, d.addr + A.hdr ≤ y → y < d.stop → s'.mem y = s.mem y) :
    ∀ r, r ≠ b.addr + A.hdr → Live A s r → Live A s' r ∧ usable A s' r = usable A s r ∧
      ∀ i < usable A s r, s'.mem (r + i) = s.mem (r + i) := by
  intro r hne hlive
  obtain ⟨d, hd, rfl⟩ := (live_iff hr).1 hlive
  have hdb : d ≠ b := fun he => hne (he ▸ rfl)
  have hd' := hu d hd hdb
  rw [usable_eq hr (mem_useds.1 hd).1, usable_eq hr' (mem_useds.1 hd').1]
  refine ⟨(live_iff hr').2 ⟨d, hd', rfl⟩, rfl, fun i hi => hk d hd hdb _ (by omega) ?_⟩
  unfold Block.stop
  omega

/-! ### Where there is a block -/

lemma all_of_moved (hr : Rep A s bl fr) (hb : b ∈ useds bl)
    (h : Moved A bl s b k (min n (b.size - A.hdr)) q s' bl') (hn : n + A.hdr ≤ k) :
    All A s (b.addr + A.hdr) n q s' := by
  obtain ⟨fr', hr'⟩ := h.rep
  obtain ⟨c, hk, rfl, hne, hu⟩ := h.fresh
  obtain ⟨hc, hcu⟩ := mem_useds.1 ((hu c).2 (.inl rfl))
  refine ⟨usable_of_mem hr' hc hcu (hn.trans hk), fun i hi => h.copied i ?_, fun _ hlive => ?_,
    others_of_keeps hr hr' (fun d hd hdb => (hu d).2 (.inr ⟨hd, hdb⟩)) h.keeps⟩
  · rw [usable_eq hr (mem_useds.1 hb).1] at hi
    omega
  · obtain ⟨d, hd, he⟩ := (live_iff hr').1 hlive
    rcases (hu d).1 hd with rfl | ⟨hd, hdb⟩
    · exact hne b hb (by omega)
    · exact hdb (hr.good.layout.inj (mem_useds.1 hd).1 (mem_useds.1 hb).1 (by omega))

lemma all_of_same (hr : Rep A s bl fr) (hb : b ∈ useds bl) (hn : n + A.hdr ≤ b.size) :
    All A s (b.addr + A.hdr) n (b.addr + A.hdr) s where
  live := usable_of_mem hr (mem_useds.1 hb).1 (mem_useds.1 hb).2 hn
  contents _ _ := rfl
  freed h := (h rfl).elim
  others := others_of_keeps hr hr (fun _ hd _ => hd) fun _ _ _ _ _ _ => rfl

/-- **`realloc` does all of it** if there is a block to be had. -/
theorem returns_all (hr : Rep A s bl fr) (hlegal : Legal A s ask) (hb : b ∈ useds bl) (hn : 0 < n)
    (hc : CanServe A s ask (b.addr + A.hdr) n) :
    Returns (realloc A ask (b.addr + A.hdr) n) s (All A s (b.addr + A.hdr) n) := by
  have hmin := (hr.good.layout.ok b (mem_useds.1 hb).1).min
  have hnowrap := hc.1
  refine returns_realloc_of hr hb hn (.inl hc) (all_of_same hr hb) (fun hroom hw hav => ?_)
    fun hwrap => absurd hnowrap (by omega)
  refine (returns_relocate hr hlegal hb (by omega) hw hav (by omega) (by omega)).mono ?_
  rintro q s' ⟨bl', hmoved⟩
  have hroom' := (roundSize_spec hw).room
  exact all_of_moved hr hb (hmoved.mono_len (by omega)) (by omega)

/-! ### Where there is none -/

lemma not_live_of_freed (hr : Rep A s bl fr) (hb : b ∈ useds bl) (h : Freed A bl s b s' bl') :
    ¬Live A s' (b.addr + A.hdr) := by
  intro hlive
  obtain ⟨fr', hr'⟩ := h.rep
  obtain ⟨d, hd, he⟩ := (live_iff hr').1 hlive
  obtain ⟨hd, hdb⟩ := (h.gone d).1 hd
  exact hdb (hr.good.layout.inj (mem_useds.1 hd).1 (mem_useds.1 hb).1 (by omega))

lemma returns_wrapped (hr : Rep A s bl fr) (hb : b ∈ useds bl) (hn : 0 < n)
    (hw : A.word ≤ n + (2 * A.hdr - 1)) (hle : n + A.hdr ≤ A.word) :
    Returns (realloc A ask (b.addr + A.hdr) n) s fun q s' =>
      q = 0 ∧ ¬Live A s' (b.addr + A.hdr) := by
  have hlt := (hr.good.layout.ok b (mem_useds.1 hb).1).size_lt
  refine returns_realloc_of hr hb hn (.inr ⟨hw, hle⟩) (fun hroom => absurd hroom (by omega))
    (fun hroom hw' _ => absurd hroom (by omega)) fun _ => ?_
  refine (returns_relocate_zero hr hb).mono ?_
  rintro q s' ⟨hq, bl', hfreed⟩
  exact ⟨hq, not_live_of_freed hr hb hfreed⟩

/-- **`realloc` never does nothing.** -/
theorem not_nothing (hr : Rep A s bl fr) (hlegal : Legal A s ask) (hb : b ∈ useds bl) (hn : 0 < n)
    (hlt : n < A.word) (hc : ¬CanServe A s ask (b.addr + A.hdr) n) :
    ¬Returns (realloc A ask (b.addr + A.hdr) n) s fun q s' => q = 0 ∧ s' = s := by
  rintro ⟨q, s', he, rfl, rfl⟩
  -- it returns `NULL`, so that the size was rounded to zero
  have hcond := (reallocOk_iff hr hlegal hb hn hlt).1 ⟨0, s', he, .inl rfl⟩
  obtain ⟨hw, hle⟩ := hcond.resolve_left hc
  exact ((returns_wrapped hr hb hn hw hle).elim he).2 ((live_iff hr).2 ⟨b, hb, rfl⟩)

/-- **When `realloc` is all or nothing.**  In every state of every run, for every live pointer and
every size: `realloc` returns, with a block of that size that has the old contents if one is to be
had and otherwise with `NULL` and nothing changed, if and only if one is to be had. -/
theorem all_or_nothing_iff (A : Arch) {st : State} (h : Reach (Start A) (Step A) st)
    {ask : ℕ → Option ℕ} (hlegal : Legal A st.sys ask) {p n : ℕ} (hp : (st.live p).isSome = true)
    (hn : 0 < n) (hlt : n < A.word) : Behaves A st.sys ask p n ↔ CanServe A st.sys ask p n := by
  obtain ⟨bl, fr, hr, hl⟩ := wf_reach h
  obtain ⟨b, hb, rfl⟩ := hl.exists_block hp
  constructor
  · intro hbehaves
    by_contra hc
    exact not_nothing hr hlegal hb hn hlt hc (hbehaves.mono fun q s' hq => hq.2 hc)
  · intro hc
    exact (returns_all hr hlegal hb hn hc).mono fun q s' hall =>
      ⟨fun _ => hall, fun hno => (hno hc).elim⟩

theorem all_or_nothing_iff_live : ∃ st, Reach (Start machine) (Step machine) st ∧
    st.live 0x100010 = some 100 ∧ (Behaves machine st.sys (fun _ => none) 0x100010 200 ↔
      CanServe machine st.sys (fun _ => none) 0x100010 200) := by
  obtain ⟨st, hreach, hlive, -⟩ := exists_live
  have hlegal : Legal machine st.sys fun _ => none := fun _ _ _ h => by cases h
  refine ⟨st, hreach, hlive, all_or_nothing_iff machine hreach hlegal ?_ (by decide) (by decide)⟩
  rw [hlive]
  rfl

/-- **There is no memory.**  After `p = malloc(100)`, with no more memory to be had, the contents
are copied to `NULL` by `realloc(p, 100000)`, and `realloc(p, -16)` frees `p`. -/
theorem realloc_loses : ∃ st, Reach (Start machine) (Step machine) st ∧
    st.live 0x100010 = some 100 ∧ realloc machine (fun _ => none) 0x100010 100000 st.sys = none ∧
    Returns (realloc machine (fun _ => none) 0x100010 (2 ^ 32 - 16)) st.sys fun q s' =>
      q = 0 ∧ ¬Live machine s' 0x100010 := by
  have hnone : ((malloc machine oneChunk 100 fresh.sys).bind fun r =>
      realloc machine (fun _ => none) r.1 100000 r.2).isNone = true := by decide +kernel
  obtain ⟨st, hreach, hlive, he⟩ := exists_live
  refine ⟨st, hreach, hlive, ?_, ?_⟩
  · exact Option.bind_eq_none_iff.1 (Option.isNone_iff_eq_none.1 hnone) _ he
  · obtain ⟨bl, fr, hr, hl⟩ := wf_reach hreach
    obtain ⟨b, hb, hp⟩ := hl.exists_block (p := 0x100010) (by rw [hlive]; rfl)
    rw [hp]
    exact returns_wrapped hr hb (by decide) (by decide) (by decide)

end Klibc.Malloc.AllOrNothing
