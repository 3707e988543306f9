import Klibc.Malloc.Runs

/-! # Full coalescing

No two free blocks touch. `__free_block` looks at one block on each side only, and that is enough:
the blocks that it joins had no free block at their other ends. The remainder that `malloc` leaves
of a block ends where the block ended, and what `free` leaves of one has a hole in between. So each
call keeps `Coalesced`, and `Merged`, which says the same of the memory alone, holds in every
run. -/

namespace Klibc.Malloc.Coalescing

open List Lib.Total Lib.Transition Arena Blocks Chains Rounding Trim Calls Sizes Realloc Runs

variable {A : Arch} {bl bl' pre post pre' post' mid : List Block} {fr fr' : List ℕ}
  {b b' b1 c : Block} {k n p : ℕ} {s s' : Sys} {ask : ℕ → Option ℕ}

/-! ### Lists of blocks -/

def Apart (b c : Block) : Prop := b.used = false → c.used = false → b.stop ≠ c.addr

def Coalesced (bl : List Block) : Prop := bl.Pairwise Apart

lemma coalesced_middle : Coalesced (pre ++ b :: post) ↔ Coalesced (pre ++ post) ∧
    (∀ c ∈ pre, Apart c b) ∧ ∀ c ∈ post, Apart b c := by
  simp only [Coalesced, pairwise_append, pairwise_cons, mem_cons, forall_eq_or_imp, forall_and]
  tauto

lemma apart_of_lt (h : b.stop < c.addr) : Apart b c := fun _ _ he => by omega

lemma stop_pos (h : Layout A bl) (hb : b ∈ bl) : b.addr < b.stop := by
  have h1 := (h.ok b hb).hdr_le
  have h2 := W_pos A
  unfold Block.stop
  omega

lemma layout_middle (h : Layout A (pre ++ b :: post)) :
    (∀ c ∈ pre, c.stop ≤ b.addr) ∧ ∀ c ∈ post, b.stop ≤ c.addr := by
  obtain ⟨-, hpost, hcross⟩ := pairwise_append.1 h.sorted
  exact ⟨fun c hc => hcross c hc b (by simp), (pairwise_cons.1 hpost).1⟩

/-! ### Joining -/

lemma apart_of_joinPrev (hj : JoinPrev pre b pre' b1) (hl : Layout A (pre ++ b :: post))
    (h : Coalesced pre) : ∀ c ∈ pre', Apart c b1 := by
  cases hj with
  | @join _ pb _ hf ht =>
    intro c hc hcf _
    exact (pairwise_append.1 h).2.2 c hc pb (by simp) hcf hf
  | keep hn =>
    intro c hc hcf _ he
    rcases eq_nil_or_concat pre with rfl | ⟨pre, pb, rfl⟩
    · cases hc
    · rw [concat_eq_append] at hl hc hn
      rcases mem_append.1 hc with hc | hc
      · -- another block lies in between
        have hlast := stop_pos hl (b := pb) (by simp)
        have hbefore := (pairwise_append.1 (pairwise_append.1 hl.sorted).1).2.2 c hc pb (by simp)
        have hbehind := (layout_middle hl).1 pb (by simp)
        have he : c.stop = b.addr := he
        omega
      · obtain rfl := mem_singleton.1 hc
        exact hn c (by simp) ⟨hcf, he⟩

lemma apart_of_joinNext (hj : JoinNext b post b' post') (hl : Layout A (pre ++ b :: post))
    (h : Coalesced post) : ∀ c ∈ post', Apart b' c := by
  cases hj with
  | @join _ _ nb hf ht =>
    intro c hc _ hcf he
    have hstop : nb.stop = b.addr + (b.size + nb.size) := by unfold Block.stop at ht ⊢; omega
    exact (pairwise_cons.1 h).1 c hc hf hcf (hstop.trans he)
  | keep hn =>
    intro c hc _ hcf he
    cases post with
    | nil => cases hc
    | cons nb post =>
      rcases mem_cons.1 hc with rfl | hc
      · exact hn c (by simp) ⟨hcf, he⟩
      · have hfirst := stop_pos hl (b := nb) (by simp)
        have hbehind := (pairwise_cons.1 (pairwise_cons.1 (pairwise_append.1 hl.sorted).2.1).2).1
          c hc
        have hbefore := (layout_middle hl).2 nb (by simp)
        have he : b.stop = c.addr := he
        omega

lemma joinPrev_sublist (hj : JoinPrev pre b pre' b1) : pre'.Sublist pre := by
  cases hj with
  | join => exact sublist_append_left _ _
  | keep => exact .refl _

lemma joinNext_sublist (hj : JoinNext b post b' post') : post'.Sublist post := by
  cases hj with
  | join => exact sublist_cons_self _ _
  | keep => exact .refl _

lemma joinNext_addr (hj : JoinNext b post b' post') : b'.addr = b.addr := by cases hj <;> rfl

/-- **Joining both sides is enough.** -/
theorem coalesced_of_joined (hj : Joined pre b post pre' b' post')
    (hl : Layout A (pre ++ b :: post)) (h : Coalesced (pre ++ post)) :
    Coalesced (pre' ++ b' :: post') := by
  obtain ⟨b1, hprev, hnext⟩ := hj
  obtain ⟨hpre, hpost, -⟩ := pairwise_append.1 h
  have hsub := (joinPrev_sublist hprev).append (joinNext_sublist hnext)
  refine coalesced_middle.2 ⟨h.sublist hsub, fun c hc hcf hf => ?_,
    apart_of_joinNext hnext (hprev.layout hl) hpost⟩
  rw [joinNext_addr hnext]
  exact apart_of_joinPrev hprev hl hpre c hc hcf hprev.grows.1

/-! ### Allocating and giving back -/

lemma coalesced_of_grown (hg : Grown A bl pre b post) (h : Coalesced bl) :
    Coalesced (pre ++ b :: post) := by
  cases hg with
  | found => exact h
  | mapped hl hj => exact coalesced_of_joined hj hl h

lemma coalesced_carve (h : Coalesced (pre ++ b :: post)) (hl : Layout A (pre ++ b :: post))
    (hb : b.used = false) (hk : 0 < k) (hkb : k ≤ b.size) :
    Coalesced (pre ++ (carve A k b ++ post)) := by
  obtain ⟨hrest, -, hafter⟩ := coalesced_middle.1 h
  obtain ⟨hpre, -⟩ := layout_middle hl
  have hused : ∀ size c, Apart ⟨b.addr, size, true⟩ c ∧ Apart c ⟨b.addr, size, true⟩ := fun _ _ =>
    ⟨fun hu => Bool.noConfusion hu, fun _ hu => Bool.noConfusion hu⟩
  unfold Blocks.carve
  split_ifs with hs
  · refine coalesced_middle.2 ⟨coalesced_middle.2 ⟨hrest, fun c hc => apart_of_lt ?_,
      fun c hc => ?_⟩, fun c _ => (hused _ _).2, fun c _ => (hused _ _).1⟩
    · have := hpre c hc
      show c.stop < b.addr + k
      omega
    · have hstop : b.addr + k + (b.size - k) = b.stop := by unfold Block.stop; omega
      intro _ hcf he
      exact hafter c hc hb hcf (hstop.symm.trans he)
  · exact coalesced_middle.2 ⟨hrest, fun c _ => (hused _ _).2, fun c _ => (hused _ _).1⟩

lemma coalesced_of_trimmed (ht : Trimmed A b mid) (h : Coalesced (pre ++ b :: post))
    (hl : Layout A (pre ++ b :: post)) (hb : b.used = false) :
    Coalesced (pre ++ (mid ++ post)) := by
  cases ht with
  | keep => exact h
  | @cut head tail hp =>
    obtain ⟨hrest, hbefore, hafter⟩ := coalesced_middle.1 h
    obtain ⟨hpre, hpost⟩ := layout_middle hl
    have hworth := hp.worth
    have hchunk := chunk_pos A
    have hstop : b.stop = b.addr + b.size := rfl
    have htail : tail ≠ 0 → Coalesced (pre ++ ⟨b.stop - tail, tail, false⟩ :: post) := by
      intro h0
      refine coalesced_middle.2 ⟨hrest, fun c hc => apart_of_lt ?_, fun c hc _ hcf he => ?_⟩
      · have := hpre c hc
        show c.stop < b.stop - tail
        omega
      · have hend : b.stop - tail + tail = b.stop := by omega
        exact hafter c hc hb hcf (hend.symm.trans he)
    have hhead : ∀ {rest}, Coalesced (pre ++ rest) → (∀ c ∈ rest, b.addr + head < c.addr) →
        Coalesced (pre ++ ⟨b.addr, head, false⟩ :: rest) := fun hco hlt =>
      coalesced_middle.2 ⟨hco, fun c hc hcf _ => hbefore c hc hcf hb, fun c hc =>
        apart_of_lt (hlt c hc)⟩
    have hlt : ∀ c ∈ post, b.addr + head < c.addr := fun c hc => by
      have := hpost c hc
      omega
    unfold hollow
    split_ifs with h1 h2 h2
    · exact hrest
    · exact htail h2
    · exact hhead hrest hlt
    · refine hhead (htail h2) fun c hc => ?_
      rcases mem_cons.1 hc with rfl | hc
      · show b.addr + head < b.stop - tail
        omega
      · exact hlt c hc

/-! ### The memory -/

/-- **For no free block is the block that begins where it ends free**, read off the memory. -/
def Merged (A : Arch) (s : Sys) : Prop :=
  ∀ a, OnChain A s .next a → table A s.mem a .type = arenaTypeFree →
    OnChain A s .next (a + table A s.mem a .size) →
    table A s.mem (a + table A s.mem a .size) .type ≠ arenaTypeFree

lemma merged_iff (hr : Rep A s bl fr) : Merged A s ↔ Coalesced bl := by
  have htag := hr.good.tagged
  have hall : Coalesced bl ↔ ∀ b ∈ bl, ∀ c ∈ bl, Apart b c := by
    refine ⟨fun h b hb c hc hbf hcf he => ?_, fun h => pairwise_of_forall_mem_list h⟩
    -- the block that begins at the end stands behind in the list
    have hne : b.addr ≠ c.addr := by
      have := stop_pos hr.good.layout hb
      omega
    obtain ⟨pre, post, rfl⟩ := append_of_mem hb
    rcases mem_append.1 hc with hc | hc
    · have h1 := (layout_middle hr.good.layout).1 c hc
      have h2 := stop_pos hr.good.layout (b := c) (by simp [hc])
      have h3 := stop_pos hr.good.layout hb
      omega
    · rcases mem_cons.1 hc with rfl | hc
      · exact hne rfl
      · exact (coalesced_middle.1 h).2.2 c hc hbf hcf he
  rw [hall]
  constructor
  · intro h b hb c hc hbf hcf he
    have hsize : b.addr + table A s.mem b.addr .size = c.addr := by rw [(htag b hb).2]; exact he
    refine h b.addr ((onChain_next_iff hr).2 ⟨b, hb, rfl⟩) ((htag b hb).type_eq_free.2 hbf) ?_ ?_
    · exact (onChain_next_iff hr).2 ⟨c, hc, hsize.symm⟩
    · rw [hsize]
      exact (htag c hc).type_eq_free.2 hcf
  · intro h a ha hfree hnext hfree'
    obtain ⟨b, hb, rfl⟩ := (onChain_next_iff hr).1 ha
    obtain ⟨c, hc, hce⟩ := (onChain_next_iff hr).1 hnext
    rw [← hce] at hfree'
    refine h b hb c hc ((htag b hb).type_eq_free.1 hfree) ((htag c hc).type_eq_free.1 hfree') ?_
    rw [hce, (htag b hb).2]
    rfl

lemma merged_congr (hr : Rep A s bl fr) (hr' : Rep A s' bl fr') : Merged A s ↔ Merged A s' :=
  (merged_iff hr).trans (merged_iff hr').symm

/-! ### The calls -/

lemma returns_malloc_merged (hr : Rep A s bl fr) (hlegal : Legal A s ask) (hm : Merged A s)
    (hc : MallocCond A s ask n) : Returns (malloc A ask n) s fun _ => Merged A := by
  by_cases hn : n = 0
  · exact ⟨0, s, malloc_null hr hlegal (.inl hn), hm⟩
  rcases malloc_cases hr hlegal hn with ⟨hav, s1, pre, b, post, fr1, hr1, hg, hk, -, he⟩ | ⟨-, he⟩
  · have hw := hc.resolve_right (not_not.2 ((obtainable_iff hr).2 hav))
    have hround := roundSize_spec hw
    have hmin := hround.min (by omega)
    have hh := hdr_eq A
    have hco := coalesced_of_grown hg ((merged_iff hr).1 hm)
    obtain ⟨p, s2, he', -, -, -, fr2, hr2⟩ :=
      returns_mallocFromBlock hr1 hg.used hmin hround.dvd hk
    refine ⟨p, s2, he.trans he', (merged_iff hr2).2 ?_⟩
    exact coalesced_carve hco hr1.good.layout hg.used (by omega) hk
  · exact ⟨0, s, he, hm⟩

lemma returns_free_merged (hr : Rep A s bl fr) (hm : Merged A s) (hb : b ∈ useds bl) :
    Returns (free A (b.addr + A.hdr)) s fun _ => Merged A := by
  obtain ⟨hb, hu⟩ := mem_useds.1 hb
  obtain ⟨pre, post, rfl⟩ := append_of_mem hb
  refine (returns_free hr hu).mono ?_
  rintro _ s' ⟨-, pre', b', post', mid, fr', hj, ht, hr'⟩
  have hco := coalesced_of_joined hj hr.good.layout (coalesced_middle.1 ((merged_iff hr).1 hm)).1
  have hlay : Layout A (pre' ++ b' :: post') := by
    obtain ⟨b1, hprev, hnext⟩ := hj
    exact hnext.layout (hprev.layout hr.good.layout)
  exact (merged_iff hr').2 (coalesced_of_trimmed ht hco hlay hj.grows.1)

lemma returns_calloc_merged {nmemb size : ℕ} (hr : Rep A s bl fr) (hlegal : Legal A s ask)
    (hm : Merged A s) (hc : CallocCond A s ask nmemb size) :
    Returns (calloc A ask nmemb size) s fun _ => Merged A := by
  by_cases hnull : nmemb * size % A.word = 0 ∨
      ¬Obtainable A s ask (roundSize A (nmemb * size % A.word))
  · exact ⟨0, s, calloc_null (malloc_null hr hlegal hnull), hm⟩
  · have hw := hc.resolve_right hnull
    have hmod : nmemb * size % A.word = nmemb * size := Nat.mod_eq_of_lt (by omega)
    obtain ⟨p, s1, he, hserved⟩ := returns_malloc_served hr hlegal (n := nmemb * size) (.inl hw)
    have hm1 := (returns_malloc_merged hr hlegal hm (.inl hw)).elim he
    unfold calloc
    rw [mul_comm size, hmod, returns_bind, returns_iff_of_eq he]
    by_cases hp : p = 0
    · rw [if_neg (not_not_intro hp)]
      exact returns_pure.2 hm1
    · rw [if_pos hp, returns_bind]
      cases hserved with
      | refused => exact (hp rfl).elim
      | block hn hall =>
        -- the zeros are written into a block in use
        refine (returns_memset hall hn).mono fun _ s2 h₂ => returns_pure.2 ?_
        obtain ⟨fr1, hr1⟩ := hall.rep
        obtain ⟨fr2, hr2⟩ := h₂.1.rep
        exact (merged_congr hr1 hr2).1 hm1

lemma returns_relocate_merged {len : ℕ} (hr : Rep A s bl fr) (hlegal : Legal A s ask)
    (hm : Merged A s) (hb : b ∈ useds bl) (hk : 0 < k) (hw : k + (2 * A.hdr - 1) < A.word)
    (hav : Available A bl ask (roundSize A k)) (hlk : len ≤ k) (hlen : len + A.hdr ≤ b.size) :
    Returns (relocate A ask (b.addr + A.hdr) k len) s fun _ => Merged A := by
  have hroom := (roundSize_spec hw).room
  obtain ⟨q, s1, he, h₁⟩ := returns_malloc hr hlegal hk hw
  have hm1 := (returns_malloc_merged hr hlegal hm (.inl hw)).elim he
  obtain ⟨bl1, hall⟩ := h₁.1 hav
  unfold relocate
  simp only [returns_bind, returns_pure]
  rw [returns_iff_of_eq he]
  refine (returns_memcpy hall hb (by omega) hlen).mono fun _ s2 h₂ => ?_
  obtain ⟨fr1, hr1⟩ := hall.rep
  obtain ⟨fr2, hr2⟩ := h₂.1.rep
  obtain ⟨c, -, -, -, hu⟩ := h₂.1.fresh
  exact returns_free_merged hr2 ((merged_congr hr1 hr2).1 hm1) ((hu b).2 (.inr hb))

lemma returns_realloc_merged (hr : Rep A s bl fr) (hlegal : Legal A s ask) (hm : Merged A s)
    (hb : b ∈ useds bl) (hn : 0 < n) (hc : ReallocCond A s ask (b.addr + A.hdr) n) :
    Returns (realloc A ask (b.addr + A.hdr) n) s fun _ => Merged A := by
  have hmin := (hr.good.layout.ok b (mem_useds.1 hb).1).min
  refine returns_realloc_of hr hb hn hc (fun _ => hm) (fun hroom hw hav => ?_) fun _ => ?_
  · exact returns_relocate_merged hr hlegal hm hb (by omega) hw hav (by omega) (by omega)
  · show Returns (free A (b.addr + A.hdr) >>= fun _ => pure 0) s _
    rw [returns_bind]
    exact (returns_free_merged hr hm hb).mono fun _ _ h => returns_pure.2 h

/-! ### Runs -/

lemma merged_start {st : State} (h : Start A st) : Merged A st.sys := by
  rintro a ⟨hne, i, hi⟩
  -- the head node is the only one that is reached
  have hall : ∀ i, ((table A st.sys.mem).col .next)^[i] A.head = A.head := by
    intro i
    induction i with
    | zero => rfl
    | succ i ih =>
      rw [Function.iterate_succ_apply', ih]
      exact h.head .next
  exact (hne (hi.symm.trans (hall i))).elim

lemma merged_step {st st' : State} {e : Event} (hwf : Wf A st) (hm : Merged A st.sys)
    (h : Step A st e st') : Merged A st'.sys := by
  obtain ⟨bl, fr, hr, hl⟩ := hwf
  cases h with
  | malloc hlegal _ hc he => exact (returns_malloc_merged hr hlegal hm hc).elim he
  | free hp he =>
    rcases hp with rfl | hp
    · cases he
      exact hm
    · obtain ⟨b, hb, rfl⟩ := hl.exists_block hp
      exact (returns_free_merged hr hm hb).elim he
  | calloc hlegal _ _ hc he => exact (returns_calloc_merged hr hlegal hm hc).elim he
  | @realloc ask p n q s' hlegal _ hnull hlive he =>
    by_cases hp : p = 0
    · subst hp
      exact (returns_malloc_merged hr hlegal hm (hnull rfl)).elim he
    · obtain ⟨hp', hc⟩ := hlive hp
      obtain ⟨b, hb, rfl⟩ := hl.exists_block hp'
      by_cases hn0 : n = 0
      · subst hn0
        unfold realloc at he
        rw [if_neg hp, if_pos rfl] at he
        obtain ⟨⟨_, s1⟩, hfree, hend⟩ := Option.bind_eq_some_iff.1 he
        cases hend
        exact (returns_free_merged hr hm hb).elim hfree
      · exact (returns_realloc_merged hr hlegal hm hb (by omega) (hc (by omega))).elim he
  | write hmapped h => exact (merged_congr hr (rep_write hr hl hmapped h)).1 hm

lemma merged_reach {st : State} (h : Reach (Start A) (Step A) st) : Merged A st.sys := by
  have hboth : Wf A st ∧ Merged A st.sys :=
    Reach.induct (I := fun st => Wf A st ∧ Merged A st.sys)
      (fun _ hstart => ⟨wf_start hstart, merged_start hstart⟩)
      (fun _ _ _ hinv hstep => ⟨wf_step hinv.1 hstep, merged_step hinv.1 hinv.2 hstep⟩) h
  exact hboth.2

/-- **Full coalescing.**  In every state of every run, whatever regions the kernel gives and however
they touch, for no block of type `FREE` on the main chain is the block that begins where it ends of
type `FREE` as well. -/
theorem full_coalescing (A : Arch) {st : State} (h : Reach (Start A) (Step A) st) :
    ∀ a, OnChain A st.sys .next a → table A st.sys.mem a .type = arenaTypeFree →
      OnChain A st.sys .next (a + table A st.sys.mem a .size) →
      table A st.sys.mem (a + table A st.sys.mem a .size) .type ≠ arenaTypeFree :=
  merged_reach h

/-- The state after one `malloc`, which has left a free remainder. -/
theorem full_coalescing_live : ∃ st, Reach (Start machine) (Step machine) st ∧
    st.live 0x100010 = some 100 ∧
    ∀ a, OnChain machine st.sys .next a → table machine st.sys.mem a .type = arenaTypeFree →
      OnChain machine st.sys .next (a + table machine st.sys.mem a .size) →
      table machine st.sys.mem (a + table machine st.sys.mem a .size) .type ≠ arenaTypeFree := by
  obtain ⟨st, hreach, hlive, -⟩ := exists_live
  exact ⟨st, hreach, hlive, full_coalescing machine hreach⟩

end Klibc.Malloc.Coalescing
