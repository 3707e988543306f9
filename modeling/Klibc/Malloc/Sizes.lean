import Klibc.Malloc.Calls

/-! # Sizes of what is returned

Which calls return `NULL` or a block that is large enough, stated on the memory alone.  `malloc`,
`calloc` and `realloc` add, round and multiply in `size_t` without a check; a request too near to
the top is then served with next to nothing.  For each of the three there is a condition on the
arguments, the heap and the kernel's answer under which all is well, and it is exact. -/

namespace Klibc.Malloc.Sizes

open List Lib.Memory Lib.Cells Lib.Linked Lib.Total Arena Blocks Chains Surgery
open Search Rounding Calls

variable {A : Arch} {bl pre post : List Block} {fr : List ℕ} {b c : Block} {a x k n p q : ℕ}
  {s s' : Sys} {ask : ℕ → Option ℕ}

/-! ### Chains seen from the memory -/

/-- `a` is reached from the head node along the field `f`. -/
def OnChain (A : Arch) (s : Sys) (f : Field) (a : ℕ) : Prop :=
  a ≠ A.head ∧ ∃ i, ((table A s.mem).col f)^[i] A.head = a

lemma onChain_next_iff (hr : Rep A s bl fr) : OnChain A s .next a ↔ ∃ b ∈ bl, b.addr = a := by
  rw [OnChain, ← hr.good.main.mem_iff hr.good.layout.nodup, mem_map]

lemma onChain_nextFree_iff (hr : Rep A s bl fr) :
    OnChain A s .nextFree a ↔ ∃ b ∈ bl, b.used = false ∧ b.addr = a := by
  rw [OnChain, ← hr.good.free.mem_iff hr.good.fr_nodup, hr.good.perm.mem_iff, mem_frees]

/-- **Behind `p` is a block with at least `n` usable bytes**: it is on the main chain and in use,
its memory is mapped and overlaps no other block, and beyond the header it has room for `n` bytes.
-/
structure Usable (A : Arch) (s : Sys) (p n : ℕ) : Prop where
  above : A.hdr ≤ p
  chained : OnChain A s .next (p - A.hdr)
  used : table A s.mem (p - A.hdr) .type = arenaTypeUsed
  room : n + A.hdr ≤ table A s.mem (p - A.hdr) .size
  mapped : ∀ x, p - A.hdr ≤ x → x < p - A.hdr + table A s.mem (p - A.hdr) .size → s.mapped x = true
  apart : ∀ a, OnChain A s .next a → a ≠ p - A.hdr →
    a + table A s.mem a .size ≤ p - A.hdr ∨ p - A.hdr + table A s.mem (p - A.hdr) .size ≤ a

lemma usable_of_mem (hr : Rep A s bl fr) (hc : c ∈ bl) (hu : c.used = true)
    (hn : n + A.hdr ≤ c.size) : Usable A s (c.addr + A.hdr) n := by
  have htag := hr.good.tagged c hc
  have hp : c.addr + A.hdr - A.hdr = c.addr := Nat.add_sub_cancel ..
  refine ⟨by omega, ?_, ?_, ?_, ?_, ?_⟩
  · exact (onChain_next_iff hr).2 ⟨c, hc, hp.symm⟩
  · rw [hp, htag.1, typeOf, if_pos hu]
  · rw [hp, htag.2]
    exact hn
  · rw [hp, htag.2]
    exact fun x h1 h2 => (hr.tiles x).2 ⟨c, hc, h1, h2⟩
  · rw [hp, htag.2]
    intro a ha hne
    obtain ⟨b, hb, rfl⟩ := (onChain_next_iff hr).1 ha
    rw [(hr.good.tagged b hb).2]
    exact hr.good.layout.apart hb hc hne

def Clean (A : Arch) (s : Sys) : Prop :=
  ∀ x, s.mapped x = true → x < A.word ∧ ¬(A.dataLo ≤ x ∧ x < A.dataHi)

lemma clean_of_rep (hr : Rep A s bl fr) : Clean A s := by
  intro x hx
  obtain ⟨b, hb, h1, h2⟩ := (hr.tiles x).1 hx
  have h3 := (hr.good.layout.ok b hb).top
  have h4 := (hr.good.layout.ok b hb).data
  omega

lemma Usable.le (hc : Clean A s) (h : Usable A s p n) : n + A.hdr + A.page ≤ A.word := by
  have hroom := h.room
  have hmap := h.mapped
  have hh := hdr_eq A
  have hd := data_page A
  have hp := page_pos A
  have hhi : A.dataHi ≤ A.word := A.dataHi_le
  generalize p - A.hdr = q at *
  generalize table A s.mem q .size = size at *
  have hlast := (hc _ (hmap (q + size - 1) (by omega) (by omega))).1
  have hdata : q + size ≤ A.dataLo ∨ A.dataHi ≤ q := by
    by_contra hn
    have := (hc _ (hmap (max q A.dataLo) (by omega) (by omega))).2
    omega
  omega

/-! ### When a request can be met -/

/-- There is a free block of `k` bytes, or the kernel gives one. -/
def Obtainable (A : Arch) (s : Sys) (ask : ℕ → Option ℕ) (k : ℕ) : Prop :=
  (∃ a, OnChain A s .nextFree a ∧ k ≤ table A s.mem a .size) ∨
    (0 < roundChunk A k ∧ (ask (roundChunk A k)).isSome = true)

lemma obtainable_iff (hr : Rep A s bl fr) : Obtainable A s ask k ↔ Available A bl ask k := by
  refine or_congr ⟨?_, ?_⟩ Iff.rfl
  · rintro ⟨a, ha, hk⟩
    obtain ⟨b, hb, hf, rfl⟩ := (onChain_nextFree_iff hr).1 ha
    rw [(hr.good.tagged b hb).2] at hk
    exact ⟨b, hb, hf, hk⟩
  · rintro ⟨b, hb, hf, hk⟩
    refine ⟨b.addr, (onChain_nextFree_iff hr).2 ⟨b, hb, hf, rfl⟩, ?_⟩
    rwa [(hr.good.tagged b hb).2]

/-! ### Calls on any heap -/

lemma mallocFromBlock_yields (A : Arch) (fp k : ℕ) :
    (mallocFromBlock A fp k).Yields (· = add A fp A.hdr) := by
  intro fsize
  show Prog.Yields _ (if add A k (2 * A.hdr) ≤ fsize then _ else _)
  split_ifs
  · intro na fpn fpp
    rfl
  · intro ap an
    rfl

lemma exec_yields {α : Type} {P : α → Prop} {q : Prog Field α} {r : α} (hq : q.Yields P)
    (h : exec A q s = some (r, s')) : P r := by
  obtain ⟨⟨r', m'⟩, hrun, he⟩ := Option.map_eq_some_iff.1 h
  cases he
  exact hq.run hrun

lemma exec_mapped {α : Type} {q : Prog Field α} {r : α} (h : exec A q s = some (r, s')) :
    s'.mapped = s.mapped := by
  obtain ⟨_, -, he⟩ := Option.map_eq_some_iff.1 h
  cases he
  rfl

/-! ### `malloc` -/

lemma addr_add_hdr (hr : Rep A s bl fr) (hb : b ∈ bl) : add A b.addr A.hdr = b.addr + A.hdr := by
  have hok := hr.good.layout.ok b hb
  have h1 := hok.min
  have h2 := hok.top
  have h3 := hdr_eq A
  unfold Block.stop at h2
  exact add_eq (by omega)

/-- What can be said of a call that returns, whatever was rounded. -/
theorem malloc_any (hr : Rep A s bl fr) (hlegal : Legal A s ask) (hn : n ≠ 0)
    (he : malloc A ask n s = some (p, s')) :
    (Obtainable A s ask (roundSize A n) → p ≠ 0 ∧ Clean A s') ∧
      (¬Obtainable A s ask (roundSize A n) → p = 0) := by
  rw [obtainable_iff hr]
  rcases malloc_cases hr hlegal hn with ⟨hav, s1, pre, b, post, fr1, hr1, -, -, -, hm⟩ | ⟨hav, hm⟩
  · rw [hm] at he
    refine ⟨fun _ => ⟨?_, fun x hx => ?_⟩, fun hna => (hna hav).elim⟩
    · rw [exec_yields (mallocFromBlock_yields A b.addr _) he, addr_add_hdr hr1 (by simp)]
      have := hdr_eq A
      omega
    · rw [exec_mapped he] at hx
      exact clean_of_rep hr1 x hx
  · rw [hm] at he
    cases he
    exact ⟨fun h => (hav h).elim, fun _ => rfl⟩

variable {bl' : List Block} {nmemb size : ℕ}

lemma usable_of_allocated (h : Allocated A bl s k p s' bl')
    (hn : n + A.hdr ≤ k) : Usable A s' p n := by
  obtain ⟨fr', hr⟩ := h.rep
  obtain ⟨c, hk, rfl, -, hu⟩ := h.fresh
  obtain ⟨hc, hcu⟩ := mem_useds.1 ((hu c).2 (.inl rfl))
  exact usable_of_mem hr hc hcu (hn.trans hk)

/-- `malloc(n)` returns `NULL` or a block with at least `n` usable bytes. -/
def MallocOk (A : Arch) (s : Sys) (ask : ℕ → Option ℕ) (n : ℕ) : Prop :=
  Returns (malloc A ask n) s fun p s' => p = 0 ∨ Usable A s' p n

/-- The rounding does not wrap, or the request cannot be met anyway. -/
def MallocCond (A : Arch) (s : Sys) (ask : ℕ → Option ℕ) (n : ℕ) : Prop :=
  n + (2 * A.hdr - 1) < A.word ∨ ¬Obtainable A s ask (roundSize A n)

lemma not_usable (hc : Clean A s) (hw : A.word ≤ n + (4 * A.hdr - 1)) : ¬Usable A s p n := by
  intro h
  have h1 := h.le hc
  have h2 := hdr_le_page A
  have h3 := hdr_eq A
  omega

/-- **How a request for `n` bytes ends**: it is refused and nothing changes, or there is a new block
with room for `n` bytes. -/
inductive Served (A : Arch) (bl : List Block) (s : Sys) (n : ℕ) : ℕ → Sys → Prop
  | refused : Served A bl s n 0 s
  | block {k p : ℕ} {s' : Sys} {bl' : List Block} : n + A.hdr ≤ k → Allocated A bl s k p s' bl' →
      Served A bl s n p s'

lemma usable_of_served (h : Served A bl s n p s') : p = 0 ∨ Usable A s' p n := by
  cases h with
  | refused => exact .inl rfl
  | block hn hall => exact .inr (usable_of_allocated hall hn)

section
variable (hr : Rep A s bl fr) (hlegal : Legal A s ask)
include hr hlegal

lemma malloc_null
    (h : n = 0 ∨ ¬Obtainable A s ask (roundSize A n)) : malloc A ask n s = some (0, s) := by
  by_cases hn : n = 0
  · subst hn
    rfl
  · rcases malloc_cases hr hlegal hn with ⟨hav, -⟩ | ⟨-, he⟩
    · exact (h.resolve_left hn ((obtainable_iff hr).2 hav)).elim
    · exact he

/-- **`malloc` on a represented heap**, under the condition. -/
theorem returns_malloc_served
    (hc : MallocCond A s ask n) : Returns (malloc A ask n) s (Served A bl s n) := by
  by_cases hnull : n = 0 ∨ ¬Obtainable A s ask (roundSize A n)
  · exact ⟨0, s, malloc_null hr hlegal hnull, .refused⟩
  · obtain ⟨hn, hob⟩ := not_or.1 hnull
    have hw := hc.resolve_right hob
    refine (returns_malloc hr hlegal (by omega) hw).mono fun p s' h => ?_
    obtain ⟨bl', hall⟩ := h.1 ((obtainable_iff hr).1 (not_not.1 hob))
    exact .block (roundSize_spec hw).room hall

lemma mallocOk_iff : MallocOk A s ask n ↔ MallocCond A s ask n := by
  have hh := hdr_eq A
  have hpos := word_ge A
  constructor
  · intro h
    by_contra hc
    obtain ⟨hw, hob⟩ := not_or.1 hc
    obtain ⟨p, s', he, hp⟩ := h
    obtain ⟨hp0, hclean⟩ :=
      (malloc_any hr hlegal (show n ≠ 0 by omega) he).1 (not_not.1 hob)
    exact not_usable hclean (by omega) (hp.resolve_left hp0)
  · intro hc
    exact (returns_malloc_served hr hlegal hc).mono fun p s' => usable_of_served

end

/-! ### `calloc` -/

/-- `calloc(nmemb, size)` returns `NULL` or a block of at least `nmemb * size` bytes, all zero. -/
def CallocOk (A : Arch) (s : Sys) (ask : ℕ → Option ℕ) (nmemb size : ℕ) : Prop :=
  Returns (calloc A ask nmemb size) s fun p s' => p = 0 ∨
    (Usable A s' p (nmemb * size) ∧ ∀ x, p ≤ x → x < p + nmemb * size → s'.mem x = 0)

/-- The product is small enough, or what is left of it modulo the word is a request that is refused.
-/
def CallocCond (A : Arch) (s : Sys) (ask : ℕ → Option ℕ) (nmemb size : ℕ) : Prop :=
  nmemb * size + (2 * A.hdr - 1) < A.word ∨ nmemb * size % A.word = 0 ∨
    ¬Obtainable A s ask (roundSize A (nmemb * size % A.word))

lemma accessible_iff : s.accessible p n = true ↔ ∀ x, p ≤ x → x < p + n → s.mapped x = true := by
  simp only [Sys.accessible, all_eq_true, mem_range]
  constructor
  · intro h x h1 h2
    have := h (x - p) (by omega)
    rwa [Nat.add_sub_cancel' h1] at this
  · intro h i hi
    exact h _ (by omega) (by omega)

lemma memset_mapped {v : UInt8} (h : memset p v n s = some ((), s')) : s'.mapped = s.mapped := by
  unfold memset at h
  split_ifs at h
  cases h
  rfl

lemma allocated_accessible (h : Allocated A bl s k p s' bl')
    (hn : n + A.hdr ≤ k) : s'.accessible p n = true := by
  obtain ⟨fr', hr⟩ := h.rep
  obtain ⟨c, hk, rfl, -, hu⟩ := h.fresh
  refine accessible_iff.2 fun x h1 h2 => (hr.tiles x).2 ⟨c, ?_, by omega, ?_⟩
  · exact (mem_useds.1 ((hu c).2 (.inl rfl))).1
  · unfold Block.stop
    omega

lemma allocated_write {s'' : Sys} (h : Allocated A bl s k p s' bl')
    (hn : n + A.hdr ≤ k) (hm : s''.mapped = s'.mapped)
    (hout : ∀ y, ¬(p ≤ y ∧ y < p + n) → s''.mem y = s'.mem y) : Allocated A bl s k p s'' bl' := by
  obtain ⟨fr', hr⟩ := h.rep
  obtain ⟨c, hk, rfl, hne, hu⟩ := h.fresh
  have hcu : c ∈ useds bl' := (hu c).2 (.inl rfl)
  refine ⟨⟨fr', ?_⟩, ⟨c, hk, rfl, hne, hu⟩, ?_⟩
  · refine hr.of_bodies hm fun y hy => ⟨c, hcu, ?_⟩
    by_contra hn'
    refine hy (hout y ?_)
    unfold Block.stop at hn'
    omega
  · refine h.keeps.trans fun b hb y h1 h2 => hout y fun hy => ?_
    have := hr.good.layout.apart (mem_useds.1 ((hu b).2 (.inr hb))).1 (mem_useds.1 hcu).1 (hne b hb)
    unfold Block.stop at *
    omega

lemma returns_memset (h : Allocated A bl s k p s' bl') (hn : n + A.hdr ≤ k) :
    Returns (memset p 0 n) s' fun _ s'' => Allocated A bl s k p s'' bl' ∧
      ∀ x, p ≤ x → x < p + n → s''.mem x = 0 := by
  refine ⟨(), _, if_pos (allocated_accessible h hn), ?_, fun x h1 h2 => if_pos ⟨h1, h2⟩⟩
  exact allocated_write h hn rfl fun y hy => if_neg hy

lemma calloc_null (h : malloc A ask (nmemb * size % A.word) s = some (0, s)) :
    calloc A ask nmemb size s = some (0, s) := by
  show (malloc A ask (size * nmemb % A.word) s).bind _ = _
  rw [mul_comm size, h]
  rfl

/-- **`calloc` on a represented heap**, under the condition. -/
theorem returns_calloc (hr : Rep A s bl fr) (hlegal : Legal A s ask)
    (hc : CallocCond A s ask nmemb size) :
    Returns (calloc A ask nmemb size) s fun p s' => Served A bl s (nmemb * size) p s' ∧
      (p ≠ 0 → ∀ x, p ≤ x → x < p + nmemb * size → s'.mem x = 0) := by
  by_cases hnull : nmemb * size % A.word = 0 ∨
      ¬Obtainable A s ask (roundSize A (nmemb * size % A.word))
  · exact ⟨0, s, calloc_null (malloc_null hr hlegal hnull), .refused, fun h => (h rfl).elim⟩
  · have hw := hc.resolve_right hnull
    have hmod : nmemb * size % A.word = nmemb * size := Nat.mod_eq_of_lt (by omega)
    unfold calloc
    rw [mul_comm size, hmod, returns_bind]
    refine (returns_malloc_served hr hlegal (.inl hw)).mono fun p s1 h => ?_
    cases h with
    | refused => exact ⟨0, _, rfl, .refused, fun h => (h rfl).elim⟩
    | block hn hall =>
      have hp : p ≠ 0 := by
        obtain ⟨c, -, rfl, -⟩ := hall.fresh
        have := hdr_eq A
        omega
      rw [if_pos hp, returns_bind]
      refine (returns_memset hall hn).mono fun _ s2 h₂ => returns_pure.2 ?_
      exact ⟨.block hn h₂.1, fun _ => h₂.2⟩

lemma callocOk_iff (hr : Rep A s bl fr) (hlegal : Legal A s ask) :
    CallocOk A s ask nmemb size ↔ CallocCond A s ask nmemb size := by
  constructor
  · intro h
    by_contra hc
    simp only [CallocCond, not_or, not_not] at hc
    obtain ⟨hw, hn, hob⟩ := hc
    unfold CallocOk calloc at h
    rw [mul_comm size, returns_bind] at h
    obtain ⟨p, s1, he, hrest⟩ := h
    obtain ⟨hp, hclean⟩ := (malloc_any hr hlegal hn he).1 hob
    rw [if_pos hp, returns_bind] at hrest
    obtain ⟨_, s2, hset, hend⟩ := hrest
    have hclean2 : Clean A s2 := by
      rw [Clean, memset_mapped hset]
      exact hclean
    exact not_usable hclean2 (by omega) ((returns_pure.1 hend).resolve_left hp).1
  · intro hc
    refine (returns_calloc hr hlegal hc).mono fun p s' h => ?_
    by_cases hp : p = 0
    · exact .inl hp
    · exact .inr ⟨(usable_of_served h.1).resolve_left hp, h.2 hp⟩

end Klibc.Malloc.Sizes
