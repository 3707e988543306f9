import Klibc.Lib.Transition
import Klibc.Malloc.Realloc

/-! # Runs of the allocator

A state is the allocator's memory together with what its callers know: which pointers are live, and
what size was asked for.  Callers free only live pointers, and write only to memory that is theirs. 
In every run the chains in memory are those of a list of blocks (`wf_reach`); the heap invariant and
the sizes of what is returned follow. -/

namespace Klibc.Malloc.Runs

open List Lib.Linked Lib.Memory Lib.Total Lib.Transition Arena Blocks Chains Calls Sizes Realloc

variable {A : Arch} {bl bl' : List Block} {fr : List ℕ} {U U' : Set Block} {b c : Block} {n p q : ℕ}
  {s s' : Sys} {live : ℕ → Option ℕ}

/-! ### States and steps -/

/-- The allocator's memory, and the sizes of the live allocations by pointer. -/
structure State where
  sys : Sys
  live : ℕ → Option ℕ

/-- The static initialiser of `__malloc_head`. -/
def headNode (A : Arch) : Field → ℕ
  | .type => arenaTypeHead
  | .size => 0
  | _ => A.head

structure Start (A : Arch) (st : State) : Prop where
  head : ∀ f, table A st.sys.mem A.head f = headNode A f
  unmapped : ∀ x, st.sys.mapped x = false
  live : ∀ p, st.live p = none

/-- What an allocator function returned is live, unless it is `NULL`. -/
def grant (live : ℕ → Option ℕ) (p n : ℕ) : ℕ → Option ℕ :=
  if p = 0 then live else Function.update live p (some n)

def drop (live : ℕ → Option ℕ) (p : ℕ) : ℕ → Option ℕ := Function.update live p none

/-- Callers may not write here: to the head node, or to memory from `mmap` that is in no live
allocation. -/
def Protected (A : Arch) (st : State) (y : ℕ) : Prop :=
  (A.head ≤ y ∧ y < A.head + 6 * A.W) ∨
    (st.sys.mapped y = true ∧ ∀ p n, st.live p = some n → ¬(p ≤ y ∧ y < p + n))

inductive Event where
  | malloc (n p : ℕ)
  | free (p : ℕ)
  | calloc (nmemb size p : ℕ)
  | realloc (p n q : ℕ)
  | write

/-- **The steps of a program**: it calls the allocator, whose `mmap` the kernel answers in any legal
way, or writes to its own memory.  The calls are such that nothing wraps that matters. -/
inductive Step (A : Arch) : State → Event → State → Prop
  | malloc {st : State} {ask : ℕ → Option ℕ} {n p : ℕ} {s' : Sys} :
      Legal A st.sys ask → n < A.word → MallocCond A st.sys ask n →
      Arena.malloc A ask n st.sys = some (p, s') →
      Step A st (.malloc n p) ⟨s', grant st.live p n⟩
  | free {st : State} {p : ℕ} {s' : Sys} :
      (p = 0 ∨ (st.live p).isSome = true) → Arena.free A p st.sys = some ((), s') →
      Step A st (.free p) ⟨s', drop st.live p⟩
  | calloc {st : State} {ask : ℕ → Option ℕ} {nmemb size p : ℕ} {s' : Sys} :
      Legal A st.sys ask → nmemb < A.word → size < A.word → CallocCond A st.sys ask nmemb size →
      Arena.calloc A ask nmemb size st.sys = some (p, s') →
      Step A st (.calloc nmemb size p) ⟨s', grant st.live p (nmemb * size)⟩
  | realloc {st : State} {ask : ℕ → Option ℕ} {p n q : ℕ} {s' : Sys} :
      Legal A st.sys ask → n < A.word → (p = 0 → MallocCond A st.sys ask n) →
      (p ≠ 0 → (st.live p).isSome = true ∧ (0 < n → ReallocCond A st.sys ask p n)) →
      Arena.realloc A ask p n st.sys = some (q, s') →
      Step A st (.realloc p n q) ⟨s', grant (drop st.live p) q n⟩
  | write {st : State} {s' : Sys} :
      s'.mapped = st.sys.mapped → (∀ y, s'.mem y ≠ st.sys.mem y → ¬Protected A st y) →
      Step A st .write ⟨s', st.live⟩

/-! ### Live pointers and blocks in use -/

/-- The live pointers are those to the contents of the blocks `U`, which are large enough. -/
structure LiveOk (A : Arch) (live : ℕ → Option ℕ) (U : Set Block) : Prop where
  block : ∀ p n, live p = some n → ∃ b ∈ U, p = b.addr + A.hdr ∧ n + A.hdr ≤ b.size
  live : ∀ b ∈ U, (live (b.addr + A.hdr)).isSome = true

section
variable (h : LiveOk A live U)
include h

lemma LiveOk.zero : live 0 = none := by
  by_contra hne
  obtain ⟨n, hn⟩ := Option.ne_none_iff_exists'.1 hne
  obtain ⟨b, -, hb, -⟩ := h.block 0 n hn
  have := hdr_eq A
  omega

lemma LiveOk.drop_zero : drop live 0 = live := Function.update_eq_self_iff.2 h.zero.symm

lemma LiveOk.exists_block (hp : (live p).isSome = true) : ∃ b ∈ U, p = b.addr + A.hdr := by
  obtain ⟨n, hn⟩ := Option.isSome_iff_exists.1 hp
  obtain ⟨b, hb, he, -⟩ := h.block p n hn
  exact ⟨b, hb, he⟩

lemma LiveOk.grant (hU : ∀ d, d ∈ U' ↔ d = c ∨ d ∈ U)
    (hn : n + A.hdr ≤ c.size) : LiveOk A (grant live (c.addr + A.hdr) n) U' := by
  have hh := hdr_eq A
  rw [Runs.grant, if_neg (by omega)]
  constructor
  · intro p m hm
    by_cases hp : p = c.addr + A.hdr
    · subst hp
      rw [Function.update_self, Option.some.injEq] at hm
      subst hm
      exact ⟨c, (hU c).2 (.inl rfl), rfl, hn⟩
    · rw [Function.update_of_ne hp] at hm
      obtain ⟨b, hb, h1, h2⟩ := h.block p m hm
      exact ⟨b, (hU b).2 (.inr hb), h1, h2⟩
  · intro d hd
    by_cases hp : d.addr + A.hdr = c.addr + A.hdr
    · rw [hp, Function.update_self]
      rfl
    · rw [Function.update_of_ne hp]
      rcases (hU d).1 hd with rfl | hd
      · exact (hp rfl).elim
      · exact h.live d hd

lemma LiveOk.drop (hinj : ∀ d ∈ U, d.addr = b.addr → d = b)
    (hU : ∀ d, d ∈ U' ↔ d ∈ U ∧ d ≠ b) : LiveOk A (drop live (b.addr + A.hdr)) U' := by
  unfold Runs.drop
  constructor
  · intro p m hm
    by_cases hp : p = b.addr + A.hdr
    · subst hp
      rw [Function.update_self] at hm
      cases hm
    · rw [Function.update_of_ne hp] at hm
      obtain ⟨d, hd, h1, h2⟩ := h.block p m hm
      refine ⟨d, (hU d).2 ⟨hd, ?_⟩, h1, h2⟩
      rintro rfl
      exact hp h1
  · intro d hd
    obtain ⟨hd, hne⟩ := (hU d).1 hd
    have hp : d.addr + A.hdr ≠ b.addr + A.hdr := fun he => hne (hinj d hd (by omega))
    rw [Function.update_of_ne hp]
    exact h.live d hd

end

/-! ### The invariant -/

/-- **The invariant of runs**: the memory represents blocks, of which those in use are live. -/
def Wf (A : Arch) (st : State) : Prop :=
  ∃ bl fr, Rep A st.sys bl fr ∧ LiveOk A st.live {b | b ∈ useds bl}

lemma wf_start {st : State} (h : Start A st) : Wf A st := by
  have hmain : Ring ((table A st.sys.mem).col .next) ((table A st.sys.mem).col .prev) A.head [] :=
    ring_nil.2 ⟨h.head .next, h.head .prev⟩
  have hfree : Ring ((table A st.sys.mem).col .nextFree) ((table A st.sys.mem).col .prevFree)
      A.head [] := ring_nil.2 ⟨h.head .nextFree, h.head .prevFree⟩
  refine ⟨[], [], ⟨⟨⟨⟨.nil, by simp⟩, hmain, hfree, .refl _, h.head .type⟩, by simp⟩, ?_⟩, ?_, ?_⟩
  · simp [h.unmapped]
  · intro p n hp
    rw [h.live] at hp
    cases hp
  · simp

lemma wf_served (hl : LiveOk A live {b | b ∈ useds bl}) (hr : Rep A s bl fr)
    (h : Served A bl s n p s') : Wf A ⟨s', grant live p n⟩ := by
  cases h with
  | refused => exact ⟨bl, fr, hr, hl⟩
  | block hn hall =>
    obtain ⟨fr', hr'⟩ := hall.rep
    obtain ⟨c, hk, rfl, -, hu⟩ := hall.fresh
    exact ⟨_, fr', hr', hl.grant hu (hn.trans hk)⟩

lemma used_inj (hr : Rep A s bl fr) (hb : b ∈ useds bl) :
    ∀ d ∈ {d | d ∈ useds bl}, d.addr = b.addr → d = b := fun _ hd =>
  hr.good.layout.inj (mem_useds.1 hd).1 (mem_useds.1 hb).1

section
variable (hl : LiveOk A live {b | b ∈ useds bl}) (hr : Rep A s bl fr) (hb : b ∈ useds bl)
include hl hr hb

lemma wf_freed (h : Freed A bl s b s' bl') : Wf A ⟨s', drop live (b.addr + A.hdr)⟩ := by
  obtain ⟨fr', hr'⟩ := h.rep
  exact ⟨_, fr', hr', hl.drop (used_inj hr hb) h.gone⟩

lemma wf_realloced (h : Realloced A bl s b n q s') :
    Wf A ⟨s', grant (drop live (b.addr + A.hdr)) q n⟩ := by
  have hdrop : LiveOk A (drop live (b.addr + A.hdr)) {d | d ∈ useds bl ∧ d ≠ b} :=
    hl.drop (used_inj hr hb) fun _ => Iff.rfl
  cases h with
  | same hn =>
    refine ⟨bl, fr, hr, hdrop.grant (fun d => ?_) hn⟩
    by_cases hd : d = b
    · simp [hd, hb]
    · simp [hd]
  | moved hn hm =>
    obtain ⟨fr', hr'⟩ := hm.rep
    obtain ⟨c, hk, rfl, -, hu⟩ := hm.fresh
    exact ⟨_, fr', hr', hdrop.grant hu (hn.trans hk)⟩
  | freed hf => exact wf_freed hl hr hb hf

end

lemma rep_write {st : State} (hr : Rep A st.sys bl fr) (hl : LiveOk A st.live {b | b ∈ useds bl})
    (hm : s'.mapped = st.sys.mapped) (h : ∀ y, s'.mem y ≠ st.sys.mem y → ¬Protected A st y) :
    Rep A s' bl fr := by
  refine hr.of_apart hm fun y hy a f hs hin => h y hy ?_
  have hw := word_le A f
  by_cases hhead : a = A.head
  · subst hhead
    exact .inl (by omega)
  obtain ⟨b, hb, rfl, -⟩ := hs.resolve_left hhead
  have hsize := (hr.good.layout.ok b hb).hdr_le
  refine .inr ⟨(hr.tiles y).2 ⟨b, hb, by omega, by unfold Block.stop; omega⟩, fun p n hp hpy => ?_⟩
  obtain ⟨c, hc, rfl, hn⟩ := hl.block p n hp
  obtain ⟨hc, hu⟩ := mem_useds.1 hc
  have := body_apart hr.good.layout hs hc hu hpy.1 (by unfold Block.stop; omega)
  omega

lemma wf_step {st st' : State} {e : Event} (hwf : Wf A st) (h : Step A st e st') : Wf A st' := by
  obtain ⟨bl, fr, hr, hl⟩ := hwf
  cases h with
  | malloc hlegal hn hc he => exact wf_served hl hr ((returns_malloc_served hr hlegal hc).elim he)
  | free hp he =>
    rcases hp with rfl | hp
    · cases he
      rw [hl.drop_zero]
      exact ⟨bl, fr, hr, hl⟩
    · obtain ⟨b, hb, rfl⟩ := hl.exists_block hp
      obtain ⟨bl', hfreed⟩ := (returns_free_used hr hb).elim he
      exact wf_freed hl hr hb hfreed
  | calloc hlegal _ _ hc he => exact wf_served hl hr ((returns_calloc hr hlegal hc).elim he).1
  | @realloc ask p n q s' hlegal hn hnull hlive he =>
    by_cases hp : p = 0
    · subst hp
      rw [hl.drop_zero]
      exact wf_served hl hr ((returns_malloc_served hr hlegal (hnull rfl)).elim he)
    · obtain ⟨hp', hc⟩ := hlive hp
      obtain ⟨b, hb, rfl⟩ := hl.exists_block hp'
      refine wf_realloced hl hr hb ?_
      by_cases hn0 : n = 0
      · subst hn0
        exact (returns_realloc_zero hr hb).elim he
      · exact (returns_realloc hr hlegal hb (by omega) (hc (by omega))).elim he
  | write hm h => exact ⟨bl, fr, rep_write hr hl hm h, hl⟩

lemma wf_reach {st : State} (h : Reach (Start A) (Step A) st) : Wf A st :=
  Reach.induct (I := Wf A) (fun _ => wf_start) (fun _ _ _ => wf_step) h

/-! ### The heap invariant -/

/-- **The heap invariant, read off the memory**: the blocks of the main chain are `main`, those of
the free chain `free`. -/
structure Heap (A : Arch) (st : State) (main free : List ℕ) : Prop where
  head_type : table A st.sys.mem A.head .type = arenaTypeHead
  main_ring : Ring ((table A st.sys.mem).col .next) ((table A st.sys.mem).col .prev) A.head main
  main_sorted : main.Pairwise (· < ·)
  disjoint : main.Pairwise fun a b => a + table A st.sys.mem a .size ≤ b
  tiles : ∀ x, st.sys.mapped x = true ↔ ∃ a ∈ main, a ≤ x ∧ x < a + table A st.sys.mem a .size
  free_ring : Ring ((table A st.sys.mem).col .nextFree) ((table A st.sys.mem).col .prevFree)
    A.head free
  free_nodup : free.Nodup
  mem_free : ∀ a, a ∈ free ↔ a ∈ main ∧ table A st.sys.mem a .type = arenaTypeFree
  size_dvd : ∀ a ∈ main, A.hdr ∣ table A st.sys.mem a .size
  size_min : ∀ a ∈ main, 2 * A.hdr ≤ table A st.sys.mem a .size
  type : ∀ a ∈ main, table A st.sys.mem a .type = arenaTypeUsed ∨
    table A st.sys.mem a .type = arenaTypeFree
  live_iff : ∀ p, (st.live p).isSome = true ↔
    ∃ a ∈ main, table A st.sys.mem a .type = arenaTypeUsed ∧ p = a + A.hdr
  live_size : ∀ p n, st.live p = some n → n + A.hdr ≤ table A st.sys.mem (p - A.hdr) .size

lemma type_eq_used (hr : Rep A s bl fr) (hb : b ∈ bl) :
    table A s.mem b.addr .type = arenaTypeUsed ↔ b.used = true := by
  rw [(hr.good.tagged b hb).1, typeOf]
  cases b.used <;> simp

lemma heap_of_rep {st : State} (hr : Rep A st.sys bl fr)
    (hl : LiveOk A st.live {b | b ∈ useds bl}) : Heap A st (bl.map Block.addr) fr := by
  have hg := hr.good
  have hsize : ∀ b ∈ bl, table A st.sys.mem b.addr .size = b.size := fun b hb => (hg.tagged b hb).2
  refine ⟨hg.head, hg.main, ?_, ?_, fun x => ?_, hg.free, (nodup_cons.1 hg.fr_nodup).2, fun a => ?_,
    ?_, ?_, ?_, fun p => ?_, fun p n hp => ?_⟩
  · exact pairwise_map.2 hg.layout.lt
  · refine pairwise_map.2 (hg.layout.sorted.imp_of_mem fun hb _ hbc => ?_)
    rw [hsize _ hb]
    exact hbc
  · rw [hr.tiles]
    constructor
    · rintro ⟨b, hb, h1, h2⟩
      refine ⟨b.addr, mem_map_of_mem hb, h1, ?_⟩
      rw [hsize b hb]
      exact h2
    · rintro ⟨a, ha, h1, h2⟩
      obtain ⟨b, hb, rfl⟩ := mem_map.1 ha
      rw [hsize b hb] at h2
      exact ⟨b, hb, h1, h2⟩
  · rw [hg.perm.mem_iff, mem_frees]
    constructor
    · rintro ⟨b, hb, hu, rfl⟩
      exact ⟨mem_map_of_mem hb, (hg.tagged b hb).type_eq_free.2 hu⟩
    · rintro ⟨ha, ht⟩
      obtain ⟨b, hb, rfl⟩ := mem_map.1 ha
      exact ⟨b, hb, (hg.tagged b hb).type_eq_free.1 ht, rfl⟩
  · intro a ha
    obtain ⟨b, hb, rfl⟩ := mem_map.1 ha
    rw [hsize b hb]
    exact (hg.layout.ok b hb).size_dvd
  · intro a ha
    obtain ⟨b, hb, rfl⟩ := mem_map.1 ha
    rw [hsize b hb]
    exact (hg.layout.ok b hb).min
  · intro a ha
    obtain ⟨b, hb, rfl⟩ := mem_map.1 ha
    cases hu : b.used
    · exact .inr ((hg.tagged b hb).type_eq_free.2 hu)
    · exact .inl ((type_eq_used hr hb).2 hu)
  · constructor
    · intro hp
      obtain ⟨b, hb, rfl⟩ := hl.exists_block hp
      obtain ⟨hb, hu⟩ := mem_useds.1 hb
      exact ⟨b.addr, mem_map_of_mem hb, (type_eq_used hr hb).2 hu, rfl⟩
    · rintro ⟨a, ha, ht, rfl⟩
      obtain ⟨b, hb, rfl⟩ := mem_map.1 ha
      exact hl.live b (mem_useds.2 ⟨hb, (type_eq_used hr hb).1 ht⟩)
  · obtain ⟨b, hb, rfl, hn⟩ := hl.block p n hp
    rw [block_size hr (mem_useds.1 hb).1]
    exact hn

/-- **The heap invariant holds in every state of every run**, and `malloc` of any size whose
rounding does not wrap and `free` of `NULL` or a live pointer return. -/
theorem heap_invariant (A : Arch) {st : State} (h : Reach (Start A) (Step A) st) :
    (∃ main free, Heap A st main free) ∧
    (∀ ask n, Legal A st.sys ask → n + (2 * A.hdr - 1) < A.word →
      ∃ p s', malloc A ask n st.sys = some (p, s') ∧
        Step A st (.malloc n p) ⟨s', grant st.live p n⟩) ∧
    (∀ p, (p = 0 ∨ (st.live p).isSome = true) →
      ∃ s', free A p st.sys = some ((), s') ∧ Step A st (.free p) ⟨s', drop st.live p⟩) := by
  obtain ⟨bl, fr, hr, hl⟩ := wf_reach h
  refine ⟨⟨_, fr, heap_of_rep hr hl⟩, fun ask n hlegal hw => ?_, fun p hp => ?_⟩
  · obtain ⟨p, s', he, -⟩ := returns_malloc_served hr hlegal (n := n) (.inl hw)
    exact ⟨p, s', he, .malloc hlegal (by omega) (.inl hw) he⟩
  · rcases hp with rfl | hp
    · exact ⟨st.sys, rfl, .free (.inl rfl) rfl⟩
    · obtain ⟨b, hb, rfl⟩ := hl.exists_block hp
      obtain ⟨_, s', he, -⟩ := returns_free_used hr hb
      exact ⟨s', he, .free (.inr hp) he⟩

/-- A 32-bit machine with pages of 4096 bytes and chunks of 65536. -/
def machine : Arch :=
  ⟨4, 12, 16, 0x8000, 0x8000, 0x9000, by decide, by decide, by decide, by decide, by decide,
    by decide, by decide, by decide, by decide⟩

/-- The memory of a program on it that has just been started. -/
def fresh : State where
  sys :=
    { mem := [Field.type, .size, .next, .prev, .nextFree, .prevFree].foldl
        (fun m f => (headers machine).set m machine.head f (headNode machine f)) fun _ => 0
      mapped := fun _ => false }
  live _ := none

lemma start_fresh : Start machine fresh :=
  ⟨fun f => by cases f <;> decide +kernel, fun _ => rfl, fun _ => rfl⟩

def oneChunk (len : ℕ) : Option ℕ := if len = machine.chunk then some 0x100000 else none

lemma legal_oneChunk : Legal machine fresh.sys oneChunk := by
  intro len fp _ h
  unfold oneChunk at h
  split_ifs at h with hlen
  cases h
  subst hlen
  exact ⟨by decide, by decide, fun _ _ _ => rfl, by decide⟩

lemma legal_none : Legal A s fun _ => none := by
  rintro _ _ - ⟨⟩

lemma exists_live : ∃ st, Reach (Start machine) (Step machine) st ∧ st.live 0x100010 = some 100 ∧
    malloc machine oneChunk 100 fresh.sys = some (0x100010, st.sys) := by
  have hrun : (malloc machine oneChunk 100 fresh.sys).map Prod.fst = some 0x100010 := by
    decide +kernel
  obtain ⟨⟨p, s'⟩, he, rfl⟩ := Option.map_eq_some_iff.1 hrun
  have hstep : Step machine fresh (.malloc 100 0x100010) ⟨s', grant fresh.live 0x100010 100⟩ :=
    .malloc legal_oneChunk (by decide) (.inl (by decide)) he
  exact ⟨_, .step (.init start_fresh) hstep, rfl, he⟩

theorem heap_invariant_live :
    ∃ st main free, Reach (Start machine) (Step machine) st ∧ st.live 0x100010 = some 100 ∧
      Heap machine st main free := by
  obtain ⟨st, hreach, hlive, -⟩ := exists_live
  obtain ⟨main, free, hheap⟩ := (heap_invariant machine hreach).1
  exact ⟨st, main, free, hreach, hlive, hheap⟩

/-! ### Sizes -/

/-- **When allocations are large enough**: in every state of every run, `malloc`, `calloc` and
`realloc` return `NULL` or a block of the size asked for exactly under their conditions. -/
theorem sized_iff (A : Arch) {st : State} (h : Reach (Start A) (Step A) st) {ask : ℕ → Option ℕ}
    (hlegal : Legal A st.sys ask) :
    (∀ n < A.word, MallocOk A st.sys ask n ↔ MallocCond A st.sys ask n) ∧
    (∀ nmemb < A.word, ∀ size < A.word,
      CallocOk A st.sys ask nmemb size ↔ CallocCond A st.sys ask nmemb size) ∧
    (∀ p n, (st.live p).isSome = true → 0 < n → n < A.word →
      (ReallocOk A st.sys ask p n ↔ ReallocCond A st.sys ask p n)) := by
  obtain ⟨bl, fr, hr, hl⟩ := wf_reach h
  refine ⟨fun n _ => mallocOk_iff hr hlegal, fun _ _ _ _ => callocOk_iff hr hlegal,
    fun p n hp hn hlt => ?_⟩
  obtain ⟨b, hb, rfl⟩ := hl.exists_block hp
  exact reallocOk_iff hr hlegal hb hn hlt

theorem sized_iff_live :
    ∃ st, Reach (Start machine) (Step machine) st ∧ st.live 0x100010 = some 100 ∧
      (MallocOk machine st.sys (fun _ => none) (2 ^ 32 - 1) ↔
        MallocCond machine st.sys (fun _ => none) (2 ^ 32 - 1)) ∧
      (ReallocOk machine st.sys (fun _ => none) 0x100010 200 ↔
        ReallocCond machine st.sys (fun _ => none) 0x100010 200) := by
  obtain ⟨st, hreach, hlive, -⟩ := exists_live
  obtain ⟨hmalloc, -, hrealloc⟩ := sized_iff machine hreach legal_none
  refine ⟨st, hreach, hlive, hmalloc _ (by decide), hrealloc _ _ ?_ (by decide) (by decide)⟩
  rw [hlive]
  rfl

/-- The pointer returned, and the size in the header before it. -/
def returned (r : ℕ × Sys) : ℕ × ℕ := (r.1, table machine r.2.mem (r.1 - machine.hdr) .size)

/-- **Requests that wrap.**  With one live allocation and nothing more to be had from the kernel,
`malloc(0xffffffe1)` returns a block of size zero, which has not even a header,
`calloc(0x80000001, 2)` a block with sixteen usable bytes, and `realloc` copies to `NULL`. -/
theorem undersized : ∃ st, Reach (Start machine) (Step machine) st ∧
    st.live 0x100010 = some 100 ∧ Legal machine st.sys (fun _ => none) ∧
    (malloc machine (fun _ => none) (2 ^ 32 - 31) st.sys).map returned = some (0x100090, 0) ∧
    ¬MallocOk machine st.sys (fun _ => none) (2 ^ 32 - 31) ∧
    (calloc machine (fun _ => none) 0x80000001 2 st.sys).map returned = some (0x100090, 32) ∧
    ¬CallocOk machine st.sys (fun _ => none) 0x80000001 2 ∧
    realloc machine (fun _ => none) 0x100010 100000 st.sys = none := by
  obtain ⟨st, hreach, hlive, he⟩ := exists_live
  have hrun : (malloc machine oneChunk 100 fresh.sys).map (fun r =>
      ((malloc machine (fun _ => none) (2 ^ 32 - 31) r.2).map returned,
        (calloc machine (fun _ => none) 0x80000001 2 r.2).map returned,
        (realloc machine (fun _ => none) 0x100010 100000 r.2).isNone)) =
      some (some (0x100090, 0), some (0x100090, 32), true) := by
    decide +kernel
  rw [he, Option.map_some, Option.some.injEq, Prod.mk.injEq, Prod.mk.injEq] at hrun
  obtain ⟨hm, hc, hnone⟩ := hrun
  refine ⟨st, hreach, hlive, legal_none, hm, ?_, hc, ?_, Option.isNone_iff_eq_none.1 hnone⟩
  · rintro ⟨p, s', he, hp⟩
    simp only [he, Option.map_some, Option.some.injEq, returned, Prod.mk.injEq] at hm
    have hroom := (hp.resolve_left (by omega)).room
    omega
  · rintro ⟨p, s', he, hp⟩
    simp only [he, Option.map_some, Option.some.injEq, returned, Prod.mk.injEq] at hc
    have hroom := (hp.resolve_left (by omega)).1.room
    omega

end Klibc.Malloc.Runs
