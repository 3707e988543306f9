import Klibc.Malloc.Rounding
import Klibc.Malloc.Search
import Klibc.Malloc.Trim

/-! # Calls on the real heap

The step from tables of cells to bytes.  `Rep` says that the memory represents a list of blocks, and
that these blocks tile the memory from `mmap`.  Every call of `malloc` and `free` leads from one
represented heap to another, and leaves the contents of the other blocks in use alone. -/

namespace Klibc.Malloc.Calls

open List Lib.Memory Lib.Cells Lib.Linked Lib.Total Arena Blocks Chains Surgery Search Trim Rounding

variable {A : Arch} {bl sc u v pre post : List Block} {fr : List ℕ} {b c : Block} {a x y k : ℕ}
  {f g : Field} {s s' : Sys} {m m' m'' : Bytes}

/-! ### Headers as bytes -/

def table (A : Arch) (m : Bytes) : Table Field := (headers A).get m

lemma index_lt (f : Field) : f.index < 6 := by cases f <;> decide

lemma index_inj (h : f.index = g.index) : f = g := by cases f <;> cases g <;> first | rfl | cases h

lemma word_le (A : Arch) (f : Field) : A.W * f.index + A.W ≤ 6 * A.W := by
  have := Nat.mul_le_mul_left A.W (Nat.succ_le_of_lt (index_lt f))
  rw [Nat.mul_succ] at this
  omega

lemma words_apart (A : Arch) (h : g ≠ f) :
    A.W * f.index + A.W ≤ A.W * g.index ∨ A.W * g.index + A.W ≤ A.W * f.index := by
  rcases Nat.lt_or_gt_of_ne fun he => h (index_inj he) with h | h
  · exact .inr (Nat.mul_le_mul_left A.W (Nat.succ_le_of_lt h))
  · exact .inl (Nat.mul_le_mul_left A.W (Nat.succ_le_of_lt h))

lemma nodes_apart (hl : Layout A sc) (ha : Slot A sc a f) (hb : Slot A sc x g) (hne : a ≠ x) :
    a + 6 * A.W ≤ x ∨ x + 6 * A.W ≤ a := by
  rcases ha with rfl | ⟨b, hb', rfl, -⟩ <;> rcases hb with rfl | ⟨c, hc, rfl, -⟩
  · exact (hne rfl).elim
  · have h1 := (hl.ok c hc).head_apart
    have h2 := (hl.ok c hc).hdr_le
    unfold Block.stop at h1
    omega
  · have h1 := (hl.ok b hb').head_apart
    have h2 := (hl.ok b hb').hdr_le
    unfold Block.stop at h1
    omega
  · have h1 := hl.apart hb' hc hne
    have h2 := (hl.ok b hb').hdr_le
    have h3 := (hl.ok c hc).hdr_le
    unfold Block.stop at h1
    omega

/-- **The cells of a heap do not overlap in memory.** -/
theorem sound (hl : Layout A sc) : Sound (headers A) (Slot A sc) A.word := by
  intro m a f v ha hv
  constructor
  · refine load_store ?_
    rwa [Arch.word, pow_mul] at hv
  · intro x g hx hne
    refine load_store_of_apart ?_
    by_cases h : x = a
    · subst h
      have := words_apart A fun hf : g = f => hne ⟨rfl, hf⟩
      omega
    · have h1 := nodes_apart hl ha hx (Ne.symm h)
      have h2 := word_le A f
      have h3 := word_le A g
      omega

/-- The contents of the blocks `u` are the same in both memories. -/
def Keeps (A : Arch) (u : List Block) (m m' : Bytes) : Prop :=
  ∀ b ∈ u, ∀ y, b.addr + A.hdr ≤ y → y < b.stop → m' y = m y

lemma Keeps.trans (h : Keeps A u m m') (h' : Keeps A u m' m'') : Keeps A u m m'' :=
  fun b hb y h1 h2 => (h' b hb y h1 h2).trans (h b hb y h1 h2)

lemma Keeps.refl : Keeps A u m m := fun _ _ _ _ _ => rfl

lemma body_apart (hl : Layout A sc) (ha : Slot A sc a f) (hb : b ∈ sc) (hu : b.used = true)
    (h1 : b.addr + A.hdr ≤ y) (h2 : y < b.stop) :
    y < a + A.W * f.index ∨ a + A.W * f.index + A.W ≤ y := by
  have hw := word_le A f
  rcases ha with rfl | ⟨c, hc, rfl, hf⟩
  · have := (hl.ok b hb).head_apart
    omega
  · by_cases hcb : c.addr = b.addr
    · obtain rfl := hl.inj hc hb hcb
      have hf4 : f.index < 4 := by simpa [hu] using hf
      have := Nat.mul_le_mul_left A.W (Nat.succ_le_of_lt hf4)
      rw [Nat.mul_succ] at this
      unfold Arch.hdr at h1
      omega
    · have h3 := hl.apart hc hb hcb
      have h4 := (hl.ok c hc).hdr_le
      unfold Block.stop at *
      omega

lemma reaches_slot (hl : Layout A sc) (hm : ∀ x, Covers sc x → s.mapped x = true)
    (h : Slot A sc a f) : s.reaches A a f = true := by
  have hw := word_le A f
  refine all_eq_true.2 fun i hi => ?_
  have hi := mem_range.1 hi
  rcases h with rfl | ⟨b, hb, rfl, -⟩
  · have h1 := A.dataLo_le
    have h2 := A.le_dataHi
    simp only [Bool.or_eq_true, Bool.and_eq_true, decide_eq_true_eq]
    exact .inr ⟨by omega, by omega⟩
  · have hsize := (hl.ok b hb).hdr_le
    simp [hm (b.addr + A.W * f.index + i) ⟨b, hb, by omega, by unfold Block.stop; omega⟩]

/-- **A piece of code on the real heap** does what it does on the table of cells. -/
theorem returns_exec {α : Type} {q : Prog Field α} {Q : α → Table Field → Prop}
    (hl : Layout A sc) (hm : ∀ x, Covers sc x → s.mapped x = true)
    (h : Wp (Slot A sc) A.word q (table A s.mem) Q) :
    Returns (exec A q) s fun r s' => s'.mapped = s.mapped ∧ Keeps A (useds sc) s.mem s'.mem ∧
      ∃ H', (∀ a f, Slot A sc a f → table A s'.mem a f = H' a f) ∧ Q r H' := by
  have hI : ∀ m a f v, Slot A sc a f → Keeps A (useds sc) s.mem m →
      Keeps A (useds sc) s.mem ((headers A).set m a f v) := by
    intro m a f v ha hk b hb y h1 h2
    obtain ⟨hb, hu⟩ := mem_useds.1 hb
    rw [← hk b (mem_useds.2 ⟨hb, hu⟩) y h1 h2]
    exact store_of_not (body_apart hl ha hb hu h1 h2)
  obtain ⟨r, m', H', hrun, hagree, hq, hk⟩ :=
    h.run (fun _ _ => reaches_slot hl hm) (sound hl) (fun _ _ _ => rfl) hI Keeps.refl
  refine ⟨r, { s with mem := m' }, ?_, rfl, hk, H', hagree, hq⟩
  rw [exec, hrun]
  rfl

lemma exec_bind {α β : Type} (q : Prog Field α) (r : α → Prog Field β) :
    (exec A q >>= fun x => exec A (r x)) = exec A (q >>= r) := by
  funext s
  show ((run (s.reaches A) (headers A) q s.mem).map _).bind _ =
    (run (s.reaches A) (headers A) (q >>= r) s.mem).map _
  rw [run_bind]
  cases run (s.reaches A) (headers A) q s.mem <;> rfl

/-! ### Represented heaps -/

/-- **The memory represents the blocks `bl`**, and these tile the memory from `mmap`. -/
structure Rep (A : Arch) (s : Sys) (bl : List Block) (fr : List ℕ) : Prop where
  good : Good A (table A s.mem) bl fr
  tiles : ∀ x, s.mapped x = true ↔ Covers bl x

lemma Rep.of_apart (hr : Rep A s bl fr) (hm : s'.mapped = s.mapped)
    (h : ∀ y, s'.mem y ≠ s.mem y → ∀ a f, Slot A bl a f →
      ¬(a + A.W * f.index ≤ y ∧ y < a + A.W * f.index + A.W)) : Rep A s' bl fr := by
  refine ⟨hr.good.congr fun a f hs => load_congr fun y h1 h2 => ?_, fun x => by rw [hm, hr.tiles]⟩
  by_contra hne
  exact h y hne a f hs ⟨h1, h2⟩

lemma Rep.of_bodies (hr : Rep A s bl fr) (hm : s'.mapped = s.mapped)
    (h : ∀ y, s'.mem y ≠ s.mem y → ∃ b ∈ useds bl, b.addr + A.hdr ≤ y ∧ y < b.stop) :
    Rep A s' bl fr := by
  refine hr.of_apart hm fun y hne a f hs hy => ?_
  obtain ⟨b, hb, h3, h4⟩ := h y hne
  obtain ⟨hb, hu⟩ := mem_useds.1 hb
  have := body_apart hr.good.layout hs hb hu h3 h4
  omega

lemma layout_scaffold {mid : List Block} (h : Layout A (pre ++ (mid ++ post))) :
    Layout A (pre ++ (scaffold mid ++ post)) := by
  refine h.replace mid _ ⟨?_, ?_⟩ ?_
  · have := (pairwise_append.1 (pairwise_append.1 h.sorted).2.1).1
    unfold scaffold
    rw [pairwise_map]
    exact this
  · intro b hb
    obtain ⟨c, hc, rfl⟩ := mem_map.1 hb
    obtain ⟨h1, h2, h3, h4, h5⟩ := h.ok c (by simp [hc])
    exact ⟨h1, h2, h3, h4, h5⟩
  · intro b hb
    obtain ⟨c, hc, rfl⟩ := mem_map.1 hb
    exact ⟨⟨c, hc, le_rfl⟩, c, hc, le_rfl⟩

lemma covers_scaffold {mid : List Block} : Covers (scaffold mid) x ↔ Covers mid x := by
  simp [Covers, scaffold, Block.stop]

lemma exposes_scaffold {mid : List Block} : Exposes (scaffold mid) mid := fun b hb =>
  ⟨_, mem_map.2 ⟨b, hb, rfl⟩, rfl, fun h => Bool.noConfusion h⟩

lemma useds_scaffold {mid : List Block} : useds (scaffold mid) = [] := by
  simp [useds, scaffold, filter_map]

lemma returns_firstFit (hr : Rep A s bl fr) :
    Returns (exec A (firstFit A k)) s fun r s' => s' = s ∧ Fit bl k r := by
  obtain ⟨r, s', he, -, -, H', -, -, hfit⟩ :=
    returns_exec hr.good.layout (fun x => (hr.tiles x).2) (wp_firstFit (k := k) hr.good)
  refine ⟨r, s', he, ?_, hfit⟩
  obtain ⟨⟨r', m'⟩, hrun, hs'⟩ := Option.map_eq_some_iff.1 he
  cases hs'
  rw [(firstFit_readOnly A k).run_eq hrun]

lemma returns_mallocFromBlock (hr : Rep A s (pre ++ b :: post) fr) (hb : b.used = false)
    (hk : 2 * A.hdr ≤ k) (hd : A.hdr ∣ k) (hkb : k ≤ b.size) :
    Returns (exec A (mallocFromBlock A b.addr k)) s fun p s' => p = b.addr + A.hdr ∧
      s'.mapped = s.mapped ∧ Keeps A (useds pre ++ useds post) s.mem s'.mem ∧
      ∃ fr', Rep A s' (pre ++ (carve A k b ++ post)) fr' := by
  have hlay := layout_scaffold (hr.good.layout.carve hk hd)
  have hwp := wp_mallocFromBlock hr.good hb hk hd hkb
  refine (returns_exec hlay (fun x hx => (hr.tiles x).2 ?_) hwp).mono ?_
  · simpa [covers_scaffold, covers_carve hkb] using hx
  rintro p s' ⟨hm, hkeep, H', hagree, rfl, fr', hg⟩
  refine ⟨rfl, hm, ?_, fr', ?_, fun x => ?_⟩
  · simpa [useds_scaffold] using hkeep
  · exact hg.congr fun a f hs => hagree a f (Exposes.middle exposes_scaffold |>.slot hs)
  · rw [hm, hr.tiles]
    simp [covers_carve hkb]

lemma returns_joined {q : Prog Field ℕ} (hl : Layout A (pre ++ b :: post))
    (ht : ∀ x, s.mapped x = true ↔ Covers (pre ++ b :: post) x)
    (h : Wp (Slot A (pre ++ ([⟨b.addr, b.size, false⟩] ++ post))) A.word q (table A s.mem)
      fun a H' => ∃ pre' b' post' fr', Joined pre b post pre' b' post' ∧ a = b'.addr ∧
        Good A H' (pre' ++ b' :: post') fr') :
    Returns (exec A q) s fun a s' => s'.mapped = s.mapped ∧
      Keeps A (useds pre ++ useds post) s.mem s'.mem ∧ ∃ pre' b' post' fr',
        Joined pre b post pre' b' post' ∧ a = b'.addr ∧ Rep A s' (pre' ++ b' :: post') fr' := by
  refine (returns_exec (hl.retype false) (fun x hx => (ht x).2 ?_) h).mono ?_
  · simpa [Block.stop] using hx
  rintro a s' ⟨hm, hkeep, H', hagree, pre', b', post', fr', hj, rfl, hg⟩
  refine ⟨hm, ?_, pre', b', post', fr', hj, rfl, ?_, fun x => ?_⟩
  · simpa [useds_cons] using hkeep
  · exact hg.congr fun a f hs => hagree a f ((exposes_of_joined hj).slot hs)
  · rw [hm, ht, hj.covers]

lemma returns_freeBlock (hr : Rep A s (pre ++ b :: post) fr) (hb : b.used = true) :
    Returns (exec A (freeBlock A b.addr)) s fun a s' => s'.mapped = s.mapped ∧
      Keeps A (useds pre ++ useds post) s.mem s'.mem ∧ ∃ pre' b' post' fr',
        Joined pre b post pre' b' post' ∧ a = b'.addr ∧ Rep A s' (pre' ++ b' :: post') fr' := by
  have htag := forall_mem_middle.1 hr.good.tagged
  exact returns_joined hr.good.layout hr.tiles
    (wp_freeBlock hr.good.toChained htag.2 htag.1.2 hb)

/-! ### `malloc` -/

/-- What the kernel may answer to `mmap`: failure, or the address of a page where the region fits
and is clear of the heap and of the static data. -/
def Legal (A : Arch) (s : Sys) (ask : ℕ → Option ℕ) : Prop :=
  ∀ len fp, 0 < len → ask len = some fp →
    A.page ∣ fp ∧ fp + len ≤ A.word ∧ (∀ x, fp ≤ x → x < fp + len → s.mapped x = false) ∧
      (fp + len ≤ A.dataLo ∨ A.dataHi ≤ fp)

/-- A request of `k` bytes, header included, can be met: from a free block or from the kernel. -/
def Available (A : Arch) (bl : List Block) (ask : ℕ → Option ℕ) (k : ℕ) : Prop :=
  (∃ b ∈ bl, b.used = false ∧ k ≤ b.size) ∨
    (0 < roundChunk A k ∧ (ask (roundChunk A k)).isSome = true)

/-- **What a successful allocation does**: to the blocks in use one is added, with room for `k`
bytes, and the others keep their places and contents. -/
structure Allocated (A : Arch) (bl : List Block) (s : Sys) (k p : ℕ) (s' : Sys) (bl' : List Block) :
    Prop where
  rep : ∃ fr', Rep A s' bl' fr'
  fresh : ∃ c, k ≤ c.size ∧ p = c.addr + A.hdr ∧ (∀ d ∈ useds bl, d.addr ≠ c.addr) ∧
    ∀ d, d ∈ useds bl' ↔ d = c ∨ d ∈ useds bl
  keeps : Keeps A (useds bl) s.mem s'.mem

lemma returns_carve (hr : Rep A s' (pre ++ b :: post) fr) (hb : b.used = false)
    (hk : 2 * A.hdr ≤ k) (hd : A.hdr ∣ k) (hkb : k ≤ b.size)
    (hu : useds bl = useds pre ++ useds post) (hkeep : Keeps A (useds bl) s.mem s'.mem) :
    Returns (exec A (mallocFromBlock A b.addr k)) s' fun p s'' =>
      ∃ bl', Allocated A bl s k p s'' bl' := by
  refine (returns_mallocFromBlock hr hb hk hd hkb).mono ?_
  rintro _ s'' ⟨rfl, -, hkeep', hr'⟩
  obtain ⟨c, hc, hca, hck⟩ := useds_carve (A := A) hkb
  obtain ⟨fr', hr''⟩ := hr'
  have hused : useds (pre ++ (carve A k b ++ post)) = useds pre ++ c :: useds post := by
    rw [useds_append, useds_append, hc, singleton_append]
  refine ⟨_, ⟨fr', hr''⟩, ⟨c, hck, by rw [hca], fun d hd => ?_, fun d => ?_⟩, ?_⟩
  · have hl := hr''.good.layout.useds
    rw [hused] at hl
    exact hl.ne_of_mem (hu ▸ hd)
  · rw [hused, hu]
    simp only [mem_append, mem_cons]
    tauto
  · rw [← hu] at hkeep'
    exact hkeep.trans hkeep'

section

variable {ask : ℕ → Option ℕ} {n fp len : ℕ}

lemma exists_region (hr : Rep A s bl fr) (hlegal : Legal A s ask) (hlen : 0 < len)
    (hd : A.chunk ∣ len) (hask : ask len = some fp) :
    ∃ pre post, bl = pre ++ post ∧ Layout A (pre ++ ⟨fp, len, true⟩ :: post) := by
  obtain ⟨hpage, htop, hclear, hdata⟩ := hlegal len fp hlen hask
  have hmin : 2 * A.hdr ≤ len := by
    have h1 := Nat.le_of_dvd hlen hd
    have h2 := hdr_le_page A
    have h3 := page_le_chunk A
    omega
  have hok : Block.Ok A ⟨fp, len, true⟩ := ⟨hmin, (hdr_dvd_page' A).trans hpage,
    (hdr_dvd_page' A).trans ((page_dvd_chunk A).trans hd), htop, hdata⟩
  have hapart : ∀ c ∈ bl, c.stop ≤ fp ∨ fp + len ≤ c.addr := by
    intro c hc
    by_contra hn
    -- a byte in both would be mapped already
    have hmin := (hr.good.layout.ok c hc).hdr_le
    have hW := W_pos A
    unfold Block.stop at hn
    have hx : s.mapped (max fp c.addr) = true :=
      (hr.tiles _).2 ⟨c, hc, le_max_right .., by unfold Block.stop; omega⟩
    rw [hclear _ (le_max_left ..) (by omega)] at hx
    exact Bool.noConfusion hx
  obtain ⟨pre, post, rfl, hpre, hpost⟩ := hr.good.layout.exists_place hapart
  exact ⟨pre, post, rfl, hr.good.layout.insert hok hpre hpost⟩

lemma returns_grow (hr : Rep A s (pre ++ post) fr)
    (hlay : Layout A (pre ++ ⟨fp, len, true⟩ :: post)) :
    Returns (do exec A (insertBlock A fp len); exec A (freeBlock A fp)) (s.map fp len) fun a s' =>
      Keeps A (useds pre ++ useds post) s.mem s'.mem ∧ ∃ pre' b' post' fr',
        Joined pre ⟨fp, len, true⟩ post pre' b' post' ∧ a = b'.addr ∧
          Rep A s' (pre' ++ b' :: post') fr' := by
  have ht : ∀ x, (s.map fp len).mapped x = true ↔ Covers (pre ++ ⟨fp, len, true⟩ :: post) x := by
    intro x
    have := hr.tiles x
    simp only [Sys.map, Bool.or_eq_true, Bool.and_eq_true, decide_eq_true_eq, covers_append,
      covers_cons, Block.stop] at this ⊢
    tauto
  rw [exec_bind]
  exact (returns_joined (b := ⟨fp, len, true⟩) hlay ht <| wp_bind.2 <|
    (wp_insertBlock hr.good hlay).mono fun _ _ h => wp_freeBlock h.1 h.2.1 h.2.2 rfl).mono
      fun _ _ h => h.2

lemma mmap_eq (hlen : 0 < len) (hask : ask len = some fp) :
    mmap ask len s = some (some fp, s.map fp len) := by
  simp [mmap, hlen.ne', hask]

lemma mmap_failed (h : ¬(0 < len ∧ (ask len).isSome = true)) : mmap ask len s = some (none, s) := by
  unfold mmap
  by_cases hl : len = 0
  · exact if_pos hl
  · have hnone : ask len = none := by
      simpa using fun hs => h ⟨by omega, Option.ne_none_iff_isSome.1 hs⟩
    simp [hl, hnone]

/-- **Where `malloc` finds a block**: the block `b` between `pre` and `post` is one of the free
blocks `bl`, or a region from the kernel that was joined with its neighbours. -/
inductive Grown (A : Arch) : List Block → List Block → Block → List Block → Prop
  | found {pre post : List Block} {b : Block} (hf : b.used = false) :
      Grown A (pre ++ b :: post) pre b post
  | mapped {pre post pre' post' : List Block} {r b' : Block} (hl : Layout A (pre ++ r :: post))
      (hj : Joined pre r post pre' b' post') : Grown A (pre ++ post) pre' b' post'

lemma Grown.used (h : Grown A bl pre b post) : b.used = false := by
  cases h with
  | found hf => exact hf
  | mapped _ hj => exact hj.grows.1

lemma Grown.useds_eq (h : Grown A bl pre b post) : useds bl = useds pre ++ useds post := by
  cases h with
  | found hf => simp [useds_cons, hf]
  | mapped _ hj => rw [useds_append, hj.useds_eq.1, hj.useds_eq.2]

/-- **How `malloc` serves a request**: from the block it finds, if the request can be met; otherwise
it returns `NULL` and changes nothing. -/
theorem malloc_cases (hr : Rep A s bl fr) (hlegal : Legal A s ask) (hn : n ≠ 0) :
    (Available A bl ask (roundSize A n) ∧ ∃ s1 pre b post fr1, Rep A s1 (pre ++ b :: post) fr1 ∧
      Grown A bl pre b post ∧ roundSize A n ≤ b.size ∧ Keeps A (useds bl) s.mem s1.mem ∧
      malloc A ask n s = exec A (mallocFromBlock A b.addr (roundSize A n)) s1) ∨
    (¬Available A bl ask (roundSize A n) ∧ malloc A ask n s = some (0, s)) := by
  have hlt := roundSize_lt A n
  unfold malloc
  rw [if_neg hn]
  generalize roundSize A n = k at *
  obtain ⟨r, s', hfirst, rfl, hfit⟩ := returns_firstFit (k := k) hr
  cases hfit with
  | @found b hb hf hk =>
    obtain ⟨pre, post, rfl⟩ := append_of_mem hb
    refine .inl ⟨.inl ⟨b, hb, hf, hk⟩, s', pre, b, post, fr, hr, .found hf, hk, .refl, ?_⟩
    exact bind_eq_of_eq hfirst
  | none hno =>
    have hno' : ¬∃ b ∈ bl, b.used = false ∧ k ≤ b.size := fun ⟨b, hb, hf, hk⟩ =>
      absurd hk (Nat.not_le.2 (hno b hb hf))
    by_cases hmap : 0 < roundChunk A k ∧ (ask (roundChunk A k)).isSome = true
    · obtain ⟨hlen, hsome⟩ := hmap
      obtain ⟨fp, hask⟩ := Option.isSome_iff_exists.1 hsome
      obtain ⟨hd, hle⟩ := roundChunk_pos hlt hlen
      obtain ⟨pre, post, rfl, hlay⟩ := exists_region hr hlegal hlen hd hask
      obtain ⟨a, s2, hgrow, hkeep, pre', b', post', fr', hj, rfl, hr'⟩ := returns_grow hr hlay
      refine .inl ⟨.inr ⟨hlen, hsome⟩, s2, pre', b', post', fr', hr', .mapped hlay hj,
        hle.trans hj.grows.2, by rwa [useds_append], ?_⟩
      obtain ⟨⟨_, s1⟩, hinsert, hfree⟩ := Option.bind_eq_some_iff.1 hgrow
      refine (bind_eq_of_eq hfirst).trans ((bind_eq_of_eq (mmap_eq hlen hask)).trans ?_)
      exact (bind_eq_of_eq hinsert).trans (bind_eq_of_eq hfree)
    · refine .inr ⟨not_or.2 ⟨hno', hmap⟩, (bind_eq_of_eq hfirst).trans ?_⟩
      exact bind_eq_of_eq (mmap_failed hmap)

/-- **`malloc` on a represented heap**, for a request whose rounding does not wrap: it allocates if
the request can be met, and otherwise returns `NULL` and changes nothing. -/
theorem returns_malloc (hr : Rep A s bl fr) (hlegal : Legal A s ask) (hn : 0 < n)
    (hw : n + (2 * A.hdr - 1) < A.word) : Returns (malloc A ask n) s fun p s' =>
      (Available A bl ask (roundSize A n) → ∃ bl', Allocated A bl s (roundSize A n) p s' bl') ∧
        (¬Available A bl ask (roundSize A n) → p = 0 ∧ s' = s) := by
  have hround := roundSize_spec hw
  rcases malloc_cases hr hlegal hn.ne' with ⟨hav, s1, pre, b, post, fr1, hr1, hg, hk, hkeep, he⟩ |
    ⟨hav, he⟩
  · obtain ⟨p, s', he', hall⟩ :=
      returns_carve hr1 hg.used (hround.min hn) hround.dvd hk hg.useds_eq hkeep
    exact ⟨p, s', he.trans he', fun _ => hall, fun hna => (hna hav).elim⟩
  · exact ⟨0, s, he, fun h => (hav h).elim, fun _ => ⟨rfl, rfl⟩⟩

end

/-! ### `free` -/

/-- What `free` leaves of a free block: all of it, or a head and a tail. -/
inductive Trimmed (A : Arch) (b : Block) : List Block → Prop
  | keep : Trimmed A b [b]
  | cut {head tail : ℕ} (hp : Portions A b head tail) : Trimmed A b (hollow b head tail)

lemma munmap_eq {addr len : ℕ} (ha : A.page ∣ addr) (hl : A.page ∣ len) (h0 : 0 < len) :
    munmap A addr len s = some ((), s.unmap addr len) := by
  obtain ⟨q, rfl⟩ := hl
  have hp := page_pos A
  have hround : (A.page * q + (A.page - 1)) / A.page * A.page = A.page * q := by
    rw [Nat.mul_add_div hp, Nat.div_eq_of_lt (by omega), Nat.add_zero, mul_comm]
  unfold munmap
  rw [if_neg (by rw [Nat.mod_eq_zero_of_dvd ha]; omega), hround]

lemma returns_trim (hr : Rep A s (pre ++ b :: post) fr) (hb : b.used = false) : Returns (do
      let hole ← exec A (trim A b.addr)
      match hole with
      | none => pure ()
      | some (addr, len) => munmap A addr len) s fun _ s' =>
        Keeps A (useds pre ++ useds post) s.mem s'.mem ∧ ∃ mid fr', Trimmed A b mid ∧
          Rep A s' (pre ++ (mid ++ post)) fr' := by
  have hlay := hr.good.layout
  have hok := hlay.ok b (by simp)
  by_cases h : headPortion A b.addr + tailPortion A b.addr b.size + A.chunk ≤ b.size
  · have hp := portions hok h
    have hwp := wp_trim_cut hr.good hb rfl rfl h
    generalize headPortion A b.addr = head at *
    generalize tailPortion A b.addr b.size = tail at *
    have hc := chunk_pos A
    rw [returns_bind]
    refine (returns_exec (hp.layout hlay) (fun x hx => (hr.tiles x).2 ?_) hwp).mono ?_
    · have hin := hp.covers (x := x)
      simp only [covers_append, covers_cons] at hx hin ⊢
      tauto
    rintro _ s' ⟨hm, hkeep, H', hagree, rfl, fr', hg⟩
    refine ⟨(), _, munmap_eq hp.start hp.length (by omega), ?_, _, fr', .cut hp, ?_, fun x => ?_⟩
    · simpa [useds_cons, useds_tailBlock, Sys.unmap] using hkeep
    · exact hg.congr fun a f hs => hagree a f (exposes_hollow.slot hs)
    · have h1 := hr.tiles x
      have h2 := hlay.not_covers (x := x)
      have h4 : b.addr + head + (b.size - head - tail) = b.stop - tail := by
        unfold Block.stop
        omega
      rw [← hm] at h1
      simp only [Sys.unmap, Bool.and_eq_true, Bool.not_eq_true', Bool.and_eq_false_iff,
        decide_eq_false_iff_not, covers_append, covers_cons,
        covers_hollow (show head + tail ≤ b.size by omega), h1, h4] at h2 ⊢
      constructor
      · rintro ⟨h | h | h, hn⟩
        · exact .inl h
        · exact .inr (.inl ⟨h, by omega⟩)
        · exact .inr (.inr h)
      · have hin : b.addr + head ≤ x → x < b.stop - tail → b.addr ≤ x ∧ x < b.stop := by omega
        rintro (h | ⟨h, hn⟩ | h)
        · exact ⟨.inl h, by by_contra hc; exact h2 (hin (by omega) (by omega)) (.inl h)⟩
        · exact ⟨.inr (.inl h), by omega⟩
        · exact ⟨.inr (.inr h), by by_contra hc; exact h2 (hin (by omega) (by omega)) (.inr h)⟩
  · rw [returns_bind]
    refine (returns_exec hlay (fun x => (hr.tiles x).2) (wp_trim_keep hr.good h)).mono ?_
    rintro _ s' ⟨hm, hkeep, H', hagree, rfl, rfl⟩
    refine returns_pure.2 ⟨?_, [b], fr, .keep, hr.good.congr hagree, fun x => ?_⟩
    · simpa [useds_cons, hb] using hkeep
    · rw [hm]
      exact hr.tiles x

lemma sub_ptr (hr : Rep A s bl fr) (hb : b ∈ bl) : sub A (b.addr + A.hdr) A.hdr = b.addr := by
  have hok := hr.good.layout.ok b hb
  have hmin := hok.min
  have htop := hok.top
  have hh := hdr_eq A
  unfold Block.stop at htop
  rw [sub_eq (by omega) (by omega), Nat.add_sub_cancel]

/-- **`free` on a represented heap**: the block is joined with its neighbours, and what is worth it
goes back to the system. -/
theorem returns_free (hr : Rep A s (pre ++ b :: post) fr) (hb : b.used = true) :
    Returns (free A (b.addr + A.hdr)) s fun _ s' =>
      Keeps A (useds pre ++ useds post) s.mem s'.mem ∧ ∃ pre' b' post' mid fr',
        Joined pre b post pre' b' post' ∧ Trimmed A b' mid ∧
          Rep A s' (pre' ++ (mid ++ post')) fr' := by
  have hh := hdr_eq A
  unfold free
  rw [if_neg (by omega), sub_ptr hr (by simp), returns_bind]
  refine (returns_freeBlock hr hb).mono ?_
  rintro _ s1 ⟨-, hkeep, pre', b', post', fr', hj, rfl, hr'⟩
  refine (returns_trim hr' hj.grows.1).mono ?_
  rintro _ s2 ⟨hkeep', mid, fr'', ht, hr''⟩
  rw [hj.useds_eq.1, hj.useds_eq.2] at hkeep'
  exact ⟨hkeep.trans hkeep', pre', b', post', mid, fr'', hj, ht, hr''⟩

/-- **What freeing a block does**: it is gone from the blocks in use, and the others keep their
places and contents. -/
structure Freed (A : Arch) (bl : List Block) (s : Sys) (b : Block) (s' : Sys) (bl' : List Block) :
    Prop where
  rep : ∃ fr', Rep A s' bl' fr'
  gone : ∀ d, d ∈ useds bl' ↔ d ∈ useds bl ∧ d ≠ b
  keeps : Keeps A (useds bl') s.mem s'.mem

lemma Trimmed.useds_eq {mid : List Block} (h : Trimmed A b mid) (hb : b.used = false) :
    useds mid = [] := by
  cases h with
  | keep => simp [useds_cons, hb]
  | cut => exact useds_hollow

lemma returns_free_used (hr : Rep A s bl fr) (hb : b ∈ useds bl) :
    Returns (free A (b.addr + A.hdr)) s fun _ s' => ∃ bl', Freed A bl s b s' bl' := by
  obtain ⟨hb, hu⟩ := mem_useds.1 hb
  obtain ⟨pre, post, rfl⟩ := append_of_mem hb
  refine (returns_free hr hu).mono ?_
  rintro _ s' ⟨hkeep, pre', b', post', mid, fr', hj, ht, hr'⟩
  have hused : useds (pre' ++ (mid ++ post')) = useds pre ++ useds post := by
    rw [useds_append, useds_append, ht.useds_eq hj.grows.1, hj.useds_eq.1, hj.useds_eq.2,
      nil_append]
  refine ⟨_, ⟨fr', hr'⟩, fun d => ?_, hused ▸ hkeep⟩
  have hne : d ∈ useds pre ++ useds post → d ≠ b := by
    rintro hd rfl
    refine hr.good.layout.ne_of_mem (c := d) ?_ rfl
    rw [← useds_append] at hd
    exact (mem_useds.1 hd).1
  rw [hused, useds_append, useds_cons, if_pos hu]
  simp only [mem_append, mem_cons] at hne ⊢
  tauto

end Klibc.Malloc.Calls
