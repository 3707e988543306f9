import Klibc.Malloc.Surgery

/-! # Walks along the chains

The two loops of `malloc`: the search for a fit along the free chain, and the search for the place
of a new region, backwards along the main chain.  Both end, since a chain is shorter than the number
of addresses. -/

namespace Klibc.Malloc.Search

open List Function Lib.Cells Lib.Linked Arena Blocks Chains

variable {A : Arch} {H : Table Field} {bl sc pre post : List Block} {fr : List ℕ} {b : Block}
  {k fuel fp fsize : ℕ}

/-! ### The search for a fit -/

/-- The answer of the search: a free block of `k` bytes at least, or none if there is no such block.
-/
inductive Fit (bl : List Block) (k : ℕ) : Option ℕ → Prop
  | found {b : Block} (hb : b ∈ bl) (hf : b.used = false) (hk : k ≤ b.size) : Fit bl k (some b.addr)
  | none (h : ∀ b ∈ bl, b.used = false → b.size < k) : Fit bl k none

lemma wp_findFit (hg : Good A H bl fr) (done : List ℕ) {rest R : List ℕ} (hfr : fr = done ++ rest)
    (hR : rest ++ [A.head] = fp :: R) (hlen : rest.length < fuel)
    (hdone : ∀ b ∈ bl, b.used = false → b.addr ∉ rest → b.size < k) :
    Wp (Slot A bl) A.word (findFit k fuel fp) H fun r H' => H' = H ∧ Fit bl k r := by
  induction rest generalizing done fuel fp R with
  | nil =>
    obtain ⟨fuel, rfl⟩ := Nat.exists_eq_succ_of_ne_zero (Nat.ne_of_gt hlen)
    obtain ⟨rfl, -⟩ := cons.inj hR
    simp only [findFit, wp_bind, wp_read, wp_ite, wp_pure, hg.head, if_true, true_and]
    exact ⟨.inl rfl, .none fun b hb hf => hdone b hb hf (by simp)⟩
  | cons a rest ih =>
    obtain ⟨fuel, rfl⟩ := Nat.exists_eq_succ_of_ne_zero (Nat.ne_of_gt (Nat.zero_lt_of_lt hlen))
    obtain ⟨rfl, -⟩ := cons.inj hR
    have ha : a ∈ A.head :: fr := by simp [hfr]
    obtain ⟨b, hb, hf, rfl⟩ := hg.block_of_fr (a := a) (by simp [hfr])
    have htag := hg.tagged b hb
    obtain ⟨fn, R', hR'⟩ := exists_first A.head rest
    have hnext : H b.addr .nextFree = fn := by
      have := hg.free
      rw [hfr] at this
      exact this.next_eq hR'
    simp only [findFit, wp_bind, wp_read, wp_ite, wp_pure, htag.type_eq_free.2 hf, htag.2, hnext,
      true_and, OfNat.one_ne_ofNat, if_false]
    refine ⟨hg.free_slot .refl ha, hg.free_slot .refl ha, ?_⟩
    by_cases hk : k ≤ b.size
    · rw [if_pos hk]
      exact .found hb hf hk
    · rw [if_neg hk]
      refine ⟨hg.free_slot .refl ha, ih (done ++ [b.addr]) (by simp [hfr]) hR'
        (by simpa using hlen) fun c hc hcf hcr => ?_⟩
      by_cases hcb : c.addr = b.addr
      · rw [hg.layout.inj hc hb hcb]
        omega
      · exact hdone c hc hcf (by simp [hcb, hcr])

/-- **The search for a fit ends**, with a fit if there is one. -/
theorem wp_firstFit (hg : Good A H bl fr) :
    Wp (Slot A bl) A.word (firstFit A k) H fun r H' => H' = H ∧ Fit bl k r := by
  obtain ⟨fp, R, hR⟩ := exists_first A.head fr
  have hfirst : H A.head .nextFree = fp := hg.free.first_eq hR
  have hlen : fr.length < A.word := by
    have h1 := hg.perm.length_eq
    have h2 : (frees bl).length ≤ bl.length := by simpa [frees] using length_filter_le _ bl
    have h3 := hg.length_lt
    omega
  simp only [firstFit, wp_bind, wp_read, hfirst]
  refine ⟨.inl rfl, wp_findFit hg [] rfl hR hlen fun b hb hf hn => ?_⟩
  exact (hn (hg.perm.mem_iff.2 (mem_frees.2 ⟨b, hb, hf, rfl⟩))).elim

lemma findFit_readOnly (k : ℕ) : ∀ fuel fp, (findFit k fuel fp).ReadOnly
  | 0, _ => trivial
  | fuel + 1, fp => by
    refine (readOnly_read _ _).bind fun type => ?_
    split_ifs
    · trivial
    · refine (readOnly_read _ _).bind fun size => ?_
      split_ifs
      · trivial
      · exact (readOnly_read _ _).bind fun next => findFit_readOnly k fuel next

lemma firstFit_readOnly (A : Arch) (k : ℕ) : (firstFit A k).ReadOnly :=
  (readOnly_read _ _).bind fun _ => findFit_readOnly k _ _

/-! ### The place of a new region -/

/-- The walk backwards from the end of `pre ++ mid` stops at the end of `pre`, where the addresses
below `fp` end. -/
theorem wp_findPlace (hg : Good A H bl fr) (he : Exposes sc bl) {pre mid rest : List Block}
    (hbl : bl = pre ++ mid ++ rest) (hpre : ∀ c ∈ pre, c.addr < fp) (hmid : ∀ c ∈ mid, ¬c.addr < fp)
    {L : List ℕ} {pah : ℕ} (hL : A.head :: (pre ++ mid).map Block.addr = L ++ [pah])
    (hlen : mid.length < fuel) : Wp (Slot A sc) A.word (findPlace fp fuel pah) H fun r H' =>
      H' = H ∧ ∃ L', A.head :: pre.map Block.addr = L' ++ [r] := by
  induction mid using reverseRecOn generalizing rest fuel L pah with
  | nil =>
    obtain ⟨fuel, rfl⟩ := Nat.exists_eq_succ_of_ne_zero (Nat.ne_of_gt hlen)
    rw [append_nil] at hL
    simp only [findPlace, wp_bind, wp_read, wp_ite, wp_pure, true_and]
    rcases eq_nil_or_concat' pre with rfl | ⟨pre, c, rfl⟩
    · have hL' : [] ++ [A.head] = L ++ [pah] := hL
      obtain rfl : A.head = pah := singleton_inj.1 (append_inj' hL' rfl).2
      rw [if_pos hg.head]
      exact ⟨.inl rfl, L, hL⟩
    · have hL' : (A.head :: pre.map Block.addr) ++ [c.addr] = L ++ [pah] := by simpa using hL
      obtain rfl : c.addr = pah := singleton_inj.1 (append_inj' hL' rfl).2
      rw [if_pos (hpre c (by simp)), ite_self]
      exact ⟨he.main_slot (by simp [hbl]) (by decide), L, hL⟩
  | append_singleton mid c ih =>
    obtain ⟨fuel, rfl⟩ := Nat.exists_eq_succ_of_ne_zero (Nat.ne_of_gt (Nat.zero_lt_of_lt hlen))
    have hL' : (A.head :: (pre ++ mid).map Block.addr) ++ [c.addr] = L ++ [pah] := by simpa using hL
    obtain ⟨hLe, hc⟩ := append_inj' hL' rfl
    obtain rfl : c.addr = pah := singleton_inj.1 hc
    have hslot : ∀ f : Field, f.index < 4 → Slot A sc c.addr f := fun f hf =>
      he.main_slot (by simp [hbl]) hf
    have htype : H c.addr .type ≠ arenaTypeHead := by
      rw [(hg.tagged c (by simp [hbl])).1, typeOf]
      split <;> decide
    obtain ⟨L', pah, hL''⟩ := exists_last A.head ((pre ++ mid).map Block.addr)
    have hprev : H c.addr .prev = pah := by
      have := hg.main
      rw [hbl, ← append_assoc, append_assoc, singleton_append, map_append, map_cons] at this
      exact this.prev_eq hL''
    simp only [findPlace, wp_bind, wp_read, wp_ite, wp_pure, htype, hmid c (by simp), if_false,
      hprev]
    have hbl' : bl = pre ++ mid ++ c :: rest := by simp [hbl]
    refine ⟨hslot _ (by decide), hslot _ (by decide),
      ih hbl' (fun d hd => hmid d (by simp [hd])) hL'' ?_⟩
    simp only [length_append, length_singleton] at hlen
    omega

section
variable (hg : Good A H (pre ++ post) fr) (hlay : Layout A (pre ++ ⟨fp, fsize, true⟩ :: post))
include hg hlay

lemma wp_link (hsize : H fp .size = fsize) {L : List ℕ} {pah : ℕ}
    (hL : A.head :: pre.map Block.addr = L ++ [pah]) :
    Wp (Slot A (pre ++ ([⟨fp, fsize, false⟩] ++ post))) A.word (do
      let next ← read pah .next
      write fp .next next
      write fp .prev pah
      write pah .next fp
      let fn ← read fp .next
      write fn .prev fp) H fun _ H' =>
        Chained A H' (pre ++ ⟨fp, fsize, true⟩ :: post) fr ∧ (∀ c ∈ pre ++ post, Tagged H' c) ∧
          H' fp .size = fsize := by
  have he : Exposes (pre ++ ([⟨fp, fsize, false⟩] ++ post)) (pre ++ ([] ++ post)) :=
    Exposes.middle (by simp [Exposes])
  have hfp : fp < A.word := (hlay.ok ⟨fp, fsize, true⟩ (by simp)).addr_lt
  have hnew : ∀ f, Slot A (pre ++ ([⟨fp, fsize, false⟩] ++ post)) fp f := fun f =>
    .inr ⟨⟨fp, fsize, false⟩, by simp, rfl, .inr rfl⟩
  have hnin : fp ∉ A.head :: (pre ++ post).map Block.addr := by
    have := hlay.nodup
    grind
  have hpah : pah ∈ A.head :: (pre ++ post).map Block.addr := by
    rw [map_append, ← cons_append, hL]
    simp
  have hne : fp ≠ pah := fun h => hnin (h ▸ hpah)
  have hmn := (hg.main_mem hpah).1
  have hm := hg.main
  have hd := hg.layout.nodup
  obtain ⟨next, R, hR⟩ := exists_first A.head (post.map Block.addr)
  rw [map_append] at hm hd hnin
  have hnext : H pah .next = next := (hm.link hL hR).1
  simp only [wp_bind, wp_write, wp_read, Table.put_apply, reduceCtorEq, and_false, if_false,
    and_true, if_true, hne]
  refine ⟨he.main_slot hpah (by decide), hnew _, hg.main_lt hmn, hnew _, hg.main_lt hpah,
    he.main_slot hpah (by decide), hfp, hnew _, he.main_slot hmn (by decide), hfp,
    ⟨hlay, ?_, ?_, ?_, ?_⟩, ?_, hsize⟩
  · rw [hnext]
    simpa [Table.col_put_of_ne] using hm.insert hd hnin hL hR
  · simpa [Table.col_put_of_ne] using hg.free
  · simpa [frees_cons] using hg.perm
  · simp [Table.put_apply, hg.head]
  · simpa using hg.tagged

/-- **A region from the kernel goes into the main chain** at its place in address order. -/
theorem wp_insertBlock :
    Wp (Slot A (pre ++ ([⟨fp, fsize, false⟩] ++ post))) A.word (insertBlock A fp fsize) H
      fun _ H' => Chained A H' (pre ++ ⟨fp, fsize, true⟩ :: post) fr ∧
        (∀ c ∈ pre ++ post, Tagged H' c) ∧ H' fp .size = fsize := by
  have he : Exposes (pre ++ ([⟨fp, fsize, false⟩] ++ post)) (pre ++ ([] ++ post)) :=
    Exposes.middle (by simp [Exposes])
  have hnew : ∀ f, Slot A (pre ++ ([⟨fp, fsize, false⟩] ++ post)) fp f := fun f =>
    .inr ⟨⟨fp, fsize, false⟩, by simp, rfl, .inr rfl⟩
  have hfsize : fsize < A.word := by
    have := (hlay.ok ⟨fp, fsize, true⟩ (by simp)).size_lt
    simp only at this
    omega
  -- the type and size of the new block are not seen by the walk
  let H2 := (H.put fp .type arenaTypeFree).put fp .size fsize
  have hg2 : Good A H2 (pre ++ post) fr := by
    refine hg.congr fun a f hs => ?_
    have : a ≠ fp := by
      rintro rfl
      rcases hs with he | ⟨b, hb, hba, -⟩
      · exact hlay.addr_ne_head (b := ⟨a, fsize, true⟩) (by simp) he
      · exact hlay.ne_of_mem hb hba
    simp [H2, Table.put_apply, this]
  have hpre : ∀ c ∈ pre, c.addr < fp := fun c hc =>
    (pairwise_append.1 hlay.lt).2.2 c hc ⟨fp, fsize, true⟩ (by simp)
  have hpost : ∀ c ∈ post, ¬c.addr < fp := fun c hc => by
    have := (pairwise_cons.1 (pairwise_append.1 hlay.lt).2.1).1 c hc
    simp only at this
    omega
  have hlen : post.length < A.word := by
    have := hg.length_lt
    rw [length_append] at this
    omega
  obtain ⟨L, last, hL⟩ := exists_last A.head ((pre ++ post).map Block.addr)
  have hlast : H2 A.head .prev = last := hg2.main.last_eq hL
  have hbl : pre ++ post = pre ++ post ++ [] := (append_nil _).symm
  have hplace := wp_findPlace hg2 he hbl hpre hpost hL hlen
  simp only [insertBlock, wp_bind, wp_write, wp_read]
  refine ⟨hnew _, (type_lt A).2, hnew _, hfsize, .inl rfl, ?_⟩
  show Wp _ _ (findPlace fp A.word (H2 A.head .prev)) H2 _
  rw [hlast]
  refine hplace.mono ?_
  rintro pah _ ⟨rfl, L', hL'⟩
  simpa only [wp_bind, wp_write, wp_read] using wp_link hg2 hlay Table.put_self hL'

end

end Klibc.Malloc.Search
