import Klibc.Malloc.Chains

/-! # List surgery

Each piece of `malloc.c` that changes the chains leads from one represented list of blocks to
another: a block is allocated from a free one (`carve`), a block is freed (`JoinPrev`, `JoinNext`),
a region from the kernel is put into the main chain. -/

namespace Klibc.Malloc.Surgery

open List Function Lib.Cells Lib.Linked Arena Blocks Chains

variable {A : Arch} {H : Table Field} {bl sc pre post : List Block} {fr : List ℕ} {b pb nb : Block}
  {k : ℕ}

/-! ### Allocating from a free block -/

lemma wp_take (hg : Good A H (pre ++ b :: post) fr) (hb : b.used = false)
    (he : Exposes sc (pre ++ b :: post)) :
    Wp (Slot A sc) A.word (do write b.addr .type arenaTypeUsed; removeFromFreeChain b.addr) H
      fun _ H' => ∃ fr', Good A H' (pre ++ ⟨b.addr, b.size, true⟩ :: post) fr' := by
  obtain ⟨f1, f2, rfl, hp⟩ := hg.free_at hb
  have hmem : b.addr ∈ A.head :: (f1 ++ b.addr :: f2) := by simp
  obtain ⟨hn, hp'⟩ := hg.free_mem hmem
  simp only [removeFromFreeChain, wp_bind, wp_write, wp_read, Table.put_apply, reduceCtorEq,
    and_false, if_false]
  refine ⟨hg.free_slot he hmem, (type_lt A).1, hg.free_slot he hmem, hg.free_slot he hmem,
    hg.free_slot he hp', hg.free_lt hn, hg.free_slot he hn, hg.free_lt hp', f1 ++ f2,
    ⟨hg.layout.retype true, ?_, ?_, ?_, ?_⟩, ?_⟩
  · simpa [Table.col_put_of_ne] using hg.main
  · simpa [Table.col_put_of_ne] using hg.free.remove hg.fr_nodup
  · simpa [frees_cons] using hp
  · have : A.head ≠ b.addr := (hg.layout.addr_ne_head (by simp)).symm
    simp [Table.put_apply, this, hg.head]
  · simp only [ne_eq, reduceCtorEq, not_false_eq_true, tagged_put_link]
    refine forall_mem_middle.2 ⟨?_, fun c hc => ?_⟩
    · have := (hg.tagged b (by simp)).2
      simpa [Tagged, Table.put_apply, typeOf] using this
    · rw [tagged_put_ne (hg.layout.ne_of_mem hc)]
      exact (forall_mem_middle.1 hg.tagged).2 c hc

lemma wp_splitBlock (hg : Good A H (pre ++ b :: post) fr) (hb : b.used = false)
    (hk : 2 * A.hdr ≤ k) (hd : A.hdr ∣ k) (hs : k + 2 * A.hdr ≤ b.size)
    (hsc : sc = pre ++ ([⟨b.addr, k, false⟩, ⟨b.addr + k, b.size - k, false⟩] ++ post)) :
    Wp (Slot A sc) A.word (splitBlock A b.addr b.size k) H fun _ H' => ∃ fr',
      Good A H' (pre ++ ⟨b.addr, k, true⟩ :: ⟨b.addr + k, b.size - k, false⟩ :: post) fr' := by
  obtain ⟨f1, f2, rfl, hp⟩ := hg.free_at hb
  have he : Exposes sc (pre ++ ([b] ++ post)) := hsc ▸ Exposes.middle (by simp [Exposes])
  have hlay := hg.layout.cut true false hk hd hs
  have hok := hlay.ok ⟨b.addr + k, b.size - k, false⟩ (by simp)
  have hsize : b.size < A.word := by
    have := (hg.layout.ok b (by simp)).size_lt
    have := hdr_eq A
    omega
  have hadd : add A b.addr k = b.addr + k := add_eq hok.addr_lt
  have hsub : sub A b.size k = b.size - k := sub_eq (by omega) hsize
  have hfmem : b.addr ∈ A.head :: (f1 ++ b.addr :: f2) := by simp
  have hmem : b.addr ∈ A.head :: (pre ++ b :: post).map Block.addr := by simp
  obtain ⟨hfn, hfp⟩ := hg.free_mem hfmem
  obtain ⟨hmn, -⟩ := hg.main_mem hmem
  have hnew : ∀ f, Slot A sc (b.addr + k) f := fun f =>
    .inr ⟨⟨b.addr + k, b.size - k, false⟩, by simp [hsc], rfl, .inr rfl⟩
  have hnin : b.addr + k ∉ A.head :: (pre ++ b :: post).map Block.addr := by
    have := hlay.nodup
    simp only [map_append, map_cons] at this ⊢
    grind
  have hk0 : k ≠ 0 := by
    have := hdr_eq A
    omega
  simp only [splitBlock, wp_bind, wp_write, wp_read, Table.put_apply, reduceCtorEq,
    and_false, if_false, hadd, hsub]
  refine ⟨he.main_slot hmem (by decide), hnew _, (type_lt A).2, hnew _, by omega,
    he.main_slot hmem (by decide), (type_lt A).1, he.main_slot hmem (by decide), by omega,
    hnew _, hg.main_lt hmem, hnew _, hg.main_lt hmn, he.main_slot hmn (by decide), hok.addr_lt,
    he.main_slot hmem (by decide), hok.addr_lt, hg.free_slot he hfmem, hnew _,
    hg.free_lt hfn, hg.free_slot he hfmem, hnew _, hg.free_lt hfp, hg.free_slot he hfn, hok.addr_lt,
    hg.free_slot he hfp, hok.addr_lt, f1 ++ (b.addr + k) :: f2, ⟨hlay, ?_, ?_, ?_, ?_⟩, ?_⟩
  · have hm := hg.main
    have hd := hg.layout.nodup
    rw [map_append, map_cons] at hm hd hnin
    simpa [Table.col_put_of_ne] using hm.insertAfter hd hnin
  · have := hg.free.replace (y := b.addr + k) hg.fr_nodup fun h =>
      hnin (hg.fr_subset _ (by simp at h ⊢; tauto))
    simpa [Table.col_put_of_ne] using this
  · simpa [frees_cons, perm_middle_iff] using hp
  · have h1 : A.head ≠ b.addr := (hg.layout.addr_ne_head (by simp)).symm
    have h2 : A.head ≠ b.addr + k := by grind
    simp [Table.put_apply, h1, h2, hg.head]
  · simp only [ne_eq, reduceCtorEq, not_false_eq_true, tagged_put_link]
    refine forall_mem_middle.2 ⟨?_, forall_mem_middle.2 ⟨?_, fun c hc => ?_⟩⟩
    · simp [Tagged, Table.put_apply, typeOf]
    · simp [Tagged, Table.put_apply, typeOf, hk0]
    · have h1 : c.addr ≠ b.addr := hg.layout.ne_of_mem hc
      have h2 : c.addr ≠ b.addr + k := by
        grind
      simp only [tagged_put_ne h1, tagged_put_ne h2]
      exact (forall_mem_middle.1 hg.tagged).2 c hc

def scaffold (bl : List Block) : List Block := bl.map fun b => ⟨b.addr, b.size, false⟩

/-- **Allocation from the free block `b`** carves the request out of it. -/
theorem wp_mallocFromBlock (hg : Good A H (pre ++ b :: post) fr) (hb : b.used = false)
    (hk : 2 * A.hdr ≤ k) (hd : A.hdr ∣ k) (hkb : k ≤ b.size) :
    Wp (Slot A (pre ++ (scaffold (carve A k b) ++ post))) A.word (mallocFromBlock A b.addr k) H
      fun p H' => p = b.addr + A.hdr ∧ ∃ fr', Good A H' (pre ++ (carve A k b ++ post)) fr' := by
  have hok := hg.layout.ok b (by simp)
  have hsz := hok.size_lt
  have htop := hok.top
  have hmin := hok.min
  have hh := hdr_eq A
  have hsize : H b.addr .size = b.size := (hg.tagged b (by simp)).2
  have hret : add A b.addr A.hdr = b.addr + A.hdr := add_eq (by unfold Block.stop at htop; omega)
  have hmem : b.addr ∈ A.head :: (pre ++ b :: post).map Block.addr := by simp
  have hadd : add A k (2 * A.hdr) = k + 2 * A.hdr := add_eq (by omega)
  by_cases hs : k + 2 * A.hdr ≤ b.size
  · have hc : carve A k b = [⟨b.addr, k, true⟩, ⟨b.addr + k, b.size - k, false⟩] := if_pos hs
    rw [hc]
    have he : Exposes
        (pre ++ (scaffold [⟨b.addr, k, true⟩, ⟨b.addr + k, b.size - k, false⟩] ++ post))
        (pre ++ ([b] ++ post)) := Exposes.middle (by simp [Exposes, scaffold])
    have := wp_splitBlock hg hb hk hd hs rfl
    simp only [mallocFromBlock, wp_bind, wp_read, hsize, hadd, hs, if_true, wp_pure, hret, true_and]
    exact ⟨he.main_slot hmem (by decide), this⟩
  · have hc : carve A k b = [⟨b.addr, b.size, true⟩] := if_neg hs
    rw [hc]
    have he : Exposes (pre ++ (scaffold [⟨b.addr, b.size, true⟩] ++ post)) (pre ++ ([b] ++ post)) :=
      Exposes.middle (by simp [Exposes, scaffold])
    have := wp_take hg hb he
    simp only [mallocFromBlock, wp_bind, wp_read, hsize, hadd, hs, if_false, wp_pure, hret,
      true_and]
    exact ⟨he.main_slot hmem (by decide), by simpa using this⟩

/-! ### Freeing a block

The block `b` that is freed counts as in use until it is on the free chain; its type may be
anything. -/

lemma wp_coalesce (hg : Chained A H (pre ++ [pb] ++ b :: post) fr)
    (ht : ∀ c ∈ pre ++ [pb] ++ post, Tagged H c) (hsize : H b.addr .size = b.size)
    (hb : b.used = true) (hpb : pb.used = false) (htouch : pb.stop = b.addr)
    (he : Exposes sc (pre ++ [pb] ++ b :: post)) :
    Wp (Slot A sc) A.word (coalesce A pb.addr b.addr (H b.addr .next)) H fun _ H' =>
      Good A H' (pre ++ ⟨pb.addr, pb.size + b.size, false⟩ :: post) fr := by
  have hlay : Layout A (pre ++ pb :: b :: post) := by simpa using hg.layout
  have hjoin := hlay.join htouch false
  have hok := hjoin.ok ⟨pb.addr, pb.size + b.size, false⟩ (by simp)
  have hlt : pb.size + b.size < A.word := by
    have := hok.size_lt
    simp only at this
    omega
  have hpsize : H pb.addr .size = pb.size := (ht pb (by simp)).2
  have hptype : H pb.addr .type = arenaTypeFree := (ht pb (by simp)).type_eq_free.2 hpb
  have hmem : b.addr ∈ A.head :: (pre ++ [pb] ++ b :: post).map Block.addr := by simp
  have hpmem : pb.addr ∈ A.head :: (pre ++ [pb] ++ b :: post).map Block.addr := by simp
  obtain ⟨hmn, -⟩ := hg.main_mem hmem
  have hprev : H b.addr .prev = pb.addr := by
    have hm := hg.main
    rw [map_append, map_cons] at hm
    exact hm.prev_eq (L := A.head :: pre.map Block.addr) (by simp)
  simp only [coalesce, wp_bind, wp_write, wp_read, hpsize, hsize, add_eq hlt]
  refine ⟨he.main_slot hpmem (by decide), he.main_slot hmem (by decide),
    he.main_slot hpmem (by decide), hlt, he.main_slot hpmem (by decide), hg.main_lt hmn,
    he.main_slot hmn (by decide), hg.main_lt hpmem, ⟨hjoin, ?_, ?_, ?_, ?_⟩, ?_⟩
  · have hm := hg.main
    have hd := hg.layout.nodup
    rw [map_append, map_cons] at hm hd
    simpa [Table.col_put_of_ne, hprev] using hm.remove hd
  · simpa [Table.col_put_of_ne] using hg.free
  · simpa [frees_cons, hb, hpb] using hg.perm
  · simp [Table.put_apply, hg.head]
  · simp only [ne_eq, reduceCtorEq, not_false_eq_true, tagged_put_link]
    refine forall_mem_middle.2 ⟨?_, fun c hc => ?_⟩
    · simp [Tagged, Table.put_apply, typeOf, hptype]
    · rw [tagged_put_ne (hjoin.ne_of_mem hc)]
      exact ht c (by simp at hc ⊢; tauto)

section
variable (hg : Chained A H (pre ++ b :: post) fr) (ht : ∀ c ∈ pre ++ post, Tagged H c)
  (hsize : H b.addr .size = b.size) (hb : b.used = true)
  (hsc : sc = pre ++ ([⟨b.addr, b.size, false⟩] ++ post))
include hg ht hsize hb hsc

lemma wp_pushFree : Wp (Slot A sc) A.word (pushFree A b.addr) H fun _ H' =>
      Good A H' (pre ++ ⟨b.addr, b.size, false⟩ :: post) (b.addr :: fr) := by
  have he : Exposes sc (pre ++ ([b] ++ post)) := hsc ▸ Exposes.middle (by simp [Exposes])
  have hnew : ∀ f, Slot A sc b.addr f := fun f =>
    slot_of_free (b := ⟨b.addr, b.size, false⟩) (by simp [hsc]) rfl
  have hhead : A.head ∈ A.head :: fr := by simp
  obtain ⟨hfn, -⟩ := hg.free_mem hhead
  have hmem : b.addr ∈ A.head :: (pre ++ b :: post).map Block.addr := by simp
  have hne : b.addr ≠ A.head := hg.layout.addr_ne_head (by simp)
  have hnin : b.addr ∉ A.head :: fr := by
    rw [mem_cons, not_or]
    refine ⟨hne, fun h => ?_⟩
    obtain ⟨c, hc, hcu, hca⟩ := hg.block_of_fr h
    rw [hg.layout.inj hc (by simp) hca, hb] at hcu
    exact Bool.noConfusion hcu
  simp only [pushFree, wp_bind, wp_write, wp_read, Table.put_apply, reduceCtorEq,
    and_false, if_false, hne, and_true, if_true]
  refine ⟨hnew _, (type_lt A).2, .inl rfl, hnew _, hg.free_lt hfn, hnew _, hg.free_lt hhead,
    .inl rfl, hg.main_lt hmem, hnew _, hg.free_slot he hfn, hg.main_lt hmem,
    ⟨hg.layout.retype false, ?_, ?_, ?_, ?_⟩, ?_⟩
  · simpa [Table.col_put_of_ne] using hg.main
  · simpa [Table.col_put_of_ne] using hg.free.insertFirst hg.fr_nodup hnin
  · have := hg.perm
    simp only [frees_append, frees_cons, hb, if_true] at this ⊢
    exact (this.cons _).trans perm_middle.symm
  · simp [Table.put_apply, hne.symm, hg.head]
  · simp only [ne_eq, reduceCtorEq, not_false_eq_true, tagged_put_link]
    refine forall_mem_middle.2 ⟨?_, fun c hc => ?_⟩
    · simpa [Tagged, Table.put_apply, typeOf] using hsize
    · rw [tagged_put_ne (hg.layout.ne_of_mem hc)]
      exact ht c hc

lemma wp_mergePrev :
    Wp (Slot A sc) A.word (mergePrev A b.addr (H b.addr .prev) (H b.addr .next)) H fun a H' =>
      ∃ pre' b' fr', JoinPrev pre b pre' b' ∧ a = b'.addr ∧ Good A H' (pre' ++ b' :: post) fr' := by
  have he : Exposes sc (pre ++ ([b] ++ post)) := hsc ▸ Exposes.middle (by simp [Exposes])
  have hmem : b.addr ∈ A.head :: (pre ++ b :: post).map Block.addr := by simp
  have hpush := wp_pushFree hg ht hsize hb hsc
  have hm := hg.main
  rw [map_append, map_cons] at hm
  rcases eq_nil_or_concat' pre with rfl | ⟨pre, pb, rfl⟩
  · -- the block is the first one: before it is the head node
    have hprev : H b.addr .prev = A.head := hm.prev_eq (L := []) rfl
    simp only [mergePrev, freeAndTouching, wp_bind, wp_read, wp_ite, hprev, hg.head, wp_pure,
      if_false, Bool.false_eq_true, OfNat.ofNat_ne_one]
    exact ⟨.inl rfl, hpush.mono fun _ _ h => ⟨[], _, _, .keep (by simp), rfl, h⟩⟩
  · have hprev : H b.addr .prev = pb.addr :=
      hm.prev_eq (L := A.head :: pre.map Block.addr) (by simp)
    have hmp := (hg.main_mem hmem).2
    rw [hprev] at hmp
    have htag := ht pb (by simp)
    have hlay : Layout A (pre ++ pb :: b :: post) := by simpa using hg.layout
    have hle : pb.stop ≤ b.addr := hlay.stop_le
    have hadd : add A pb.addr pb.size = pb.stop := add_eq (hle.trans_lt (hg.main_lt hmem))
    simp only [mergePrev, freeAndTouching, wp_bind, wp_read, wp_ite, hprev, wp_pure,
      htag.type_eq_free, htag.2, hadd, decide_eq_true_eq]
    refine ⟨he.main_slot hmp (by decide), ?_⟩
    by_cases hu : pb.used = false
    · rw [if_pos hu]
      refine ⟨he.main_slot hmp (by decide), ?_⟩
      by_cases hs : pb.stop = b.addr
      · rw [if_pos hs]
        exact (wp_coalesce hg ht hsize hb hu hs he).mono fun _ _ h =>
          ⟨pre, ⟨pb.addr, pb.size + b.size, false⟩, _, .join hu hs, rfl, h⟩
      · rw [if_neg hs]
        exact hpush.mono fun _ _ h => ⟨_, _, _, .keep (by simp [hs]), rfl, h⟩
    · rw [if_neg hu, if_neg (by simp)]
      exact hpush.mono fun _ _ h => ⟨_, _, _, .keep (by simp [hu]), rfl, h⟩

end

lemma chained_put_size {a v : ℕ} (hg : Chained A H bl fr) : Chained A (H.put a .size v) bl fr :=
  ⟨hg.layout, by simpa [Table.col_put_of_ne] using hg.main,
    by simpa [Table.col_put_of_ne] using hg.free, hg.perm, by simp [Table.put_apply, hg.head]⟩

/-- A free block leaves both chains; the blocks that are left may have got other sizes. -/
theorem wp_removeFromChains {bl' : List Block} (hg : Chained A H (pre ++ b :: post) fr)
    (hb : b.used = false) (he : Exposes sc (pre ++ b :: post)) (hl : Layout A bl')
    (haddr : bl'.map Block.addr = (pre ++ post).map Block.addr)
    (hfrees : frees bl' = frees (pre ++ post)) (ht : ∀ c ∈ bl', Tagged H c) :
    Wp (Slot A sc) A.word (removeFromChains b.addr) H fun _ H' => ∃ fr', Good A H' bl' fr' := by
  obtain ⟨f1, f2, rfl, hp⟩ := hg.free_at hb
  have hfmem : b.addr ∈ A.head :: (f1 ++ b.addr :: f2) := by simp
  have hmem : b.addr ∈ A.head :: (pre ++ b :: post).map Block.addr := by simp
  obtain ⟨hmn, hmp⟩ := hg.main_mem hmem
  obtain ⟨hfn, hfp⟩ := hg.free_mem hfmem
  simp only [removeFromChains, removeFromFreeChain, removeFromMainChain, wp_bind, wp_write, wp_read,
    Table.put_apply, reduceCtorEq, and_false, if_false]
  refine ⟨hg.free_slot he hfmem, hg.free_slot he hfmem, hg.free_slot he hfp, hg.free_lt hfn,
    hg.free_slot he hfn, hg.free_lt hfp, he.main_slot hmem (by decide),
    he.main_slot hmem (by decide), he.main_slot hmp (by decide), hg.main_lt hmn,
    he.main_slot hmn (by decide), hg.main_lt hmp, f1 ++ f2, ⟨hl, ?_, ?_, ?_, ?_⟩, ?_⟩
  · have hm := hg.main
    have hd := hg.layout.nodup
    rw [map_append, map_cons] at hm hd
    rw [haddr, map_append]
    simpa [Table.col_put_of_ne] using hm.remove hd
  · simpa [Table.col_put_of_ne] using hg.free.remove hg.fr_nodup
  · rwa [hfrees, frees_append]
  · simp [Table.put_apply, hg.head]
  · simpa using ht

lemma wp_absorb (hg : Good A H (pre ++ b :: nb :: post) fr) (hb : b.used = false)
    (hnb : nb.used = false) (htouch : b.stop = nb.addr) (he : Exposes sc (pre ++ b :: nb :: post)) :
    Wp (Slot A sc) A.word (do
      let s ← read b.addr .size
      let ns ← read nb.addr .size
      write b.addr .size (add A s ns)
      removeFromChains nb.addr) H fun _ H' =>
        ∃ fr', Good A H' (pre ++ ⟨b.addr, b.size + nb.size, false⟩ :: post) fr' := by
  have hassoc : pre ++ b :: nb :: post = pre ++ [b] ++ nb :: post := by simp
  have hjoin := hg.layout.join htouch false
  have hlt : b.size + nb.size < A.word := by
    have := (hjoin.ok ⟨b.addr, b.size + nb.size, false⟩ (by simp)).size_lt
    simp only at this
    omega
  have htag := hg.tagged b (by simp)
  have hbmem : b.addr ∈ A.head :: (pre ++ b :: nb :: post).map Block.addr := by simp
  have hmem : nb.addr ∈ A.head :: (pre ++ b :: nb :: post).map Block.addr := by simp
  simp only [wp_bind, wp_write, wp_read, htag.2, (hg.tagged nb (by simp)).2, add_eq hlt]
  refine ⟨he.main_slot hbmem (by decide), he.main_slot hmem (by decide),
    he.main_slot hbmem (by decide), hlt, wp_removeFromChains
      (hassoc ▸ chained_put_size hg.toChained) hnb (hassoc ▸ he) hjoin (by simp)
      (by simp [frees_cons, hb]) (forall_mem_middle.2 ⟨?_, fun c hc => ?_⟩)⟩
  · simp [Tagged, Table.put_apply, typeOf, htag.type_eq_free.2 hb]
  · rw [tagged_put_ne (hjoin.ne_of_mem hc)]
    exact hg.tagged c (by simp at hc ⊢; tauto)

lemma wp_mergeNext {nah : ℕ} {R : List ℕ} (hg : Good A H (pre ++ b :: post) fr)
    (hb : b.used = false) (hR : post.map Block.addr ++ [A.head] = nah :: R)
    (he : Exposes sc (pre ++ b :: post)) :
    Wp (Slot A sc) A.word (mergeNext A b.addr nah) H fun _ H' =>
      ∃ b' post' fr', JoinNext b post b' post' ∧ b'.addr = b.addr ∧
        Good A H' (pre ++ b' :: post') fr' := by
  have hsame : Good A H (pre ++ ⟨b.addr, b.size, false⟩ :: post) fr := by
    rw [← hb]
    exact hg
  cases post with
  | nil =>
    -- the block is the last one: after it is the head node
    obtain ⟨rfl, -⟩ := cons.inj hR
    simp only [mergeNext, freeAndTouching, wp_bind, wp_read, wp_ite, hg.head, wp_pure, if_false,
      Bool.false_eq_true, OfNat.ofNat_ne_one]
    exact ⟨.inl rfl, _, _, fr, .keep (by simp), rfl, hsame⟩
  | cons nb post =>
    obtain ⟨rfl, -⟩ := cons.inj hR
    have htag := hg.tagged nb (by simp)
    have hbtag := hg.tagged b (by simp)
    have hmem : b.addr ∈ A.head :: (pre ++ b :: nb :: post).map Block.addr := by simp
    have hnmem : nb.addr ∈ A.head :: (pre ++ b :: nb :: post).map Block.addr := by simp
    have hadd : add A b.addr b.size = b.stop :=
      add_eq (hg.layout.stop_le.trans_lt (hg.main_lt hnmem))
    simp only [mergeNext, freeAndTouching, wp_bind, wp_read, wp_ite, wp_pure, htag.type_eq_free,
      hbtag.2, hadd, decide_eq_true_eq]
    refine ⟨he.main_slot hnmem (by decide), ?_⟩
    by_cases hu : nb.used = false
    · rw [if_pos hu]
      refine ⟨he.main_slot hmem (by decide), ?_⟩
      by_cases hs : b.stop = nb.addr
      · rw [if_pos hs]
        have habs := wp_absorb hg hb hu hs he
        simp only [wp_bind, wp_read, wp_write, hbtag.2] at habs ⊢
        refine ⟨habs.1, habs.2.1, habs.2.2.1, habs.2.2.2.1, habs.2.2.2.2.mono ?_⟩
        rintro _ H' ⟨fr', h⟩
        exact ⟨_, _, fr', .join hu hs, rfl, h⟩
      · rw [if_neg hs]
        exact ⟨_, _, fr, .keep (by simp [hs]), rfl, hsame⟩
    · rw [if_neg hu, if_neg (by simp)]
      exact ⟨_, _, fr, .keep (by simp [hu]), rfl, hsame⟩

lemma exposes_of_joinPrev {pre' : List Block} {b' : Block} (hj : JoinPrev pre b pre' b') :
    Exposes (pre ++ ([⟨b.addr, b.size, false⟩] ++ post)) (pre' ++ b' :: post) := by
  cases hj with
  | @join _ pb _ hf =>
    have h : Exposes [pb, ⟨b.addr, b.size, false⟩] [⟨pb.addr, pb.size + b.size, false⟩] := by
      simp [Exposes, hf]
    rw [append_assoc]
    exact h.middle
  | keep => exact .refl

lemma exposes_of_joinNext {post' : List Block} {b' : Block} (hb : b.used = false)
    (hj : JoinNext b post b' post') : Exposes (pre ++ b :: post) (pre ++ b' :: post') := by
  cases hj with
  | @join _ _ nb hf =>
    have h : Exposes [b, nb] [⟨b.addr, b.size + nb.size, false⟩] := by simp [Exposes, hb]
    exact h.middle
  | keep =>
    have h : Exposes [b] [⟨b.addr, b.size, false⟩] := by simp [Exposes, hb]
    exact h.middle

lemma exposes_of_joined {pre' post' : List Block} {b' : Block}
    (hj : Joined pre b post pre' b' post') :
    Exposes (pre ++ ([⟨b.addr, b.size, false⟩] ++ post)) (pre' ++ b' :: post') := by
  obtain ⟨b1, h1, h2⟩ := hj
  exact (exposes_of_joinPrev h1).trans (exposes_of_joinNext h1.grows.1 h2)

/-- **Freeing a block** joins it with its free neighbours. -/
theorem wp_freeBlock (hg : Chained A H (pre ++ b :: post) fr) (ht : ∀ c ∈ pre ++ post, Tagged H c)
    (hsize : H b.addr .size = b.size) (hb : b.used = true) :
    Wp (Slot A (pre ++ ([⟨b.addr, b.size, false⟩] ++ post))) A.word (freeBlock A b.addr) H
      fun a H' => ∃ pre' b' post' fr', Joined pre b post pre' b' post' ∧ a = b'.addr ∧
        Good A H' (pre' ++ b' :: post') fr' := by
  have he : Exposes (pre ++ ([⟨b.addr, b.size, false⟩] ++ post)) (pre ++ ([b] ++ post)) :=
    Exposes.middle (by simp [Exposes])
  have hmem : b.addr ∈ A.head :: (pre ++ b :: post).map Block.addr := by simp
  obtain ⟨nah, R, hR⟩ := exists_first A.head (post.map Block.addr)
  have hnext : H b.addr .next = nah := by
    have hm := hg.main
    rw [map_append, map_cons] at hm
    exact hm.next_eq hR
  have hprev := wp_mergePrev hg ht hsize hb rfl
  rw [hnext] at hprev
  simp only [freeBlock, wp_bind, wp_read, wp_pure, hnext]
  refine ⟨he.main_slot hmem (by decide), he.main_slot hmem (by decide), hprev.mono ?_⟩
  rintro a H' ⟨pre', b1, fr1, hj, rfl, hg'⟩
  refine (wp_mergeNext hg' hj.grows.1 hR (exposes_of_joinPrev hj)).mono ?_
  rintro _ H'' ⟨b', post', fr', hj', hba, hg''⟩
  exact ⟨pre', b', post', fr', ⟨b1, hj, hj'⟩, hba.symm, hg''⟩

end Klibc.Malloc.Surgery
