import Klibc.Malloc.Surgery
import Mathlib.Data.Nat.ModEq

/-! # Giving memory back

The end of `free`: the pages inside a large free block go back to the system.  What is left of the
block is a head up to the first page boundary and a tail from the last one, each either empty or at
least of the minimum size. -/

namespace Klibc.Malloc.Trim

open List Function Lib.Cells Lib.Linked Arena Blocks Chains Surgery

variable {A : Arch} {H : Table Field} {sc pre post : List Block} {fr : List ℕ} {b : Block}
  {a k t tail portion : ℕ}

/-! ### The portions that stay -/

lemma and_page (A : Arch) (x : ℕ) : x &&& (A.page - 1) = x % A.page :=
  Nat.and_two_pow_sub_one_eq_mod x A.pageShift

lemma extendPortion_spec (h : portion < A.page) : extendPortion A portion % A.page = portion ∧
      (extendPortion A portion = 0 ∨ 2 * A.hdr ≤ extendPortion A portion) ∧
      extendPortion A portion < 2 * A.page := by
  have h1 := hdr_le_page A
  have h2 := page_le_chunk A
  have h3 := chunk_le_word A
  have h4 : add A portion A.page = portion + A.page := add_eq (by omega)
  unfold extendPortion
  rw [h4]
  split_ifs with hp
  · exact ⟨by rw [Nat.add_mod_right, Nat.mod_eq_of_lt h], .inr (by omega), by omega⟩
  · exact ⟨Nat.mod_eq_of_lt h, by omega, by omega⟩

lemma headPortion_spec (ha : a < A.word) :
    A.page ∣ a + headPortion A a ∧ (headPortion A a = 0 ∨ 2 * A.hdr ≤ headPortion A a) ∧
      headPortion A a < 2 * A.page := by
  have hp := page_pos A
  have h0 : sub A 0 a &&& (A.page - 1) = (A.word - a) % A.page := by
    rw [and_page, sub, Nat.zero_add, Nat.mod_mod_of_dvd _ (page_dvd_word A)]
  obtain ⟨h1, h2, h3⟩ := extendPortion_spec (A := A) (Nat.mod_lt (A.word - a) hp)
  unfold headPortion
  rw [h0]
  refine ⟨?_, h2, h3⟩
  rw [Nat.dvd_iff_mod_eq_zero, Nat.add_mod, h1, ← Nat.add_mod,
    Nat.add_sub_cancel' ha.le, Nat.mod_eq_zero_of_dvd (page_dvd_word A)]

lemma tailPortion_spec (A : Arch) (a size : ℕ) :
    tailPortion A a size % A.page = (a + size) % A.page ∧
      (tailPortion A a size = 0 ∨ 2 * A.hdr ≤ tailPortion A a size) ∧
      tailPortion A a size < 2 * A.page := by
  have h0 : add A a size &&& (A.page - 1) = (a + size) % A.page := by
    rw [and_page, add, Nat.mod_mod_of_dvd _ (page_dvd_word A)]
  obtain ⟨h1, h2, h3⟩ := extendPortion_spec (A := A) (Nat.mod_lt (a + size) (page_pos A))
  unfold tailPortion
  rw [h0]
  exact ⟨h1, h2, h3⟩

/-- What `free` computes about the block `b` when it is worth giving memory back: the two portions
that stay and the pages between them. -/
structure Portions (A : Arch) (b : Block) (head tail : ℕ) : Prop where
  head_min : head = 0 ∨ 2 * A.hdr ≤ head
  tail_min : tail = 0 ∨ 2 * A.hdr ≤ tail
  head_dvd : A.hdr ∣ head
  tail_dvd : A.hdr ∣ tail
  worth : head + tail + A.chunk ≤ b.size
  start : A.page ∣ b.addr + head
  length : A.page ∣ b.size - head - tail

lemma portions (hb : b.Ok A)
    (h : headPortion A b.addr + tailPortion A b.addr b.size + A.chunk ≤ b.size) :
    Portions A b (headPortion A b.addr) (tailPortion A b.addr b.size) := by
  obtain ⟨h1, h2, -⟩ := headPortion_spec hb.addr_lt
  obtain ⟨h3, h4, -⟩ := tailPortion_spec A b.addr b.size
  have hhead : A.hdr ∣ headPortion A b.addr :=
    (Nat.dvd_add_right hb.addr_dvd).1 ((hdr_dvd_page' A).trans h1)
  have htail : A.hdr ∣ tailPortion A b.addr b.size := by
    have hs : A.hdr ∣ b.addr + b.size := Nat.dvd_add hb.addr_dvd hb.size_dvd
    rw [← Nat.dvd_mod_iff (hdr_dvd_page' A), h3, Nat.dvd_mod_iff (hdr_dvd_page' A)]
    exact hs
  refine ⟨h2, h4, hhead, htail, h, h1, ?_⟩
  have hend : A.page ∣ b.addr + b.size - tailPortion A b.addr b.size :=
    (Nat.modEq_iff_dvd' (by omega)).1 h3
  have he : b.size - headPortion A b.addr - tailPortion A b.addr b.size =
      b.addr + b.size - tailPortion A b.addr b.size - (b.addr + headPortion A b.addr) := by omega
  rw [he]
  exact Nat.dvd_sub hend h1

/-! ### The surgery -/

/-- The tail of the free block becomes a block, put before it on the free chain.  The block itself
keeps its size field for now. -/
theorem wp_splitTail (hg : Good A H (pre ++ b :: post) fr) (hb : b.used = false)
    (hlay : Layout A (pre ++ ⟨b.addr, k, false⟩ :: ⟨t, tail, false⟩ :: post))
    (hsc : sc = pre ++ ([⟨b.addr, k, false⟩, ⟨t, tail, false⟩] ++ post)) :
    Wp (Slot A sc) A.word (splitTail b.addr t tail) H fun _ H' => ∃ fr',
      Chained A H' (pre ++ ⟨b.addr, k, false⟩ :: ⟨t, tail, false⟩ :: post) fr' ∧
        (∀ c ∈ pre ++ ⟨t, tail, false⟩ :: post, Tagged H' c) ∧ H' b.addr .type = arenaTypeFree := by
  obtain ⟨f1, f2, rfl, hp⟩ := hg.free_at hb
  have he : Exposes sc (pre ++ ([b] ++ post)) := hsc ▸ Exposes.middle (by simp [Exposes])
  have hnew : ∀ f, Slot A sc t f := fun f => .inr ⟨⟨t, tail, false⟩, by simp [hsc], rfl, .inr rfl⟩
  have hok := hlay.ok ⟨t, tail, false⟩ (by simp)
  have ht : t < A.word := hok.addr_lt
  have htail : tail < A.word := by
    have := hok.size_lt
    simp only at this
    omega
  have hfmem : b.addr ∈ A.head :: (f1 ++ b.addr :: f2) := by simp
  have hmem : b.addr ∈ A.head :: (pre ++ b :: post).map Block.addr := by simp
  have hmn := (hg.main_mem hmem).1
  have hfp := (hg.free_mem hfmem).2
  have hnin : t ∉ A.head :: (pre ++ b :: post).map Block.addr := by
    have := hlay.nodup
    simp only [map_append, map_cons] at this ⊢
    grind
  have hfnin : t ∉ A.head :: (f1 ++ b.addr :: f2) := fun h => hnin (hg.fr_subset _ h)
  have hne : ∀ y ∈ A.head :: (pre ++ b :: post).map Block.addr, t ≠ y := fun y hy h => hnin (h ▸ hy)
  simp only [splitTail, wp_bind, wp_write, wp_read, Table.put_apply, reduceCtorEq, and_false,
    if_false]
  refine ⟨hnew _, (type_lt A).2, hnew _, htail, he.main_slot hmem (by decide), hnew _,
    hg.main_lt hmn, he.main_slot hmn (by decide), ht, hnew _, hg.main_lt hmem,
    he.main_slot hmem (by decide), ht, hg.free_slot he hfmem, hnew _, hg.free_lt hfp,
    hg.free_slot he hfp, ht, hnew _, hg.main_lt hmem, hg.free_slot he hfmem, ht,
    f1 ++ t :: b.addr :: f2, ⟨hlay, ?_, ?_, ?_, ?_⟩, ?_, ?_⟩
  · have hm := hg.main
    have hd := hg.layout.nodup
    rw [map_append, map_cons] at hm hd hnin
    have := hm.insertAfter hd hnin
    rw [Table.col_apply, update_comm (hne _ hmn)] at this
    simpa [Table.col_put_of_ne] using this
  · have := hg.free.insertBefore hg.fr_nodup hfnin
    rw [Table.col_apply, update_comm (hne _ (hg.fr_subset _ hfp))] at this
    simpa [Table.col_put_of_ne] using this
  · simp only [frees_append, frees_cons, Bool.false_eq_true, if_false]
    exact (perm_middle_iff.2 (perm_middle_iff.2 hp)).trans ((Perm.swap ..).append_left _)
  · simp [Table.put_apply, (hne A.head (by simp)).symm, hg.head]
  · simp only [ne_eq, reduceCtorEq, not_false_eq_true, tagged_put_link]
    refine forall_mem_middle.2 ⟨by simp [Tagged, Table.put_apply, typeOf], fun c hc => ?_⟩
    have hct : c.addr ≠ t := (hne _ (by
      simp only [mem_append, mem_cons, mem_map] at hc ⊢
      exact .inr ⟨c, by tauto, rfl⟩)).symm
    simp only [tagged_put_ne hct]
    exact (forall_mem_middle.1 hg.tagged).2 c hc
  · have hbt : b.addr ≠ t := (hne _ hmem).symm
    simp [hbt, (hg.tagged b (by simp)).type_eq_free.2 hb]

lemma wp_settle (hg : Chained A H (pre ++ ⟨a, k, false⟩ :: post) fr)
    (ht : ∀ c ∈ pre ++ post, Tagged H c) (htype : H a .type = arenaTypeFree) :
    Wp (Slot A (pre ++ ([⟨a, k, false⟩] ++ post))) A.word (write a .size k) H fun _ H' =>
      Good A H' (pre ++ ⟨a, k, false⟩ :: post) fr := by
  have hk : k < A.word := by
    have := (hg.layout.ok ⟨a, k, false⟩ (by simp)).size_lt
    simp only at this
    omega
  rw [wp_write]
  refine ⟨.inr ⟨⟨a, k, false⟩, by simp, rfl, .inr rfl⟩, hk, chained_put_size hg, ?_⟩
  refine forall_mem_middle.2 ⟨by simp [Tagged, Table.put_apply, typeOf, htype], fun c hc => ?_⟩
  rw [tagged_put_ne (hg.layout.ne_of_mem hc)]
  exact ht c hc

/-! ### Trimming -/

def tailBlock (b : Block) (tail : ℕ) : List Block :=
  if tail = 0 then [] else [⟨b.stop - tail, tail, false⟩]

def headSize (b : Block) (head tail : ℕ) : ℕ := if head = 0 then b.size - tail else head

section

variable {head : ℕ}

lemma Portions.layout (hp : Portions A b head tail) (h : Layout A (pre ++ b :: post)) :
    Layout A (pre ++ ⟨b.addr, headSize b head tail, false⟩ :: (tailBlock b tail ++ post)) := by
  have h1 := hp.worth
  have h2 := hp.head_min
  have h3 := page_le_chunk A
  have h4 := hdr_le_page A
  have h5 := hdr_eq A
  have hdvd : A.hdr ∣ headSize b head tail := by
    unfold headSize
    split_ifs
    · exact Nat.dvd_sub (h.ok b (by simp)).size_dvd hp.tail_dvd
    · exact hp.head_dvd
  have hmin : 2 * A.hdr ≤ headSize b head tail := by
    unfold headSize
    split_ifs <;> omega
  have hle : headSize b head tail + tail ≤ b.size := by
    unfold headSize
    split_ifs <;> omega
  have := h.hollow (.inr hmin) hp.tail_min hdvd hp.tail_dvd hle
  rwa [hollow, if_neg (by omega), append_assoc, singleton_append] at this

lemma Portions.covers (hp : Portions A b head tail)
    (hx : Covers (⟨b.addr, headSize b head tail, false⟩ :: tailBlock b tail) x) :
    b.addr ≤ x ∧ x < b.stop := by
  have h1 := hp.worth
  unfold headSize tailBlock Covers Block.stop at *
  split_ifs at hx <;> simp at hx <;> omega

lemma useds_tailBlock : useds (tailBlock b tail) = [] := by
  unfold tailBlock
  split_ifs <;> simp [useds_cons]

lemma exposes_hollow : Exposes (pre ++ ([⟨b.addr, k, false⟩] ++ (tailBlock b tail ++ post)))
    (pre ++ (hollow b head tail ++ post)) := by
  have h : Exposes [⟨b.addr, k, false⟩] (if head = 0 then [] else [⟨b.addr, head, false⟩]) := by
    split_ifs <;> simp [Exposes]
  rw [hollow, append_assoc]
  exact h.middle

lemma wp_trimTail (hg : Good A H (pre ++ b :: post) fr) (hb : b.used = false)
    (hlay : Layout A (pre ++ ⟨b.addr, k, false⟩ :: (tailBlock b tail ++ post)))
    (ht : tail ≠ 0 → t = b.stop - tail) :
    Wp (Slot A (pre ++ ([⟨b.addr, k, false⟩] ++ (tailBlock b tail ++ post)))) A.word
      (trimTail b.addr t tail) H fun _ H' => ∃ fr',
        Chained A H' (pre ++ ⟨b.addr, k, false⟩ :: (tailBlock b tail ++ post)) fr' ∧
          (∀ c ∈ pre ++ (tailBlock b tail ++ post), Tagged H' c) ∧
          H' b.addr .type = arenaTypeFree := by
  by_cases h0 : tail = 0
  · have htb : tailBlock b tail = [] := if_pos h0
    rw [htb, nil_append] at hlay ⊢
    rw [trimTail, if_neg (not_not.2 h0), wp_pure]
    have htag := forall_mem_middle.1 hg.tagged
    refine ⟨fr, ⟨hlay, ?_, hg.free, ?_, hg.head⟩, htag.2, htag.1.type_eq_free.2 hb⟩
    · simpa using hg.main
    · simpa [frees_cons, hb] using hg.perm
  · have htb : tailBlock b tail = [⟨b.stop - tail, tail, false⟩] := if_neg h0
    rw [htb, ← ht h0] at hlay ⊢
    rw [trimTail, if_pos h0]
    exact wp_splitTail hg hb hlay rfl

lemma worth_eq (ha : a < A.word) (size : ℕ) :
    add A (add A (headPortion A a) (tailPortion A a size)) A.chunk =
      headPortion A a + tailPortion A a size + A.chunk := by
  have h1 := (headPortion_spec ha).2.2
  have h2 := (tailPortion_spec A a size).2.2
  have h3 := page_le_chunk A
  have h4 := chunk_le_word A
  rw [add_eq (x := headPortion A a) (by omega), add_eq (by omega)]

lemma wp_trim_keep (hg : Good A H (pre ++ b :: post) fr)
    (h : ¬headPortion A b.addr + tailPortion A b.addr b.size + A.chunk ≤ b.size) :
    Wp (Slot A (pre ++ b :: post)) A.word (trim A b.addr) H fun r H' => r = none ∧ H' = H := by
  have hmem : b.addr ∈ A.head :: (pre ++ b :: post).map Block.addr := by simp
  simp only [trim, wp_bind, wp_read, wp_ite, wp_pure, (hg.tagged b (by simp)).2,
    worth_eq (hg.main_lt hmem), if_neg h, and_true]
  exact Exposes.refl.main_slot hmem (by decide)

/-- **Trimming a block that is worth it** leaves its head and its tail. -/
theorem wp_trim_cut (hg : Good A H (pre ++ b :: post) fr) (hb : b.used = false)
    (hhead : head = headPortion A b.addr) (htail : tail = tailPortion A b.addr b.size)
    (h : head + tail + A.chunk ≤ b.size) :
    Wp (Slot A (pre ++ ([⟨b.addr, headSize b head tail, false⟩] ++ (tailBlock b tail ++ post))))
      A.word (trim A b.addr) H fun r H' => r = some (b.addr + head, b.size - head - tail) ∧
        ∃ fr', Good A H' (pre ++ (hollow b head tail ++ post)) fr' := by
  have hok := hg.layout.ok b (by simp)
  have hlt := hok.addr_lt
  have hsz := hok.size_lt
  have htop : b.addr + b.size ≤ A.word := hok.top
  have hworth := worth_eq hlt b.size
  have hp : Portions A b head tail := by
    rw [hhead, htail] at h ⊢
    exact portions hok h
  have hc := chunk_pos A
  rw [← hhead, ← htail] at hworth
  have hadd : add A b.addr head = b.addr + head := add_eq (by omega)
  have hsub : sub A b.size head = b.size - head := sub_eq (by omega) (by omega)
  have hadj : sub A (b.size - head) tail = b.size - head - tail := sub_eq (by omega) (by omega)
  have ht : tail ≠ 0 → add A (b.addr + head) (b.size - head - tail) = b.stop - tail := fun h0 => by
    rw [add_eq (by omega), Block.stop]
    omega
  have htail' := wp_trimTail hg hb (hp.layout hg.layout) ht
  simp only [trim, wp_bind, wp_read, (hg.tagged b (by simp)).2, ← hhead, ← htail, hworth,
    if_pos h, hadd, hsub, hadj, wp_pure, true_and]
  refine ⟨.inr ⟨⟨b.addr, headSize b head tail, false⟩, by simp, rfl, .inr rfl⟩, htail'.mono ?_⟩
  rintro _ H' ⟨fr', hc', htag, htype⟩
  by_cases h0 : head = 0
  · rw [trimHead, if_neg (not_not.2 h0), hollow, if_pos h0, nil_append]
    exact wp_removeFromChains (b := ⟨b.addr, headSize b head tail, false⟩) hc' rfl .refl
      (Layout.replace [_] [] hc'.layout layout_nil (by simp)) rfl rfl htag
  · have hk : headSize b head tail = head := if_neg h0
    rw [trimHead, if_pos h0, hollow, if_neg h0, append_assoc]
    rw [hk] at hc' ⊢
    exact (wp_settle hc' htag htype).mono fun _ _ h => ⟨fr', h⟩

end

end Klibc.Malloc.Trim
