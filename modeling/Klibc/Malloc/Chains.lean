import Klibc.Lib.Linked
import Klibc.Malloc.Blocks
import Mathlib.Data.List.Perm.Subperm

/-! # The two chains

`Good` says that the headers in a table of cells represent a list of blocks: the main chain runs
through all of them in address order, the free chain through the free ones in some order, and types
and sizes are those of the blocks.  `Chained` is the part of it about the links, which also holds in
the middle of an operation, when some block's type and size are not settled yet. -/

namespace Klibc.Malloc.Chains

open List Lib.Cells Lib.Linked Arena Blocks

variable {A : Arch} {H H' : Table Field} {bl sc pre mid mid' post : List Block} {fr f1 f2 : List ℕ}
  {b c : Block} {a v : ℕ} {f : Field}

/-- The links of both chains are those of the blocks `bl`, with the free ones in the order `fr`. -/
structure Chained (A : Arch) (H : Table Field) (bl : List Block) (fr : List ℕ) : Prop where
  layout : Layout A bl
  main : Ring (H.col .next) (H.col .prev) A.head (bl.map Block.addr)
  free : Ring (H.col .nextFree) (H.col .prevFree) A.head fr
  perm : fr.Perm (frees bl)
  head : H A.head .type = arenaTypeHead

def typeOf (b : Block) : ℕ := if b.used then arenaTypeUsed else arenaTypeFree

def Tagged (H : Table Field) (b : Block) : Prop :=
  H b.addr .type = typeOf b ∧ H b.addr .size = b.size

/-- **The table represents the blocks `bl`**, with the free ones chained in the order `fr`. -/
structure Good (A : Arch) (H : Table Field) (bl : List Block) (fr : List ℕ) : Prop
    extends Chained A H bl fr where
  tagged : ∀ b ∈ bl, Tagged H b

/-! ### The cells of a heap -/

/-- The cells in use: all fields of the head node and of free blocks, and the first four of blocks
in use. -/
def Slot (A : Arch) (bl : List Block) (a : ℕ) (f : Field) : Prop :=
  a = A.head ∨ ∃ b ∈ bl, b.addr = a ∧ (f.index < 4 ∨ b.used = false)

/-- Every block of `bl` is a block of `sc` too, with at least its cells. -/
def Exposes (sc bl : List Block) : Prop :=
  ∀ b ∈ bl, ∃ c ∈ sc, c.addr = b.addr ∧ (c.used = true → b.used = true)

lemma Exposes.refl : Exposes bl bl := fun b hb => ⟨b, hb, rfl, id⟩

lemma Exposes.trans (h : Exposes sc mid) (h' : Exposes mid bl) : Exposes sc bl := by
  intro b hb
  obtain ⟨c, hc, hca, hcu⟩ := h' b hb
  obtain ⟨d, hd, hda, hdu⟩ := h c hc
  exact ⟨d, hd, hda.trans hca, fun h => hcu (hdu h)⟩

lemma Exposes.middle (h : Exposes mid' mid) :
    Exposes (pre ++ (mid' ++ post)) (pre ++ (mid ++ post)) := by
  intro b hb
  simp only [mem_append] at hb ⊢
  rcases hb with hb | hb | hb
  · exact ⟨b, .inl hb, rfl, id⟩
  · obtain ⟨c, hc, hcb⟩ := h b hb
    exact ⟨c, .inr (.inl hc), hcb⟩
  · exact ⟨b, .inr (.inr hb), rfl, id⟩

lemma Exposes.slot (he : Exposes sc bl) (h : Slot A bl a f) : Slot A sc a f := by
  rcases h with rfl | ⟨b, hb, rfl, hf⟩
  · exact .inl rfl
  · obtain ⟨c, hc, hca, hcu⟩ := he b hb
    refine .inr ⟨c, hc, hca, hf.imp_right fun hu => ?_⟩
    cases hcb : c.used <;> simp_all

lemma Exposes.main_slot (he : Exposes sc bl) (ha : a ∈ A.head :: bl.map Block.addr)
    (hf : f.index < 4) : Slot A sc a f := by
  refine he.slot ?_
  rcases mem_cons.1 ha with rfl | ha
  · exact .inl rfl
  · obtain ⟨b, hb, rfl⟩ := mem_map.1 ha
    exact .inr ⟨b, hb, rfl, .inl hf⟩

lemma slot_of_free (hb : b ∈ sc) (hu : b.used = false) : Slot A sc b.addr f :=
  .inr ⟨b, hb, rfl, .inr hu⟩

/-! ### Types and sizes -/

@[simp]
lemma tagged_put_link (ht : f ≠ .type) (hs : f ≠ .size) : Tagged (H.put a f v) b ↔ Tagged H b := by
  simp [Tagged, Table.put_of_field_ne ht.symm, Table.put_of_field_ne hs.symm]

lemma tagged_put_ne (h : b.addr ≠ a) : Tagged (H.put a f v) b ↔ Tagged H b := by
  simp [Tagged, Table.put_of_addr_ne h]

lemma Tagged.type_eq_free (h : Tagged H b) : H b.addr .type = arenaTypeFree ↔ b.used = false := by
  rw [h.1, typeOf]
  cases b.used <;> simp

lemma type_lt (A : Arch) : arenaTypeUsed < A.word ∧ arenaTypeFree < A.word := by
  have := word_ge A
  simp only [arenaTypeUsed, arenaTypeFree]
  omega

lemma add_eq {x y : ℕ} (h : x + y < A.word) : add A x y = x + y := Nat.mod_eq_of_lt h

lemma sub_eq {x y : ℕ} (h : y ≤ x) (hx : x < A.word) : sub A x y = x - y := by
  unfold sub
  rw [show x + (A.word - y) = x - y + A.word by omega, Nat.add_mod_right,
    Nat.mod_eq_of_lt (by omega)]

/-! ### Lists with one element singled out -/

lemma forall_mem_middle {P : Block → Prop} :
    (∀ c ∈ pre ++ b :: post, P c) ↔ P b ∧ ∀ c ∈ pre ++ post, P c := by
  simp only [mem_append, mem_cons, or_imp, forall_and, forall_eq]
  tauto

lemma perm_middle_iff {y : ℕ} {g1 g2 : List ℕ} :
    (f1 ++ y :: f2).Perm (g1 ++ y :: g2) ↔ (f1 ++ f2).Perm (g1 ++ g2) := by
  constructor
  · intro h
    exact (perm_middle.symm.trans (h.trans perm_middle)).cons_inv
  · intro h
    exact perm_middle.trans ((h.cons y).trans perm_middle.symm)

/-! ### Facts about the chains -/

namespace Chained

variable (hg : Chained A H bl fr)
include hg

lemma block_of_fr (ha : a ∈ fr) : ∃ b ∈ bl, b.used = false ∧ b.addr = a :=
  mem_frees.1 (hg.perm.mem_iff.1 ha)

lemma fr_subset : ∀ a ∈ A.head :: fr, a ∈ A.head :: bl.map Block.addr := by
  intro a ha
  rcases mem_cons.1 ha with rfl | ha
  · simp
  · obtain ⟨b, hb, -, rfl⟩ := hg.block_of_fr ha
    simp only [mem_cons, mem_map]
    exact .inr ⟨b, hb, rfl⟩

lemma fr_nodup : (A.head :: fr).Nodup := by
  have hd := nodup_cons.1 hg.layout.nodup
  refine nodup_cons.2 ⟨fun hm => ?_, hg.perm.nodup_iff.2 ?_⟩
  · obtain ⟨b, hb, -, he⟩ := hg.block_of_fr hm
    exact hd.1 (mem_map.2 ⟨b, hb, he⟩)
  · exact hd.2.sublist (filter_sublist.map _)

lemma main_mem (ha : a ∈ A.head :: bl.map Block.addr) :
    H a .next ∈ A.head :: bl.map Block.addr ∧ H a .prev ∈ A.head :: bl.map Block.addr :=
  hg.main.mem ha

lemma free_mem (ha : a ∈ A.head :: fr) :
    H a .nextFree ∈ A.head :: fr ∧ H a .prevFree ∈ A.head :: fr :=
  hg.free.mem ha

lemma main_lt (ha : a ∈ A.head :: bl.map Block.addr) : a < A.word := by
  rcases mem_cons.1 ha with rfl | ha
  · have h1 := A.le_dataHi
    have h2 : A.dataHi ≤ A.word := A.dataHi_le
    have h3 := W_pos A
    omega
  · obtain ⟨b, hb, rfl⟩ := mem_map.1 ha
    exact (hg.layout.ok b hb).addr_lt

lemma free_lt (ha : a ∈ A.head :: fr) : a < A.word := hg.main_lt (hg.fr_subset a ha)

lemma free_slot (he : Exposes sc bl) (ha : a ∈ A.head :: fr) : Slot A sc a f := by
  refine he.slot ?_
  rcases mem_cons.1 ha with rfl | ha
  · exact .inl rfl
  · obtain ⟨b, hb, hu, rfl⟩ := hg.block_of_fr ha
    exact .inr ⟨b, hb, rfl, .inr hu⟩

lemma length_lt : bl.length < A.word := by
  have hs : A.head :: bl.map Block.addr ⊆ range A.word := fun a ha => mem_range.2 (hg.main_lt ha)
  have := (hg.layout.nodup.subperm hs).length_le
  simpa [Nat.succ_le_iff] using this

end Chained

lemma Chained.free_at (hg : Chained A H (pre ++ b :: post) fr) (hb : b.used = false) :
    ∃ f1 f2, fr = f1 ++ b.addr :: f2 ∧ (f1 ++ f2).Perm (frees pre ++ frees post) := by
  have hp := hg.perm
  rw [frees_append, frees_cons, hb, if_neg (by simp)] at hp
  have hm : b.addr ∈ fr := hp.mem_iff.2 (by simp)
  obtain ⟨f1, f2, rfl⟩ := append_of_mem hm
  exact ⟨f1, f2, rfl, perm_middle_iff.1 hp⟩

lemma Good.congr (hg : Good A H bl fr) (h : ∀ a f, Slot A bl a f → H' a f = H a f) :
    Good A H' bl fr := by
  have hmain : ∀ f : Field, f.index < 4 → ∀ a ∈ A.head :: bl.map Block.addr,
      H'.col f a = H.col f a :=
    fun f hf a ha => h a f (Exposes.refl.main_slot ha hf)
  have hfree : ∀ f : Field, ∀ a ∈ A.head :: fr, H'.col f a = H.col f a :=
    fun f a ha => h a f (hg.free_slot .refl ha)
  refine ⟨⟨hg.layout, hg.main.congr (hmain _ (by decide)) (hmain _ (by decide)),
    hg.free.congr (hfree _) (hfree _), hg.perm, ?_⟩, fun b hb => ?_⟩
  · rw [h _ _ (.inl rfl), hg.head]
  · have h1 := h b.addr .type (.inr ⟨b, hb, rfl, .inl (by decide)⟩)
    have h2 := h b.addr .size (.inr ⟨b, hb, rfl, .inl (by decide)⟩)
    unfold Tagged
    rw [h1, h2]
    exact hg.tagged b hb

end Klibc.Malloc.Chains
