import Klibc.Malloc.Arena
import Mathlib.Algebra.Order.Group.Nat
import Mathlib.Data.List.Nodup
import Mathlib.Data.List.Pairwise
import Mathlib.Tactic.NormNum
import Mathlib.Tactic.Ring

/-! # Blocks

The abstract heap is a list of blocks in address order.  `Layout` is what its blocks must meet to be
a heap: they do not overlap, keep to the unit `sizeof(struct arena_header)` and its minimum, and
stay clear of the static data.  The moves of the allocator replace a stretch of the list
(`Layout.replace`): a block is carved, joined with a neighbour, or loses its middle. -/

namespace Klibc.Malloc.Blocks

open List Arena

/-! ### Sizes of the machine -/

section

variable (A : Arch)

lemma W_pos : 4 ≤ A.W := by rcases A.width with h | h <;> omega

lemma hdr_eq : A.hdr = 16 ∨ A.hdr = 32 := by
  unfold Arch.hdr
  rcases A.width with h | h <;> omega

lemma hdr_dvd_page : 4 * A.hdr ∣ A.page := by
  have h4096 : (4096 : ℕ) ∣ A.page := pow_dvd_pow 2 A.pageMin
  rcases hdr_eq A with h | h <;> rw [h] <;> omega

lemma page_dvd_chunk : A.page ∣ A.chunk := pow_dvd_pow 2 A.pageMax

lemma chunk_dvd_word : 8 * A.chunk ∣ A.word := by
  have h := pow_dvd_pow 2 A.chunkMax
  rwa [pow_add, mul_comm] at h

lemma word_ge : 2 ^ 32 ≤ A.word := by
  have := W_pos A
  exact Nat.pow_le_pow_right (by omega) (show 32 ≤ 8 * A.W by omega)

lemma page_pos : 0 < A.page := Nat.two_pow_pos _

lemma hdr_le_page : 4 * A.hdr ≤ A.page := Nat.le_of_dvd (page_pos A) (hdr_dvd_page A)

lemma chunk_pos : 0 < A.chunk := Nat.two_pow_pos _

lemma page_le_chunk : A.page ≤ A.chunk := Nat.le_of_dvd (chunk_pos A) (page_dvd_chunk A)

lemma chunk_le_word : 8 * A.chunk ≤ A.word := Nat.le_of_dvd (Nat.two_pow_pos _) (chunk_dvd_word A)

lemma page_dvd_word : A.page ∣ A.word :=
  (page_dvd_chunk A).trans ((Nat.dvd_mul_left _ _).trans (chunk_dvd_word A))

lemma hdr_dvd_page' : A.hdr ∣ A.page := (Dvd.intro_left 4 rfl).trans (hdr_dvd_page A)

lemma data_page : A.dataLo + A.page ≤ A.dataHi := by
  have h1 := A.dataLo_le
  have h2 := A.le_dataHi
  have h3 := W_pos A
  have hd : A.page ∣ A.dataHi - A.dataLo := Nat.dvd_sub A.dataHi_dvd A.dataLo_dvd
  have := Nat.le_of_dvd (by omega) hd
  omega

end

/-! ### Blocks and layouts -/

structure Block where
  addr : ℕ
  size : ℕ
  used : Bool
  deriving DecidableEq

def Block.stop (b : Block) : ℕ := b.addr + b.size

structure Block.Ok (A : Arch) (b : Block) : Prop where
  min : 2 * A.hdr ≤ b.size
  addr_dvd : A.hdr ∣ b.addr
  size_dvd : A.hdr ∣ b.size
  top : b.stop ≤ A.word
  data : b.stop ≤ A.dataLo ∨ A.dataHi ≤ b.addr

/-- **The layout of a heap**: blocks that meet `Block.Ok`, in address order and without overlap. -/
structure Layout (A : Arch) (bl : List Block) : Prop where
  sorted : bl.Pairwise fun b c => b.stop ≤ c.addr
  ok : ∀ b ∈ bl, b.Ok A

def Covers (bl : List Block) (x : ℕ) : Prop := ∃ b ∈ bl, b.addr ≤ x ∧ x < b.stop

def useds (bl : List Block) : List Block := bl.filter (·.used)

def frees (bl : List Block) : List ℕ := (bl.filter (!·.used)).map Block.addr

variable {A : Arch} {bl pre mid mid' post : List Block} {b c : Block} {x a s k : ℕ}

@[simp]
lemma covers_nil : Covers [] x ↔ False := by simp [Covers]

@[simp]
lemma covers_cons : Covers (b :: bl) x ↔ (b.addr ≤ x ∧ x < b.stop) ∨ Covers bl x := by simp [Covers]

@[simp]
lemma covers_append : Covers (pre ++ post) x ↔ Covers pre x ∨ Covers post x := by
  simp [Covers, or_and_right, exists_or]

@[simp]
lemma useds_append : useds (pre ++ post) = useds pre ++ useds post := filter_append ..

@[simp]
lemma useds_nil : useds [] = [] := rfl

lemma useds_cons : useds (b :: bl) = if b.used then b :: useds bl else useds bl := by
  cases h : b.used <;> simp [useds, h]

@[simp]
lemma frees_append : frees (pre ++ post) = frees pre ++ frees post := by simp [frees]

@[simp]
lemma frees_nil : frees [] = [] := rfl

lemma frees_cons : frees (b :: bl) = if b.used then frees bl else b.addr :: frees bl := by
  cases h : b.used <;> simp [frees, h]

lemma mem_frees : a ∈ frees bl ↔ ∃ b ∈ bl, b.used = false ∧ b.addr = a := by simp [frees, and_assoc]

lemma mem_useds : b ∈ useds bl ↔ b ∈ bl ∧ b.used = true := by simp [useds]

namespace Block.Ok

variable (h : b.Ok A)
include h

lemma hdr_le : 8 * A.W ≤ b.size := by
  have := h.min
  unfold Arch.hdr at this
  omega

lemma addr_lt : b.addr < A.word := by
  have h1 := h.hdr_le
  have h2 := h.top
  have h3 := W_pos A
  unfold Block.stop at h2
  omega

lemma size_lt : b.size + 2 * A.hdr < A.word := by
  have h1 := h.top
  have h2 := h.data
  have h3 := data_page A
  have h4 := hdr_le_page A
  have h5 : A.dataHi ≤ A.word := A.dataHi_le
  have h6 := hdr_eq A
  unfold Block.stop at h1 h2
  omega

lemma head_apart : A.head + 6 * A.W ≤ b.addr ∨ b.stop ≤ A.head := by
  have h1 := h.data
  have h2 := A.dataLo_le
  have h3 := A.le_dataHi
  omega

end Block.Ok

/-! ### Layouts -/

lemma layout_nil : Layout A [] := ⟨.nil, by simp⟩

lemma layout_singleton : Layout A [b] ↔ b.Ok A :=
  ⟨fun h => h.ok b (by simp), fun h => ⟨pairwise_singleton _ _, by simpa using h⟩⟩

namespace Layout

section
variable (h : Layout A bl)
include h

lemma apart (hb : b ∈ bl) (hc : c ∈ bl) (hne : b.addr ≠ c.addr) :
    b.stop ≤ c.addr ∨ c.stop ≤ b.addr := by
  have hs : bl.Pairwise fun b c => b.addr ≠ c.addr → b.stop ≤ c.addr ∨ c.stop ≤ b.addr :=
    h.sorted.imp fun h _ => .inl h
  have hsymm : Std.Symm fun b c : Block => b.addr ≠ c.addr → b.stop ≤ c.addr ∨ c.stop ≤ b.addr :=
    ⟨fun _ _ h hne => (h hne.symm).symm⟩
  exact hs.forall_of_forall (fun _ _ hne => (hne rfl).elim) hb hc hne

lemma lt : bl.Pairwise fun b c => b.addr < c.addr :=
  h.sorted.imp_of_mem fun {b c} hb _ hbc => by
    have h1 := (h.ok b hb).hdr_le
    have h2 := W_pos A
    unfold Block.stop at hbc
    omega

lemma nodup : (A.head :: bl.map Block.addr).Nodup := by
  rw [nodup_cons]
  refine ⟨fun hm => ?_, ?_⟩
  · obtain ⟨b, hb, he⟩ := mem_map.1 hm
    have h1 := (h.ok b hb).head_apart
    have h2 := (h.ok b hb).hdr_le
    have h3 := W_pos A
    unfold Block.stop at h1
    omega
  · rw [List.Nodup, pairwise_map]
    exact h.lt.imp Nat.ne_of_lt

lemma addr_ne_head (hb : b ∈ bl) : b.addr ≠ A.head := fun he =>
  (nodup_cons.1 h.nodup).1 (mem_map.2 ⟨b, hb, he⟩)

lemma inj (hb : b ∈ bl) (hc : c ∈ bl) (he : b.addr = c.addr) : b = c :=
  inj_on_of_nodup_map (nodup_cons.1 h.nodup).2 hb hc he

end

lemma ne_of_mem (h : Layout A (pre ++ b :: post)) (hc : c ∈ pre ++ post) : c.addr ≠ b.addr := by
  have hd := (nodup_cons.1 h.nodup).2
  rw [map_append, map_cons, nodup_middle, nodup_cons, ← map_append] at hd
  exact fun he => hd.1 (mem_map.2 ⟨c, hc, he⟩)

lemma stop_le (h : Layout A (pre ++ b :: c :: post)) : b.stop ≤ c.addr :=
  (pairwise_cons.1 (pairwise_append.1 h.sorted).2.1).1 c (by simp)

lemma eq_of_mem (h : Layout A bl) (hb : b ∈ bl) (hc : c ∈ bl) (hbx : b.addr ≤ x ∧ x < b.stop)
    (hcx : c.addr ≤ x ∧ x < c.stop) : b.addr = c.addr := by
  by_contra hne
  have := h.apart hb hc hne
  omega

lemma not_covers (h : Layout A (pre ++ b :: post)) (hx : b.addr ≤ x ∧ x < b.stop) :
    ¬Covers (pre ++ post) x := by
  rintro ⟨c, hc, hcx⟩
  have hmem : c ∈ pre ++ b :: post := by
    simp only [mem_append, mem_cons] at hc ⊢
    tauto
  exact h.ne_of_mem hc (h.eq_of_mem hmem (by simp) hcx hx)

/-- **Any stretch of a layout may be replaced** by blocks that stay within its span. -/
theorem replace (mid mid' : List Block) (h : Layout A (pre ++ (mid ++ post))) (hm : Layout A mid')
    (hw : ∀ c ∈ mid', (∃ b ∈ mid, b.addr ≤ c.addr) ∧ ∃ b ∈ mid, c.stop ≤ b.stop) :
    Layout A (pre ++ (mid' ++ post)) := by
  obtain ⟨hpre, hrest, hcross⟩ := pairwise_append.1 h.sorted
  obtain ⟨-, hpost, hmp⟩ := pairwise_append.1 hrest
  refine ⟨pairwise_append.2 ⟨hpre, pairwise_append.2 ⟨hm.sorted, hpost, ?_⟩, ?_⟩, ?_⟩
  · intro c hc d hd
    obtain ⟨-, e, he, hce⟩ := hw c hc
    exact hce.trans (hmp e he d hd)
  · intro b hb c hc
    rcases mem_append.1 hc with hc | hc
    · obtain ⟨⟨d, hd, hdc⟩, -⟩ := hw c hc
      exact (hcross b hb d (by simp [hd])).trans hdc
    · exact hcross b hb c (by simp [hc])
  · intro b hb
    rcases mem_append.1 hb with hb | hb
    · exact h.ok b (by simp [hb])
    · rcases mem_append.1 hb with hb | hb
      · exact hm.ok b hb
      · exact h.ok b (by simp [hb])

lemma useds (h : Layout A bl) : Layout A (useds bl) :=
  ⟨h.sorted.sublist filter_sublist, fun b hb => h.ok b (mem_useds.1 hb).1⟩

lemma exists_place (h : Layout A bl) {fp len : ℕ} (hc : ∀ c ∈ bl, c.stop ≤ fp ∨ fp + len ≤ c.addr) :
    ∃ pre post, bl = pre ++ post ∧ (∀ c ∈ pre, c.stop ≤ fp) ∧ ∀ c ∈ post, fp + len ≤ c.addr := by
  induction bl with
  | nil => exact ⟨[], [], rfl, by simp, by simp⟩
  | cons b bl ih =>
    obtain ⟨hb, hs⟩ := pairwise_cons.1 h.sorted
    rcases hc b (by simp) with hbc | hbc
    · obtain ⟨pre, post, rfl, h1, h2⟩ := ih ⟨hs, fun c hc => h.ok c (by simp [hc])⟩
        fun c hm => hc c (by simp [hm])
      exact ⟨b :: pre, post, rfl, by simpa [hbc] using h1, h2⟩
    · refine ⟨[], b :: bl, rfl, by simp, fun c hm => ?_⟩
      rcases mem_cons.1 hm with rfl | hm
      · exact hbc
      · have h1 := hb c hm
        unfold Block.stop at h1
        omega

lemma insert (h : Layout A (pre ++ post)) (hb : b.Ok A) (hpre : ∀ c ∈ pre, c.stop ≤ b.addr)
    (hpost : ∀ c ∈ post, b.stop ≤ c.addr) : Layout A (pre ++ b :: post) := by
  obtain ⟨h1, h2, h3⟩ := pairwise_append.1 h.sorted
  refine ⟨pairwise_append.2 ⟨h1, pairwise_cons.2 ⟨hpost, h2⟩, fun c hc d hd => ?_⟩, fun c hc => ?_⟩
  · rcases mem_cons.1 hd with rfl | hd
    · exact hpre c hc
    · exact h3 c hc d hd
  · simp only [mem_append, mem_cons] at hc
    rcases hc with hc | rfl | hc
    · exact h.ok c (by simp [hc])
    · exact hb
    · exact h.ok c (by simp [hc])

lemma retype (h : Layout A (pre ++ b :: post)) (u : Bool) :
    Layout A (pre ++ ⟨b.addr, b.size, u⟩ :: post) := by
  obtain ⟨h1, h2, h3, h4, h5⟩ := h.ok b (by simp)
  exact Layout.replace [b] [⟨b.addr, b.size, u⟩] h (layout_singleton.2 ⟨h1, h2, h3, h4, h5⟩)
    (by simp [Block.stop])

end Layout

/-! ### Allocating -/

/-- The block for a request of `k` bytes out of the block `b`: what is left over becomes a free
block if it is large enough for one. -/
def carve (A : Arch) (k : ℕ) (b : Block) : List Block :=
  if k + 2 * A.hdr ≤ b.size then [⟨b.addr, k, true⟩, ⟨b.addr + k, b.size - k, false⟩]
  else [⟨b.addr, b.size, true⟩]

lemma Layout.cut (h : Layout A (pre ++ b :: post)) (u v : Bool) (hk : 2 * A.hdr ≤ k)
    (hd : A.hdr ∣ k) (hs : k + 2 * A.hdr ≤ b.size) :
    Layout A (pre ++ ⟨b.addr, k, u⟩ :: ⟨b.addr + k, b.size - k, v⟩ :: post) := by
  obtain ⟨h1, h2, h3, h4, h5⟩ := h.ok b (by simp)
  unfold Block.stop at h4 h5
  refine Layout.replace [b] [⟨b.addr, k, u⟩, ⟨b.addr + k, b.size - k, v⟩] h
    ⟨by simp [Block.stop], ?_⟩ (by simp [Block.stop]; omega)
  simp only [mem_cons, not_mem_nil, or_false, forall_eq_or_imp, forall_eq]
  refine ⟨⟨hk, h2, hd, ?_, ?_⟩, ⟨?_, Nat.dvd_add h2 hd, Nat.dvd_sub h3 hd, ?_, ?_⟩⟩ <;>
    simp only [Block.stop] <;> omega

lemma Layout.carve (h : Layout A (pre ++ b :: post)) (hk : 2 * A.hdr ≤ k) (hd : A.hdr ∣ k) :
    Layout A (pre ++ (carve A k b ++ post)) := by
  unfold Blocks.carve
  split_ifs with hs
  · exact h.cut true false hk hd hs
  · exact h.retype true

lemma covers_carve (hk : k ≤ b.size) : Covers (carve A k b) x ↔ b.addr ≤ x ∧ x < b.stop := by
  unfold carve
  split_ifs with hs
  · simp only [covers_cons, covers_nil, or_false, Block.stop]
    omega
  · simp [Block.stop]

lemma useds_carve (hk : k ≤ b.size) :
    ∃ c : Block, useds (carve A k b) = [c] ∧ c.addr = b.addr ∧ k ≤ c.size := by
  unfold carve
  split_ifs with hs
  · exact ⟨⟨b.addr, k, true⟩, by simp [useds_cons], rfl, le_rfl⟩
  · exact ⟨⟨b.addr, b.size, true⟩, by simp [useds_cons], rfl, hk⟩

/-! ### Coalescing -/

/-- The free block `b` between `pre` and others is joined with the block before it, if that is free
and touches it. -/
inductive JoinPrev : List Block → Block → List Block → Block → Prop
  | join {pre : List Block} {pb b : Block} (hf : pb.used = false) (ht : pb.stop = b.addr) :
    JoinPrev (pre ++ [pb]) b pre ⟨pb.addr, pb.size + b.size, false⟩
  | keep {pre : List Block} {b : Block}
    (hn : ∀ pb ∈ pre.getLast?, ¬(pb.used = false ∧ pb.stop = b.addr)) :
    JoinPrev pre b pre ⟨b.addr, b.size, false⟩

inductive JoinNext : Block → List Block → Block → List Block → Prop
  | join {post : List Block} {b nb : Block} (hf : nb.used = false) (ht : b.stop = nb.addr) :
    JoinNext b (nb :: post) ⟨b.addr, b.size + nb.size, false⟩ post
  | keep {post : List Block} {b : Block}
    (hn : ∀ nb ∈ post.head?, ¬(nb.used = false ∧ b.stop = nb.addr)) :
    JoinNext b post ⟨b.addr, b.size, false⟩ post

lemma Block.Ok.join (hb : b.Ok A) (hc : c.Ok A) (ht : b.stop = c.addr) (u : Bool) :
    Block.Ok A ⟨b.addr, b.size + c.size, u⟩ := by
  have h1 := hb.min
  have h2 := hb.data
  have h3 := hc.data
  have h4 := hc.top
  have h5 := data_page A
  have h6 := page_pos A
  unfold Block.stop at *
  refine ⟨?_, hb.addr_dvd, Nat.dvd_add hb.size_dvd hc.size_dvd, ?_, ?_⟩ <;>
    simp only [Block.stop] <;> omega

section

variable {pre' post' : List Block} {b' : Block}

lemma Layout.join (h : Layout A (pre ++ b :: c :: post)) (ht : b.stop = c.addr) (u : Bool) :
    Layout A (pre ++ ⟨b.addr, b.size + c.size, u⟩ :: post) := by
  have hj := (h.ok b (by simp)).join (h.ok c (by simp)) ht u
  unfold Block.stop at ht
  refine Layout.replace [b, c] [_] h (layout_singleton.2 hj) ?_
  simp [Block.stop]
  omega

lemma JoinPrev.layout (hj : JoinPrev pre b pre' b') (h : Layout A (pre ++ b :: post)) :
    Layout A (pre' ++ b' :: post) := by
  cases hj with
  | join hf ht =>
    rw [append_assoc, singleton_append] at h
    exact h.join ht false
  | keep => exact h.retype false

lemma JoinNext.layout (hj : JoinNext b post b' post') (h : Layout A (pre ++ b :: post)) :
    Layout A (pre ++ b' :: post') := by
  cases hj with
  | join hf ht => exact h.join ht false
  | keep => exact h.retype false

lemma JoinPrev.covers (hj : JoinPrev pre b pre' b') :
    Covers (pre' ++ b' :: post) x ↔ Covers (pre ++ b :: post) x := by
  cases hj with
  | join hf ht =>
    simp only [covers_append, covers_cons, covers_nil, Block.stop] at ht ⊢
    rw [or_false, or_assoc, ← or_assoc (a := _ ∧ _) (b := _ ∧ _)]
    exact or_congr_right (or_congr_left (by omega))
  | keep => simp [Block.stop]

lemma JoinNext.covers (hj : JoinNext b post b' post') :
    Covers (pre ++ b' :: post') x ↔ Covers (pre ++ b :: post) x := by
  cases hj with
  | join hf ht =>
    simp only [covers_append, covers_cons, Block.stop] at ht ⊢
    rw [← or_assoc (a := _ ∧ _) (b := _ ∧ _)]
    exact or_congr_right (or_congr_left (by omega))
  | keep => simp [Block.stop]

lemma JoinPrev.useds_eq (hj : JoinPrev pre b pre' b') : useds pre' = useds pre := by
  cases hj with
  | join hf => simp [useds_cons, hf]
  | keep => rfl

lemma JoinNext.useds_eq (hj : JoinNext b post b' post') : useds post' = useds post := by
  cases hj with
  | join hf => simp [useds_cons, hf]
  | keep => rfl

lemma JoinPrev.grows (hj : JoinPrev pre b pre' b') : b'.used = false ∧ b.size ≤ b'.size := by
  cases hj <;> simp

lemma JoinNext.grows (hj : JoinNext b post b' post') : b'.used = false ∧ b.size ≤ b'.size := by
  cases hj <;> simp

/-- **Coalescing**: the block `b` between `pre` and `post` is freed and joined with its neighbours.
-/
def Joined (pre : List Block) (b : Block) (post pre' : List Block) (b' : Block)
    (post' : List Block) : Prop :=
  ∃ b₁, JoinPrev pre b pre' b₁ ∧ JoinNext b₁ post b' post'

section
variable (hj : Joined pre b post pre' b' post')
include hj

lemma Joined.covers : Covers (pre' ++ b' :: post') x ↔ Covers (pre ++ b :: post) x := by
  obtain ⟨b₁, h1, h2⟩ := hj
  exact h2.covers.trans h1.covers

lemma Joined.useds_eq : useds pre' = useds pre ∧ useds post' = useds post := by
  obtain ⟨b₁, h1, h2⟩ := hj
  exact ⟨h1.useds_eq, h2.useds_eq⟩

lemma Joined.grows : b'.used = false ∧ b.size ≤ b'.size := by
  obtain ⟨b₁, h1, h2⟩ := hj
  exact ⟨h2.grows.1, h1.grows.2.trans h2.grows.2⟩

end

end

/-! ### Giving memory back -/

/-- What is left of the block `b` when all but a head and a tail of it is unmapped. -/
def hollow (b : Block) (head tail : ℕ) : List Block :=
  (if head = 0 then [] else [⟨b.addr, head, false⟩]) ++
    if tail = 0 then [] else [⟨b.stop - tail, tail, false⟩]

section

variable {head tail : ℕ}

lemma Layout.hollow (h : Layout A (pre ++ b :: post)) (hh : head = 0 ∨ 2 * A.hdr ≤ head)
    (ht : tail = 0 ∨ 2 * A.hdr ≤ tail) (hdh : A.hdr ∣ head) (hdt : A.hdr ∣ tail)
    (hs : head + tail ≤ b.size) : Layout A (pre ++ (hollow b head tail ++ post)) := by
  obtain ⟨h1, h2, h3, h4, h5⟩ := h.ok b (by simp)
  have hst : A.hdr ∣ b.stop - tail := Nat.dvd_sub (Nat.dvd_add h2 h3) hdt
  unfold Block.stop at h4 h5
  have hhead : head ≠ 0 → Block.Ok A ⟨b.addr, head, false⟩ := fun h0 =>
    ⟨by simp only; omega, h2, hdh, by simp only [Block.stop]; omega,
      by simp only [Block.stop]; omega⟩
  have htail : tail ≠ 0 → Block.Ok A ⟨b.stop - tail, tail, false⟩ := fun h0 =>
    ⟨by simp only; omega, hst, hdt, by simp only [Block.stop]; omega,
      by simp only [Block.stop]; omega⟩
  refine Layout.replace [b] _ h ⟨?_, ?_⟩ ?_
  · unfold Blocks.hollow
    split_ifs <;> simp [Block.stop]
    omega
  · unfold Blocks.hollow
    split_ifs <;> simp_all
  · unfold Blocks.hollow
    split_ifs <;> simp [Block.stop] <;> omega

lemma covers_hollow (hs : head + tail ≤ b.size) : Covers (hollow b head tail) x ↔
    (b.addr ≤ x ∧ x < b.stop) ∧ ¬(b.addr + head ≤ x ∧ x < b.stop - tail) := by
  unfold hollow
  split_ifs <;> simp [Block.stop] <;> omega

lemma useds_hollow : useds (hollow b head tail) = [] := by
  unfold hollow
  split_ifs <;> simp [useds_cons]

end

end Klibc.Malloc.Blocks
