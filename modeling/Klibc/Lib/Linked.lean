import Mathlib.Data.List.Chain
import Mathlib.Data.List.Nodup

/-! # Circular doubly linked lists

The links are two functions, `n` (next) and `p` (previous).  `Ring n p h l` says that from the head
node `h` the links run through `l` and back to `h`, in both directions.  Every surgery on such a
list replaces a stretch between two neighbours (`Ring.splice`): putting one node in place of a
stretch and taking one node out are its cases. -/

namespace Klibc.Lib.Linked

open List Function

variable {α : Type*} {n p n' p' : α → α} {h a b x y : α} {l l1 l2 u v L R : List α}

/-- `b` follows `a`. -/
def Link (n p : α → α) (a b : α) : Prop := n a = b ∧ p b = a

/-- **A consistent circular list** through the head `h` and then the nodes `l`. -/
def Ring (n p : α → α) (h : α) (l : List α) : Prop := IsChain (Link n p) (h :: (l ++ [h]))

lemma ring_nil : Ring n p h [] ↔ n h = h ∧ p h = h := by simp [Ring, Link]

/-! ### Reading the links -/

lemma exists_last (h : α) (l : List α) : ∃ L a, h :: l = L ++ [a] :=
  ⟨_, _, (dropLast_append_getLast (cons_ne_nil h l)).symm⟩

lemma exists_first (h : α) (l : List α) : ∃ b R, l ++ [h] = b :: R := by cases l <;> simp

lemma ring_split (hL : h :: l1 = L ++ [a]) : Ring n p h (l1 ++ l2) ↔
      IsChain (Link n p) (L ++ [a]) ∧ IsChain (Link n p) (a :: (l2 ++ [h])) := by
  have he : h :: (l1 ++ l2 ++ [h]) = L ++ a :: (l2 ++ [h]) := by
    rw [append_assoc, ← cons_append, hL, append_assoc, singleton_append]
  rw [Ring, he, isChain_split]

lemma Ring.link (hr : Ring n p h (l1 ++ l2)) (hL : h :: l1 = L ++ [a])
    (hR : l2 ++ [h] = b :: R) : Link n p a b := by
  have := ((ring_split hL).1 hr).2
  rw [hR, isChain_cons_cons] at this
  exact this.1

section
variable (hr : Ring n p h (l1 ++ x :: l2))
include hr

lemma Ring.links (hL : h :: l1 = L ++ [a])
    (hR : l2 ++ [h] = b :: R) : Link n p a x ∧ Link n p x b := by
  have := ((ring_split hL).1 hr).2
  rw [cons_append, hR, isChain_cons_cons, isChain_cons_cons] at this
  exact ⟨this.1, this.2.1⟩

lemma Ring.prev_eq (hL : h :: l1 = L ++ [a]) : p x = a := by
  obtain ⟨b, R, hR⟩ := exists_first h l2
  exact (hr.links hL hR).1.2

lemma Ring.next_eq (hR : l2 ++ [h] = b :: R) : n x = b := by
  obtain ⟨L, a, hL⟩ := exists_last h l1
  exact (hr.links hL hR).2.1

end

section
variable (hr : Ring n p h l)
include hr

lemma Ring.first_eq (hR : l ++ [h] = b :: R) : n h = b := by
  rw [Ring, hR, isChain_cons_cons] at hr
  exact hr.1.1

lemma Ring.last_eq (hL : h :: l = L ++ [a]) : p h = a := by
  rw [Ring, ← cons_append, hL, append_assoc, singleton_append, isChain_append_cons_cons] at hr
  exact hr.2.1.2

lemma Ring.mem (hx : x ∈ h :: l) : n x ∈ h :: l ∧ p x ∈ h :: l := by
  constructor
  · obtain ⟨s, t, hst⟩ := append_of_mem hx
    obtain ⟨b, R, hR⟩ := exists_first h t
    have hb : b ∈ t ++ [h] := by simp [hR]
    rw [Ring, ← cons_append, hst, append_assoc, cons_append, hR, isChain_append_cons_cons] at hr
    rw [hr.2.1.1]
    grind
  · rcases mem_cons.1 hx with rfl | hx
    · obtain ⟨L, a, hL⟩ := exists_last x l
      simp [hr.last_eq hL, hL]
    · obtain ⟨s, t, rfl⟩ := append_of_mem hx
      obtain ⟨L, a, hL⟩ := exists_last h s
      have ha : a ∈ h :: s := by simp [hL]
      rw [hr.prev_eq hL]
      grind

lemma Ring.mem_iff (hd : (h :: l).Nodup) : a ∈ l ↔ a ≠ h ∧ ∃ i, n^[i] h = a := by
  constructor
  · intro ha
    refine ⟨fun he => (nodup_cons.1 hd).1 (he ▸ ha), ?_⟩
    obtain ⟨l1, l2, rfl⟩ := append_of_mem ha
    -- one step of `n` after the node before
    clear ha hd
    induction l1 using reverseRecOn generalizing a l2 with
    | nil =>
      obtain ⟨b, R, hR⟩ : ∃ b R, (a :: l2) ++ [h] = b :: R := ⟨_, _, rfl⟩
      have := hr.first_eq hR
      exact ⟨1, by simp_all⟩
    | append_singleton l1 c ih =>
      rw [append_assoc, singleton_append] at hr
      obtain ⟨i, hi⟩ := ih _ hr
      exact ⟨i + 1, by rw [iterate_succ_apply', hi, hr.next_eq (cons_append ..)]⟩
  · rintro ⟨hne, i, rfl⟩
    have hall : ∀ i, n^[i] h ∈ h :: l := by
      intro i
      induction i with
      | zero => simp
      | succ i ih =>
        rw [iterate_succ_apply']
        exact (hr.mem ih).1
    exact (mem_cons.1 (hall i)).resolve_left hne

end

/-! ### Changing the links -/

lemma chain_congr (hc : IsChain (Link n p) l) (hn : ∀ y ∈ l.dropLast, n' y = n y)
    (hp : ∀ y ∈ l.tail, p' y = p y) : IsChain (Link n' p') l := by
  induction hc with
  | nil => exact .nil
  | singleton a => exact .singleton a
  | cons_cons hab _ ih =>
    refine .cons_cons ⟨?_, ?_⟩ (ih (fun y hy => hn y ?_) fun y hy => hp y (mem_cons_of_mem _ hy))
    · rw [hn _ (by simp), hab.1]
    · rw [hp _ (by simp), hab.2]
    · rw [dropLast_cons_of_ne_nil (by simp)]
      exact mem_cons_of_mem _ hy

lemma Ring.congr (hr : Ring n p h l) (hn : ∀ y ∈ h :: l, n' y = n y)
    (hp : ∀ y ∈ h :: l, p' y = p y) : Ring n' p' h l := by
  refine chain_congr hr (fun y hy => hn y ?_) fun y hy => hp y ?_
  · rwa [← cons_append, dropLast_concat] at hy
  · simpa [or_comm] using hy

/-- **Surgery.**  The stretch `u` between `a` and `b` is replaced by `v`. -/
theorem Ring.splice (hr : Ring n p h (l1 ++ (u ++ l2))) (hL : h :: l1 = L ++ [a])
    (hR : l2 ++ [h] = b :: R) (hn : ∀ y ∈ L ++ l2, n' y = n y) (hp : ∀ y ∈ l1 ++ R, p' y = p y)
    (hv : IsChain (Link n' p') (a :: (v ++ [b]))) : Ring n' p' h (l1 ++ (v ++ l2)) := by
  obtain ⟨hl, hr'⟩ := (ring_split hL).1 hr
  have hb : IsChain (Link n p) (b :: R) := by
    rw [append_assoc, hR, isChain_cons_split] at hr'
    exact hr'.2
  rw [ring_split hL, append_assoc, hR, isChain_cons_split]
  refine ⟨chain_congr hl (fun y hy => hn y ?_) fun y hy => hp y ?_, hv,
    chain_congr hb (fun y hy => hn y ?_) fun y hy => hp y (by simp_all)⟩
  · rw [dropLast_concat] at hy
    exact mem_append_left _ hy
  · rw [← hL, tail_cons] at hy
    exact mem_append_left _ hy
  · rw [← hR, dropLast_concat] at hy
    exact mem_append_right _ hy

lemma ends_apart (hd : (h :: (l1 ++ l2)).Nodup) (hL : h :: l1 = L ++ [a])
    (hR : l2 ++ [h] = b :: R) : (∀ y ∈ L ++ l2, y ≠ a) ∧ ∀ y ∈ l1 ++ R, y ≠ b := by
  have h1 : ((L ++ [a]) ++ l2).Nodup := by rwa [← hL, cons_append]
  have h2 : (l1 ++ (b :: R)).Nodup := by
    rw [← hR, ← append_assoc]
    exact nodup_append_comm.1 (by simpa using hd)
  constructor <;> intro y hy <;> rintro rfl
  · grind
  · grind

lemma mem_ends (hL : h :: l1 = L ++ [a]) (hR : l2 ++ [h] = b :: R) :
    (∀ y, y ∈ h :: (l1 ++ l2) ↔ y = a ∨ y ∈ L ++ l2) ∧
      ∀ y, y ∈ h :: (l1 ++ l2) ↔ y = b ∨ y ∈ l1 ++ R := by
  have h1 : ∀ y, y ∈ h :: l1 ↔ y ∈ L ++ [a] := fun y => by rw [hL]
  have h2 : ∀ y, y ∈ l2 ++ [h] ↔ y ∈ b :: R := fun y => by rw [hR]
  constructor <;> intro y
  · have := h1 y
    grind
  · have := h2 y
    grind

section

variable [DecidableEq α]

lemma Ring.put (hr : Ring n p h (l1 ++ (u ++ l2))) (hd : (h :: (l1 ++ l2)).Nodup)
    (hx : x ∉ h :: (l1 ++ l2)) (hL : h :: l1 = L ++ [a]) (hR : l2 ++ [h] = b :: R) :
    Ring (update (update n x b) a x) (update (update p x a) b x) h (l1 ++ x :: l2) := by
  obtain ⟨ha, hb⟩ := ends_apart hd hL hR
  obtain ⟨hma, hmb⟩ := mem_ends hL hR
  have hax : x ≠ a := fun he => hx ((hma x).2 (.inl he))
  have hbx : x ≠ b := fun he => hx ((hmb x).2 (.inl he))
  refine hr.splice (v := [x]) hL hR (fun y hy => ?_) (fun y hy => ?_) ?_
  · rw [update_of_ne (ha y hy), update_of_ne]
    rintro rfl
    exact hx ((hma y).2 (.inr hy))
  · rw [update_of_ne (hb y hy), update_of_ne]
    rintro rfl
    exact hx ((hmb y).2 (.inr hy))
  · simp [Link, hax, hbx]

lemma Ring.insert (hr : Ring n p h (l1 ++ l2)) (hd : (h :: (l1 ++ l2)).Nodup)
    (hx : x ∉ h :: (l1 ++ l2)) (hL : h :: l1 = L ++ [a]) (hR : l2 ++ [h] = b :: R) :
    Ring (update (update n x b) a x) (update (update p x a) b x) h (l1 ++ x :: l2) :=
  Ring.put (u := []) hr hd hx hL hR

lemma Ring.insertFirst (hr : Ring n p h l) (hd : (h :: l).Nodup) (hx : x ∉ h :: l) :
    Ring (update (update n x (n h)) h x) (update (update p x h) (n h) x) h (x :: l) := by
  obtain ⟨b, R, hR⟩ := exists_first h l
  have hL : [h] = [] ++ [h] := rfl
  have hr' : Ring n p h ([] ++ l) := hr
  rw [hr.first_eq hR]
  exact hr'.insert hd hx hL hR

lemma Ring.insertAfter (hr : Ring n p h (l1 ++ a :: l2)) (hd : (h :: (l1 ++ a :: l2)).Nodup)
    (hx : x ∉ h :: (l1 ++ a :: l2)) :
    Ring (update (update n x (n a)) a x) (update (update p x a) (n a) x) h
      (l1 ++ a :: x :: l2) := by
  obtain ⟨b, R, hR⟩ := exists_first h l2
  have hab := hr.next_eq hR
  have ha : h :: (l1 ++ [a]) = (h :: l1) ++ [a] := rfl
  have he : ∀ t, l1 ++ a :: t = l1 ++ [a] ++ t := by simp
  rw [he] at hr hd hx
  rw [he, hab]
  exact hr.insert hd hx ha hR

lemma Ring.insertBefore (hr : Ring n p h (l1 ++ b :: l2)) (hd : (h :: (l1 ++ b :: l2)).Nodup)
    (hx : x ∉ h :: (l1 ++ b :: l2)) :
    Ring (update (update n x b) (p b) x) (update (update p x (p b)) b x) h
      (l1 ++ x :: b :: l2) := by
  obtain ⟨L, a, hL⟩ := exists_last h l1
  rw [hr.prev_eq hL]
  exact hr.insert hd hx hL (cons_append ..)

section
variable (hr : Ring n p h (l1 ++ x :: l2)) (hd : (h :: (l1 ++ x :: l2)).Nodup)
include hr hd

lemma Ring.replace (hy : y ∉ h :: (l1 ++ l2)) :
    Ring (update (update n y (n x)) (p x) y) (update (update p y (p x)) (n x) y) h
      (l1 ++ y :: l2) := by
  obtain ⟨L, a, hL⟩ := exists_last h l1
  obtain ⟨b, R, hR⟩ := exists_first h l2
  rw [hr.prev_eq hL, hr.next_eq hR]
  exact Ring.put (u := [x]) hr (by grind) hy hL hR

lemma Ring.remove : Ring (update n (p x) (n x)) (update p (n x) (p x)) h (l1 ++ l2) := by
  obtain ⟨L, a, hL⟩ := exists_last h l1
  obtain ⟨b, R, hR⟩ := exists_first h l2
  obtain ⟨ha, hb⟩ := ends_apart (by grind) hL hR
  rw [hr.prev_eq hL, hr.next_eq hR]
  refine Ring.splice (u := [x]) (v := []) hr hL hR (fun y hy => update_of_ne (ha y hy) ..)
    (fun y hy => update_of_ne (hb y hy) ..) ?_
  simp [Link]

end

end

end Klibc.Lib.Linked
