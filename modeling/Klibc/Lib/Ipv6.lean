import Mathlib.Data.List.Basic

/-! # Texts of IPv6 addresses

The text representations of RFC 4291: eight groups of hexadecimal digits with colons between them,
or fewer of them and one `::` for the groups of zeros that are left out. An address is its eight
groups, or its sixteen bytes with the high byte of each group first. -/

namespace Klibc.Lib.Ipv6

open List

def hexDigit (c : UInt8) : Option ℕ :=
  if 48 ≤ c.toNat ∧ c.toNat ≤ 57 then some (c.toNat - 48)
  else if 65 ≤ c.toNat ∧ c.toNat ≤ 70 then some (c.toNat - 55)
  else if 97 ≤ c.toNat ∧ c.toNat ≤ 102 then some (c.toNat - 87)
  else none

def groupValue (t : List UInt8) : Option ℕ :=
  if 1 ≤ t.length ∧ t.length ≤ 4 then
    (t.mapM hexDigit).map fun ds => ds.foldl (fun m d => m * 16 + d) 0
  else none

def colon : UInt8 := 58

def join (gs : List (List UInt8)) : List UInt8 := [colon].intercalate gs

variable {gs : List (List UInt8)} {a : List UInt8}

lemma join_cons (g : List UInt8) (h : gs ≠ []) : join (g :: gs) = g ++ colon :: join gs := by
  rw [join, intercalate_cons_of_ne_nil h, append_assoc]
  rfl

lemma mem_join {c : UInt8} (h : c ∈ join gs) : c = colon ∨ ∃ g ∈ gs, c ∈ g := by
  induction gs with
  | nil => exact absurd h not_mem_nil
  | cons g gs ih =>
    by_cases hgs : gs = []
    · rw [hgs, join, intercalate_singleton] at h
      exact .inr ⟨g, mem_cons_self, h⟩
    · rw [join_cons g hgs, mem_append, mem_cons] at h
      rcases h with h | h | h
      · exact .inr ⟨g, mem_cons_self, h⟩
      · exact .inl h
      · rcases ih h with h | ⟨g', hg', hc⟩
        · exact .inl h
        · exact .inr ⟨g', mem_cons_of_mem g hg', hc⟩

lemma length_join_le (h : ∀ g ∈ gs, g.length ≤ 4) : (join gs).length ≤ 5 * gs.length := by
  induction gs with
  | nil => exact Nat.le_refl _
  | cons g gs ih =>
    obtain ⟨hg, hgs⟩ := forall_mem_cons.1 h
    have ih := ih hgs
    rw [length_cons]
    by_cases hnil : gs = []
    · rw [hnil, join, intercalate_singleton]
      omega
    · rw [join_cons g hnil, length_append, length_cons]
      omega

/-- **The text denotes the groups.** -/
inductive Denotes : List UInt8 → List ℕ → Prop
  | full {gs : List (List UInt8)} {vs : List ℕ} (h : gs.mapM groupValue = some vs)
      (hlen : vs.length = 8) : Denotes (join gs) vs
  | compressed {gs hs : List (List UInt8)} {vs ws : List ℕ} (hg : gs.mapM groupValue = some vs)
      (hh : hs.mapM groupValue = some ws) (hlen : vs.length + ws.length ≤ 7) :
      Denotes (join gs ++ [colon, colon] ++ join hs)
        (vs ++ List.replicate (8 - (vs.length + ws.length)) 0 ++ ws)

def Octet (t : List UInt8) : Prop :=
  1 ≤ t.length ∧ t.length ≤ 3 ∧ (∀ c ∈ t, 48 ≤ c.toNat ∧ c.toNat ≤ 57) ∧
    t.foldl (fun m c => m * 10 + (c.toNat - 48)) 0 ≤ 255

/-- A text with an embedded IPv4 address in the place of the last two groups. -/
def Mixed (t : List UInt8) : Prop :=
  ∃ front a b c d vs, t = front ++ colon :: [46].intercalate [a, b, c, d] ∧
    (Octet a ∧ Octet b ∧ Octet c ∧ Octet d) ∧ Denotes (front ++ [colon, 48, colon, 48]) vs

def bytesOf (vs : List ℕ) : List UInt8 := vs.flatMap fun v => [(v / 256).toUInt8, v.toUInt8]

def groupsOf : List UInt8 → List ℕ
  | hi :: lo :: rest => (hi.toNat * 256 + lo.toNat) :: groupsOf rest
  | _ => []

/-- Induction on the pairs of a list of even length. -/
@[elab_as_elim]
lemma pairs_induct {α : Type*} {P : ℕ → List α → Prop} (nil : P 0 [])
    (pair : ∀ k x y l, P k l → P (k + 1) (x :: y :: l)) :
    ∀ (k : ℕ) (l : List α), l.length = 2 * k → P k l
  | 0, l, h => by rw [eq_nil_of_length_eq_zero h]; exact nil
  | k + 1, [], h => by simp at h
  | k + 1, [x], h => by rw [length_singleton] at h; omega
  | k + 1, x :: y :: l, h => pair k x y l (pairs_induct nil pair k l (by
      simp only [length_cons] at h
      omega))

lemma length_groupsOf (k : ℕ) (h : a.length = 2 * k) : (groupsOf a).length = k := by
  refine pairs_induct rfl (fun k hi lo rest ih => ?_) k a h
  rw [groupsOf, length_cons, ih]

lemma groupsOf_lt (a : List UInt8) : ∀ v ∈ groupsOf a, v < 65536 := by
  induction a using groupsOf.induct with
  | case1 hi lo rest ih =>
    intro v hv
    have h1 := hi.toNat_lt
    have h2 := lo.toNat_lt
    rcases mem_cons.1 hv with rfl | hv
    · omega
    · exact ih v hv
  | case2 a ha =>
    intro v hv
    rw [groupsOf] at hv
    · cases hv
    · exact ha

lemma bytesOf_groupsOf (k : ℕ) (h : a.length = 2 * k) : bytesOf (groupsOf a) = a := by
  refine pairs_induct rfl (fun k hi lo rest ih => ?_) k a h
  have hlo := lo.toNat_lt
  have h1 : (hi.toNat * 256 + lo.toNat) / 256 = hi.toNat := by omega
  have h2 : (hi.toNat * 256 + lo.toNat).toUInt8 = lo := by
    apply UInt8.toNat.inj
    simp
  unfold bytesOf at ih ⊢
  rw [groupsOf, flatMap_cons, ih, h1, h2]
  simp

end Klibc.Lib.Ipv6
