import Mathlib.Data.Nat.Digits.Defs
import Klibc.Lib.Memory

/-! # Byte orders

The number in some bytes of a memory depends on the order of the machine that reads them.
`word o m a k` is the number in the `k` bytes at `a` for a machine of order `o`, and `place` writes
one. `fromOrder` is the conversion that a machine applies to what it has read: it gives the number
that a machine of the other order reads (`fromOrder_word`). -/

namespace Klibc.Lib.Endian

open List
open Memory (Bytes)

/-- The order of the bytes of a number: lowest first or highest first. -/
inductive ByteOrder
  | little
  | big
  deriving DecidableEq

def ofBytes : ByteOrder → List UInt8 → ℕ
  | .little, l => Nat.ofDigits 256 (l.map UInt8.toNat)
  | .big, l => Nat.ofDigits 256 (l.reverse.map UInt8.toNat)

/-- The `k` lowest bytes of a number. -/
def toBytes : ByteOrder → ℕ → ℕ → List UInt8
  | .little, k, v => (List.range k).map fun i => UInt8.ofNat (v / 256 ^ i)
  | .big, k, v => ((List.range k).map fun i => UInt8.ofNat (v / 256 ^ i)).reverse

/-- The bytes of a number of `k` bytes in the opposite order. -/
def swap (k v : ℕ) : ℕ := ofBytes .big (toBytes .little k v)

/-- What a machine of order `host` makes of a number of order `o`. -/
def fromOrder (host o : ByteOrder) (k v : ℕ) : ℕ := if host = o then v else swap k v

def bytesAt (m : Bytes) (a k : ℕ) : List UInt8 := (List.range k).map fun i => m (a + i)

/-- The number in the `k` bytes at `a`. -/
def word (o : ByteOrder) (m : Bytes) (a k : ℕ) : ℕ := ofBytes o (bytesAt m a k)

/-- The memory with a number written to the `k` bytes at `a`. -/
def place (o : ByteOrder) (m : Bytes) (a k v : ℕ) : Bytes := fun x =>
  if a ≤ x ∧ x < a + k then (toBytes o k v).getD (x - a) 0 else m x

variable {o : ByteOrder} {m m' : Bytes} {a b k v : ℕ}

/-! ### Bytes and numbers -/

lemma length_bytesAt (m : Bytes) (a k : ℕ) : (bytesAt m a k).length = k := by simp [bytesAt]

lemma length_toBytes (o : ByteOrder) (k v : ℕ) : (toBytes o k v).length = k := by
  cases o <;> simp [toBytes]

lemma ofBytes_lt (o : ByteOrder) (l : List UInt8) : ofBytes o l < 256 ^ l.length := by
  have hlt (l : List UInt8) : Nat.ofDigits 256 (l.map UInt8.toNat) < 256 ^ l.length := by
    refine (Nat.ofDigits_lt_base_pow_length (by decide) fun x hx => ?_).trans_eq (by simp)
    obtain ⟨c, -, rfl⟩ := mem_map.1 hx
    exact c.toNat_lt
  cases o with
  | little => exact hlt l
  | big => simpa [ofBytes] using hlt l.reverse

lemma toBytes_ofBytes (o : ByteOrder) (l : List UInt8) : toBytes o l.length (ofBytes o l) = l := by
  have hlow : ∀ l : List UInt8, (List.range l.length).map
      (fun i => UInt8.ofNat (Nat.ofDigits 256 (l.map UInt8.toNat) / 256 ^ i)) = l := by
    intro l
    induction l with
    | nil => rfl
    | cons c l ih =>
      have hc := c.toNat_lt
      rw [length_cons, range_succ_eq_map, map_cons, map_cons, map_map, Nat.ofDigits_cons]
      congr 1
      · rw [pow_zero, Nat.div_one, ← UInt8.toNat_inj, UInt8.toNat_ofNat']
        omega
      · conv_rhs => rw [← ih]
        refine map_congr_left fun i _ => ?_
        rw [Function.comp, pow_succ', ← Nat.div_div_eq_div_mul]
        congr 2
        omega
  cases o with
  | little => exact hlow l
  | big =>
    have h := hlow l.reverse
    rw [length_reverse] at h
    rw [toBytes, ofBytes, h, reverse_reverse]

lemma ofBytes_toBytes (o : ByteOrder) (h : v < 256 ^ k) : ofBytes o (toBytes o k v) = v := by
  have hlow : ∀ k v, v < 256 ^ k →
      Nat.ofDigits 256 (((List.range k).map fun i => UInt8.ofNat (v / 256 ^ i)).map UInt8.toNat) =
        v := by
    intro k
    induction k with
    | zero =>
      intro v hv
      rw [pow_zero] at hv
      have hv0 : v = 0 := by omega
      rw [hv0]
      rfl
    | succ k ih =>
      intro v hv
      have hrest : ((List.range k).map Nat.succ).map (fun i => UInt8.ofNat (v / 256 ^ i)) =
          (List.range k).map fun i => UInt8.ofNat (v / 256 / 256 ^ i) := by
        rw [map_map]
        refine map_congr_left fun i _ => ?_
        rw [Function.comp, pow_succ', ← Nat.div_div_eq_div_mul]
      rw [pow_succ'] at hv
      rw [range_succ_eq_map, map_cons, hrest, map_cons, Nat.ofDigits_cons,
        ih (v / 256) (Nat.div_lt_of_lt_mul hv), UInt8.toNat_ofNat', pow_zero, Nat.div_one]
      exact Nat.mod_add_div v 256
  cases o with
  | little => exact hlow k v h
  | big => rw [toBytes, ofBytes, reverse_reverse, hlow k v h]

/-! ### Words -/

lemma word_lt (o : ByteOrder) (m : Bytes) (a k : ℕ) : word o m a k < 256 ^ k := by
  simpa [word, length_bytesAt] using ofBytes_lt o (bytesAt m a k)

lemma word_congr (o : ByteOrder) (h : ∀ i < k, m (a + i) = m' (b + i)) :
    word o m a k = word o m' b k := by
  rw [word, word, bytesAt, bytesAt, map_congr_left fun i hi => h i (mem_range.1 hi)]

/-- **A number that was written** is there. -/
theorem word_place (h : v < 256 ^ k) : word o (place o m a k v) a k = v := by
  have hbytes : bytesAt (place o m a k v) a k = toBytes o k v := by
    refine ext_getElem (by rw [length_bytesAt, length_toBytes]) fun i hi hi' => ?_
    rw [length_bytesAt] at hi
    simp [bytesAt, place, hi, hi']
  rw [word, hbytes, ofBytes_toBytes o h]

lemma word_place_of_apart {o' : ByteOrder} {j : ℕ} (h : a + k ≤ b ∨ b + j ≤ a) :
    word o' (place o m a k v) b j = word o' m b j :=
  word_congr o' fun i hi => if_neg (by omega)

/-- **Conversion**: the number that a machine of order `o` reads. -/
theorem fromOrder_word (host o : ByteOrder) (m : Bytes) (a k : ℕ) :
    fromOrder host o k (word host m a k) = word o m a k := by
  have hlow (l : List UInt8) : toBytes .little l.length (ofBytes .little l) = l :=
    toBytes_ofBytes .little l
  have hbytes := hlow (bytesAt m a k)
  have hreverse := hlow (bytesAt m a k).reverse
  rw [length_bytesAt] at hbytes
  rw [length_reverse, length_bytesAt] at hreverse
  cases host <;> cases o
  · rfl
  · exact congrArg (ofBytes .big) hbytes
  · refine (congrArg (ofBytes .big) hreverse).trans ?_
    rw [word, ofBytes, ofBytes, reverse_reverse]
  · rfl

end Klibc.Lib.Endian
