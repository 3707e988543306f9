import Mathlib.Data.List.Basic

/-! # Items of code, length and data

A message is a sequence of items, each a code byte, a length byte and that many data bytes, and ends
with one byte `stop`. `decode` reads a message; what `encode` writes is read back as it was
(`decode_encode`). -/

namespace Klibc.Lib.Tlv

open List

abbrev Item := UInt8 × List UInt8

def encodeItem (x : Item) : List UInt8 := x.1 :: UInt8.ofNat x.2.length :: x.2

def encode (stop : UInt8) (xs : List Item) : List UInt8 := xs.flatMap encodeItem ++ [stop]

section
variable (isCode : UInt8 → Bool) (stop : UInt8)

/-- The items of a message, if it is well formed: every item is complete, and nothing follows the
byte `stop`. -/
def decode : List UInt8 → Option (List Item)
  | [] => none
  | [c] => if c = stop then some [] else none
  | c :: n :: rest =>
    if isCode c && n.toNat ≤ rest.length then
      (decode (rest.drop n.toNat)).map ((c, rest.take n.toNat) :: ·)
    else none
termination_by l => l.length
decreasing_by simp only [length_drop, length_cons]; omega

variable {isCode stop}

lemma decode_item_append {c : UInt8} {d rest : List UInt8} (hc : isCode c) (hd : d.length < 256) :
    decode isCode stop (encodeItem (c, d) ++ rest) =
      (decode isCode stop rest).map ((c, d) :: ·) := by
  have hn : (UInt8.ofNat d.length).toNat = d.length := by
    rw [UInt8.toNat_ofNat']
    exact Nat.mod_eq_of_lt hd
  have hfits : d.length ≤ (d ++ rest).length := by
    rw [length_append]
    exact Nat.le_add_right _ _
  have hcond : (isCode c && decide (d.length ≤ (d ++ rest).length)) = true := by
    rw [hc, decide_eq_true hfits]
    rfl
  rw [encodeItem, cons_append, cons_append, decode, hn, if_pos hcond, drop_left, take_left]

/-- **What is encoded is decoded as it was.** -/
theorem decode_encode : ∀ xs : List Item, (∀ x ∈ xs, isCode x.1 ∧ x.2.length < 256) →
    decode isCode stop (encode stop xs) = some xs
  | [], _ => by simp [encode, decode]
  | x :: xs, h => by
    have hx := h x mem_cons_self
    have ih : decode isCode stop (encode stop xs) = some xs :=
      decode_encode xs fun y hy => h y (mem_cons_of_mem x hy)
    rw [encode, flatMap_cons, append_assoc, decode_item_append hx.1 hx.2]
    change (decode isCode stop (encode stop xs)).map _ = _
    rw [ih]
    rfl

end

end Klibc.Lib.Tlv
