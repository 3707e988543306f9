import Klibc.Stdio.Conformance

/-! # Plain formats

Formats of ordinary characters, `%s` and `%c`, without flags, widths or precisions. Their text is
that of their pieces, one after the other, and `vsnprintf` writes it (`vsnprintf_plain`). -/

namespace Klibc.Stdio.Plain

open Vsnprintf Truncation Iso Conformance List

inductive Piece
  | lit (ch : UInt8) (percent : ch ≠ chr '%') (nul : ch ≠ 0)
  | str (w : List UInt8) (nul : 0 ∉ w)
  | char (arg : BitVec 32)

def Piece.text : Piece → List UInt8
  | .lit ch _ _ => [ch]
  | .str w _ => w
  | .char arg => [(arg.setWidth 8).toNat.toUInt8]

section
variable {bits : ℕ}

def Piece.item : Piece → Item bits
  | .lit ch percent nul => .ordinary ch percent nul
  | .str w _ => .str ⟨[], .omitted, .none, w ++ [0], no_flags, by simp⟩
  | .char arg => .char ⟨[], .omitted, arg, no_flags⟩

lemma text_item (x : Piece) : (x.item : Item bits).text = x.text := by
  cases x with
  | lit ch percent nul => rfl
  | str w nul =>
    have hall : ∀ b ∈ w, decide (b ≠ 0) = true := fun b hb => decide_eq_true fun h0 => nul (h0 ▸ hb)
    have hbytes : (w ++ [0]).takeWhile (· ≠ 0) = w := by
      rw [takeWhile_append_of_pos hall, takeWhile_cons_of_neg (by simp), append_nil]
    change List.replicate (0 - _) _ ++ [] ++ (w ++ [0]).takeWhile (· ≠ 0) = w
    rw [hbytes, Nat.zero_sub]
    rfl
  | char arg => rfl

def items (bits : ℕ) (ps : List Piece) : List (Item bits) := ps.map Piece.item

lemma textOf_items (ps : List Piece) : textOf (items bits ps) = ps.flatMap Piece.text := by
  rw [textOf, items, flatMap_map]
  exact congrArg (ps.flatMap ·) (funext text_item)

lemma good_item (x : Piece) : Good (x.item : Item bits) := by
  cases x with
  | str w nul => exact mem_append_right w (mem_singleton_self 0)
  | _ => trivial

lemma fits_item {x : Piece} (h : x.text.length ≤ INT_MAX) : Fits (x.item : Item bits) := by
  cases x with
  | str w nul =>
    refine ⟨fun n hn => ?_, fun p hp => by cases hp⟩
    obtain rfl := Option.some.inj ((strlen_append nul).symm.trans hn)
    exact h
  | _ => trivial

end

/-- **The text of a plain format**, as much of it as fits into the buffer. -/
theorem vsnprintf_plain (arch : Arch) (ps : List Piece)
    (hlen : (ps.flatMap Piece.text).length ≤ INT_MAX) (n : ℕ) :
    ∃ r, vsnprintf arch n (formatOf (items arch.bits ps)) (argsOf (items arch.bits ps)) = some r ∧
      r.ret = (ps.flatMap Piece.text).length ∧ Truncated n (ps.flatMap Piece.text) r.buf := by
  have htext : textOf (items arch.bits ps) = ps.flatMap Piece.text := textOf_items ps
  rw [← htext] at hlen ⊢
  refine vsnprintf_writes_iso arch _ hlen (fun x hx => ?_) (fun x hx => ?_) n
  · obtain ⟨y, hy, rfl⟩ := mem_map.1 hx
    refine fits_item (le_trans ?_ hlen)
    rw [htext]
    exact (sublist_flatten_of_mem (mem_map_of_mem hy)).length_le
  · obtain ⟨y, -, rfl⟩ := mem_map.1 hx
    exact good_item y

end Klibc.Stdio.Plain
