import Mathlib.Data.Nat.Bitwise
import Klibc.Lib.Endian

/-! # Recognising a filesystem

Each of these functions looks at one kilobyte of a device for the mark of one kind of filesystem.
If it finds it, it stores the size that the superblock gives and accepts the block.

Fields are loaded in the byte order of the machine, `host`, and converted where the code does so. A
function gets the value of `*bytes` and returns the new one. It is `none` after a shift by 64 bits
or more, which is undefined in C. -/

namespace Klibc.Fstype.Superblocks

open Lib.Endian

def BLOCK_SIZE : ℕ := 1024

abbrev Block := Vector UInt8 BLOCK_SIZE

/-- The value of `*bytes`. -/
abbrev Size := Option ℕ

/-- What a function that recognises a filesystem returns, and `*bytes` after it. -/
abbrev Identify := Block → Size → Bool × Size

def contents (buf : Block) : ℕ → UInt8 := fun i => buf.toList.getD i 0

def literal (s : String) : List UInt8 := s.toList.map fun c => c.toNat.toUInt8

/-- `memcmp` finds no difference between the block from `off` on and a string. -/
def has (buf : Block) (off : ℕ) (s : String) : Bool :=
  decide (bytesAt (contents buf) off (literal s).length = literal s)

/-- A shift of an `unsigned long long`. -/
def shl (v n : ℕ) : Size := if n < 64 then some ((v <<< n) % 2 ^ 64) else none

def identifyIf (accepted : Bool) (size : Size) (bytes : Size) : Bool × Size :=
  if accepted then (true, size) else (false, bytes)

section

variable (host : ByteOrder)

/-- A field of `k` bytes as the machine loads it. -/
def load (buf : Block) (off k : ℕ) : ℕ := word host (contents buf) off k

/-- `__le16_to_cpu`, `__le32_to_cpu` and `__le64_to_cpu`; the conversions to little endian are the
same functions. -/
def le (k v : ℕ) : ℕ := fromOrder host .little k v

/-- `__be32_to_cpu` and `__be64_to_cpu`, and `__cpu_to_be32`. -/
def be (k v : ℕ) : ℕ := fromOrder host .big k v

lemma le_load (buf : Block) (off k : ℕ) :
    le host k (load host buf off k) = word .little (contents buf) off k :=
  fromOrder_word host .little (contents buf) off k

/-! ### Marks at the start of a device -/

def gzipImage : Identify := fun buf =>
  let p := contents buf
  identifyIf (p 0 == 0o37 && (p 1 == 0o213 || p 1 == 0o236)) (some 0)

def cramfsImage : Identify := fun buf =>
  identifyIf (load host buf 0 4 == 0x28cd3d45)
    (if load host buf 8 4 &&& 1 ≠ 0 then shl (load host buf 40 4) 10 else some 0)

def romfsImage : Identify := fun buf =>
  identifyIf (load host buf 0 4 == be host 4 0x2d726f6d &&
    load host buf 4 4 == be host 4 0x3166732d) (some (be host 4 (load host buf 8 4)))

def xfsImage : Identify := fun buf =>
  identifyIf (be host 4 (load host buf 0 4) == 0x58465342)
    (some (be host 8 (load host buf 8 8) * be host 4 (load host buf 4 4) % 2 ^ 64))

/-- The structure is packed and has a field of three bytes, so that `bytes_used` is at 63. -/
def squashfsImage : Identify := fun buf =>
  let magic := load host buf 0 4
  identifyIf (magic == 0x73717368 || magic == 0x68737173 || magic == 0x71736873 ||
    magic == 0x73687371) (some (load host buf 63 8))

def luksImage : Identify := fun buf => identifyIf (has buf 0 "LUKS\xBA\xBE") (some 0)

def lvm2Image : Identify := fun buf =>
  identifyIf ([0, 0x200].any fun i => has buf i "LABELONE" && has buf (i + 24) "LVM2 001") (some 0)

/-! ### The second kilobyte -/

/-- The size that an ext superblock gives: `10 + s_log_block_size` has 32 bits. -/
def extSize (buf : Block) : Size :=
  shl (le host 4 (load host buf 4 4)) ((10 + le host 4 (load host buf 24 4)) % 2 ^ 32)

def hasExtMagic (buf : Block) : Bool := load host buf 56 2 == le host 2 0xEF53

def anyFlag (buf : Block) (off mask : ℕ) : Bool := load host buf off 4 &&& le host 4 mask != 0

/-- The result, `*bytes` and `*test_fs`, which is stored if the block is accepted. There has to be a
feature that ext3 does not support. -/
def baseExt4Image (buf : Block) (bytes : Size) : Bool × Size × Option Bool :=
  if hasExtMagic host buf = false then (false, bytes, none)
  else if anyFlag host buf 96 0xFFFFFFE9 || anyFlag host buf 100 0xFFFFFFF8 then
    (true, extSize host buf, some (anyFlag host buf 352 4))
  else (false, bytes, none)

structure Modules where
  ext4Present : Bool
  ext4devPresent : Bool

def ext4Image (mods : Modules) : Identify := fun buf bytes =>
  match baseExt4Image host buf bytes with
  | (true, bytes, some testFs) => (!((testFs || !mods.ext4Present) && mods.ext4devPresent), bytes)
  | (_, bytes, _) => (false, bytes)

def ext4devImage (mods : Modules) : Identify := fun buf bytes =>
  match baseExt4Image host buf bytes with
  | (true, bytes, some testFs) => (!((!testFs || !mods.ext4devPresent) && mods.ext4Present), bytes)
  | (_, bytes, _) => (false, bytes)

def ext3Image : Identify := fun buf =>
  identifyIf (hasExtMagic host buf && anyFlag host buf 92 4) (extSize host buf)

def ext2Image : Identify := fun buf => identifyIf (hasExtMagic host buf) (extSize host buf)

def minixImage : Identify := fun buf =>
  let magic := load host buf 16 2
  identifyIf (magic == 0x137F || magic == 0x138F)
    (shl (load host buf 2 2) (load host buf 10 2 + 10))

def nilfs2Image : Identify := fun buf =>
  identifyIf (load host buf 6 2 == le host 2 0x3434 && load host buf 0 4 == le host 4 2)
    (some (le host 8 (load host buf 32 8)))

def isExt4 (buf : Block) : Bool :=
  hasExtMagic host buf && (anyFlag host buf 96 0xFFFFFFE9 || anyFlag host buf 100 0xFFFFFFF8)

lemma baseExt4Image_eq (buf : Block) (bytes : Size) : baseExt4Image host buf bytes =
    if isExt4 host buf then (true, extSize host buf, some (anyFlag host buf 352 4))
    else (false, bytes, none) := by
  unfold baseExt4Image isExt4
  cases hasExtMagic host buf <;> simp

lemma ext4Image_eq (mods : Modules) (buf : Block) (bytes : Size) :
    ext4Image host mods buf bytes = if isExt4 host buf then
      (!((anyFlag host buf 352 4 || !mods.ext4Present) && mods.ext4devPresent), extSize host buf)
    else (false, bytes) := by
  rw [ext4Image, baseExt4Image_eq]
  cases isExt4 host buf <;> rfl

lemma ext4devImage_eq (mods : Modules) (buf : Block) (bytes : Size) :
    ext4devImage host mods buf bytes = if isExt4 host buf then
      (!((!anyFlag host buf 352 4 || !mods.ext4devPresent) && mods.ext4Present), extSize host buf)
    else (false, bytes) := by
  rw [ext4devImage, baseExt4Image_eq]
  cases isExt4 host buf <;> rfl

/-! ### Marks further up -/

def ocfs2Image : Identify := fun buf => identifyIf (has buf 0 "OCFSV2") (some 0)

/-- `s_blocksize` has two bytes and is converted as if it had four. -/
def reiserfsImage : Identify := fun buf =>
  identifyIf (has buf 52 "ReIsErFs" || has buf 52 "ReIsEr2Fs" || has buf 52 "ReIsEr3Fs")
    (some (le host 4 (load host buf 0 4) * le host 4 (load host buf 44 2) % 2 ^ 64))

def reiser4Image : Identify := fun buf =>
  identifyIf (has buf 0 "ReIsEr4")
    (some (le host 4 (load host buf 16 2) * le host 4 (load host buf 18 2) % 2 ^ 64))

def gfs2Image : Identify := fun buf =>
  let format := be host 4 (load host buf 24 4)
  identifyIf (be host 4 (load host buf 0 4) == 0x01161970 && (format == 1801 || format == 1900))
    (some 0)

def btrfsImage : Identify := fun buf =>
  identifyIf (has buf 64 "_BHRfS_M") (some (le host 8 (load host buf 112 8)))

def jfsImage : Identify := fun buf =>
  identifyIf (has buf 0 "JFS1")
    (shl (le host 8 (load host buf 8 8)) (le host 2 (load host buf 28 2)))

def isoImage : Identify := fun buf => identifyIf (has buf 1 "CD001" || has buf 9 "CDROM") (some 0)

def swapImage : Identify := fun buf =>
  identifyIf (has buf 1014 "SWAP-SPACE" || has buf 1014 "SWAPSPACE2") (some 0)

def suspendImage : Identify := fun buf =>
  identifyIf (has buf 1014 "S1SUSPEND" || has buf 1014 "S2SUSPEND" || has buf 1014 "ULSUSPEND")
    (some 0)

end

end Klibc.Fstype.Superblocks
