import Klibc.Lib.Memory
import Klibc.Lib.Cells
import Klibc.Lib.Total

/-! # The allocator

`malloc.c` in its mmap variant, with `calloc.c` and `realloc.c`.  Memory is bytes; the headers of
`malloc.h` are records of machine words in it.  All `size_t` and pointer arithmetic is modulo
`2 ^ (8 * W)`, with `W = sizeof(size_t) = sizeof(void *)`.

A piece of code that only touches headers is a `Prog` over them.  A call is such pieces and the
system calls in between, over the memory and the set of mapped addresses; a call that faults or
never ends has no result. -/

namespace Klibc.Malloc.Arena

open Lib.Memory Lib.Cells

/-! ### The machine and `malloc.h` -/

/-- The machine and the configuration: word size, page size, chunk size, and where the static data
with `__malloc_head` is. -/
structure Arch where
  W : ℕ
  pageShift : ℕ
  chunkShift : ℕ
  /-- `&__malloc_head` -/
  head : ℕ
  dataLo : ℕ
  dataHi : ℕ
  width : W = 4 ∨ W = 8
  pageMin : 12 ≤ pageShift
  pageMax : pageShift ≤ chunkShift
  chunkMax : chunkShift + 3 ≤ 8 * W
  dataLo_le : dataLo ≤ head
  le_dataHi : head + 6 * W ≤ dataHi
  dataHi_le : dataHi ≤ 2 ^ (8 * W)
  dataLo_dvd : 2 ^ pageShift ∣ dataLo
  dataHi_dvd : 2 ^ pageShift ∣ dataHi

/-- The number of values of a `size_t`. -/
def Arch.word (A : Arch) : ℕ := 2 ^ (8 * A.W)

/-- `sizeof(struct arena_header)` -/
def Arch.hdr (A : Arch) : ℕ := 4 * A.W

/-- `getpagesize()` -/
def Arch.page (A : Arch) : ℕ := 2 ^ A.pageShift

/-- `_KLIBC_MALLOC_CHUNK_SIZE`, by default 65536. -/
def Arch.chunk (A : Arch) : ℕ := 2 ^ A.chunkShift

abbrev arenaTypeUsed : ℕ := 0
abbrev arenaTypeFree : ℕ := 1
abbrev arenaTypeHead : ℕ := 2

/-- The fields of `struct free_arena_header`, in order. -/
inductive Field where
  | type | size | next | prev | nextFree | prevFree
  deriving DecidableEq

def Field.index : Field → ℕ
  | type => 0
  | size => 1
  | next => 2
  | prev => 3
  | nextFree => 4
  | prevFree => 5

def headers (A : Arch) : Store Field Bytes where
  get m a f := load m (a + A.W * f.index) A.W
  set m a f v := store m (a + A.W * f.index) A.W v

variable (A : Arch)

/-- `x + y` in `size_t`. -/
def add (x y : ℕ) : ℕ := (x + y) % A.word

/-- `x - y` in `size_t`. -/
def sub (x y : ℕ) : ℕ := (x + (A.word - y)) % A.word

/-! ### The chains -/

def removeFromMainChain (ah : ℕ) : Prog Field Unit := do
  let ap ← read ah .prev
  let an ← read ah .next
  write ap .next an
  write an .prev ap

def removeFromFreeChain (ah : ℕ) : Prog Field Unit := do
  let ap ← read ah .prevFree
  let an ← read ah .nextFree
  write ap .nextFree an
  write an .prevFree ap

def removeFromChains (ah : ℕ) : Prog Field Unit := do
  removeFromFreeChain ah
  removeFromMainChain ah

/-- The split of `__malloc_from_block`: `fp` keeps `size` bytes, the rest is a new free block. -/
def splitBlock (fp fsize size : ℕ) : Prog Field Unit := do
  let nfp := add A fp size
  let na ← read fp .next
  write nfp .type arenaTypeFree
  write nfp .size (sub A fsize size)
  write fp .type arenaTypeUsed
  write fp .size size
  -- insert into all-block chain
  write nfp .prev fp
  write nfp .next na
  write na .prev nfp
  write fp .next nfp
  -- replace current block on free chain
  let fpn ← read fp .nextFree
  write nfp .nextFree fpn
  let fpp ← read fp .prevFree
  write nfp .prevFree fpp
  write fpn .prevFree nfp
  write fpp .nextFree nfp

def mallocFromBlock (fp size : ℕ) : Prog Field ℕ := do
  let fsize ← read fp .size
  if add A size (2 * A.hdr) ≤ fsize then
    splitBlock A fp fsize size
  else do
    write fp .type arenaTypeUsed
    removeFromFreeChain fp
  pure (add A fp A.hdr)

/-- The test `t->a.type == ARENA_TYPE_FREE && (char *)lo + lo->a.size == (char *)hi`. -/
def freeAndTouching (t lo hi : ℕ) : Prog Field Bool := do
  let type ← read t .type
  if type = arenaTypeFree then do
    let size ← read lo .size
    pure (decide (add A lo size = hi))
  else
    pure false

/-- Coalesce `ah` into the block `pah` before it. -/
def coalesce (pah ah nah : ℕ) : Prog Field Unit := do
  let ps ← read pah .size
  let s ← read ah .size
  write pah .size (add A ps s)
  write pah .next nah
  write nah .prev pah

/-- Put `ah` at the front of the free chain. -/
def pushFree (ah : ℕ) : Prog Field Unit := do
  write ah .type arenaTypeFree
  let first ← read A.head .nextFree
  write ah .nextFree first
  write ah .prevFree A.head
  write A.head .nextFree ah
  let an ← read ah .nextFree
  write an .prevFree ah

/-- The first half of `__free_block`; returns the block that holds `ah` now. -/
def mergePrev (ah pah nah : ℕ) : Prog Field ℕ := do
  let join ← freeAndTouching A pah pah ah
  if join then do
    coalesce A pah ah nah
    pure pah
  else do
    pushFree A ah
    pure ah

/-- The second half of `__free_block`. -/
def mergeNext (ah nah : ℕ) : Prog Field Unit := do
  let join ← freeAndTouching A nah ah nah
  if join then do
    let s ← read ah .size
    let ns ← read nah .size
    write ah .size (add A s ns)
    removeFromChains nah
  else
    pure ()

def freeBlock (ah : ℕ) : Prog Field ℕ := do
  let pah ← read ah .prev
  let nah ← read ah .next
  let ah ← mergePrev A ah pah nah
  mergeNext A ah nah
  pure ah

/-! ### `malloc` -/

/-- `(size + 2 * sizeof(struct arena_header) - 1) & ARENA_SIZE_MASK` -/
def roundSize (size : ℕ) : ℕ := (size + (2 * A.hdr - 1)) % A.word &&& (A.word - A.hdr)

/-- `(size + MALLOC_CHUNK_MASK) & ~MALLOC_CHUNK_MASK` -/
def roundChunk (size : ℕ) : ℕ := (size + (A.chunk - 1)) % A.word &&& (A.word - A.chunk)

/-- The search for a fit.  A walk of more than `fuel` nodes never ends: there are fewer addresses.
-/
def findFit (size : ℕ) : (fuel fp : ℕ) → Prog Field (Option ℕ)
  | 0, _ => .stuck
  | fuel + 1, fp => do
    let type ← read fp .type
    if type = arenaTypeHead then
      pure none
    else do
      let fsize ← read fp .size
      if size ≤ fsize then
        pure (some fp)
      else do
        let next ← read fp .nextFree
        findFit size fuel next

def firstFit (size : ℕ) : Prog Field (Option ℕ) := do
  let fp ← read A.head .nextFree
  findFit size A.word fp

/-- The search, backwards, for the node that should be the predecessor of `fp`. -/
def findPlace (fp : ℕ) : (fuel pah : ℕ) → Prog Field ℕ
  | 0, _ => .stuck
  | fuel + 1, pah => do
    let type ← read pah .type
    if type = arenaTypeHead then
      pure pah
    else if pah < fp then
      pure pah
    else do
      let prev ← read pah .prev
      findPlace fp fuel prev

def insertBlock (fp fsize : ℕ) : Prog Field Unit := do
  write fp .type arenaTypeFree
  write fp .size fsize
  let last ← read A.head .prev
  let pah ← findPlace fp A.word last
  let next ← read pah .next
  write fp .next next
  write fp .prev pah
  write pah .next fp
  let fn ← read fp .next
  write fn .prev fp

/-- The memory, and which addresses are mapped by `mmap` and not yet unmapped. -/
structure Sys where
  mem : Bytes
  mapped : ℕ → Bool

/-- The field can be read and written: all of its bytes are memory from `mmap` or static data. -/
def Sys.reaches (s : Sys) (a : ℕ) (f : Field) : Bool :=
  (List.range A.W).all fun i =>
    let x := a + A.W * f.index + i
    s.mapped x || (decide (A.dataLo ≤ x) && decide (x < A.dataHi))

/-- The region of `len` bytes at `addr` mapped. -/
def Sys.map (s : Sys) (addr len : ℕ) : Sys :=
  { s with mapped := fun x => s.mapped x || (decide (addr ≤ x) && decide (x < addr + len)) }

/-- The region of `len` bytes at `addr` unmapped. -/
def Sys.unmap (s : Sys) (addr len : ℕ) : Sys :=
  { s with mapped := fun x => s.mapped x && !(decide (addr ≤ x) && decide (x < addr + len)) }

/-- A call: it changes the memory and the mappings, and returns unless it faults or never ends. -/
abbrev Call := StateT Sys Option

/-- A piece of code on the headers, which faults outside of the memory from `mmap` and the static
data. -/
def exec {α : Type} (q : Prog Field α) : Call α := fun s =>
  (run (s.reaches A) (headers A) q s.mem).map fun r => (r.1, { s with mem := r.2 })

/-- `mmap`: the kernel answers with an address or `MAP_FAILED`; a length of `0` is an error. -/
def mmap (ask : ℕ → Option ℕ) (len : ℕ) : Call (Option ℕ) := fun s =>
  if len = 0 then some (none, s)
  else match ask len with
    | none => some (none, s)
    | some fp => some (some fp, s.map fp len)

/-- `munmap`: the address must be that of a page; the length is rounded up to pages. -/
def munmap (addr len : ℕ) : Call Unit := fun s =>
  if addr % A.page ≠ 0 ∨ len = 0 then some ((), s)
  else some ((), s.unmap addr ((len + (A.page - 1)) / A.page * A.page))

def malloc (ask : ℕ → Option ℕ) (size : ℕ) : Call ℕ :=
  if size = 0 then pure 0
  else do
    let size := roundSize A size
    let fit ← exec A (firstFit A size)
    match fit with
    | some fp => exec A (mallocFromBlock A fp size)
    | none => do
      let fsize := roundChunk A size
      let got ← mmap ask fsize
      match got with
      | none => pure 0
      | some fp => do
        exec A (insertBlock A fp fsize)
        let fp ← exec A (freeBlock A fp)
        exec A (mallocFromBlock A fp size)

/-! ### `free` -/

def extendPortion (portion : ℕ) : ℕ :=
  if portion ≠ 0 ∧ portion < 2 * A.hdr then add A portion A.page else portion

/-- `head_portion` -/
def headPortion (ah : ℕ) : ℕ := extendPortion A (sub A 0 ah &&& (A.page - 1))

/-- `tail_portion` -/
def tailPortion (ah size : ℕ) : ℕ := extendPortion A (add A ah size &&& (A.page - 1))

/-- The tail of the block `ah` becomes a block of its own. -/
def splitTail (ah tah tail : ℕ) : Prog Field Unit := do
  write tah .type arenaTypeFree
  write tah .size tail
  let tan ← read ah .next
  write tah .next tan
  write tan .prev tah
  write tah .prev ah
  write ah .next tah
  let tap ← read ah .prevFree
  write tah .prevFree tap
  write tap .nextFree tah
  write tah .nextFree ah
  write ah .prevFree tah

def trimTail (ah tah tail : ℕ) : Prog Field Unit :=
  if tail ≠ 0 then splitTail ah tah tail else pure ()

def trimHead (ah head : ℕ) : Prog Field Unit :=
  if head ≠ 0 then write ah .size head else removeFromChains ah

/-- The end of `free`: what of the free block `ah` goes back to the system, if that is worth it. -/
def trim (ah : ℕ) : Prog Field (Option (ℕ × ℕ)) := do
  let size ← read ah .size
  let head := headPortion A ah
  let tail := tailPortion A ah size
  let adj := sub A (sub A size head) tail
  if add A (add A head tail) A.chunk ≤ size then do
    trimTail ah (add A (add A ah head) adj) tail
    trimHead ah head
    pure (some (add A ah head, adj))
  else
    pure none

def free (ptr : ℕ) : Call Unit :=
  if ptr = 0 then pure ()
  else do
    let ah ← exec A (freeBlock A (sub A ptr A.hdr))
    let hole ← exec A (trim A ah)
    match hole with
    | none => pure ()
    | some (addr, len) => munmap A addr len

/-! ### `calloc` and `realloc` -/

/-- All of the `n` bytes at `p` are memory from `mmap`. -/
def Sys.accessible (s : Sys) (p n : ℕ) : Bool := (List.range n).all fun i => s.mapped (p + i)

/-- `memset`, which faults outside of the memory from `mmap`. -/
def memset (p : ℕ) (v : UInt8) (n : ℕ) : Call Unit := fun s =>
  if s.accessible p n then
    some ((), { s with mem := fun x => if p ≤ x ∧ x < p + n then v else s.mem x })
  else none

/-- `memcpy`, which faults at `NULL` and outside of the memory from `mmap`. -/
def memcpy (dst src n : ℕ) : Call Unit := fun s =>
  if n = 0 then some ((), s)
  else if dst ≠ 0 ∧ s.accessible dst n ∧ s.accessible src n then
    some ((), { s with
      mem := fun x => if dst ≤ x ∧ x < dst + n then s.mem (src + (x - dst)) else s.mem x })
  else none

def calloc (ask : ℕ → Option ℕ) (nmemb size : ℕ) : Call ℕ := do
  let size := size * nmemb % A.word
  let ptr ← malloc A ask size
  if ptr ≠ 0 then memset ptr 0 size else pure ()
  pure ptr

def realloc (ask : ℕ → Option ℕ) (ptr size : ℕ) : Call ℕ :=
  if ptr = 0 then malloc A ask size
  else if size = 0 then do
    free A ptr
    pure 0
  else do
    let size := roundSize A size
    let bsize ← exec A (read (sub A ptr A.hdr) .size)
    if size ≤ bsize ∧ bsize / 4 ≤ size then
      pure ptr
    else do
      let oldsize := sub A bsize A.hdr
      let newptr ← malloc A ask size
      memcpy newptr ptr (if size < oldsize then size else oldsize)
      free A ptr
      pure newptr

end Klibc.Malloc.Arena
