import Klibc.Fstype.Superblocks
import Klibc.Lib.Machine

/-! # The search for a filesystem

`identify_fs` goes through a table of functions, each with the number of the block it looks at. A
block is read again only if its number is not that of the block before. The two entries for swap
space have the number -1 until they are first reached, when it is replaced in the table, for this
call and all later ones.

The search has the results of the plain one, which reads the block of each entry anew and has no
state (`plainSearch`). -/

namespace Klibc.Fstype.Identify

open Superblocks Lib.Endian Lib.Machine List

/-! ### The code -/

structure ImageType where
  block : ℤ
  name : String
  identify : Identify

def images (host : ByteOrder) (mods : Modules) : List ImageType := [
  ⟨0, "gzip", gzipImage⟩,
  ⟨0, "cramfs", cramfsImage host⟩,
  ⟨0, "romfs", romfsImage host⟩,
  ⟨0, "xfs", xfsImage host⟩,
  ⟨0, "squashfs", squashfsImage host⟩,
  ⟨1, "ext4dev", ext4devImage host mods⟩,
  ⟨1, "ext4", ext4Image host mods⟩,
  ⟨1, "ext3", ext3Image host⟩,
  ⟨1, "ext2", ext2Image host⟩,
  ⟨1, "minix", minixImage host⟩,
  ⟨1, "nilfs2", nilfs2Image host⟩,
  ⟨2, "ocfs2", ocfs2Image⟩,
  ⟨8, "reiserfs", reiserfsImage host⟩,
  ⟨64, "reiserfs", reiserfsImage host⟩,
  ⟨64, "reiser4", reiser4Image host⟩,
  ⟨64, "gfs2", gfs2Image host⟩,
  ⟨64, "btrfs", btrfsImage host⟩,
  ⟨32, "jfs", jfsImage host⟩,
  ⟨32, "iso9660", isoImage⟩,
  ⟨0, "luks", luksImage⟩,
  ⟨0, "lvm2", lvm2Image⟩,
  ⟨1, "lvm2", lvm2Image⟩,
  ⟨-1, "swap", swapImage⟩,
  ⟨-1, "suspend", suspendImage⟩]

/-- What `getpagesize` returns. -/
structure PageSize where
  size : ℕ
  size_ge : 1024 ≤ size
  size_dvd : 1024 ∣ size
  size_lt : size < 2 ^ 31

/-- `SWAP_OFFSET()`. -/
def swapOffset (page : PageSize) : ℤ := ((page.size - 1024) >>> 10 : ℕ)

/-- What `pread` finds at each position: `none` if it fails or reads less than a block. There is
nothing at a position that is no `off_t` or negative. -/
structure Device where
  pread : ℤ → Option Block
  pread_neg : ∀ pos < 0, pread pos = none
  pread_high : ∀ pos, 2 ^ 63 ≤ pos → pread pos = none

/-- A value of type `off_t`. -/
structure Offset where
  val : ℤ
  val_ge : -2 ^ 63 ≤ val
  val_lt : val < 2 ^ 63

/-- What `identify_fs` returns, `*fstype` and `*bytes`. -/
structure Result where
  ret : ℤ
  fstype : Option String
  bytes : Size

section

variable (page : PageSize) (dev : Device) (offset : Offset)

def resolve (ip : ImageType) : ImageType :=
  if ip.block = -1 then { ip with block := swapOffset page } else ip

/-- The block of an entry: the one in `buf`, or the one that is read. -/
def fetch (curBlock : ℤ) (buf : Block) (block : ℤ) : Option Block :=
  if curBlock ≠ block then dev.pread (wrap 64 (offset.val + wrap 64 (block * BLOCK_SIZE)))
  else some buf

def search : List ImageType → ℤ → Block → Size → Result × List ImageType
  | [], _, _, bytes => (⟨1, none, bytes⟩, [])
  | ip :: ips, curBlock, buf, bytes =>
    let ip := resolve page ip
    match fetch dev offset curBlock buf ip.block with
    | none => (⟨-1, none, bytes⟩, ip :: ips)
    | some buf =>
      let (accepted, bytes) := ip.identify buf bytes
      if accepted then (⟨0, some ip.name, bytes⟩, ip :: ips)
      else
        let (r, ips) := search ips ip.block buf bytes
        (r, ip :: ips)

/-- The table is the state, `junk` is what `buf` holds before it is first written. -/
def identifyFs (junk : Block) (table : List ImageType) : Result × List ImageType :=
  search page dev offset table (-1) junk (some 0)

end

/-- The tables that earlier calls can have left. -/
inductive Reachable (host : ByteOrder) (mods : Modules) (page : PageSize) : List ImageType → Prop
  | init : Reachable host mods page (images host mods)
  | call {table : List ImageType} (dev : Device) (offset : Offset) (junk : Block)
      (h : Reachable host mods page table) :
      Reachable host mods page (identifyFs page dev offset junk table).2

/-! ### The plain search -/

/-- Where the block of an entry lies: the last kilobyte of the first page for the number -1. -/
def position (page : PageSize) (e : ImageType) : ℤ :=
  if e.block = -1 then (page.size : ℤ) - 1024 else e.block * 1024

def blockOf (page : PageSize) (dev : Device) (offset : Offset) (e : ImageType) : Option Block :=
  dev.pread (offset.val + position page e)

def plainSearch (page : PageSize) (dev : Device) (offset : Offset) : List ImageType → Result
  | [] => ⟨1, none, some 0⟩
  | e :: es => match blockOf page dev offset e with
    | none => ⟨-1, none, some 0⟩
    | some b => if (e.identify b (some 0)).1 then ⟨0, some e.name, (e.identify b (some 0)).2⟩
      else plainSearch page dev offset es

/-! ### The numbers of the blocks -/

section

variable {page : PageSize} {dev : Device} {offset : Offset}

lemma resolve_block_ne (page : PageSize) (ip : ImageType) : (resolve page ip).block ≠ -1 := by
  have hswap : 0 ≤ swapOffset page := Int.natCast_nonneg _
  unfold resolve
  split_ifs with h
  · exact fun heq => by simp only at heq; omega
  · exact h

lemma resolve_resolve (page : PageSize) (ip : ImageType) :
    resolve page (resolve page ip) = resolve page ip :=
  if_neg (resolve_block_ne page ip)

lemma resolve_identify (page : PageSize) (ip : ImageType) :
    (resolve page ip).identify = ip.identify := by
  unfold resolve
  split_ifs <;> rfl

lemma resolve_name (page : PageSize) (ip : ImageType) : (resolve page ip).name = ip.name := by
  unfold resolve
  split_ifs <;> rfl

lemma resolve_block_mul (page : PageSize) (ip : ImageType) :
    (resolve page ip).block * BLOCK_SIZE = position page ip := by
  obtain ⟨k, hk⟩ := page.size_dvd
  have hge := page.size_ge
  unfold resolve position BLOCK_SIZE
  split_ifs
  · simp only [swapOffset, Nat.shiftRight_eq_div_pow]
    omega
  · rfl

/-- **Where the sum overflows**, there is nothing to read at either position. -/
theorem pread_wrap (dev : Device) (offset : Offset) {x : ℤ} (h0 : 0 ≤ x) (h1 : x < 2 ^ 63) :
    dev.pread (wrap 64 (offset.val + wrap 64 x)) = dev.pread (offset.val + x) := by
  have hge := offset.val_ge
  have hlt := offset.val_lt
  have hx : wrap 64 x = x := wrap_eq (by decide) (by omega) (by omega)
  rw [hx]
  by_cases hsum : offset.val + x < 2 ^ 63
  · have hin : wrap 64 (offset.val + x) = offset.val + x :=
      wrap_eq (by decide) (by omega) (by omega)
    rw [hin]
  · have hneg : wrap 64 (offset.val + x) = offset.val + x - 2 ^ 64 := by
      have hshift : wrap 64 (offset.val + x) = wrap 64 (offset.val + x - 2 ^ 64) := by
        unfold wrap
        rw [Int.bmod_def, Int.bmod_def]
        norm_num
      rw [hshift]
      exact wrap_eq (by decide) (by omega) (by omega)
    rw [hneg, dev.pread_neg _ (by omega), dev.pread_high _ (by omega)]

def InRange (e : ImageType) : Prop := -1 ≤ e.block ∧ e.block ≤ 64

/-- `buf` holds the block with the number `curBlock`, unless that is still -1. -/
def Cached (dev : Device) (offset : Offset) (curBlock : ℤ) (buf : Block) : Prop :=
  curBlock ≠ -1 → dev.pread (wrap 64 (offset.val + wrap 64 (curBlock * BLOCK_SIZE))) = some buf

variable {es : List ImageType} {e : ImageType} {curBlock : ℤ} {buf : Block} {size : Size}

/-- **The cache** makes no difference. -/
theorem fetch_eq (page : PageSize) (he : InRange e) (hcache : Cached dev offset curBlock buf) :
    fetch dev offset curBlock buf (resolve page e).block = blockOf page dev offset e := by
  have hlow : 0 ≤ position page e ∧ position page e < 2 ^ 63 := by
    have hge := page.size_ge
    have hlt := page.size_lt
    unfold position
    unfold InRange at he
    split_ifs <;> omega
  have hread : dev.pread (wrap 64 (offset.val + wrap 64 ((resolve page e).block * BLOCK_SIZE))) =
      blockOf page dev offset e := by
    rw [resolve_block_mul, pread_wrap dev offset hlow.1 hlow.2, blockOf]
  unfold fetch
  split_ifs with hcur
  · exact hread
  · rw [not_not] at hcur
    rw [← hread, ← hcur]
    exact (hcache (hcur ▸ resolve_block_ne page e)).symm

lemma cached_of_fetch {buf buf' : Block} (hcache : Cached dev offset curBlock buf)
    (h : fetch dev offset curBlock buf (resolve page e).block = some buf') :
    Cached dev offset (resolve page e).block buf' := by
  intro hne
  unfold fetch at h
  split_ifs at h with hcur
  · exact h
  · rw [not_not] at hcur
    rw [← h, ← hcur]
    exact hcache (hcur ▸ hne)

/-! ### One turn of the loop -/

variable {ip : ImageType} {ips : List ImageType} {curBlock : ℤ} {buf b : Block} {bytes : Size}

lemma search_unread (h : fetch dev offset curBlock buf (resolve page ip).block = none) :
    search page dev offset (ip :: ips) curBlock buf bytes =
      (⟨-1, none, bytes⟩, resolve page ip :: ips) := by
  simp only [search, h]

section
variable (h : fetch dev offset curBlock buf (resolve page ip).block = some b)
include h

lemma search_accept (hid : ip.identify b bytes = (true, size)) :
    search page dev offset (ip :: ips) curBlock buf bytes =
      (⟨0, some ip.name, size⟩, resolve page ip :: ips) := by
  simp only [search, h, resolve_identify, resolve_name, hid, if_true]

lemma search_reject (hid : ip.identify b bytes = (false, size)) :
    search page dev offset (ip :: ips) curBlock buf bytes =
      ((search page dev offset ips (resolve page ip).block b size).1,
        resolve page ip :: (search page dev offset ips (resolve page ip).block b size).2) := by
  simp [search, h, resolve_identify, hid]

end

/-! ### The table -/

/-- **A call changes the table** only by putting numbers in place. -/
theorem search_table (page : PageSize) (dev : Device) (offset : Offset) (ips : List ImageType)
    (curBlock : ℤ) (buf : Block) (bytes : Size) :
    (search page dev offset ips curBlock buf bytes).2.map (resolve page) =
      ips.map (resolve page) := by
  induction ips generalizing curBlock buf bytes with
  | nil => rfl
  | cons ip ips ih =>
    cases hfetch : fetch dev offset curBlock buf (resolve page ip).block with
    | none => rw [search_unread hfetch, map_cons, map_cons, resolve_resolve]
    | some b =>
      rcases hid : ip.identify b bytes with ⟨accepted, size⟩
      cases accepted with
      | true => rw [search_accept hfetch hid, map_cons, map_cons, resolve_resolve]
      | false => rw [search_reject hfetch hid, map_cons, map_cons, resolve_resolve, ih]

/-- **The results** do not depend on which numbers are in place. -/
theorem search_congr {ips ips' : List ImageType}
    (h : ips.map (resolve page) = ips'.map (resolve page)) (curBlock : ℤ) (buf : Block)
    (bytes : Size) : (search page dev offset ips curBlock buf bytes).1 =
      (search page dev offset ips' curBlock buf bytes).1 := by
  induction ips generalizing ips' curBlock buf bytes with
  | nil =>
    rw [map_nil, eq_comm, map_eq_nil_iff] at h
    rw [h]
  | cons ip ips ih =>
    obtain ⟨ip', ips', rfl, hip, hips⟩ := map_eq_cons_iff.1 h.symm
    have hidentify : ip'.identify = ip.identify := by
      rw [← resolve_identify page ip', hip, resolve_identify]
    have hname : ip'.name = ip.name := by rw [← resolve_name page ip', hip, resolve_name]
    cases hfetch : fetch dev offset curBlock buf (resolve page ip).block with
    | none => rw [search_unread hfetch, search_unread (hip ▸ hfetch)]
    | some b =>
      rcases hid : ip.identify b bytes with ⟨accepted, size⟩
      have hid' : ip'.identify b bytes = (accepted, size) := by rw [hidentify, hid]
      cases accepted with
      | true => rw [search_accept hfetch hid, search_accept (hip ▸ hfetch) hid', hname]
      | false =>
        rw [search_reject hfetch hid, search_reject (hip ▸ hfetch) hid', hip]
        exact ih hips.symm _ _ _

lemma Reachable.map_resolve {host : ByteOrder} {mods : Modules} {table : List ImageType}
    (h : Reachable host mods page table) :
    table.map (resolve page) = (images host mods).map (resolve page) := by
  induction h with
  | init => rfl
  | call dev offset junk _ ih => rw [identifyFs, search_table, ih]

/-! ### The sizes -/

def Plain (e : ImageType) : Prop :=
  ∃ (accepted : Block → Bool) (size : Block → Size),
    ∀ b, e.identify b = identifyIf (accepted b) (size b)

def Paired (e e' : ImageType) : Prop :=
  ∃ (marked first second : Block → Bool) (size : Block → Size),
    (∀ b, first b = true ∨ second b = true) ∧
    (∀ b bytes, e.identify b bytes = if marked b then (first b, size b) else (false, bytes)) ∧
    ∀ b bytes, e'.identify b bytes = if marked b then (second b, size b) else (false, bytes)

/-- Tables in which a size that was stored too early is never seen. -/
inductive Tidy : List ImageType → Prop
  | nil : Tidy []
  | plain {e : ImageType} {es : List ImageType} (hrange : InRange e) (he : Plain e)
      (hes : Tidy es) : Tidy (e :: es)
  | paired {e e' : ImageType} {es : List ImageType} (hrange : InRange e)
      (hblock : e'.block = e.block) (he : Paired e e') (hes : Tidy es) : Tidy (e :: e' :: es)

lemma plainSearch_unread (h : blockOf page dev offset e = none) :
    plainSearch page dev offset (e :: es) = ⟨-1, none, some 0⟩ := by
  simp only [plainSearch, h]

lemma plainSearch_accept
    (h : blockOf page dev offset e = some b) (hid : e.identify b (some 0) = (true, size)) :
    plainSearch page dev offset (e :: es) = ⟨0, some e.name, size⟩ := by
  simp only [plainSearch, h, hid, if_true]

lemma plainSearch_reject
    (h : blockOf page dev offset e = some b) (hid : (e.identify b (some 0)).1 = false) :
    plainSearch page dev offset (e :: es) = plainSearch page dev offset es := by
  simp [plainSearch, h, hid]

lemma search_plain_entry (hrange : InRange e) (he : Plain e)
    (ih : ∀ {curBlock buf}, Cached dev offset curBlock buf →
      (search page dev offset es curBlock buf (some 0)).1 = plainSearch page dev offset es)
    (hcache : Cached dev offset curBlock buf) :
    (search page dev offset (e :: es) curBlock buf (some 0)).1 =
      plainSearch page dev offset (e :: es) := by
  obtain ⟨accepted, size, hidentify⟩ := he
  have hfetch := fetch_eq page hrange hcache
  cases hblock : blockOf page dev offset e with
  | none => rw [search_unread (hfetch.trans hblock), plainSearch_unread hblock]
  | some b =>
    rw [hblock] at hfetch
    cases hacc : accepted b with
    | true =>
      have hid : e.identify b (some 0) = (true, size b) := by simp [hidentify, identifyIf, hacc]
      rw [search_accept hfetch hid, plainSearch_accept hblock hid]
    | false =>
      have hid : e.identify b (some 0) = (false, some 0) := by simp [hidentify, identifyIf, hacc]
      rw [search_reject hfetch hid, plainSearch_reject hblock (by rw [hid])]
      exact ih (cached_of_fetch hcache hfetch)

lemma search_paired_entries {e e' : ImageType} (hrange : InRange e) (hsame : e'.block = e.block)
    (he : Paired e e') (ih : ∀ {curBlock buf}, Cached dev offset curBlock buf →
      (search page dev offset es curBlock buf (some 0)).1 = plainSearch page dev offset es)
    (hcache : Cached dev offset curBlock buf) :
    (search page dev offset (e :: e' :: es) curBlock buf (some 0)).1 =
      plainSearch page dev offset (e :: e' :: es) := by
  obtain ⟨marked, first, second, size, hone, hfirst, hsecond⟩ := he
  have hrange' : InRange e' := by rw [InRange, hsame]; exact hrange
  have hfetch := fetch_eq page hrange hcache
  have hposition : blockOf page dev offset e' = blockOf page dev offset e := by
    rw [blockOf, blockOf, position, position, hsame]
  cases hblock : blockOf page dev offset e with
  | none => rw [search_unread (hfetch.trans hblock), plainSearch_unread hblock]
  | some b =>
    rw [hblock] at hfetch hposition
    have hcache' := cached_of_fetch hcache hfetch
    have hfetch' := (fetch_eq page hrange' hcache').trans hposition
    cases hmark : marked b with
    | false =>
      have hid : e.identify b (some 0) = (false, some 0) := by simp [hfirst, hmark]
      have hid' : e'.identify b (some 0) = (false, some 0) := by simp [hsecond, hmark]
      rw [search_reject hfetch hid, search_reject hfetch' hid',
        plainSearch_reject hblock (by rw [hid]), plainSearch_reject hposition (by rw [hid'])]
      exact ih (cached_of_fetch hcache' hfetch')
    | true =>
      cases hacc : first b with
      | true =>
        have hid : e.identify b (some 0) = (true, size b) := by simp [hfirst, hmark, hacc]
        rw [search_accept hfetch hid, plainSearch_accept hblock hid]
      | false =>
        -- The size is stored already, and the second function stores the same one.
        have hacc' : second b = true := (hone b).resolve_left (by simp [hacc])
        have hid : e.identify b (some 0) = (false, size b) := by simp [hfirst, hmark, hacc]
        have hid' (bytes : Size) : e'.identify b bytes = (true, size b) := by
          simp [hsecond, hmark, hacc']
        rw [search_reject hfetch hid, search_accept hfetch' (hid' _),
          plainSearch_reject hblock (by rw [hid]), plainSearch_accept hposition (hid' _)]

/-- **The loop is the plain search.** -/
theorem search_eq_plainSearch (hes : Tidy es) (hcache : Cached dev offset curBlock buf) :
    (search page dev offset es curBlock buf (some 0)).1 = plainSearch page dev offset es := by
  induction hes generalizing curBlock buf with
  | nil => rfl
  | plain hrange he _ ih => exact search_plain_entry hrange he ih hcache
  | paired hrange hsame he _ ih => exact search_paired_entries hrange hsame he ih hcache

lemma tidy_images (host : ByteOrder) (mods : Modules) : Tidy (images host mods) := by
  have hpair : Paired ⟨1, "ext4dev", ext4devImage host mods⟩ ⟨1, "ext4", ext4Image host mods⟩ := by
    refine ⟨isExt4 host, _, _, extSize host, fun b => ?_, ext4devImage_eq host mods,
      ext4Image_eq host mods⟩
    cases anyFlag host b 352 4 <;> cases mods.ext4Present <;> cases mods.ext4devPresent <;> simp
  have hrange {n : ℤ} {s : String} {f : Identify} (h : -1 ≤ n ∧ n ≤ 64) : InRange ⟨n, s, f⟩ := h
  unfold images
  repeat' first
    | exact Tidy.nil
    | refine Tidy.paired (hrange (by decide)) rfl hpair ?_
    | refine Tidy.plain (hrange (by decide)) ⟨_, _, fun _ => rfl⟩ ?_

/-! ### The first entry -/

/-- The block of an entry can be read and is not accepted. -/
def Passes (page : PageSize) (dev : Device) (offset : Offset) (e : ImageType) : Prop :=
  ∃ b, blockOf page dev offset e = some b ∧ (e.identify b (some 0)).1 = false

/-- The first entry that accepts its block has this name, and its function computes this size. -/
def FirstAccepting (page : PageSize) (dev : Device) (offset : Offset) (table : List ImageType)
    (name : String) (size : Size) : Prop :=
  ∃ before e after b, table = before ++ e :: after ∧ (∀ x ∈ before, Passes page dev offset x) ∧
    blockOf page dev offset e = some b ∧ e.identify b (some 0) = (true, size) ∧ e.name = name

/-- A block that is needed before an entry accepts cannot be read. -/
def FirstUnreadable (page : PageSize) (dev : Device) (offset : Offset) (table : List ImageType) :
    Prop :=
  ∃ before e after, table = before ++ e :: after ∧ (∀ x ∈ before, Passes page dev offset x) ∧
    blockOf page dev offset e = none

lemma plainSearch_append {before es : List ImageType} (h : ∀ x ∈ before, Passes page dev offset x) :
    plainSearch page dev offset (before ++ es) = plainSearch page dev offset es := by
  induction before with
  | nil => rfl
  | cons e before ih =>
    obtain ⟨b, hblock, hid⟩ := h e mem_cons_self
    rw [cons_append, plainSearch_reject hblock hid, ih fun x hx => h x (mem_cons_of_mem e hx)]

lemma FirstAccepting.plainSearch {name : String} (h : FirstAccepting page dev offset es name size) :
    plainSearch page dev offset es = ⟨0, some name, size⟩ := by
  obtain ⟨before, e, after, b, rfl, hbefore, hblock, hid, rfl⟩ := h
  rw [plainSearch_append hbefore, plainSearch_accept hblock hid]

lemma FirstUnreadable.plainSearch (h : FirstUnreadable page dev offset es) :
    plainSearch page dev offset es = ⟨-1, none, some 0⟩ := by
  obtain ⟨before, e, after, rfl, hbefore, hblock⟩ := h
  rw [plainSearch_append hbefore, plainSearch_unread hblock]

lemma first_cases (page : PageSize) (dev : Device) (offset : Offset) (es : List ImageType) :
    (∃ name size, FirstAccepting page dev offset es name size) ∨
      FirstUnreadable page dev offset es ∨ ∀ x ∈ es, Passes page dev offset x := by
  induction es with
  | nil => exact .inr (.inr fun x hx => absurd hx not_mem_nil)
  | cons e es ih =>
    cases hblock : blockOf page dev offset e with
    | none => exact .inr (.inl ⟨[], e, es, rfl, by simp, hblock⟩)
    | some b =>
      rcases hid : e.identify b (some 0) with ⟨accepted, size⟩
      cases accepted with
      | true => exact .inl ⟨e.name, size, [], e, es, b, rfl, by simp, hblock, hid, rfl⟩
      | false =>
        have he : Passes page dev offset e := ⟨b, hblock, by rw [hid]⟩
        rcases ih with ⟨name, size, before, e', after, b', rfl, hbefore, hrest⟩ |
          ⟨before, e', after, rfl, hbefore, hrest⟩ | hall
        · exact .inl ⟨name, size, e :: before, e', after, b', rfl,
            forall_mem_cons.2 ⟨he, hbefore⟩, hrest⟩
        · exact .inr (.inl ⟨e :: before, e', after, rfl, forall_mem_cons.2 ⟨he, hbefore⟩, hrest⟩)
        · exact .inr (.inr (forall_mem_cons.2 ⟨he, hall⟩))

end

/-- **`identify_fs` is the plain search**, after any earlier calls: it returns 0 with the name and
the size of the first entry that accepts its block, -1 iff a block that is needed before cannot be
read, and otherwise 1 with neither. -/
theorem identify_fs_first_match {host : ByteOrder} {mods : Modules} {page : PageSize}
    {table : List ImageType} (h : Reachable host mods page table) (dev : Device) (offset : Offset)
    (junk : Block) :
    (∀ name size, (identifyFs page dev offset junk table).1 = ⟨0, some name, size⟩ ↔
      FirstAccepting page dev offset (images host mods) name size) ∧
    ((identifyFs page dev offset junk table).1.ret = -1 ↔
      FirstUnreadable page dev offset (images host mods)) ∧
    ((∃ name size, (identifyFs page dev offset junk table).1 = ⟨0, some name, size⟩) ∨
      (identifyFs page dev offset junk table).1.ret = -1 ∨
      (identifyFs page dev offset junk table).1 = ⟨1, none, some 0⟩) := by
  have hplain : (identifyFs page dev offset junk table).1 =
      plainSearch page dev offset (images host mods) := by
    rw [identifyFs, search_congr h.map_resolve]
    exact search_eq_plainSearch (tidy_images host mods) fun hne => absurd rfl hne
  rw [hplain]
  rcases first_cases page dev offset (images host mods) with ⟨name, size, hfirst⟩ | hfirst | hall
  · have hr := hfirst.plainSearch
    refine ⟨fun name' size' => ⟨fun heq => ?_, FirstAccepting.plainSearch⟩, ⟨fun hret => ?_,
      fun hun => by rw [hun.plainSearch]⟩, .inl ⟨name, size, hr⟩⟩
    · rw [hr, Result.mk.injEq, Option.some.injEq] at heq
      rw [← heq.2.1, ← heq.2.2]
      exact hfirst
    · simp [hr] at hret
  · have hr := hfirst.plainSearch
    refine ⟨fun name' size' => ⟨fun heq => ?_, FirstAccepting.plainSearch⟩, ⟨fun _ => hfirst,
      fun _ => by rw [hr]⟩, .inr (.inl (by rw [hr]))⟩
    rw [hr, Result.mk.injEq] at heq
    exact absurd heq.1 (by decide)
  · have hr : plainSearch page dev offset (images host mods) = ⟨1, none, some 0⟩ := by
      rw [← append_nil (images host mods), plainSearch_append hall]
      rfl
    refine ⟨fun name' size' => ⟨fun heq => ?_, FirstAccepting.plainSearch⟩, ⟨fun hret => ?_,
      fun hun => by rw [hun.plainSearch]⟩, .inr (.inr hr)⟩
    · rw [hr, Result.mk.injEq] at heq
      exact absurd heq.1 (by decide)
    · rw [hr] at hret
      exact absurd hret (by decide)

def uniform (b : Block) : Device where
  pread pos := if 0 ≤ pos ∧ pos < 2 ^ 63 then some b else none
  pread_neg _ h := if_neg fun hpos => absurd h (not_lt.2 hpos.1)
  pread_high _ h := if_neg fun hpos => absurd hpos.2 (not_lt.2 h)

/-- A gzip file after a first search on an empty device. -/
theorem identify_fs_first_match_gzip :
    let page : PageSize := ⟨4096, by decide, by decide, by decide⟩
    let start : Offset := ⟨0, by decide, by decide⟩
    let zeros : Block := Vector.replicate BLOCK_SIZE 0
    let gzip : Block := (zeros.set 0 0o37 (by decide)).set 1 0o213 (by decide)
    (identifyFs page (uniform gzip) start zeros
      (identifyFs page (uniform zeros) start zeros (images .little ⟨true, false⟩)).2).1 =
        ⟨0, some "gzip", some 0⟩ := by
  intro page start zeros gzip
  refine ((identify_fs_first_match (.call (uniform zeros) start zeros .init) (uniform gzip) start
    zeros).1 "gzip" (some 0)).2 ⟨[], _, _, gzip, rfl, by simp, rfl, ?_, rfl⟩
  decide +kernel

end Klibc.Fstype.Identify
