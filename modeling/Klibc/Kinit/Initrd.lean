import Mathlib.Data.Nat.Bitwise
import Klibc.Kinit.Xpio

/-! # Copying an initrd

`rd_copy_uncompressed` copies a file from its end to its start and truncates it on the way, block by
block. The mask makes the block that is copied first the partial one, so that all others start at a
multiple of the buffer's size. The file may be one that cannot be truncated; the result of
`ftruncate` is not looked at. -/

namespace Klibc.Kinit.Initrd

open Xpio

def BUF_SIZE : ℕ := 65536

/-! ### The code -/

structure File where
  bytes : ℤ → UInt8
  size : ℤ

/-- What happens to the file that is copied: `n` bytes at an offset are read, or it is truncated. -/
inductive Event
  | read (offset n : ℕ)
  | truncate (size : ℕ)
  deriving DecidableEq

/-- The memory, both files, and what happened so far. -/
structure State where
  mem : ℕ → UInt8
  src : File
  dst : File
  log : List Event

structure System where
  results : Op → Request → Sys → List Result
  ftruncate : ℕ → Bool

/-- Where `buffer` lies, on a machine with addresses of `bits` bits. -/
structure Frame where
  bits : ℕ
  buffer : ℕ
  bits_ok : 17 < bits ∧ bits ≤ 64
  buffer_ok : buffer + BUF_SIZE ≤ 2 ^ bits

lemma Frame.buf_ok (F : Frame) {n : ℕ} (hn : n ≤ BUF_SIZE) :
    F.buffer < 2 ^ F.bits ∧ F.buffer + n ≤ 2 ^ F.bits := by
  have hbuffer := F.buffer_ok
  have hsize : 0 < BUF_SIZE := by decide
  omega

lemma Frame.count_ok (F : Frame) {n : ℕ} (hn : n ≤ BUF_SIZE) : n < 2 ^ (F.bits - 1) := by
  have hpow : 2 ^ 17 ≤ 2 ^ (F.bits - 1) :=
    Nat.pow_le_pow_right (by decide) (by have := F.bits_ok.1; omega)
  unfold BUF_SIZE at hn
  omega

lemma offset_ok {offset : ℕ} (h : offset < 2 ^ 63) :
    -2 ^ 63 ≤ (offset : ℤ) ∧ (offset : ℤ) < 2 ^ 63 := by
  omega

/-- A transfer of `n` bytes of the buffer. -/
def Frame.request (F : Frame) (n offset : ℕ) (hn : n ≤ BUF_SIZE) (hoffset : offset < 2 ^ 63) :
    Request where
  bits := F.bits
  buf := F.buffer
  count := n
  offset := offset
  bits_ok := ⟨Nat.zero_lt_of_lt F.bits_ok.1, F.bits_ok.2⟩
  buf_ok := F.buf_ok hn
  count_ok := F.count_ok hn
  offset_ok := offset_ok hoffset

/-- `((bytes - 1) & (BUF_SIZE - 1)) + 1`. -/
def blocksize (bytes : ℕ) : ℕ := ((bytes - 1) &&& (BUF_SIZE - 1)) + 1

def front (bytes : ℕ) : ℕ := bytes - blocksize bytes

lemma blocksize_le (bytes : ℕ) : blocksize bytes ≤ BUF_SIZE := by
  have : (bytes - 1) &&& (BUF_SIZE - 1) ≤ BUF_SIZE - 1 := Nat.and_le_right
  unfold blocksize BUF_SIZE at *
  omega

lemma front_lt {bytes : ℕ} (h : bytes ≠ 0) : front bytes < bytes := by
  unfold front blocksize
  omega

lemma front_lt_of_lt {bytes b : ℕ} (h : bytes < b) : front bytes < b :=
  lt_of_le_of_lt (Nat.sub_le _ _) h

section
variable (E : System) (F : Frame)

/-- `xpread(ffd, buffer, …)`. -/
def readBlock (q : Request) (st : State) : Option (ℤ × State) :=
  let s : Sys := ⟨st.mem, st.src.bytes, st.src.size, []⟩
  (xpio .pread q (E.results .pread q s) s).map fun (ret, _, s) =>
    (ret, { st with mem := s.mem, log := st.log ++ [.read q.offset.toNat q.count] })

/-- `xpwrite(dfd, buffer, …)`. -/
def writeBlock (q : Request) (st : State) : Option (ℤ × State) :=
  let s : Sys := ⟨st.mem, st.dst.bytes, st.dst.size, []⟩
  (xpio .pwrite q (E.results .pwrite q s) s).map fun (ret, _, s) =>
    (ret, { st with dst := ⟨s.file, s.size⟩ })

/-- `ftruncate(ffd, size)`. -/
def truncate (size : ℕ) (st : State) : State :=
  { st with
    src := if E.ftruncate size then ⟨fun p => if p < size then st.src.bytes p else 0, size⟩
      else st.src
    log := st.log ++ [.truncate size] }

/-- The loop of `rd_copy_uncompressed`. -/
def copyLoop (bytes : ℕ) (hbytes : bytes < 2 ^ 63) (st : State) : Option (ℤ × State) :=
  if h : bytes = 0 then some (0, st)
  else do
    have := front_lt h
    let q := F.request (blocksize bytes) (front bytes) (blocksize_le bytes) (front_lt_of_lt hbytes)
    let (ret, st) ← readBlock E q st
    if ret ≠ blocksize bytes then some (-1, st)
    else
      let (ret, st) ← writeBlock E q st
      if ret ≠ blocksize bytes then some (-1, st)
      else copyLoop (front bytes) (front_lt_of_lt hbytes) (truncate E (front bytes) st)
termination_by bytes

/-- What `fstat` says about the file. -/
structure Stat where
  isReg : Bool
  size : ℕ
  size_ok : size < 2 ^ 63

/-- `rd_copy_uncompressed(ffd, dfd)`. -/
def rdCopyUncompressed (ffd : ℤ) (fstat : Option Stat) (st : State) : Option (ℤ × State) :=
  match fstat with
  | none => some (-1, st)
  | some stat =>
    if ffd < 0 ∨ ¬stat.isReg ∨ stat.size = 0 then some (-1, st)
    else copyLoop E F stat.size stat.size_ok st

end

/-! ### The blocks -/

lemma front_add_blocksize {bytes : ℕ} (h : bytes ≠ 0) : front bytes + blocksize bytes = bytes := by
  have : (bytes - 1) &&& (BUF_SIZE - 1) ≤ bytes - 1 := Nat.and_le_left
  unfold front blocksize
  omega

def blockLog (bytes : ℕ) : List Event :=
  if h : bytes = 0 then []
  else
    have := front_lt h
    .read (front bytes) (blocksize bytes) :: .truncate (front bytes) :: blockLog (front bytes)
termination_by bytes

lemma blockLog_zero : blockLog 0 = [] := by rw [blockLog, dif_pos rfl]

lemma blockLog_of_ne {bytes : ℕ} (h : bytes ≠ 0) : blockLog bytes =
    .read (front bytes) (blocksize bytes) :: .truncate (front bytes) :: blockLog (front bytes) := by
  conv_lhs => rw [blockLog, dif_neg h]

/-- Whether an event reads the byte at `p`. -/
def Event.reads (p : ℕ) : Event → Bool
  | .read offset n => offset ≤ p && p < offset + n
  | .truncate _ => false

/-- **Every byte is read once.** -/
theorem countP_blockLog (p bytes : ℕ) :
    (blockLog bytes).countP (Event.reads p) = if p < bytes then 1 else 0 := by
  induction bytes using Nat.strong_induction_on with
  | _ bytes ih =>
    by_cases h : bytes = 0
    · rw [h, blockLog_zero]
      rfl
    · have hsplit := front_add_blocksize h
      rw [blockLog_of_ne h, List.countP_cons, List.countP_cons, ih _ (front_lt h)]
      simp only [Event.reads, Bool.and_eq_true, decide_eq_true_eq, Bool.false_eq_true, if_false]
      split_ifs <;> omega

lemma read_mem_blockLog {bytes offset n : ℕ} (h : .read offset n ∈ blockLog bytes) :
    n ≤ BUF_SIZE ∧ offset + n ≤ bytes := by
  induction bytes using Nat.strong_induction_on with
  | _ bytes ih =>
    by_cases hzero : bytes = 0
    · rw [hzero, blockLog_zero] at h
      simp at h
    · have hsplit := front_add_blocksize hzero
      rw [blockLog_of_ne hzero] at h
      simp only [List.mem_cons, Event.read.injEq, reduceCtorEq, false_or] at h
      obtain ⟨rfl, rfl⟩ | h := h
      · exact ⟨blocksize_le bytes, hsplit.le⟩
      · have := ih _ (front_lt hzero) h
        omega

/-- **A block is read before it is cut off**: what is read behind a truncation lies in the part that
is left. -/
theorem read_after_truncate {bytes k offset n : ℕ} {pre post : List Event}
    (h : blockLog bytes = pre ++ .truncate k :: post) (hread : .read offset n ∈ post) :
    offset + n ≤ k := by
  induction bytes using Nat.strong_induction_on generalizing pre with
  | _ bytes ih =>
    by_cases hzero : bytes = 0
    · rw [hzero, blockLog_zero] at h
      simp at h
    · rw [blockLog_of_ne hzero] at h
      match pre, h with
      | [_], h =>
        obtain ⟨-, h⟩ := List.cons.inj h
        obtain ⟨hk, rfl⟩ := List.cons.inj h
        rw [← Event.truncate.inj hk]
        exact (read_mem_blockLog hread).2
      | _ :: _ :: pre, h =>
        obtain ⟨-, h⟩ := List.cons.inj h
        obtain ⟨-, h⟩ := List.cons.inj h
        exact ih _ (front_lt hzero) h

/-! ### The copy -/

/-- `xpread` and `xpwrite` transfer what they are asked for. -/
def Transfers (E : System) : Prop :=
  ∀ (op : Op) (q : Request) (s : Sys), 0 < q.count → 0 ≤ q.offset →
    q.offset + q.count < 2 ^ 63 → (op = .pread → q.offset + q.count ≤ s.size) →
    ∃ rv s', xpio op q (E.results op q s) s = some ((q.count : ℤ), rv, s') ∧
      Copied op q q.count s s'

section
variable {E : System} {F : Frame} {bytes : ℕ} {st : State}

/-- **One turn of the loop**: the last block is copied, and the rest of the file is still there. -/
theorem copyLoop_turn (hE : Transfers E) (hbytes : bytes < 2 ^ 63) (h : bytes ≠ 0)
    (hsize : bytes ≤ st.src.size) : ∃ st1,
      copyLoop E F bytes hbytes st = copyLoop E F (front bytes) (front_lt_of_lt hbytes) st1 ∧
      front bytes ≤ st1.src.size ∧ (∀ p < front bytes, st1.src.bytes p = st.src.bytes p) ∧
      (∀ p : ℕ, st1.dst.bytes p = if front bytes ≤ p ∧ p < bytes then st.src.bytes p
        else st.dst.bytes p) ∧
      st1.log = st.log ++ [.read (front bytes) (blocksize bytes), .truncate (front bytes)] := by
  have hsplit := front_add_blocksize h
  obtain ⟨q, hq⟩ : ∃ q, q = F.request (blocksize bytes) (front bytes) (blocksize_le bytes)
    (front_lt_of_lt hbytes) := ⟨_, rfl⟩
  have hcount : q.count = blocksize bytes := by rw [hq]; rfl
  have hoffset : q.offset = front bytes := by rw [hq]; rfl
  have hpos : 0 < q.count := by rw [hcount]; exact Nat.succ_pos _
  obtain ⟨rv, s1, hread, hfile, -, hmem⟩ := hE .pread q ⟨st.mem, st.src.bytes, st.src.size, []⟩ hpos
    (by omega) (by omega) (fun _ => by change q.offset + q.count ≤ st.src.size; omega)
  obtain ⟨rv', s2, hwrite, -, -, hdst⟩ := hE .pwrite q ⟨s1.mem, st.dst.bytes, st.dst.size, []⟩ hpos
    (by omega) (by omega) (fun hop => by cases hop)
  have hr : readBlock E q st = some ((blocksize bytes : ℤ), ⟨s1.mem, st.src, st.dst,
      st.log ++ [.read (front bytes) (blocksize bytes)]⟩) := by
    simp [readBlock, hread, hcount, hoffset]
  have hw : writeBlock E q ⟨s1.mem, st.src, st.dst,
      st.log ++ [.read (front bytes) (blocksize bytes)]⟩ =
      some ((blocksize bytes : ℤ), ⟨s1.mem, st.src, ⟨s2.file, s2.size⟩,
        st.log ++ [.read (front bytes) (blocksize bytes)]⟩) := by
    simp [writeBlock, hwrite, hcount]
  refine ⟨truncate E (front bytes) ⟨s1.mem, st.src, ⟨s2.file, s2.size⟩,
    st.log ++ [.read (front bytes) (blocksize bytes)]⟩, ?_, ?_, ?_, ?_, ?_⟩
  · rw [copyLoop, dif_neg h]
    simp [← hq, hr, hw]
  · simp only [truncate]
    split
    · exact le_rfl
    · omega
  · intro p hp
    simp only [truncate]
    split
    · exact if_pos (by omega)
    · rfl
  · intro p
    simp only [truncate, hdst, hmem, hoffset, hcount]
    by_cases hp : front bytes ≤ p ∧ p < bytes
    · rw [if_pos (by omega), if_pos (by omega), if_pos hp]
      congr 1
      omega
    · rw [if_neg (by omega), if_neg hp]
  · simp [truncate]

/-- **The whole loop** copies the file. -/
theorem copyLoop_copies (hE : Transfers E) : ∀ (bytes : ℕ) (hbytes : bytes < 2 ^ 63) (st : State),
    bytes ≤ st.src.size → ∃ st', copyLoop E F bytes hbytes st = some (0, st') ∧
      (∀ p : ℕ, st'.dst.bytes p = if p < bytes then st.src.bytes p else st.dst.bytes p) ∧
      st'.log = st.log ++ blockLog bytes := by
  intro bytes
  induction bytes using Nat.strong_induction_on with
  | _ bytes ih =>
    intro hbytes st hsize
    by_cases h : bytes = 0
    · subst h
      refine ⟨st, by rw [copyLoop, dif_pos rfl], fun p => (if_neg (by omega)).symm, ?_⟩
      rw [blockLog_zero, List.append_nil]
    · have hlt := front_lt h
      obtain ⟨st1, hturn, hsize1, hsrc, hdst, hlog⟩ := copyLoop_turn (F := F) hE hbytes h hsize
      obtain ⟨st', hrun, hdst', hlog'⟩ := ih _ hlt (front_lt_of_lt hbytes) st1 hsize1
      refine ⟨st', hturn.trans hrun, fun p => ?_, ?_⟩
      · rw [hdst' p, hdst p]
        by_cases hp : p < front bytes
        · rw [if_pos hp, if_pos (by omega), hsrc p (by omega)]
        · split_ifs <;> first | rfl | omega
      · rw [hlog', hlog, blockLog_of_ne h]
        simp

/-- **Copying an initrd.** If `xpread` and `xpwrite` transfer what they are asked for, a file that
is not empty is copied; every byte of it is read once and none behind it, in blocks of at most the
size of the buffer, and a block is never read behind a truncation that removes it. -/
theorem rd_copy_uncompressed_copies (E : System) (F : Frame) (hE : Transfers E) (ffd : ℤ)
    (hffd : 0 ≤ ffd) (stat : Stat) (hreg : stat.isReg = true) (hpos : 0 < stat.size) (st : State)
    (hsize : st.src.size = stat.size) (hlog : st.log = []) :
    ∃ st', rdCopyUncompressed E F ffd (some stat) st = some (0, st') ∧
      (∀ p : ℕ, p < stat.size → st'.dst.bytes p = st.src.bytes p) ∧
      (∀ p, st'.log.countP (Event.reads p) = if p < stat.size then 1 else 0) ∧
      (∀ offset n, .read offset n ∈ st'.log → n ≤ BUF_SIZE) ∧
      ∀ pre k post, st'.log = pre ++ .truncate k :: post →
        ∀ offset n, .read offset n ∈ post → offset + n ≤ k := by
  obtain ⟨st', hrun, hdst, hlog'⟩ := copyLoop_copies (F := F) hE stat.size stat.size_ok st hsize.ge
  rw [hlog, List.nil_append] at hlog'
  have hcond : ¬(ffd < 0 ∨ ¬stat.isReg = true ∨ stat.size = 0) := by
    rintro (h | h | h)
    · omega
    · exact h hreg
    · omega
  refine ⟨st', ?_, fun p hp => ?_, fun p => ?_, fun offset n h => ?_, fun pre k post h => ?_⟩
  · simp only [rdCopyUncompressed]
    rw [if_neg hcond, hrun]
  · rw [hdst p, if_pos hp]
  · rw [hlog', countP_blockLog]
  · rw [hlog'] at h
    exact (read_mem_blockLog h).1
  · intro offset n hread
    rw [hlog'] at h
    exact read_after_truncate h hread

/-- A system that transfers everything at once, and files that cannot be truncated. -/
def atOnce : System := ⟨fun _ q _ => [.moved q.count], fun _ => false⟩

lemma transfers_atOnce : Transfers atOnce := fun op q s hpos h0 hlimit hsize =>
  xpio_whole op q s hpos h0 hlimit hsize

/-- A file of two blocks and one byte. -/
def threeBlocks : State :=
  ⟨fun _ => 0, ⟨fun p => if p < 65536 then 7 else if p < 131072 then 8 else 9, 131073⟩,
    ⟨fun _ => 0, 0⟩, []⟩

theorem rd_copy_uncompressed_copies_blocks :
    ∃ st', rdCopyUncompressed atOnce ⟨64, 0, by decide, by decide⟩ 3
      (some ⟨true, 131073, by decide⟩) threeBlocks = some (0, st') ∧ st'.dst.bytes 0 = 7 ∧
      st'.dst.bytes 65536 = 8 ∧ st'.dst.bytes 131072 = 9 := by
  obtain ⟨st', hrun, hdst, -⟩ := rd_copy_uncompressed_copies atOnce ⟨64, 0, by decide, by decide⟩
    transfers_atOnce 3 (by decide) ⟨true, 131073, by decide⟩ rfl (by decide) threeBlocks rfl rfl
  exact ⟨st', hrun, hdst 0 (by decide), hdst 65536 (by decide), hdst 131072 (by decide)⟩

end

end Klibc.Kinit.Initrd
