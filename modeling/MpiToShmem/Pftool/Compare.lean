import MpiToShmem.Kit.Tiling
import MpiToShmem.Pftool.ProcessFile
import Mathlib.Data.Int.ConditionallyCompleteOrder
import Mathlib.Order.ConditionallyCompleteLattice.Basic

/-!
# The compare of a pair of files

A worker reads the part of the two files that belongs to its chunk, a buffer at a time, until a read
fails or the buffers differ.

1. `chunks_tile`: the chunks of a file are one behind the other and cover it, and the compares that
   are sent for a file look at every byte once.
2. `flagged_iff`: when a match means that all bytes of the chunk were read and compared.
-/

namespace MpiToShmem.Compare

open Kit Treewalk

/-! ## Chunks -/

def computeTransferLength (fpair : FilePair) (o : Pwt.Options) : ℕ :=
  if 0 ≤ fpair.chunknum then
    let len := toUInt64 (fpair.src.stSize.tdiv o.nproc)
    if fpair.chunknum + 1 = o.nproc then
      toUInt64 (len + toUInt64 (fpair.src.stSize.tmod o.nproc))
    else len
  else toUInt64 fpair.src.stSize

def computeTransferOffset (fpair : FilePair) (o : Pwt.Options) : ℤ :=
  if 0 ≤ fpair.chunknum then
    let csize := toUInt64 (fpair.src.stSize.tdiv o.nproc)
    wrapInt64 (toUInt64 (csize * fpair.chunknum))
  else 0

/-- The pair with the number of a chunk. -/
def FilePair.chunk (fpair : FilePair) (k : ℕ) : FilePair := { fpair with chunknum := k }

/-- The byte at `x` is in the part of the file that is transferred. -/
def Transfers (o : Pwt.Options) (x : ℤ) (fpair : FilePair) : Prop :=
  computeTransferOffset fpair o ≤ x ∧
    x < computeTransferOffset fpair o + computeTransferLength fpair o

instance (o : Pwt.Options) (x : ℤ) : DecidablePred (Transfers o x) := fun _ =>
  inferInstanceAs (Decidable (_ ∧ _))

/-- Where chunk `k` starts; the last ends where the file does. -/
def boundary (stSize : ℤ) (nproc k : ℕ) : ℤ := if k < nproc then stSize / nproc * k else stSize

/-- The pairs that are sent to be compared. -/
def compares (msgs : List Message) : List FilePair :=
  msgs.filterMap fun m =>
    match m with
    | .compare fpair => some fpair
    | .addchunkfile _ => none

theorem boundary_zero {stSize : ℤ} {nproc : ℕ} (hn : 0 < nproc) :
    boundary stSize nproc 0 = 0 := by
  unfold boundary
  rw [if_pos hn]
  exact Int.mul_zero _

theorem boundary_self {stSize : ℤ} {nproc : ℕ} : boundary stSize nproc nproc = stSize :=
  if_neg (lt_irrefl _)

section Chunks

variable {fpair : FilePair} {o : Pwt.Options} {stSize : ℤ} {k : ℕ} (hsize : 0 ≤ stSize)

include hsize

theorem mul_le_stSize (hk : k ≤ o.nproc) : stSize / o.nproc * k ≤ stSize := by
  rcases eq_or_ne (o.nproc : ℤ) 0 with hzero | hzero
  · rw [hzero, Int.ediv_zero, zero_mul]
    exact hsize
  · calc stSize / o.nproc * k ≤ stSize / o.nproc * o.nproc :=
          Int.mul_le_mul_of_nonneg_left (by omega) (Int.ediv_nonneg hsize (Int.natCast_nonneg _))
      _ ≤ stSize := Int.ediv_mul_le stSize hzero

theorem monotone_boundary : Monotone (boundary stSize o.nproc) := by
  refine monotone_nat_of_le_succ fun k => ?_
  unfold boundary
  split_ifs with hk hk'
  · exact Int.mul_le_mul_of_nonneg_left (by omega) (Int.ediv_nonneg hsize (Int.natCast_nonneg _))
  · exact mul_le_stSize hsize hk.le
  · omega
  · rfl

variable (hmax : stSize < 2 ^ 63) (hpair : fpair.src.stSize = stSize)

include hmax hpair

theorem toUInt64_tdiv : (toUInt64 (fpair.src.stSize.tdiv o.nproc) : ℤ) = stSize / o.nproc := by
  rw [hpair, Int.tdiv_eq_ediv_of_nonneg hsize]
  have hle : stSize / o.nproc ≤ stSize := Int.ediv_le_self _ hsize
  exact toUInt64_of_lt (Int.ediv_nonneg hsize (Int.natCast_nonneg _)) (by omega)

variable (hk : k < o.nproc)

include hk

theorem computeTransferOffset_chunk :
    computeTransferOffset (fpair.chunk k) o = boundary stSize o.nproc k := by
  have hle := mul_le_stSize hsize hk.le
  have hnonneg : 0 ≤ stSize / o.nproc * k :=
    Int.mul_nonneg (Int.ediv_nonneg hsize (Int.natCast_nonneg _)) (by omega)
  unfold computeTransferOffset boundary
  rw [if_pos (show 0 ≤ (fpair.chunk k).chunknum from Int.natCast_nonneg k), if_pos hk]
  show wrapInt64 (toUInt64 (toUInt64 (fpair.src.stSize.tdiv o.nproc) * (k : ℤ))) = _
  rw [toUInt64_tdiv hsize hmax hpair, toUInt64_of_lt hnonneg (by omega),
    wrapInt64_of_lt hnonneg (by omega)]

/-- A chunk ends where the next one starts, and the last one at the end of the file. -/
theorem computeTransferLength_chunk :
    (computeTransferLength (fpair.chunk k) o : ℤ) =
      boundary stSize o.nproc (k + 1) - boundary stSize o.nproc k := by
  have hlen := toUInt64_tdiv (o := o) hsize hmax hpair
  unfold computeTransferLength boundary
  rw [if_pos (show 0 ≤ (fpair.chunk k).chunknum from Int.natCast_nonneg k), if_pos hk]
  show ((if (k : ℤ) + 1 = o.nproc then
    toUInt64 (toUInt64 (fpair.src.stSize.tdiv o.nproc) + toUInt64 (fpair.src.stSize.tmod o.nproc))
    else toUInt64 (fpair.src.stSize.tdiv o.nproc) : ℕ) : ℤ) = _
  by_cases hlast : k + 1 = o.nproc
  · have hmod := Int.emod_lt_of_pos stSize (show (0 : ℤ) < o.nproc by omega)
    have hmod0 := Int.emod_nonneg stSize (show (o.nproc : ℤ) ≠ 0 by omega)
    have hdiv0 : 0 ≤ stSize / o.nproc := Int.ediv_nonneg hsize (Int.natCast_nonneg _)
    have hsum := Int.mul_ediv_add_emod stSize o.nproc
    have hsplit : stSize / o.nproc * k + stSize / o.nproc = o.nproc * (stSize / o.nproc) := by
      rw [← hlast]
      push_cast
      ring
    have hk0 : 0 ≤ stSize / o.nproc * k := Int.mul_nonneg hdiv0 (by omega)
    have htmod : (toUInt64 (fpair.src.stSize.tmod o.nproc) : ℤ) = stSize % o.nproc := by
      rw [hpair, Int.tmod_eq_emod_of_nonneg hsize]
      exact toUInt64_of_lt hmod0 (by omega)
    rw [if_pos (by omega), if_neg (by omega), hlen, htmod, toUInt64_of_lt (by omega) (by omega)]
    omega
  · rw [if_neg (by omega), if_pos (by omega), hlen]
    push_cast
    ring

theorem transfers_chunk (x : ℤ) : Transfers o x (fpair.chunk k) ↔
    boundary stSize o.nproc k ≤ x ∧ x < boundary stSize o.nproc (k + 1) := by
  unfold Transfers
  rw [computeTransferOffset_chunk hsize hmax hpair hk,
    computeTransferLength_chunk hsize hmax hpair hk]
  exact and_congr_right fun _ => by rw [add_sub_cancel]

omit hk in
/-- Each byte of the file is in one chunk. -/
theorem countP_chunks (hn : 0 < o.nproc) (x : ℤ) :
    ((List.range o.nproc).map fpair.chunk).countP (Transfers o x) =
      if 0 ≤ x ∧ x < stSize then 1 else 0 := by
  have hbound : ∀ k ∈ List.range o.nproc, ((decide (Transfers o x (fpair.chunk k)) = true) ↔
      (decide (boundary stSize o.nproc k ≤ x ∧ x < boundary stSize o.nproc (k + 1)) = true)) := by
    intro k hk
    rw [decide_eq_true_eq, decide_eq_true_eq]
    exact transfers_chunk hsize hmax hpair (List.mem_range.mp hk) x
  rw [List.countP_map]
  refine (List.countP_congr hbound).trans ?_
  rw [countP_tiles (monotone_boundary hsize), boundary_zero hn, boundary_self]

end Chunks

/-- What is sent for a file: its chunks, or the whole file. -/
theorem compares_cmpProcessFile {o : Pwt.Options} {cpO : AppOptions} {lstat : Path → Lstat}
    {infile : FileInfo} {r : ℤ} {msgs : List Message}
    (h : cmpProcessFile o cpO lstat infile = some (r, msgs)) : compares msgs = [] ∨
    ∃ dest, compares msgs = (List.range o.nproc).map (filepairNew infile dest).chunk ∨
      compares msgs = [filepairNew infile dest] := by
  unfold cmpProcessFile at h
  by_cases hblank : Str.strIsBlank infile.path = true
  · rw [if_pos hblank] at h
    obtain ⟨-, rfl⟩ := Prod.mk.inj (Option.some.inj h)
    exact Or.inl rfl
  · rw [if_neg hblank] at h
    obtain ⟨dpath, -, h⟩ := Option.bind_eq_some_iff.mp h
    dsimp only at h
    split_ifs at h with herr hchunk
    · obtain ⟨-, rfl⟩ := Prod.mk.inj (Option.some.inj h)
      exact Or.inl rfl
    · obtain ⟨-, rfl⟩ := Prod.mk.inj (Option.some.inj h)
      refine Or.inr ⟨(fileinfoLstat (fileinfoInit dpath) (lstat dpath)).1, Or.inl ?_⟩
      unfold compares
      rw [List.filterMap_cons_none rfl, List.filterMap_map]
      exact congrFun List.filterMap_eq_map _
    · obtain ⟨-, rfl⟩ := Prod.mk.inj (Option.some.inj h)
      exact Or.inr ⟨_, Or.inr rfl⟩

/-- The file that a `pread` is from. -/
inductive Side where
  | src
  | dest
deriving DecidableEq

/-- A `pread` of `count` bytes at `pos`: the bytes it read, or none for an error. -/
structure Pread where
  side : Side
  pos : ℤ
  count : ℕ
  bytes : Option (List UInt8)

/-- All bytes that were asked for were read. -/
def Pread.full (r : Pread) : Bool := r.bytes.any fun bs => bs.length = r.count

theorem Pread.full_iff {r : Pread} :
    r.full = true ↔ ∃ bs, r.bytes = some bs ∧ bs.length = r.count := by
  unfold full
  cases r.bytes <;> simp

/-- The outcome of each `pread`, for its file, position and size. -/
abbrev Reads := Side → ℤ → ℕ → Option (List UInt8)

def Reads.pread (reads : Reads) (side : Side) (pos : ℤ) (count : ℕ) : Pread :=
  ⟨side, pos, count, reads side pos count⟩

/-- The flags of the loop after it, and its calls of `pread`. -/
structure Compared where
  err : Bool
  noMatch : Bool
  preads : List Pread

/-- How much the next block has: a buffer, or what is left. -/
def blockSize (length completed bufsize : ℕ) : ℕ :=
  if length - completed < bufsize then length - completed else bufsize

theorem blockSize_pos {length completed bufsize : ℕ} (hlt : completed < length)
    (hpos : 0 < bufsize) : 0 < blockSize length completed bufsize := by
  unfold blockSize
  split_ifs <;> omega

/-- The loop of `cmp_compare`. -/
def compareLoop (reads : Reads) (offset : ℤ) (length completed bufsize : ℕ)
    (bufsize_pos : 0 < bufsize) : Compared :=
  if hlt : completed < length then
    let bufsize' := blockSize length completed bufsize
    have bufsize_pos' : 0 < bufsize' := blockSize_pos hlt bufsize_pos
    let s := reads.pread .src (completed + offset) bufsize'
    let d := reads.pread .dest (completed + offset) bufsize'
    if s.full = false then ⟨true, false, [s]⟩
    else if d.full = false then ⟨true, false, [s, d]⟩
    else if s.bytes ≠ d.bytes then ⟨false, true, [s, d]⟩
    else
      let r := compareLoop reads offset length (completed + bufsize') bufsize' bufsize_pos'
      ⟨r.err, r.noMatch, s :: d :: r.preads⟩
  else ⟨false, false, []⟩
termination_by length - completed
decreasing_by omega

/-- The descriptors that `open` returns for the two files. -/
structure Fds where
  sfd : ℤ
  dfd : ℤ

/-- The pair that `cmp_compare` sends back, whether it has opened both files, and its calls of
`pread`. -/
structure Outcome where
  filebuf : FilePair
  opened : Bool
  preads : List Pread

/-- The loop over the part of the files that is transferred; it is left at once with an error. -/
def comparePart (o : Pwt.Options) (cpO : AppOptions) (reads : Reads) (filebuf : FilePair)
    (err : Bool) : Compared :=
  if err then ⟨err, false, []⟩
  else compareLoop reads (computeTransferOffset filebuf o) (computeTransferLength filebuf o) 0
    cpO.buffersize cpO.buffersize_pos

def cmpCompare (o : Pwt.Options) (cpO : AppOptions) (fds : Fds) (reads : Reads)
    (filebuf : FilePair) : Outcome :=
  let err : Bool := filebuf.dest.existsFlag < 0
  if filebuf.dest.existsFlag ≠ 0 then
    let matchSize : Bool := filebuf.src.stSize = filebuf.dest.stSize
    let matchMeta : Bool := matchSize && filebuf.src.stMtime = filebuf.dest.stMtime
    if matchSize && !cpO.metaOnly then
      if 0 < fds.sfd ∧ 0 < fds.dfd then
        let r := comparePart o cpO reads filebuf err
        ⟨{ filebuf with matched := !r.noMatch }, true, r.preads⟩
      else ⟨filebuf, false, []⟩
    else ⟨{ filebuf with matched := matchMeta }, false, []⟩
  else ⟨filebuf, false, []⟩

/-! ## Blocks -/

section Blocks

variable (reads : Reads) (offset : ℤ) (length bufsize : ℕ)

/-- The read of block `k` of a file. -/
def blockOf (side : Side) (k : ℕ) : Pread :=
  reads.pread side ((k * bufsize : ℕ) + offset) (blockSize length (k * bufsize) bufsize)

/-- Block `k` was read from both files. -/
def BlockRead (k : ℕ) : Prop :=
  (blockOf reads offset length bufsize .src k).full = true ∧
    (blockOf reads offset length bufsize .dest k).full = true

def BlockEqual (k : ℕ) : Prop :=
  BlockRead reads offset length bufsize k ∧ (blockOf reads offset length bufsize .src k).bytes =
    (blockOf reads offset length bufsize .dest k).bytes

def BlockDiffers (k : ℕ) : Prop :=
  BlockRead reads offset length bufsize k ∧ (blockOf reads offset length bufsize .src k).bytes ≠
    (blockOf reads offset length bufsize .dest k).bytes

/-- A block that cannot be read comes after one that differs. -/
def FailsAfterDifference : Prop :=
  ∀ k, k * bufsize < length → ¬ BlockRead reads offset length bufsize k →
    ∃ j < k, BlockDiffers reads offset length bufsize j

/-- How the loop ends from block `k` on: all blocks are equal, or some block fails or differs behind
equal ones. -/
def LoopEnds (k : ℕ) (r : Compared) : Prop :=
  (r.err = false ∧ r.noMatch = false ∧ (∀ p ∈ r.preads, p.full = true) ∧
    ∀ j, k ≤ j → j * bufsize < length → BlockEqual reads offset length bufsize j ∧
      ∀ side, blockOf reads offset length bufsize side j ∈ r.preads) ∨
  (r.noMatch = false ∧ (∃ p ∈ r.preads, p.full = false) ∧
    ∃ m, k ≤ m ∧ m * bufsize < length ∧ ¬ BlockRead reads offset length bufsize m ∧
      ∀ j, k ≤ j → j < m → BlockEqual reads offset length bufsize j) ∨
  (r.noMatch = true ∧
    ∃ m, k ≤ m ∧ m * bufsize < length ∧ BlockDiffers reads offset length bufsize m ∧
      ∀ j, k ≤ j → j < m → BlockEqual reads offset length bufsize j)

variable {reads offset length bufsize} {k : ℕ}

theorem loopEnds_nil (h : length ≤ k * bufsize) :
    LoopEnds reads offset length bufsize k ⟨false, false, []⟩ := by
  refine Or.inl ⟨rfl, rfl, fun p hp => absurd hp List.not_mem_nil, fun j hj hlen => ?_⟩
  exact absurd (Nat.lt_of_le_of_lt (Nat.mul_le_mul_right bufsize hj) hlen) (Nat.not_lt.mpr h)

/-- One block that is equal, and the loop behind it. -/
theorem LoopEnds.cons (heq : BlockEqual reads offset length bufsize k) {r : Compared}
    (h : LoopEnds reads offset length bufsize (k + 1) r) :
    LoopEnds reads offset length bufsize k ⟨r.err, r.noMatch,
      blockOf reads offset length bufsize .src k :: blockOf reads offset length bufsize .dest k ::
        r.preads⟩ := by
  have hfrom : ∀ {P : ℕ → Prop} {j : ℕ}, P k → (k + 1 ≤ j → P j) → k ≤ j → P j := by
    intro P j hPk hPj hj
    rcases Nat.eq_or_lt_of_le hj with rfl | hj
    · exact hPk
    · exact hPj hj
  rcases h with ⟨herr, hno, hfull, hall⟩ | ⟨hno, ⟨p, hp, hpfull⟩, m, hm, hlen, hfail, hbefore⟩ |
    ⟨hno, m, hm, hlen, hdiff, hbefore⟩
  · refine Or.inl ⟨herr, hno, ?_, fun j hj hlen => ?_⟩
    · intro p hp
      rcases List.mem_cons.mp hp with rfl | hp
      · exact heq.1.1
      · rcases List.mem_cons.mp hp with rfl | hp
        · exact heq.1.2
        · exact hfull p hp
    · rcases Nat.eq_or_lt_of_le hj with rfl | hj
      · refine ⟨heq, fun side => ?_⟩
        cases side with
        | src => exact List.mem_cons_self
        | dest => exact List.mem_cons_of_mem _ List.mem_cons_self
      · obtain ⟨hje, hmem⟩ := hall j hj hlen
        exact ⟨hje, fun side => List.mem_cons_of_mem _ (List.mem_cons_of_mem _ (hmem side))⟩
  · refine Or.inr (Or.inl ⟨hno, ⟨p, List.mem_cons_of_mem _ (List.mem_cons_of_mem _ hp), hpfull⟩, m,
      by omega, hlen, hfail, fun j hj hjm => ?_⟩)
    exact hfrom heq (fun hj => hbefore j hj hjm) hj
  · refine Or.inr (Or.inr ⟨hno, m, by omega, hlen, hdiff, fun j hj hjm => ?_⟩)
    exact hfrom heq (fun hj => hbefore j hj hjm) hj

variable (bufsize_pos : 0 < bufsize)

include bufsize_pos

theorem compareLoop_of_ge {completed : ℕ} (h : length ≤ completed) :
    compareLoop reads offset length completed bufsize bufsize_pos = ⟨false, false, []⟩ := by
  rw [compareLoop, dif_neg (by omega)]

/-- Behind a block is the next one, or the end. -/
theorem compareLoop_next (hk : k * bufsize < length)
    (hpos : 0 < blockSize length (k * bufsize) bufsize) :
    compareLoop reads offset length (k * bufsize + blockSize length (k * bufsize) bufsize)
        (blockSize length (k * bufsize) bufsize) hpos =
      compareLoop reads offset length ((k + 1) * bufsize) bufsize bufsize_pos := by
  by_cases hlast : length - k * bufsize < bufsize
  · have hsize : blockSize length (k * bufsize) bufsize = length - k * bufsize := if_pos hlast
    rw [compareLoop_of_ge hpos (by omega), compareLoop_of_ge bufsize_pos]
    rw [Nat.add_mul, Nat.one_mul]
    omega
  · have hsize : blockSize length (k * bufsize) bufsize = bufsize := if_neg hlast
    have hnext : k * bufsize + bufsize = (k + 1) * bufsize := by rw [Nat.add_mul, Nat.one_mul]
    simp only [hsize, hnext]

/-- The loop from a block on. -/
theorem compareLoop_ends (k : ℕ) : LoopEnds reads offset length bufsize k
    (compareLoop reads offset length (k * bufsize) bufsize bufsize_pos) := by
  induction hrest : length - k * bufsize using Nat.strong_induction_on generalizing k with
  | _ rest ih =>
    by_cases hk : k * bufsize < length
    · have hself : ∀ j, k ≤ j → j < k → BlockEqual reads offset length bufsize j := fun j hj hjk =>
        absurd hjk (by omega)
      rw [compareLoop, dif_pos hk]
      dsimp only
      split_ifs with hs hd hne
      · refine Or.inr (Or.inl ⟨rfl, ⟨_, List.mem_cons_self, hs⟩, k, le_rfl, hk, fun h => ?_, hself⟩)
        exact absurd (hs.symm.trans h.1) Bool.false_ne_true
      · refine Or.inr (Or.inl ⟨rfl, ⟨_, List.mem_cons_of_mem _ List.mem_cons_self, hd⟩, k, le_rfl, hk,
          fun h => ?_, hself⟩)
        exact absurd (hd.symm.trans h.2) Bool.false_ne_true
      · refine Or.inr (Or.inr ⟨rfl, k, le_rfl, hk, ⟨⟨?_, ?_⟩, hne⟩, hself⟩)
        · exact Bool.not_eq_false _ ▸ hs
        · exact Bool.not_eq_false _ ▸ hd
      · have heq : BlockEqual reads offset length bufsize k :=
          ⟨⟨Bool.not_eq_false _ ▸ hs, Bool.not_eq_false _ ▸ hd⟩, not_not.mp hne⟩
        refine LoopEnds.cons heq ?_
        rw [compareLoop_next bufsize_pos hk]
        have hless : length - (k + 1) * bufsize < rest := by
          rw [Nat.add_mul, Nat.one_mul]
          omega
        exact ih _ hless (k + 1) rfl
    · rw [compareLoop_of_ge bufsize_pos (Nat.le_of_not_lt hk)]
      exact loopEnds_nil (Nat.le_of_not_lt hk)

end Blocks

/-! ## What a match means -/

/-- A call has read this byte of a file. -/
def Pread.Gives (r : Pread) (side : Side) (x : ℤ) (b : UInt8) : Prop :=
  r.side = side ∧ r.full = true ∧ ∃ bs, r.bytes = some bs ∧ ∃ i : ℕ, x = r.pos + i ∧ bs[i]? = some b

/-- The byte at `x` was read from both files and found equal. -/
def FoundEqual (preads : List Pread) (x : ℤ) : Prop :=
  ∃ b, (∃ r ∈ preads, r.Gives .src x b) ∧ ∃ r ∈ preads, r.Gives .dest x b

/-- A match means that the files were opened and that every byte of the part was compared, and is
never given after a failed read. -/
def MatchMeansCompared (o : Pwt.Options) (cpO : AppOptions) (fds : Fds) (reads : Reads)
    (filebuf : FilePair) : Prop :=
  let r := cmpCompare o cpO fds reads filebuf
  r.filebuf.matched = true → r.opened = true ∧
    (∀ x, Transfers o x filebuf → FoundEqual r.preads x) ∧ ∀ p ∈ r.preads, p.full = true

/-- Where the files are compared, the destination has been looked at or there is nothing to compare,
and no block fails before one differs; elsewhere the pair comes unmatched. -/
def SoundlyCompared (o : Pwt.Options) (cpO : AppOptions) (fds : Fds) (reads : Reads)
    (filebuf : FilePair) : Prop :=
  if filebuf.dest.existsFlag ≠ 0 ∧ 0 < fds.sfd ∧ 0 < fds.dfd then
    (filebuf.dest.existsFlag < 0 → computeTransferLength filebuf o = 0) ∧
      FailsAfterDifference reads (computeTransferOffset filebuf o) (computeTransferLength filebuf o)
        cpO.buffersize
  else filebuf.matched = false

section Match

variable {reads : Reads} {offset : ℤ} {length bufsize : ℕ}

/-- The bytes of equal blocks that were read are found equal. -/
theorem foundEqual_of_blocks (bufsize_pos : 0 < bufsize) {preads : List Pread}
    (hall : ∀ j, j * bufsize < length → BlockEqual reads offset length bufsize j ∧
      ∀ side, blockOf reads offset length bufsize side j ∈ preads) {i : ℕ} (hi : i < length) :
    FoundEqual preads (offset + i) := by
  have hlow : i / bufsize * bufsize ≤ i := Nat.div_mul_le_self i bufsize
  have hhigh : i < i / bufsize * bufsize + bufsize := Nat.lt_div_mul_add bufsize_pos
  obtain ⟨⟨⟨hs, hd⟩, hbytes⟩, hmem⟩ := hall (i / bufsize) (by omega)
  obtain ⟨bs, hbs, hlen⟩ := Pread.full_iff.mp hs
  have hlt : i - i / bufsize * bufsize < bs.length := by
    rw [hlen]
    show _ < blockSize length (i / bufsize * bufsize) bufsize
    unfold blockSize
    split_ifs <;> omega
  have hx : offset + i = ((i / bufsize * bufsize : ℕ) + offset) + (i - i / bufsize * bufsize : ℕ) := by
    omega
  refine ⟨bs[i - i / bufsize * bufsize], ⟨_, hmem .src, rfl, hs, bs, hbs, _, hx, ?_⟩,
    ⟨_, hmem .dest, rfl, hd, bs, hbytes ▸ hbs, _, hx, ?_⟩⟩
  · exact List.getElem?_eq_getElem hlt
  · exact List.getElem?_eq_getElem hlt

/-- The flag that is set from the loop means what it should when no block fails before one
differs. -/
theorem loopEnds_iff (bufsize_pos : 0 < bufsize) {r : Compared}
    (h : LoopEnds reads offset length bufsize 0 r) :
    ((!r.noMatch) = true → (∀ i : ℕ, i < length → FoundEqual r.preads (offset + i)) ∧
      ∀ p ∈ r.preads, p.full = true) ↔ FailsAfterDifference reads offset length bufsize := by
  rcases h with ⟨-, hno, hfull, hall⟩ | ⟨hno, ⟨p, hp, hpfull⟩, m, -, hlen, hfail, hbefore⟩ |
    ⟨hno, m, -, -, hdiff, hbefore⟩
  · refine iff_of_true (fun _ => ⟨fun i hi => ?_, hfull⟩) fun k hk hfail => ?_
    · exact foundEqual_of_blocks bufsize_pos (fun j hj => hall j (Nat.zero_le j) hj) hi
    · exact absurd (hall k (Nat.zero_le k) hk).1.1 hfail
  · refine iff_of_false (fun h => ?_) fun h => ?_
    · rw [(h (by rw [hno]; rfl)).2 p hp] at hpfull
      cases hpfull
    · obtain ⟨j, hj, hdiff⟩ := h m hlen hfail
      exact hdiff.2 (hbefore j (Nat.zero_le j) hj).2
  · refine iff_of_true (fun h => ?_) fun k hk hfail => ?_
    · rw [hno] at h
      cases h
    · refine ⟨m, ?_, hdiff⟩
      by_contra hmk
      rcases Nat.eq_or_lt_of_le (Nat.le_of_not_lt hmk) with rfl | hlt
      · exact hfail hdiff.1
      · exact hfail (hbefore k (Nat.zero_le k) hlt).1

end Match

/-- The bytes of the part, counted from its start. -/
theorem forall_transfers {o : Pwt.Options} {filebuf : FilePair} (P : ℤ → Prop) :
    (∀ x, Transfers o x filebuf → P x) ↔
      ∀ i : ℕ, i < computeTransferLength filebuf o → P (computeTransferOffset filebuf o + i) := by
  constructor
  · intro h i hi
    exact h _ ⟨by omega, by omega⟩
  · rintro h x ⟨hlow, hhigh⟩
    have hx := h (x - computeTransferOffset filebuf o).toNat (by omega)
    rwa [Int.toNat_of_nonneg (by omega), add_sub_cancel] at hx

section Contents

variable {o : Pwt.Options} {cpO : AppOptions} {fds : Fds} {reads : Reads} {filebuf : FilePair}

/-- Without a byte read, a flag that is set is right only if there is nothing to compare. -/
theorem forall_foundEqual_nil {offset : ℤ} {length : ℕ} :
    (∀ i : ℕ, i < length → FoundEqual [] (offset + i)) ↔ length = 0 := by
  have hnone : ∀ x, ¬ FoundEqual [] x := by
    rintro x ⟨b, ⟨r, hr, -⟩, -⟩
    cases hr
  constructor
  · intro h
    by_contra hpos
    exact hnone _ (h 0 (Nat.pos_of_ne_zero hpos))
  · intro hzero i hi
    omega

/-- The part of the files is compared, whether the loop is entered or left at once. -/
theorem comparePart_iff (err : Bool) : ((!(comparePart o cpO reads filebuf err).noMatch) = true →
      (∀ i : ℕ, i < computeTransferLength filebuf o →
        FoundEqual (comparePart o cpO reads filebuf err).preads
          (computeTransferOffset filebuf o + i)) ∧
      ∀ p ∈ (comparePart o cpO reads filebuf err).preads, p.full = true) ↔
    (err = true → computeTransferLength filebuf o = 0) ∧
      FailsAfterDifference reads (computeTransferOffset filebuf o) (computeTransferLength filebuf o)
        cpO.buffersize := by
  unfold comparePart
  cases err with
  | true =>
    simp only [if_true, Bool.not_false, forall_const, forall_foundEqual_nil, List.not_mem_nil]
    refine ⟨fun h => ⟨h.1, fun k hk => ?_⟩, fun h => ⟨h.1, fun p hp => hp.elim⟩⟩
    have hzero := h.1
    omega
  | false =>
    have hends := @compareLoop_ends reads (computeTransferOffset filebuf o)
      (computeTransferLength filebuf o) cpO.buffersize cpO.buffersize_pos 0
    rw [Nat.zero_mul] at hends
    rw [if_neg Bool.false_ne_true, and_iff_right fun h => absurd h Bool.false_ne_true]
    exact loopEnds_iff cpO.buffersize_pos hends

variable (hsize : filebuf.src.stSize = filebuf.dest.stSize) (hmode : cpO.metaOnly = false)

include hsize hmode

/-- The contents are compared when there is a destination and both files are open. -/
theorem cmpCompare_of_opened
    (hgo : filebuf.dest.existsFlag ≠ 0 ∧ 0 < fds.sfd ∧ 0 < fds.dfd) :
    cmpCompare o cpO fds reads filebuf =
      let r := comparePart o cpO reads filebuf (filebuf.dest.existsFlag < 0)
      ⟨{ filebuf with matched := !r.noMatch }, true, r.preads⟩ := by
  unfold cmpCompare
  simp only [if_pos hgo.1, hsize, hmode, if_pos hgo.2]
  rfl

/-- Otherwise the pair goes back as it came. -/
theorem cmpCompare_of_not_opened
    (hgo : ¬ (filebuf.dest.existsFlag ≠ 0 ∧ 0 < fds.sfd ∧ 0 < fds.dfd)) :
    cmpCompare o cpO fds reads filebuf = ⟨filebuf, false, []⟩ := by
  unfold cmpCompare
  by_cases hexists : filebuf.dest.existsFlag = 0
  · simp [hexists]
  · have hopen : ¬ (0 < fds.sfd ∧ 0 < fds.dfd) := fun h => hgo ⟨hexists, h⟩
    simp [hexists, hsize, hmode, if_neg hopen]

end Contents

/-- A match of the contents means that every byte was compared exactly when no read fails before a
difference is found. -/
theorem flagged_iff {o : Pwt.Options} {cpO : AppOptions} {fds : Fds} {reads : Reads}
    {filebuf : FilePair} (hsize : filebuf.src.stSize = filebuf.dest.stSize)
    (hmode : cpO.metaOnly = false) :
    MatchMeansCompared o cpO fds reads filebuf ↔ SoundlyCompared o cpO fds reads filebuf := by
  unfold MatchMeansCompared SoundlyCompared
  by_cases hgo : filebuf.dest.existsFlag ≠ 0 ∧ 0 < fds.sfd ∧ 0 < fds.dfd
  · rw [if_pos hgo, cmpCompare_of_opened hsize hmode hgo]
    dsimp only
    rw [forall_transfers, and_iff_right rfl]
    refine (comparePart_iff _).trans (and_congr_left fun _ => ?_)
    rw [decide_eq_true_eq]
  · rw [if_neg hgo, cmpCompare_of_not_opened hsize hmode hgo]
    simp

/-- Two files of one byte that can be read. -/
theorem matched_one_byte :
    MatchMeansCompared ⟨1, 1⟩ ⟨['a'], ['b'], false, false, 4, by decide, 1⟩ ⟨3, 4⟩
      (fun _ _ _ => some [65]) (filepairNew ⟨['a'], 1, 1, 0⟩ ⟨['b'], 1, 1, 0⟩) := by
  refine (flagged_iff rfl rfl).mpr ?_
  unfold SoundlyCompared
  rw [if_pos (by decide)]
  refine ⟨fun h => absurd h (by decide), fun k hk hfail => absurd ?_ hfail⟩
  obtain rfl : k = 0 := by
    have hk1 : k * 4 < 1 := hk
    omega
  exact ⟨rfl, rfl⟩

/-- A read that fails leaves the flag for a difference unset. -/
theorem not_matched_unreadable :
    ¬ MatchMeansCompared ⟨1, 1⟩ ⟨['a'], ['b'], false, false, 4, by decide, 1⟩ ⟨3, 4⟩
      (fun _ _ _ => none) (filepairNew ⟨['a'], 1, 1, 0⟩ ⟨['b'], 1, 1, 0⟩) := by
  intro h
  have hloop : compareLoop (fun _ _ _ => none) 0 1 0 4 (by decide) =
      ⟨true, false, [⟨.src, 0, 1, none⟩]⟩ := by
    rw [compareLoop, dif_pos one_pos]
    rfl
  have hrun : cmpCompare ⟨1, 1⟩ ⟨['a'], ['b'], false, false, 4, by decide, 1⟩ ⟨3, 4⟩
      (fun _ _ _ => none) (filepairNew ⟨['a'], 1, 1, 0⟩ ⟨['b'], 1, 1, 0⟩) =
      ⟨⟨-1, true, ⟨['a'], 1, 1, 0⟩, ⟨['b'], 1, 1, 0⟩⟩, true, [⟨.src, 0, 1, none⟩]⟩ := by
    unfold cmpCompare comparePart
    rw [show computeTransferLength (filepairNew ⟨['a'], 1, 1, 0⟩ ⟨['b'], 1, 1, 0⟩) ⟨1, 1⟩ = 1 from rfl,
      show computeTransferOffset (filepairNew ⟨['a'], 1, 1, 0⟩ ⟨['b'], 1, 1, 0⟩) ⟨1, 1⟩ = 0 from rfl,
      hloop]
    rfl
  unfold MatchMeansCompared at h
  rw [hrun] at h
  exact absurd ((h rfl).2.2 _ List.mem_cons_self) (by decide)

end MpiToShmem.Compare
