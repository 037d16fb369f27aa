import MpiToShmem.Kit.OneSided
import MpiToShmem.Shmem.SendRecv

/-!
# Communicators

The structures of a communicator and the calls that make one. Memory from `shmalloc` holds what it
held before, so a new structure has an arbitrary value, `junk`, in the fields that the call leaves
alone.

1. `mpiInit`: `MPI_COMM_WORLD`.
2. `mpiGroupIncl` and `mpiCommCreate`: a communicator of some of the PEs.
3. `mpiCommDup`: a copy of a communicator.
-/

namespace MpiToShmem.Shmem

open Kit OneSided

/-! ## Memory -/

/-- The buffer of the communicator, other symmetric memory, memory of one process, and what
`shmalloc` returns for a request. -/
inductive Region where
  | buffer
  | heap
  | process
  | request
deriving DecidableEq

abbrev Addr := Ptr Region

/-- A buffer that a program passes: symmetric memory of its own, or memory of its process. -/
inductive UserBuf where
  | heap (offset : ℤ)
  | process (offset : ℤ)
deriving DecidableEq

def UserBuf.addr : UserBuf → Addr
  | heap offset => ⟨.heap, offset⟩
  | process offset => ⟨.process, offset⟩

/-- `shmem_addr_accessible`, of a buffer that a program passes. -/
def shmemAddrAccessible : UserBuf → Bool
  | .heap _ => true
  | .process _ => false

/-- All PEs with `bufBytes` bytes in the communicator's buffer. -/
def shmem (npes : ℕ) (bufBytes : ℤ) : Machine Region where
  npes := npes
  size
    | .buffer => some bufBytes
    | _ => none

/-! ## Structures -/

/-- `MPID_Group`. -/
structure MpidGroup where
  size : ℤ
  rank : ℤ
  peRank : ℤ
  pesInGroup : List ℤ
deriving DecidableEq

/-- `MPID_Comm`, with the slot of `sendInfo` that the calls use. -/
structure MpidComm where
  rank : ℤ
  size : ℤ
  groupPtr : MpidGroup
  bufferPtr : Addr
  offset : ℤ
  packPtr : Addr
  scratchPtr : Addr
  sendInfo : MpidSendRecv
deriving DecidableEq

/-- What `shmalloc` returns for a communicator's buffer. -/
def sharedBuffer : Addr := ⟨.buffer, 0⟩

/-- A structure in memory that was never used. -/
def freshComm : MpidComm :=
  ⟨0, 0, ⟨0, 0, 0, []⟩, ⟨.process, 0⟩, 0, ⟨.process, 0⟩, ⟨.process, 0⟩, .free⟩

/-- `MPI_Comm_rank`. -/
def mpiCommRank (comm : MpidComm) : ℤ := comm.groupPtr.rank

/-- `MPI_Comm_size`. -/
def mpiCommSize (comm : MpidComm) : ℤ := comm.groupPtr.size

/-! ## Constructors -/

/-- `MPI_COMM_WORLD` on PE `myPe`; only `MPI_Init` sets `pe_rank`. -/
def mpiInit (npes myPe : ℕ) (packedBuffer scratchBuffer : Addr) : MpidComm where
  rank := myPe
  size := npes
  groupPtr := ⟨npes, myPe, myPe, (List.range npes).map Nat.cast⟩
  bufferPtr := sharedBuffer
  offset := 0
  packPtr := packedBuffer
  scratchPtr := scratchBuffer
  sendInfo := .free

/-- The index of the last entry for this PE, where there is one. -/
def newRank (myPe : ℤ) (ranks : List ℤ) (junk : ℤ) : ℤ :=
  ranks.zipIdx.foldl (fun r p => if p.1 = myPe then p.2 else r) junk

/-- `MPI_Group_incl` on PE `myPe`. -/
def mpiGroupIncl (ranks : List ℤ) (myPe : ℤ) (junk : ℤ) : MpidGroup :=
  ⟨ranks.length, newRank myPe ranks junk, myPe, ranks⟩

/-- `MPI_Comm_create` on PE `myPe`, which makes no communicator if it is not in the group of `comm`. -/
def mpiCommCreate (comm : MpidComm) (group : MpidGroup) (myPe : ℤ) (junk : MpidComm) :
    Option MpidComm :=
  if myPe ∈ comm.groupPtr.pesInGroup.take comm.groupPtr.size.toNat then
    some { junk with
      rank := myPe
      size := group.size
      bufferPtr := sharedBuffer
      groupPtr := { junk.groupPtr with
        rank := group.rank
        size := group.size
        pesInGroup := group.pesInGroup.take group.size.toNat } }
  else none

/-- `MPI_Comm_dup` on PE `myPe`. -/
def mpiCommDup (comm : MpidComm) (myPe : ℤ) (junk : MpidComm) : MpidComm :=
  { junk with
    rank := myPe
    size := comm.groupPtr.size
    bufferPtr := sharedBuffer
    groupPtr := { junk.groupPtr with
      rank := comm.groupPtr.rank
      size := comm.groupPtr.size
      pesInGroup := comm.groupPtr.pesInGroup.take comm.groupPtr.size.toNat } }

/-! ## Ranks -/

theorem foldl_rank_of_not_mem {myPe : ℤ} {ranks : List ℤ} (h : myPe ∉ ranks) (k : ℕ) (r : ℤ) :
    (ranks.zipIdx k).foldl (fun r p => if p.1 = myPe then (p.2 : ℤ) else r) r = r := by
  induction ranks generalizing k with
  | nil => rfl
  | cons x ranks ih =>
    rw [List.mem_cons, not_or] at h
    rw [List.zipIdx_cons, List.foldl_cons, if_neg (Ne.symm h.1), ih h.2]

theorem foldl_rank {myPe : ℤ} {ranks : List ℤ} (hnodup : ranks.Nodup) {i : ℕ}
    (h : ranks[i]? = some myPe) (k : ℕ) (r : ℤ) :
    (ranks.zipIdx k).foldl (fun r p => if p.1 = myPe then (p.2 : ℤ) else r) r =
      ((k + i : ℕ) : ℤ) := by
  induction ranks generalizing i k r with
  | nil => cases h
  | cons x ranks ih =>
    obtain ⟨hx, hrest⟩ := List.nodup_cons.mp hnodup
    rw [List.zipIdx_cons, List.foldl_cons]
    cases i with
    | zero =>
      obtain rfl : x = myPe := Option.some.inj h
      rw [if_pos rfl, foldl_rank_of_not_mem hx, add_zero]
    | succ i =>
      rw [List.getElem?_cons_succ] at h
      rw [ih hrest h]
      congr 1
      omega

/-- The rank of a PE that occurs once is its place in the list. -/
theorem newRank_eq {myPe : ℤ} {ranks : List ℤ} (hnodup : ranks.Nodup) {i : ℕ}
    (h : ranks[i]? = some myPe) (junk : ℤ) : newRank myPe ranks junk = i := by
  unfold newRank
  rw [foldl_rank hnodup h, zero_add]

/-! ## Bytes -/

/-- `GetNumBytes` of any `int`. -/
def getNumBytes (count : ℤ) (dataType : MpiDatatype) : ℤ := wrapInt (count * dataType.size)

/-- `CopyMyData`. -/
def copyMyData (toBuf fromBuf : Addr) (count : ℤ) (dataType : MpiDatatype) : Op Region :=
  .copy toBuf fromBuf (getNumBytes count dataType)

/-- `GetBufferOffset`. -/
def getBufferOffset (count : ℤ) (dataType : MpiDatatype) (comm : MpidComm) : Addr :=
  comm.bufferPtr + wrapInt (comm.offset + getNumBytes count dataType)

theorem isInt_getNumBytes (count : ℤ) (dataType : MpiDatatype) : IsInt (getNumBytes count dataType) :=
  isInt_wrapInt _

theorem size_pos (dataType : MpiDatatype) : 0 < (dataType.size : ℤ) := by
  cases dataType with
  | other code => exact Int.zero_lt_one
  | _ => decide

/-- Bytes that fit an `int` are computed right. -/
theorem getNumBytes_of_le {count : ℤ} {dataType : MpiDatatype} (h₀ : 0 ≤ count)
    (h : count * dataType.size ≤ intMax) : getNumBytes count dataType = count * dataType.size := by
  have hpos : 0 ≤ count * (dataType.size : ℤ) := Int.mul_nonneg h₀ (size_pos dataType).le
  exact wrapInt_of_isInt ⟨by omega, h⟩

/-! ## Addresses -/

theorem addr_region_ne_buffer (buf : UserBuf) : buf.addr.region ≠ .buffer := by
  cases buf with
  | heap => exact nofun
  | process => exact nofun

theorem addr_region_ne_request (buf : UserBuf) : buf.addr.region ≠ .request := by
  cases buf with
  | heap => exact nofun
  | process => exact nofun

theorem inside_of_ne_buffer {npes : ℕ} {bufBytes n : ℤ} {p : Addr} (hp : p.region ≠ .buffer)
    (hn : 0 ≤ n) : (shmem npes bufBytes).Inside p n := by
  refine Or.inr ⟨hn, fun b hb => ?_⟩
  unfold shmem at hb
  dsimp only at hb
  split at hb
  · contradiction
  · cases hb

theorem inside_buffer {npes : ℕ} {bufBytes n o : ℤ} (hn : n ≠ 0) :
    (shmem npes bufBytes).Inside ⟨.buffer, o⟩ n ↔ 0 ≤ n ∧ 0 ≤ o ∧ o + n ≤ bufBytes := by
  unfold Machine.Inside shmem
  simp [hn]

/-- Writing in another region leaves the place alone. -/
theorem write_of_region_ne {m : Mem Region} {p q : Addr} {bs : List UInt8}
    (h : q.region ≠ p.region) : write m p bs q = m q :=
  write_of_not_covers fun hc => h hc.1

end MpiToShmem.Shmem
