import MpiToShmem.Shmem.Copies

/-!
# `MPI_Gather` over a communicator of some of the PEs

`MPI_Gather` waits at `shmem_barrier_all`, takes its root for the number of a PE, and puts the block
of a PE at the place of its number. The rank in the communicator does not come into it.

1. `rank_created`: the rank that a created communicator has.
2. `GatherRespected`: the members gather their blocks in the order of their ranks, without the
   others.
3. `GatherArgs.Placed`: numbers and ranks agree where the code takes one for the other, and what is
   staged fits.
4. `respected_of_placed`: then the gather is right.
-/

namespace MpiToShmem.Shmem

open Kit OneSided

/-! ## The communicator -/

/-- What `MPI_Group_incl` and `MPI_Comm_create` make of `MPI_COMM_WORLD` on PE `pe`, out of any
memory. -/
def Created (npes : ℕ) (ranks : List ℕ) (pe : ℕ) (comm : MpidComm) : Prop :=
  ∃ packed scratch rank junk, mpiCommCreate (mpiInit npes pe packed scratch)
    (mpiGroupIncl (ranks.map Nat.cast) pe rank) pe junk = some comm

/-- The rank is the place in the list; the buffer is what `shmalloc` returned. -/
theorem rank_created {npes pe : ℕ} {ranks : List ℕ} {comm : MpidComm} (hnodup : ranks.Nodup)
    (hmem : pe ∈ ranks) (h : Created npes ranks pe comm) :
    mpiCommRank comm = ranks.idxOf pe ∧ comm.bufferPtr = sharedBuffer := by
  obtain ⟨packed, scratch, rank, junk, h⟩ := h
  unfold mpiCommCreate at h
  split_ifs at h
  obtain rfl := Option.some.inj h
  have hget : (ranks.map Nat.cast)[ranks.idxOf pe]? = some (pe : ℤ) := by
    rw [List.getElem?_map, List.getElem?_idxOf hmem]
    rfl
  exact ⟨newRank_eq (hnodup.map Nat.cast_injective) hget rank, rfl⟩

/-- `MPI_Comm_create` leaves the offset as it was in memory. -/
theorem exists_created {npes pe : ℕ} (hpe : pe < npes) (ranks : List ℕ) (offset : ℤ) :
    ∃ comm, Created npes ranks pe comm ∧ comm.bufferPtr = sharedBuffer ∧ comm.offset = offset := by
  have hworld : (pe : ℤ) ∈ ((List.range npes).map Nat.cast).take (npes : ℤ).toNat := by
    rw [Int.toNat_natCast, List.take_of_length_le (by simp)]
    exact List.mem_map_of_mem (List.mem_range.mpr hpe)
  exact ⟨_, ⟨⟨.heap, 0⟩, ⟨.heap, 0⟩, 0, { freshComm with offset := offset }, if_pos hworld⟩, rfl, rfl⟩

/-! ## The call -/

/-- The arguments that the PEs pass; a buffer may be `NULL`. -/
structure GatherArgs where
  sendbuf : ℕ → Option UserBuf
  recvbuf : ℕ → Option UserBuf
  count : ℤ
  sendtype : MpiDatatype
  recvtype : MpiDatatype
  root : ℕ

namespace GatherArgs

/-- The call on PE `pe`. -/
def call (a : GatherArgs) (npes pe : ℕ) (comm : MpidComm) : List (Op Region) × MpiRet :=
  mpiGather npes pe (a.sendbuf pe) a.count a.sendtype (a.recvbuf pe) a.recvtype a.root comm

/-- The bytes of a block. -/
def block (a : GatherArgs) : ℤ := a.count * a.sendtype.size

/-- The bytes that the root copies back. -/
def back (a : GatherArgs) (npes : ℕ) : ℤ := getNumBytes (wrapInt (a.count * npes)) a.recvtype

/-- The buffers, where they are not `NULL`. -/
def send (a : GatherArgs) (pe : ℕ) : UserBuf := (a.sendbuf pe).getD (.heap 0)

def recv (a : GatherArgs) (pe : ℕ) : UserBuf := (a.recvbuf pe).getD (.heap 0)

/-- As MPI demands, the root does not receive where it sends from. -/
def NoAlias (a : GatherArgs) (ranks : List ℕ) : Prop :=
  ∀ r s v, ranks[a.root]? = some r → a.sendbuf r = some s → a.recvbuf r = some v →
    Apart v.addr (a.block * ranks.length) s.addr a.block

end GatherArgs

/-- The members of the communicator call `MPI_Gather`, the others do nothing. -/
def gatherWorld (npes : ℕ) (ranks : List ℕ) (a : GatherArgs) (comm : ℕ → MpidComm)
    (mem : ℕ → Mem Region) : OneSided.World Region :=
  ⟨mem, fun pe => if pe ∈ ranks then (a.call npes pe (comm pe)).1 else [], [], fun _ _ => false⟩

/-- Over every such communicator and from any memory: the members' calls succeed, from every state
of a run they can come to their end, and then the PE of rank `root` has the block of the PE of rank
`j` at the place `j`. -/
structure GatherRespected (npes : ℕ) (bufBytes : ℤ) (ranks : List ℕ) (a : GatherArgs) : Prop where
  success : ∀ comm : ℕ → MpidComm, (∀ pe ∈ ranks, Created npes ranks pe (comm pe)) →
    ∀ pe ∈ ranks, (a.call npes pe (comm pe)).2 = .success
  completes : ∀ comm : ℕ → MpidComm, (∀ pe ∈ ranks, Created npes ranks pe (comm pe)) → ∀ mem ls w,
    exec (OneSided.step (shmem npes bufBytes)) (gatherWorld npes ranks a comm mem) ls = some w →
    ∃ ls' w', exec (OneSided.step (shmem npes bufBytes)) w ls' = some w' ∧ w'.Done
  ordered : ∀ comm : ℕ → MpidComm, (∀ pe ∈ ranks, Created npes ranks pe (comm pe)) → ∀ mem ls w,
    exec (OneSided.step (shmem npes bufBytes)) (gatherWorld npes ranks a comm mem) ls = some w →
    w.Done → ∀ r ∈ ranks, mpiCommRank (comm r) = a.root → ∀ pe ∈ ranks,
      read (w.mem r) ((a.recv r).addr + a.block * mpiCommRank (comm pe)) a.block =
        read (mem pe) (a.send pe).addr a.block

/-! ## The condition -/

/-- Where a receive buffer is filled, if not both buffers are copied. -/
def area (buf : UserBuf) : Addr := if shmemAddrAccessible buf then buf.addr else sharedBuffer

/-- The root of the communicator is the PE of that number; every PE puts its block where the root
wants the block of its rank; no PE has two buffers that are not symmetric, and what is copied fits. -/
structure GatherArgs.Placed (a : GatherArgs) (npes : ℕ) (bufBytes : ℤ) (ranks : List ℕ) : Prop where
  pos : 0 < a.count
  root : ranks[a.root]? = some a.root
  place : ∀ pe < npes, (area (a.recv pe) + wrapInt (a.count * pe) * (a.sendtype.size : ℤ) : Addr) =
    area (a.recv a.root) + a.block * (ranks.idxOf pe : ℤ)
  staged : ∀ pe < npes, shmemAddrAccessible (a.send pe) = false →
    shmemAddrAccessible (a.recv pe) = true ∧ a.block ≤ intMax ∧ a.block ≤ bufBytes
  copied : shmemAddrAccessible (a.recv a.root) = false →
    a.block * npes ≤ a.back npes ∧ a.back npes ≤ bufBytes

/-- All PEs are members, no buffer is `NULL`, and there is nothing to gather or everything is in
place. -/
structure GatherArgs.Collects (a : GatherArgs) (npes : ℕ) (bufBytes : ℤ) (ranks : List ℕ) :
    Prop where
  members : ∀ pe < npes, pe ∈ ranks
  buffers : ∀ pe < npes, (a.sendbuf pe).isSome ∧ (a.recvbuf pe).isSome
  blocks : a.count = 0 ∨ a.Placed npes bufBytes ranks

/-! ## The call in supersteps -/

namespace GatherArgs

variable (a : GatherArgs) (npes : ℕ) (comm : ℕ → MpidComm)

/-- Where a PE puts its block. -/
def dst (pe : ℕ) : Addr :=
  recvAddr (comm pe) (a.send pe) (a.recv pe) a.count a.sendtype +
    wrapInt (a.count * pe) * (a.sendtype.size : ℤ)

/-- Where it takes its block. -/
def src (pe : ℕ) : Addr := sendAddr (comm pe) (a.send pe)

def stageStep (pe : ℕ) : List (Op Region) := stage (comm pe) (a.send pe) a.count a.sendtype

def putStep (pe : ℕ) : List (Op Region) := [.put a.root (a.dst comm pe) (a.src comm pe) a.block]

def backStep (pe : ℕ) : List (Op Region) :=
  if pe = a.root then unstage (a.recv pe)
    (symRecv (comm pe) (a.send pe) a.count a.sendtype) (wrapInt (a.count * npes)) a.recvtype
  else []

variable {a} in
theorem send_eq {pe : ℕ} (h : (a.sendbuf pe).isSome) : a.sendbuf pe = some (a.send pe) := by
  obtain ⟨s, hs⟩ := Option.isSome_iff_exists.mp h
  unfold send
  rw [hs]
  rfl

variable {a} in
theorem recv_eq {pe : ℕ} (h : (a.recvbuf pe).isSome) : a.recvbuf pe = some (a.recv pe) := by
  obtain ⟨v, hv⟩ := Option.isSome_iff_exists.mp h
  unfold recv
  rw [hv]
  rfl

theorem call_eq {pe : ℕ} (h : (a.sendbuf pe).isSome ∧ (a.recvbuf pe).isSome) :
    a.call npes pe (comm pe) =
      (joinSteps pe [a.stageStep comm, a.putStep comm, a.backStep npes comm], .success) := by
  unfold call mpiGather
  rw [send_eq h.1, recv_eq h.2]
  rfl

end GatherArgs

/-! ## When everything is in place -/

section Placed

variable {a : GatherArgs} {npes : ℕ} {bufBytes : ℤ} {ranks : List ℕ} {comm : ℕ → MpidComm}

theorem back_zero (h : a.count = 0) : a.back npes = 0 := by
  unfold GatherArgs.back getNumBytes
  rw [h, zero_mul, wrapInt_zero, zero_mul, wrapInt_zero]

theorem block_zero (h : a.count = 0) : a.block = 0 := by
  unfold GatherArgs.block
  rw [h, zero_mul]

theorem GatherArgs.block_pos (h : 0 < a.count) : 0 < a.block := Int.mul_pos h (size_pos a.sendtype)

/-- A block ends before the later ones. -/
theorem GatherArgs.block_le (h : 0 < a.count) {i n : ℕ} (hi : i < n) :
    a.block * i + a.block ≤ a.block * n := by
  have hmul : a.block * (i + 1) ≤ a.block * n :=
    Int.mul_le_mul_of_nonneg_left (by omega) (block_pos h).le
  rw [mul_add, mul_one] at hmul
  exact hmul

theorem GatherArgs.block_nonneg (h : 0 < a.count) (i : ℕ) : 0 ≤ a.block * (i : ℤ) :=
  Int.mul_nonneg (block_pos h).le (by omega)

/-- The places of a block are among those of all blocks. -/
theorem GatherArgs.covers_block (h : 0 < a.count) {v : Addr} {i k n : ℕ} (hi : i < n)
    (hk : (k : ℤ) < a.block) : v.Covers (a.block * n) (v + (a.block * (i : ℤ) + (k : ℤ))) := by
  have hle := block_le h hi
  have hnonneg := block_nonneg h i
  refine ⟨rfl, ?_, ?_⟩
  · rw [add_offset]
    omega
  · rw [add_offset]
    omega

theorem accessible_of_not_both {send recv : UserBuf}
    (h : shmemAddrAccessible send = false → shmemAddrAccessible recv = true)
    (hr : shmemAddrAccessible recv = false) : shmemAddrAccessible send = true := by
  by_contra hs
  rw [h (Bool.eq_false_iff.mpr hs)] at hr
  cases hr

/-- Unless both buffers are copied, the place of the receive side is known. -/
theorem recvAddr_eq {comm : MpidComm} (hbuf : comm.bufferPtr = sharedBuffer) {send recv : UserBuf}
    (h : shmemAddrAccessible send = false → shmemAddrAccessible recv = true) (count : ℤ)
    (dataType : MpiDatatype) : recvAddr comm send recv count dataType = area recv := by
  unfold recvAddr symRecv area
  cases hr : shmemAddrAccessible recv with
  | true => rfl
  | false =>
    rw [accessible_of_not_both h hr]
    exact hbuf

/-- Where all PEs are members there are as many ranks as PEs. -/
theorem length_of_members (hnodup : ranks.Nodup) (hlt : ∀ pe ∈ ranks, pe < npes)
    (hmembers : ∀ pe < npes, pe ∈ ranks) : ranks.length = npes := by
  have hrange : ranks ⊆ List.range npes := fun i hi => List.mem_range.mpr (hlt i hi)
  have hranks : List.range npes ⊆ ranks := fun i hi => hmembers i (List.mem_range.mp hi)
  apply le_antisymm
  · have hle := (List.subperm_of_subset hnodup hrange).length_le
    rwa [List.length_range] at hle
  · have hle := (List.subperm_of_subset List.nodup_range hranks).length_le
    rwa [List.length_range] at hle

theorem idxOf_lt (hnodup : ranks.Nodup) (hlt : ∀ pe ∈ ranks, pe < npes)
    (hmembers : ∀ pe < npes, pe ∈ ranks) {pe : ℕ} (hpe : pe < npes) : ranks.idxOf pe < npes := by
  have hidx := List.idxOf_lt_length_of_mem (hmembers pe hpe)
  rwa [length_of_members hnodup hlt hmembers] at hidx

namespace GatherArgs.Placed

variable (h : a.Placed npes bufBytes ranks)

include h

theorem copyBytes (hb : a.block ≤ intMax) : getNumBytes a.count a.sendtype = a.block :=
  getNumBytes_of_le h.pos.le hb

theorem symRecv_root (hbuf : ∀ pe < npes, (comm pe).bufferPtr = sharedBuffer) (hroot : a.root < npes)
    (hpriv : shmemAddrAccessible (a.recv a.root) = false) :
    symRecv (comm a.root) (a.send a.root) a.count a.sendtype = sharedBuffer := by
  unfold symRecv
  rw [accessible_of_not_both (fun hs => (h.staged a.root hroot hs).1) hpriv]
  exact hbuf a.root hroot

/-- A block is put where the root wants the block of that rank. -/
theorem dst_eq (hbuf : ∀ pe < npes, (comm pe).bufferPtr = sharedBuffer) {pe : ℕ} (hpe : pe < npes) :
    a.dst comm pe = area (a.recv a.root) + a.block * (ranks.idxOf pe : ℤ) := by
  unfold dst
  rw [recvAddr_eq (hbuf pe hpe) fun hs => (h.staged pe hpe hs).1]
  exact h.place pe hpe

end GatherArgs.Placed

/-! ### All accesses are inside -/

section Ok

variable (h : a.Collects npes bufBytes ranks)
  (hbuf : ∀ pe < npes, (comm pe).bufferPtr = sharedBuffer)

include h hbuf

theorem ok_stageStep {pe : ℕ} (hpe : pe < npes) :
    ∀ op ∈ a.stageStep comm pe, op.Ok (shmem npes bufBytes) := by
  refine (ok_stage (hbuf pe hpe)).mpr fun hpriv => ?_
  rcases h.blocks with hzero | hplaced
  · rw [hzero]
    unfold getNumBytes
    rw [zero_mul, wrapInt_zero]
    exact Or.inl rfl
  · obtain ⟨-, hint, hb⟩ := hplaced.staged pe hpe hpriv
    have hpos := GatherArgs.block_pos hplaced.pos
    rw [hplaced.copyBytes hint]
    exact Or.inr ⟨hpos.le, le_rfl, by omega⟩

theorem ok_putStep (hnodup : ranks.Nodup) (hlt : ∀ pe ∈ ranks, pe < npes) (hroot : a.root < npes)
    {pe : ℕ} (hpe : pe < npes) : ∀ op ∈ a.putStep comm pe, op.Ok (shmem npes bufBytes) := by
  intro op hop
  rw [List.mem_singleton.mp hop]
  show a.root < npes ∧ _ ∧ _
  refine ⟨hroot, ?_⟩
  rcases h.blocks with hzero | hplaced
  · rw [block_zero hzero]
    exact ⟨Or.inl rfl, Or.inl rfl⟩
  have hpos := GatherArgs.block_pos hplaced.pos
  constructor
  · rw [hplaced.dst_eq hbuf hpe]
    unfold area
    split_ifs with hacc
    · exact inside_of_ne_buffer (addr_region_ne_buffer (a.recv a.root)) hpos.le
    · obtain ⟨hall, hback⟩ := hplaced.copied (Bool.eq_false_iff.mpr hacc)
      have hle := GatherArgs.block_le hplaced.pos (idxOf_lt hnodup hlt h.members hpe)
      have hnonneg := GatherArgs.block_nonneg hplaced.pos (ranks.idxOf pe)
      refine (inside_buffer hpos.ne').mpr ⟨hpos.le, ?_, ?_⟩
      · show 0 ≤ (0 : ℤ) + _
        omega
      · show (0 : ℤ) + _ + _ ≤ _
        omega
  · unfold GatherArgs.src sendAddr
    split_ifs with hacc
    · exact inside_of_ne_buffer (addr_region_ne_buffer _) hpos.le
    · obtain ⟨-, -, hb⟩ := hplaced.staged pe hpe (Bool.eq_false_iff.mpr hacc)
      rw [hbuf pe hpe]
      exact (inside_buffer hpos.ne').mpr ⟨hpos.le, le_rfl, by omega⟩

theorem ok_backStep {pe : ℕ} (hpe : pe < npes) :
    ∀ op ∈ a.backStep npes comm pe, op.Ok (shmem npes bufBytes) := by
  intro op hop
  unfold GatherArgs.backStep unstage copyMyData at hop
  split_ifs at hop with hr hacc
  · cases hop
  · subst hr
    rw [List.mem_singleton.mp hop]
    show (shmem npes bufBytes).Inside _ (a.back npes) ∧
      (shmem npes bufBytes).Inside _ (a.back npes)
    rcases h.blocks with hzero | hplaced
    · rw [back_zero hzero]
      exact ⟨Or.inl rfl, Or.inl rfl⟩
    · have hpriv := Bool.eq_false_iff.mpr hacc
      obtain ⟨hall, hb⟩ := hplaced.copied hpriv
      have hnonneg := GatherArgs.block_nonneg hplaced.pos npes
      rw [hplaced.symRecv_root hbuf hpe hpriv]
      refine ⟨inside_of_ne_buffer (addr_region_ne_buffer _) (by omega), ?_⟩
      by_cases hz : a.back npes = 0
      · exact Or.inl hz
      · exact (inside_buffer hz).mpr ⟨by omega, le_rfl, by omega⟩
  · cases hop

end Ok

/-! ### What the supersteps do -/

theorem localRun_stageStep (m : Mem Region) (pe : ℕ) :
    (localRun m (a.stageStep comm pe)).1 =
      if shmemAddrAccessible (a.send pe) then m
      else write m (comm pe).bufferPtr (read m (a.send pe).addr (getNumBytes a.count a.sendtype)) := by
  unfold GatherArgs.stageStep stage copyMyData
  split_ifs
  · rfl
  · rfl

theorem stageStep_copies {pe : ℕ} :
    ∀ op ∈ a.stageStep comm pe, op.isLocal = true ∧ op.target = none :=
  stage_copies

theorem backStep_copies {pe : ℕ} :
    ∀ op ∈ a.backStep npes comm pe, op.isLocal = true ∧ op.target = none := by
  unfold GatherArgs.backStep
  split_ifs
  · exact unstage_copies
  · exact fun _ hop => absurd hop List.not_mem_nil

theorem putStep_local {pe : ℕ} : ∀ op ∈ a.putStep comm pe, op.isLocal = true := by
  intro op hop
  rw [List.mem_singleton.mp hop]
  rfl

/-- What holds of each superstep. -/
theorem forall_steps {P : (ℕ → List (Op Region)) → Prop} (hstage : P (a.stageStep comm))
    (hput : P (a.putStep comm)) (hback : P (a.backStep npes comm)) :
    ∀ s ∈ [a.stageStep comm, a.putStep comm, a.backStep npes comm], P s := by
  rw [List.forall_mem_cons, List.forall_mem_cons, List.forall_mem_singleton]
  exact ⟨hstage, hput, hback⟩

theorem local_steps (hok : ∀ s ∈ [a.stageStep comm, a.putStep comm, a.backStep npes comm],
      ∀ pe < npes, ∀ op ∈ s pe, op.Ok (shmem npes bufBytes)) :
    ∀ s ∈ [a.stageStep comm, a.putStep comm, a.backStep npes comm], ∀ pe < npes, ∀ op ∈ s pe,
      op.Ok (shmem npes bufBytes) ∧ op.isLocal = true := by
  have hlocal : ∀ s ∈ [a.stageStep comm, a.putStep comm, a.backStep npes comm], ∀ pe, ∀ op ∈ s pe,
      op.isLocal = true :=
    forall_steps (fun _ op hop => (stageStep_copies op hop).1) (fun _ => putStep_local)
      fun _ op hop => (backStep_copies op hop).1
  exact fun s hs pe hpe op hop => ⟨hok s hs pe hpe op hop, hlocal s hs pe op hop⟩

section RaceFree

variable (h : a.Placed npes bufBytes ranks)
  (hbuf : ∀ pe < npes, (comm pe).bufferPtr = sharedBuffer)

include h hbuf

/-- Blocks of different ranks are apart. -/
theorem dst_apart (hmembers : ∀ pe < npes, pe ∈ ranks) {i j : ℕ} (hi : i < npes) (hj : j < npes)
    (hij : i ≠ j) : Apart (a.dst comm i) a.block (a.dst comm j) a.block := by
  intro q hq hq'
  rw [h.dst_eq hbuf hi] at hq
  rw [h.dst_eq hbuf hj] at hq'
  have hne : ranks.idxOf i ≠ ranks.idxOf j := fun he =>
    hij ((List.idxOf_inj (hmembers i hi)).mp he)
  obtain ⟨-, hle, hlt⟩ := hq
  obtain ⟨-, hle', hlt'⟩ := hq'
  rw [add_offset] at hle hlt hle' hlt'
  rcases Nat.lt_or_gt_of_ne hne with hlt₁ | hlt₁
  · have := GatherArgs.block_le h.pos hlt₁
    omega
  · have := GatherArgs.block_le h.pos hlt₁
    omega

/-- The root's own block is not where it receives. -/
theorem dst_src_apart (hnodup : ranks.Nodup) (hlt : ∀ pe ∈ ranks, pe < npes) (hroot : a.root < npes)
    (hmembers : ∀ pe < npes, pe ∈ ranks)
    (halias : Apart (a.recv a.root).addr (a.block * npes) (a.send a.root).addr a.block) {i : ℕ}
    (hi : i < npes) : Apart (a.dst comm i) a.block (a.src comm a.root) a.block := by
  intro q hq hq'
  rw [h.dst_eq hbuf hi] at hq
  cases hr : shmemAddrAccessible (a.recv a.root) with
  | true =>
    unfold area at hq
    rw [hr, if_pos rfl] at hq
    cases hs : shmemAddrAccessible (a.send a.root) with
    | true =>
      unfold GatherArgs.src sendAddr at hq'
      rw [hs, if_pos rfl] at hq'
      have hnonneg := GatherArgs.block_nonneg h.pos (ranks.idxOf i)
      have hle := GatherArgs.block_le h.pos (idxOf_lt hnodup hlt hmembers hi)
      obtain ⟨hregion, hstart, hend⟩ := hq
      rw [add_offset] at hstart hend
      exact halias q ⟨hregion, by omega, by omega⟩ hq'
    | false =>
      unfold GatherArgs.src sendAddr at hq'
      rw [hs, if_neg Bool.false_ne_true, hbuf a.root hroot] at hq'
      exact addr_region_ne_buffer _ (hq.1.symm.trans hq'.1)
  | false =>
    unfold area at hq
    rw [hr, if_neg Bool.false_ne_true] at hq
    unfold GatherArgs.src sendAddr at hq'
    rw [accessible_of_not_both (fun hs => (h.staged a.root hroot hs).1) hr, if_pos rfl] at hq'
    exact addr_region_ne_buffer _ (hq'.1.symm.trans hq.1)

end RaceFree

/-- The supersteps do not race. -/
theorem raceFree_steps (hnodup : ranks.Nodup) (hlt : ∀ pe ∈ ranks, pe < npes)
    (hroot : a.root < npes) (hmembers : ∀ pe < npes, pe ∈ ranks) (h : a.Placed npes bufBytes ranks)
    (hbuf : ∀ pe < npes, (comm pe).bufferPtr = sharedBuffer)
    (halias : Apart (a.recv a.root).addr (a.block * npes) (a.send a.root).addr a.block) :
    ∀ s ∈ [a.stageStep comm, a.putStep comm, a.backStep npes comm], RaceFree npes s := by
  apply forall_steps
  · exact raceFree_of_copies fun _ _ => stageStep_copies
  · exact raceFree_of_put (fun i hi j hj => dst_apart h hbuf hmembers hi hj)
      fun i hi _ => dst_src_apart h hbuf hnodup hlt hroot hmembers halias hi
  · exact raceFree_of_copies fun _ _ => backStep_copies

/-- After the supersteps the root has every block at the place of its rank. -/
theorem read_of_follows (hnodup : ranks.Nodup) (hlt : ∀ pe ∈ ranks, pe < npes)
    (hroot : a.root < npes) (hmembers : ∀ pe < npes, pe ∈ ranks) (h : a.Placed npes bufBytes ranks)
    (hbuf : ∀ pe < npes, (comm pe).bufferPtr = sharedBuffer) {mem m' : ℕ → Mem Region}
    (hfollows : Follows npes [a.stageStep comm, a.putStep comm, a.backStep npes comm] mem m')
    {pe : ℕ} (hpe : pe < npes) :
    read (m' a.root) ((a.recv a.root).addr + a.block * (ranks.idxOf pe : ℤ)) a.block =
      read (mem pe) (a.send pe).addr a.block := by
  obtain ⟨m₁, hfirst, m₂, hsecond, m₃, hthird, rfl⟩ := hfollows
  have hstage : m₁ pe = (localRun (mem pe) (a.stageStep comm pe)).1 :=
    hfirst.eq_of_copies (fun _ _ op hop => (stageStep_copies op hop).2) hpe
  have hback : m₃ a.root = (localRun (m₂ a.root) (a.backStep npes comm a.root)).1 :=
    hthird.eq_of_copies (fun _ _ op hop => (backStep_copies op hop).2) hroot
  apply read_eq_read.mpr
  intro k hk
  -- the block is staged, put, and at the root taken out where it was put
  have hstaged : m₁ pe (a.src comm pe + (k : ℤ)) = mem pe ((a.send pe).addr + (k : ℤ)) := by
    rw [hstage]
    refine stage_sendAddr fun hpriv => ?_
    obtain ⟨-, hint, -⟩ := h.staged pe hpe hpriv
    rwa [h.copyBytes hint]
  have hput : m₂ a.root (a.dst comm pe + (k : ℤ)) = m₁ pe (a.src comm pe + (k : ℤ)) := by
    have hlen : k < (read (m₁ pe) (a.src comm pe) a.block).length := by
      rw [length_read]
      omega
    rw [hsecond.hit pe hpe ⟨a.root, a.dst comm pe, read (m₁ pe) (a.src comm pe) a.block⟩
      List.mem_cons_self k hlen]
    exact getElem_read hlen
  rw [h.dst_eq hbuf hpe, add_add] at hput
  rw [← hstaged, ← hput, hback, add_add]
  unfold GatherArgs.backStep unstage copyMyData area
  rw [if_pos rfl]
  split_ifs with hacc
  · rfl
  · have hpriv := Bool.eq_false_iff.mpr hacc
    have hle := GatherArgs.block_le h.pos (idxOf_lt hnodup hlt hmembers hpe)
    have hnonneg := GatherArgs.block_nonneg h.pos (ranks.idxOf pe)
    have hplace : ∃ i : ℕ, a.block * (ranks.idxOf pe : ℤ) + (k : ℤ) = (i : ℤ) ∧
        (i : ℤ) < a.back npes := by
      obtain ⟨hall, -⟩ := h.copied hpriv
      exact ⟨(a.block * (ranks.idxOf pe : ℤ) + k).toNat, by omega, by omega⟩
    obtain ⟨i, hi, hlt⟩ := hplace
    rw [hi, h.symRecv_root hbuf hroot hpriv]
    exact write_read (m₂ a.root) sharedBuffer i hlt

theorem gatherWorld_prog (hmembers : ∀ pe < npes, pe ∈ ranks)
    (hbuffers : ∀ pe < npes, (a.sendbuf pe).isSome ∧ (a.recvbuf pe).isSome)
    (mem : ℕ → Mem Region) :
    ∀ pe < npes, (gatherWorld npes ranks a comm mem).prog pe =
      joinSteps pe [a.stageStep comm, a.putStep comm, a.backStep npes comm] := by
  intro pe hpe
  show (if pe ∈ ranks then _ else _) = _
  rw [if_pos (hmembers pe hpe), a.call_eq npes comm (hbuffers pe hpe)]

theorem gatherWorld_prog_of_ge (hlt : ∀ pe ∈ ranks, pe < npes) (mem : ℕ → Mem Region) :
    ∀ pe, npes ≤ pe → (gatherWorld npes ranks a comm mem).prog pe = [] := by
  intro pe hpe
  exact if_neg fun hmem => absurd (hlt pe hmem) (not_lt.mpr hpe)

theorem respected_of_collects (hnodup : ranks.Nodup) (hlt : ∀ pe ∈ ranks, pe < npes)
    (hroot : a.root < ranks.length) (halias : a.NoAlias ranks)
    (h : a.Collects npes bufBytes ranks) : GatherRespected npes bufBytes ranks a := by
  have hlen : ranks.length = npes := length_of_members hnodup hlt h.members
  have hroot' : a.root < npes := hlen ▸ hroot
  have hcreated : ∀ {comm : ℕ → MpidComm}, (∀ pe ∈ ranks, Created npes ranks pe (comm pe)) →
      ∀ pe < npes, mpiCommRank (comm pe) = ranks.idxOf pe ∧ (comm pe).bufferPtr = sharedBuffer :=
    fun hcomm pe hpe => rank_created hnodup (h.members pe hpe) (hcomm pe (h.members pe hpe))
  refine ⟨fun comm _ pe hpe => ?_, fun comm hcomm mem ls w hexec => ?_,
    fun comm hcomm mem ls w hexec hdone r hr hrank pe hpe => ?_⟩
  · rw [a.call_eq npes comm (h.buffers pe (hlt pe hpe))]
  · have hbuf : ∀ pe < npes, (comm pe).bufferPtr = sharedBuffer := fun pe hpe =>
      (hcreated hcomm pe hpe).2
    have hok : ∀ s ∈ [a.stageStep comm, a.putStep comm, a.backStep npes comm], ∀ pe < npes,
        ∀ op ∈ s pe, op.Ok (shmem npes bufBytes) :=
      forall_steps (fun _ hpe => ok_stageStep h hbuf hpe)
        (fun _ hpe => ok_putStep h hbuf hnodup hlt hroot' hpe) fun _ hpe => ok_backStep h hbuf hpe
    exact exists_run_done_of_run (runnable_joinSteps (gatherWorld_prog h.members h.buffers mem)
      (gatherWorld_prog_of_ge hlt mem) (local_steps hok)) hexec
  · have hbuf : ∀ pe < npes, (comm pe).bufferPtr = sharedBuffer := fun pe hpe =>
      (hcreated hcomm pe hpe).2
    rw [(hcreated hcomm pe (hlt pe hpe)).1]
    rcases h.blocks with hzero | hplaced
    · rw [block_zero hzero]
      rfl
    · have hidx : (ranks.idxOf r : ℤ) = a.root := (hcreated hcomm r (hlt r hr)).1.symm.trans hrank
      have hget : ranks[a.root]? = some r := by
        rw [← Nat.cast_injective hidx]
        exact List.getElem?_idxOf hr
      obtain rfl : r = a.root := Option.some.inj (hget.symm.trans hplaced.root)
      have hbuffers := h.buffers a.root hroot'
      have halias' := halias _ _ _ hplaced.root (GatherArgs.send_eq hbuffers.1)
        (GatherArgs.recv_eq hbuffers.2)
      rw [hlen] at halias'
      have hpos : 0 < npes := lt_of_le_of_lt (Nat.zero_le _) hroot'
      have hfollows := follows_of_run (M := shmem npes bufBytes) hpos
        (raceFree_steps hnodup hlt hroot' h.members hplaced hbuf halias')
        (gatherWorld_prog h.members h.buffers mem) rfl hexec hdone
      exact read_of_follows hnodup hlt hroot' h.members hplaced hbuf hfollows (hlt pe hpe)

end Placed

end MpiToShmem.Shmem
