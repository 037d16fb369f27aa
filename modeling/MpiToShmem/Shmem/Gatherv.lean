import MpiToShmem.Kit.LeftAlone
import MpiToShmem.Shmem.Copies

/-!
# `MPI_Gatherv`

All PEs copy their buffers that are not symmetric, the receive buffer for as many elements as the
displacements add up to; the root copies as many `int`s back.

1. `GathervArgs.Places`: all calls succeed, the root gets every block at its displacement, and
   nothing else of its memory changes.
2. `GathervArgs.Covered`: every PE copies both buffers, in the same places, and what the root copies
   back is what it should.
3. `places_of_covered`: then the call is right.
4. `Places.exists_source`: where a byte of a right call has come from.
5. `places_iff`: the condition is exact.
-/

namespace MpiToShmem.Shmem

open Kit OneSided

/-! ## The call -/

/-- The arguments that the PEs pass. Only the root's receive buffer matters, which has `elements`
elements; other PEs pass anything. -/
structure GathervArgs where
  sendbuf : ℕ → UserBuf
  sendcount : ℕ → ℤ
  recvbuf : UserBuf
  elements : ℤ
  passed : ℕ → Option UserBuf
  recvcount : List ℤ
  displs : List ℤ
  dataType : MpiDatatype
  root : ℕ

namespace GathervArgs

/-- What PE `pe` passes as its receive buffer. -/
def recvArg (a : GathervArgs) (pe : ℕ) : Option UserBuf :=
  if pe = a.root then some a.recvbuf else a.passed pe

/-- The call on PE `pe`; `junk` is what the variables hold that are not initialised there. -/
def call (a : GathervArgs) (npes : ℕ) (comm : ℕ → MpidComm) (junk : ℕ → GathervLocals) (pe : ℕ) :
    List (Op Region) × MpiRet :=
  mpiGatherv npes pe (some (a.sendbuf pe)) (a.sendcount pe) a.dataType (a.recvArg pe) a.recvcount
    a.displs a.dataType a.root (comm pe) (junk pe)

/-- The elements of the block of PE `i`, and those in front of it. -/
def count (a : GathervArgs) (i : ℕ) : ℤ := a.recvcount.getD i 0

def displ (a : GathervArgs) (i : ℕ) : ℤ := a.displs.getD i 0

/-- The same in bytes. -/
def bytes (a : GathervArgs) (i : ℕ) : ℤ := a.count i * a.dataType.size

def start (a : GathervArgs) (i : ℕ) : ℤ := a.displ i * a.dataType.size

/-- The bytes of the root's receive buffer. -/
def extent (a : GathervArgs) : ℤ := a.elements * a.dataType.size

/-- No PE is asked for more than it sends, and the blocks are disjoint ranges of the receive buffer,
which the root does not send from. -/
structure Allowed (a : GathervArgs) (npes : ℕ) : Prop where
  root : a.root < npes
  count : ∀ i < npes, 0 ≤ a.count i ∧ a.count i ≤ a.sendcount i
  inside : ∀ i < npes, 0 ≤ a.displ i ∧ a.displ i + a.count i ≤ a.elements
  disjoint : ∀ i < npes, ∀ j < npes, i ≠ j → ∀ k, a.displ i ≤ k ∧ k < a.displ i + a.count i →
    ¬ (a.displ j ≤ k ∧ k < a.displ j + a.count j)
  apart : Apart a.recvbuf.addr a.extent (a.sendbuf a.root).addr (a.bytes a.root)

/-- Whatever the variables hold: all calls succeed; the root writes nothing outside its receive buffer
and nothing is put there (the communicator's buffer aside); and in any memory every run can be
brought to its end, and then every block is in its place and the rest of the receive buffer is as
it was. -/
structure Places (a : GathervArgs) (npes : ℕ) (bufBytes : ℤ) (comm : ℕ → MpidComm) : Prop where
  success : ∀ junk, ∀ pe < npes, (a.call npes comm junk pe).2 = .success
  within : ∀ junk, ∀ pe < npes, ∀ op ∈ (a.call npes comm junk pe).1, ∀ q, op.Reaches pe a.root q →
    q.region ≠ .buffer → a.recvbuf.addr.Covers a.extent q
  computes : ∀ junk, Computes (shmem npes bufBytes) (fun pe => (a.call npes comm junk pe).1)
    fun mem mem' =>
      (∀ i < npes, read (mem' a.root) (a.recvbuf.addr + a.start i) (a.bytes i) =
        read (mem i) (a.sendbuf i).addr (a.bytes i)) ∧
      ∀ q, a.recvbuf.addr.Covers a.extent q →
        (∀ i < npes, ¬ (a.recvbuf.addr + a.start i).Covers (a.bytes i) q) →
        mem' a.root q = mem a.root q

/-! ## What is copied -/

/-- `totalNumSent`, which adds up the displacements. -/
def total (a : GathervArgs) (npes : ℕ) : ℤ :=
  (a.displs.take npes).foldl (fun total d => wrapInt (d + total)) 0

/-- The bytes of the copy of the send buffer. -/
def sendBytes (a : GathervArgs) (pe : ℕ) : ℤ := getNumBytes (a.sendcount pe) a.dataType

/-- The bytes of the copy of the receive buffer. -/
def recvBytes (a : GathervArgs) (npes : ℕ) : ℤ := getNumBytes (a.total npes) a.dataType

/-- The bytes that the root copies back, as `int`s. -/
def backBytes (a : GathervArgs) (npes : ℕ) : ℤ := getNumBytes (a.total npes) .int

/-- The receive buffer of a PE that passes one. -/
def recv (a : GathervArgs) (pe : ℕ) : UserBuf := (a.recvArg pe).getD a.recvbuf

/-- How many of its buffers a PE copies, with a barrier behind each. -/
def copies (a : GathervArgs) (pe : ℕ) : ℕ :=
  (if shmemAddrAccessible (a.sendbuf pe) then 0 else 1) +
    if shmemAddrAccessible (a.recv pe) then 0 else 1

/-- No PE passes `NULL`; all copy as many buffers; no access leaves the communicator's buffer,
whatever is not initialised; a block is in the copy of the send buffer (or in what is copied behind
it, if that is what follows the send buffer), and these copies have one size; the blocks are in what
is copied back, which is in the receive buffer and, between the blocks, was copied from there. -/
structure Covered (a : GathervArgs) (npes : ℕ) (bufBytes : ℤ) : Prop where
  passed : ∀ pe < npes, a.recvArg pe ≠ none
  copies : ∀ pe < npes, a.copies pe = a.copies a.root
  fits : ∀ pe < npes, gathervFits bufBytes npes pe (a.sendbuf pe) (a.sendcount pe) a.dataType
    (a.recv pe) a.recvcount a.displs a.dataType a.root
  staged : ∀ i < npes, 0 < a.count i → a.bytes i ≤ a.sendBytes i ∨
    a.bytes i ≤ a.sendBytes i + a.recvBytes npes ∧
      (a.recv i).addr = (a.sendbuf i).addr + a.sendBytes i
  places : ∀ i < npes, 0 < a.count i → a.sendBytes i = a.sendBytes a.root
  blocks : ∀ i < npes, 0 < a.count i → a.start i + a.bytes i ≤ a.backBytes npes
  between : ∀ k : ℕ, a.recvBytes npes ≤ k → k < a.backBytes npes →
    ∃ i < npes, a.start i ≤ k ∧ k < a.start i + a.bytes i
  within : a.backBytes npes ≤ a.extent

variable {a : GathervArgs} {npes : ℕ} {comm : ℕ → MpidComm} {junk : ℕ → GathervLocals} {bufBytes : ℤ}
  {pe : ℕ}

@[simp] theorem recv_root : a.recv a.root = a.recvbuf := by
  unfold recv recvArg
  rw [if_pos rfl]
  rfl

theorem recvArg_eq (h : a.recvArg pe ≠ none) : a.recvArg pe = some (a.recv pe) := by
  unfold recv
  cases hb : a.recvArg pe with
  | none => exact absurd hb h
  | some b => rfl

/-! ## The operations -/

/-- The variables when both buffers have been looked at. -/
def locals (a : GathervArgs) (comm : ℕ → MpidComm) (junk : ℕ → GathervLocals) (pe : ℕ) :
    GathervLocals :=
  ((junk pe).send (comm pe) (a.sendbuf pe) (a.sendcount pe) a.dataType).recv (comm pe) (a.recv pe)

/-- Where the block is put. -/
def dst (a : GathervArgs) (comm : ℕ → MpidComm) (junk : ℕ → GathervLocals) (pe : ℕ) : Addr :=
  (if (a.locals comm junk pe).createSymRecv then (a.locals comm junk pe).symRecv
    else (a.recv pe).addr) + a.start pe

/-- Where it is put from. -/
def src (a : GathervArgs) (comm : ℕ → MpidComm) (junk : ℕ → GathervLocals) (pe : ℕ) : Addr :=
  if (a.locals comm junk pe).createSymSend then (a.locals comm junk pe).symSend
  else (a.sendbuf pe).addr

theorem call_eq (harg : a.recvArg pe ≠ none) (hcount : a.count pe ≤ a.sendcount pe) :
    a.call npes comm junk pe =
      (((if shmemAddrAccessible (a.sendbuf pe) then []
          else [.copy (a.locals comm junk pe).symSend (a.sendbuf pe).addr (a.sendBytes pe),
            .barrier]) ++
        if shmemAddrAccessible (a.recv pe) then []
          else [.copy (a.locals comm junk pe).symRecv (a.recv pe).addr (a.recvBytes npes),
            .barrier]) ++
        .barrier :: .put a.root (a.dst comm junk pe) (a.src comm junk pe) (a.bytes pe) ::
        .barrier ::
        if pe = a.root ∧ (a.locals comm junk pe).createSymRecv then
          [.copy (a.recv pe).addr (a.locals comm junk pe).symRecv (a.backBytes npes)]
        else [], .success) := by
  unfold call mpiGatherv
  rw [recvArg_eq harg]
  exact if_neg (not_lt.mpr hcount)

/-- A call that succeeds has been given a buffer. -/
theorem recvArg_ne_none_of_success (h : (a.call npes comm junk pe).2 = .success) :
    a.recvArg pe ≠ none := by
  intro hnone
  unfold call at h
  rw [hnone] at h
  cases h

theorem countP_call (harg : a.recvArg pe ≠ none) (hcount : a.count pe ≤ a.sendcount pe) :
    (a.call npes comm junk pe).1.countP Op.isBarrier = a.copies pe + 2 := by
  rw [call_eq harg hcount]
  unfold copies
  split_ifs <;> rfl

/-- The operations of a call. -/
theorem mem_call (harg : a.recvArg pe ≠ none) (hcount : a.count pe ≤ a.sendcount pe)
    {op : Op Region} (h : op ∈ (a.call npes comm junk pe).1) :
    op = .barrier ∨
    (shmemAddrAccessible (a.sendbuf pe) = false ∧
      op = .copy (a.locals comm junk pe).symSend (a.sendbuf pe).addr (a.sendBytes pe)) ∨
    (shmemAddrAccessible (a.recv pe) = false ∧
      op = .copy (a.locals comm junk pe).symRecv (a.recv pe).addr (a.recvBytes npes)) ∨
    op = .put a.root (a.dst comm junk pe) (a.src comm junk pe) (a.bytes pe) ∨
    (pe = a.root ∧
      op = .copy (a.recv pe).addr (a.locals comm junk pe).symRecv (a.backBytes npes)) := by
  rw [call_eq harg hcount] at h
  rcases accessible_or (a.sendbuf pe) with hs | hs <;>
    rcases accessible_or (a.recv pe) with hr | hr <;>
    simp only [hs, hr, if_true, Bool.false_eq_true, if_false, List.nil_append, List.cons_append,
      List.mem_cons] at h ⊢
  all_goals split_ifs at h with hback
  all_goals grind

/-! ## What fits -/

/-- Both buffers are copied. -/
def Both (a : GathervArgs) (pe : ℕ) : Prop :=
  shmemAddrAccessible (a.sendbuf pe) = false ∧ shmemAddrAccessible (a.recv pe) = false

theorem both_iff : a.Both pe ↔ a.copies pe = 2 := by
  unfold Both copies
  rcases accessible_or (a.sendbuf pe) with hs | hs <;>
    rcases accessible_or (a.recv pe) with hr | hr <;> simp [hs, hr]

section Fits

variable (hcount : a.count pe ≤ a.sendcount pe)
  (hfits : gathervFits bufBytes npes pe (a.sendbuf pe) (a.sendcount pe) a.dataType (a.recv pe)
    a.recvcount a.displs a.dataType a.root)

include hcount hfits

theorem fits_both (hboth : a.Both pe) :
    InBuffer bufBytes 0 (a.sendBytes pe) ∧ InBuffer bufBytes (a.sendBytes pe) (a.recvBytes npes) ∧
      InBuffer bufBytes 0 (a.bytes pe) ∧ InBuffer bufBytes (a.sendBytes pe + a.start pe) (a.bytes pe) ∧
      (pe = a.root → InBuffer bufBytes (a.sendBytes pe) (a.backBytes npes)) := by
  unfold gathervFits at hfits
  dsimp only at hfits
  rw [if_pos (show _ ∧ _ from hboth)] at hfits
  obtain ⟨hsend, hrecv, hmoved⟩ := hfits
  exact ⟨hsend, hrecv, hmoved hcount⟩

/-- Otherwise nothing is moved. -/
theorem fits_not_both (hboth : ¬ a.Both pe) :
    (shmemAddrAccessible (a.sendbuf pe) = false → InBuffer bufBytes 0 (a.sendBytes pe)) ∧
      (shmemAddrAccessible (a.recv pe) = false → a.recvBytes npes = 0) ∧
      a.count pe = 0 ∧ (pe = a.root → a.backBytes npes = 0) := by
  unfold gathervFits at hfits
  dsimp only at hfits
  rw [if_neg (show ¬ (_ ∧ _) from hboth)] at hfits
  obtain ⟨hsend, hrecv, hmoved⟩ := hfits
  exact ⟨hsend, hrecv, hmoved hcount⟩

end Fits

/-! ## Where no PE copies both buffers -/

section Nothing

variable (hcomm : ∀ pe < npes, (comm pe).bufferPtr = sharedBuffer ∧ (comm pe).offset = 0)
  (ha : a.Allowed npes) (h : a.Covered npes bufBytes)

include hcomm in
theorem symSend_eq (hpe : pe < npes) (hs : shmemAddrAccessible (a.sendbuf pe) = false) :
    (a.locals comm junk pe).symSend = sharedBuffer := by
  unfold locals GathervLocals.send GathervLocals.recv
  rw [hs, if_neg Bool.false_ne_true]
  split_ifs <;> exact (hcomm pe hpe).1

include hcomm ha h

/-- The send buffer is copied, and everything else moves nothing. -/
theorem op_of_not_both (hpe : pe < npes) (hboth : ¬ a.Both pe) {op : Op Region}
    (hop : op ∈ (a.call npes comm junk pe).1) :
    (op.Ok (shmem npes bufBytes) ∧ op.isAwait = false) ∧
      ∀ t q, op.Reaches pe t q → q.region = .buffer := by
  have hcount := (ha.count pe hpe).2
  obtain ⟨hsend, hrecv, hzero, hback⟩ := fits_not_both hcount (h.fits pe hpe) hboth
  have hbytes : a.bytes pe = 0 := by
    unfold bytes
    rw [hzero, zero_mul]
  have hcovers : ∀ {p q : Addr}, ¬ p.Covers 0 q := by
    rintro p q ⟨-, hle, hlt⟩
    omega
  rcases mem_call (h.passed pe hpe) hcount hop with rfl | ⟨hs, rfl⟩ | ⟨hr, rfl⟩ | rfl | ⟨hr, rfl⟩
  · exact ⟨⟨trivial, rfl⟩, fun _ _ hq => hq.elim⟩
  · rw [symSend_eq hcomm hpe hs]
    exact ⟨⟨ok_copy_iff.1.mpr (hsend hs), rfl⟩, fun _ _ hq => hq.2.1⟩
  · rw [hrecv hr]
    exact ⟨⟨⟨Or.inl rfl, Or.inl rfl⟩, rfl⟩, fun _ _ hq => absurd hq.2 hcovers⟩
  · rw [hbytes]
    exact ⟨⟨⟨ha.root, Or.inl rfl, Or.inl rfl⟩, rfl⟩, fun _ _ hq => absurd hq.2 hcovers⟩
  · rw [hback hr]
    exact ⟨⟨⟨Or.inl rfl, Or.inl rfl⟩, rfl⟩, fun _ _ hq => absurd hq.2 hcovers⟩

theorem places_of_not_both (hboth : ∀ pe < npes, ¬ a.Both pe) : a.Places npes bufBytes comm := by
  have hop : ∀ junk, ∀ pe < npes, ∀ op ∈ (a.call npes comm junk pe).1,
      (op.Ok (shmem npes bufBytes) ∧ op.isAwait = false) ∧
        ∀ t q, op.Reaches pe t q → q.region = .buffer := fun junk pe hpe op hop =>
    op_of_not_both hcomm ha h hpe (hboth pe hpe) hop
  refine ⟨fun junk pe hpe => ?_, fun junk pe hpe op ho q hq hne => absurd ((hop junk pe hpe op ho).2
    _ q hq) hne, fun junk => ⟨fun mem ls w hexec => ?_, fun mem ls w hexec _ => ⟨fun i hi => ?_,
      fun q hq _ => ?_⟩⟩⟩
  · rw [call_eq (h.passed pe hpe) (ha.count pe hpe).2]
  · exact exists_run_done_of_run (runnable_together (fun pe hpe op ho => (hop junk pe hpe op ho).1)
      (fun pe hpe => (countP_call (h.passed pe hpe) (ha.count pe hpe).2).trans
        (congrArg (· + 2) (h.copies pe hpe))) mem) hexec
  · have hzero := (fits_not_both (ha.count i hi).2 (h.fits i hi) (hboth i hi)).2.2.1
    unfold bytes
    rw [hzero, zero_mul]
    rfl
  · refine LeftAlone.mem_of_run ⟨fun pe op ho hreach => ?_, fun p hp => absurd hp List.not_mem_nil⟩
      hexec
    obtain ⟨hpe, ho⟩ := mem_together ho
    exact addr_region_ne_buffer a.recvbuf (hq.1.symm.trans ((hop junk pe hpe op ho).2 _ q hreach))

end Nothing

/-! ## Where all PEs copy both buffers -/

/-- Behind the copy of the send buffer. -/
def area (a : GathervArgs) (pe : ℕ) : Addr := ⟨.buffer, a.sendBytes pe⟩

def sendStep (a : GathervArgs) (pe : ℕ) : List (Op Region) :=
  [.copy sharedBuffer (a.sendbuf pe).addr (a.sendBytes pe)]

def recvStep (a : GathervArgs) (npes pe : ℕ) : List (Op Region) :=
  [.copy (a.area pe) (a.recv pe).addr (a.recvBytes npes)]

def putStep (a : GathervArgs) (pe : ℕ) : List (Op Region) :=
  [.put a.root (a.area pe + a.start pe) sharedBuffer (a.bytes pe)]

def backStep (a : GathervArgs) (npes pe : ℕ) : List (Op Region) :=
  if pe = a.root then [.copy (a.recv pe).addr (a.area pe) (a.backBytes npes)] else []

/-- What follows the first superstep. -/
def laterSteps (a : GathervArgs) (npes : ℕ) : List (ℕ → List (Op Region)) :=
  [a.recvStep npes, fun _ => [], a.putStep, a.backStep npes]

theorem locals_of_both (hbuf : (comm pe).bufferPtr = sharedBuffer) (hoff : (comm pe).offset = 0)
    (hboth : a.Both pe) :
    a.locals comm junk pe = ⟨true, true, sharedBuffer, a.area pe, some (a.area pe)⟩ := by
  have harea : getBufferOffset (a.sendcount pe) a.dataType (comm pe) = a.area pe := by
    unfold getBufferOffset
    rw [hbuf, hoff, zero_add, wrapInt_of_isInt (isInt_getNumBytes _ _)]
    exact congrArg (Ptr.mk Region.buffer) (zero_add _)
  unfold locals GathervLocals.send GathervLocals.recv
  rw [hboth.1, hboth.2, if_neg Bool.false_ne_true, if_neg Bool.false_ne_true, harea, hbuf]
  rfl

theorem call_eq_joinSteps (hbuf : (comm pe).bufferPtr = sharedBuffer) (hoff : (comm pe).offset = 0)
    (harg : a.recvArg pe ≠ none) (hcount : a.count pe ≤ a.sendcount pe) (hboth : a.Both pe) :
    (a.call npes comm junk pe).1 = joinSteps pe (a.sendStep :: a.laterSteps npes) := by
  rw [call_eq harg hcount]
  unfold dst src
  rw [locals_of_both hbuf hoff hboth, hboth.1, hboth.2]
  show _ = _ ++ .barrier :: (_ ++ .barrier :: (_ ++ .barrier :: (_ ++ .barrier :: a.backStep npes pe)))
  unfold backStep
  simp only [and_true]
  rfl

theorem backStep_copies : ∀ op ∈ a.backStep npes pe, op.isLocal = true ∧ op.target = none := by
  unfold backStep
  split_ifs
  · exact List.forall_mem_singleton.mpr ⟨rfl, rfl⟩
  · exact fun _ hop => absurd hop List.not_mem_nil

/-! ### Copies of both buffers -/

/-- The memory of a PE with both copies. -/
def staged (a : GathervArgs) (npes : ℕ) (m : Mem Region) (pe : ℕ) : Mem Region :=
  (localRun (localRun m (a.sendStep pe)).1 (a.recvStep npes pe)).1

section Staged

variable {m : Mem Region}

theorem staged_of_ne_buffer {q : Addr} (hq : q.region ≠ .buffer) : a.staged npes m pe q = m q :=
  (write_of_region_ne hq).trans (write_of_region_ne hq)

variable {k : ℕ}

theorem staged_send (hk : (k : ℤ) < a.sendBytes pe) :
    a.staged npes m pe (sharedBuffer + (k : ℤ)) = m ((a.sendbuf pe).addr + (k : ℤ)) := by
  refine (write_read_of_not_covers _ _ ?_).trans (write_read (p := sharedBuffer) m _ k hk)
  rintro ⟨-, hle, -⟩
  change a.sendBytes pe ≤ 0 + (k : ℤ) at hle
  omega

theorem staged_recv (hk : (k : ℤ) < a.recvBytes npes) :
    a.staged npes m pe (a.area pe + (k : ℤ)) = m ((a.recv pe).addr + (k : ℤ)) :=
  (write_read _ _ _ hk).trans (write_of_region_ne (addr_region_ne_buffer (a.recv pe)))

theorem staged_rest (hk : a.recvBytes npes ≤ k) :
    a.staged npes m pe (a.area pe + (k : ℤ)) = m (a.area pe + (k : ℤ)) := by
  refine (write_read_of_not_covers _ _ ?_).trans (write_read_of_not_covers _ _ ?_)
  · rintro ⟨-, -, hlt⟩
    change a.sendBytes pe + (k : ℤ) < a.sendBytes pe + a.recvBytes npes at hlt
    omega
  · rintro ⟨-, -, hlt⟩
    change a.sendBytes pe + (k : ℤ) < 0 + a.sendBytes pe at hlt
    omega

end Staged

/-! ### Blocks -/

theorem bytes_pos (hcount : 0 < a.count pe) : 0 < a.bytes pe := Int.mul_pos hcount (size_pos a.dataType)

section Allowed

variable (ha : a.Allowed npes) {i j : ℕ} (hi : i < npes)

include ha hi

theorem Allowed.bytes_inside : 0 ≤ a.start i ∧ 0 ≤ a.bytes i ∧ a.start i + a.bytes i ≤ a.extent := by
  obtain ⟨hdispl, hin⟩ := ha.inside i hi
  have hsize := (size_pos a.dataType).le
  refine ⟨Int.mul_nonneg hdispl hsize, Int.mul_nonneg (ha.count i hi).1 hsize, ?_⟩
  unfold start bytes extent
  rw [← add_mul]
  exact Int.mul_le_mul_of_nonneg_right hin hsize

theorem Allowed.count_pos (hbytes : 0 < a.bytes i) : 0 < a.count i := by
  rcases (ha.count i hi).1.lt_or_eq with hpos | hzero
  · exact hpos
  · unfold bytes at hbytes
    rw [← hzero, zero_mul] at hbytes
    exact absurd hbytes (lt_irrefl 0)

/-- A byte is in one block at most. -/
theorem Allowed.bytes_disjoint (hj : j < npes) (hij : i ≠ j) {k : ℤ}
    (hk : a.start i ≤ k ∧ k < a.start i + a.bytes i) :
    ¬ (a.start j ≤ k ∧ k < a.start j + a.bytes j) := by
  have hsize := size_pos a.dataType
  have helement : ∀ l, a.start l ≤ k ∧ k < a.start l + a.bytes l →
      a.displ l ≤ k / a.dataType.size ∧ k / a.dataType.size < a.displ l + a.count l := by
    intro l hl
    unfold start bytes at hl
    rw [← add_mul] at hl
    exact ⟨(Int.le_ediv_iff_mul_le hsize).mpr hl.1, (Int.ediv_lt_iff_lt_mul hsize).mpr hl.2⟩
  exact fun hk' => ha.disjoint i hi j hj hij _ (helement i hk) (helement j hk')

end Allowed

section Both

variable (hcomm : ∀ pe < npes, (comm pe).bufferPtr = sharedBuffer ∧ (comm pe).offset = 0)
  (ha : a.Allowed npes) (h : a.Covered npes bufBytes) (hboth : ∀ pe < npes, a.Both pe)

include ha h hboth

theorem sendBytes_nonneg (hpe : pe < npes) : 0 ≤ a.sendBytes pe :=
  (fits_both (ha.count pe hpe).2 (h.fits pe hpe) (hboth pe hpe)).1.nonneg

/-- The root sends from the copy of its send buffer. -/
theorem bytes_root_le : a.bytes a.root ≤ a.sendBytes a.root := by
  have hnonneg := sendBytes_nonneg ha h hboth ha.root
  obtain ⟨hstart, hbytes, hin⟩ := ha.bytes_inside ha.root
  rcases hbytes.lt_or_eq with hpos | hzero
  · by_contra hlt
    obtain ⟨-, hbehind⟩ := (h.staged _ ha.root (ha.count_pos ha.root hpos)).resolve_left hlt
    rw [recv_root] at hbehind
    -- the receive buffer would begin in what the root sends
    refine ha.apart a.recvbuf.addr ⟨rfl, le_rfl, by omega⟩ ?_
    rw [hbehind]
    refine ⟨rfl, ?_, ?_⟩ <;> rw [add_offset] <;> omega
  · omega

omit hboth in
/-- A place where a block is put is its place in the copy of the root's receive buffer. -/
theorem area_eq (hpe : pe < npes) (hbytes : 0 < a.bytes pe) : a.area pe = a.area a.root := by
  unfold area
  rw [h.places pe hpe (ha.count_pos hpe hbytes)]

theorem raceFree_putStep : RaceFree npes a.putStep := by
  refine raceFree_of_put (fun i hi j hj hij => ?_) (fun i hi _ => ?_)
  · rintro q ⟨-, hle, hlt⟩ ⟨-, hle', hlt'⟩
    have hbytes : 0 < a.bytes i := by omega
    have hbytes' : 0 < a.bytes j := by omega
    rw [area_eq ha h hi hbytes, add_offset] at hle hlt
    rw [area_eq ha h hj hbytes', add_offset] at hle' hlt'
    exact ha.bytes_disjoint hi hj hij (k := q.offset - (a.area a.root).offset)
      ⟨by omega, by omega⟩ ⟨by omega, by omega⟩
  · rintro q ⟨-, hle, hlt⟩ ⟨-, -, hlt'⟩
    have hbytes : 0 < a.bytes i := by omega
    rw [area_eq ha h hi hbytes, add_offset] at hle hlt
    have hroot := bytes_root_le ha h hboth
    have hstart := (ha.bytes_inside hi).1
    change a.sendBytes a.root + a.start i ≤ q.offset at hle
    change q.offset < 0 + a.bytes a.root at hlt'
    omega

theorem raceFree_steps : ∀ s ∈ a.sendStep :: a.laterSteps npes, RaceFree npes s := by
  unfold laterSteps
  rw [List.forall_mem_cons, List.forall_mem_cons, List.forall_mem_cons, List.forall_mem_cons,
    List.forall_mem_singleton]
  refine ⟨raceFree_of_copies fun _ _ => List.forall_mem_singleton.mpr ⟨rfl, rfl⟩,
    raceFree_of_copies fun _ _ => List.forall_mem_singleton.mpr ⟨rfl, rfl⟩,
    raceFree_of_copies fun _ _ _ hop => absurd hop List.not_mem_nil, raceFree_putStep ha h hboth,
    raceFree_of_copies fun _ _ => backStep_copies⟩

theorem ok_steps : ∀ s ∈ a.sendStep :: a.laterSteps npes, ∀ pe < npes, ∀ op ∈ s pe,
    op.Ok (shmem npes bufBytes) := by
  have hfits : ∀ pe < npes, _ := fun pe hpe =>
    fits_both (ha.count pe hpe).2 (h.fits pe hpe) (hboth pe hpe)
  unfold laterSteps
  rw [List.forall_mem_cons, List.forall_mem_cons, List.forall_mem_cons, List.forall_mem_cons,
    List.forall_mem_singleton]
  refine ⟨fun pe hpe => List.forall_mem_singleton.mpr (ok_copy_iff.1.mpr (hfits pe hpe).1),
    fun pe hpe => List.forall_mem_singleton.mpr (ok_copy_iff.1.mpr (hfits pe hpe).2.1),
    fun pe _ _ hop => absurd hop List.not_mem_nil,
    fun pe hpe => List.forall_mem_singleton.mpr ⟨ha.root, ?_, ?_⟩, fun pe hpe => ?_⟩
  · exact inside_buffer_iff.mpr (hfits pe hpe).2.2.2.1
  · exact inside_buffer_iff.mpr (hfits pe hpe).2.2.1
  · unfold backStep
    split_ifs with hr
    · exact List.forall_mem_singleton.mpr (ok_copy_iff.2.mpr ((hfits pe hpe).2.2.2.2 hr))
    · exact fun _ hop => absurd hop List.not_mem_nil

/-! ### What is put and copied back -/

section Effect

variable {mem m m' : ℕ → Mem Region} (hm : ∀ t < npes, m t = a.staged npes (mem t) t)
  (hput : After npes a.putStep m m')

include hm hput

/-- The root has the blocks behind the copy of its send buffer. -/
theorem put_block {i : ℕ} (hi : i < npes) {k : ℕ} (hk : (k : ℤ) < a.bytes i) :
    m' a.root (a.area a.root + (a.start i + (k : ℤ))) = mem i ((a.sendbuf i).addr + (k : ℤ)) := by
  have hbytes : 0 < a.bytes i := by omega
  rw [← area_eq ha h hi hbytes, ← add_add, hput.hit_put hi hk, hm i hi]
  by_cases hsend : (k : ℤ) < a.sendBytes i
  · exact staged_send hsend
  · -- what is copied behind the send buffer is what follows it
    obtain ⟨hle, hbehind⟩ := (h.staged i hi (ha.count_pos hi hbytes)).resolve_left (by omega)
    have hnonneg := sendBytes_nonneg ha h hboth hi
    obtain ⟨l, hl⟩ : ∃ l : ℕ, (k : ℤ) = a.sendBytes i + l := ⟨(k - a.sendBytes i).toNat, by omega⟩
    have hplace : sharedBuffer + (k : ℤ) = a.area i + (l : ℤ) := by
      rw [hl]
      exact congrArg (Ptr.mk Region.buffer) (zero_add _)
    rw [hplace, staged_recv (by omega), hbehind, add_add, ← hl]

omit hboth in
/-- Between them is what was copied from its receive buffer. -/
theorem put_between {k : ℕ} (hk : (k : ℤ) < a.backBytes npes)
    (hnone : ∀ i < npes, ¬ (a.start i ≤ k ∧ k < a.start i + a.bytes i)) :
    m' a.root (a.area a.root + (k : ℤ)) = mem a.root (a.recvbuf.addr + (k : ℤ)) := by
  rw [hput.miss_put ha.root, hm _ ha.root, staged_recv, recv_root]
  · by_contra hge
    obtain ⟨i, hi, hin⟩ := h.between k (by omega) hk
    exact hnone i hi hin
  · rintro i hi - ⟨-, hle, hlt⟩
    have hbytes : 0 < a.bytes i := by omega
    rw [area_eq ha h hi hbytes, add_offset, add_offset] at hle hlt
    exact hnone i hi ⟨by omega, by omega⟩

omit h hboth in
theorem put_user {q : Addr} (hq : q.region ≠ .buffer) : m' a.root q = mem a.root q := by
  rw [hput.miss_put ha.root, hm _ ha.root, staged_of_ne_buffer hq]
  exact fun i _ _ hc => hq hc.1

end Effect

/-- At the end every block is in its place, and the rest of the receive buffer is as it was. -/
theorem post_of_follows {mem mem' : ℕ → Mem Region}
    (hfollows : Follows npes (a.sendStep :: a.laterSteps npes) mem mem') :
    (∀ i < npes, read (mem' a.root) (a.recvbuf.addr + a.start i) (a.bytes i) =
      read (mem i) (a.sendbuf i).addr (a.bytes i)) ∧
    ∀ q, a.recvbuf.addr.Covers a.extent q →
      (∀ i < npes, ¬ (a.recvbuf.addr + a.start i).Covers (a.bytes i) q) →
      mem' a.root q = mem a.root q := by
  obtain ⟨m₁, hsend, m₂, hrecv, m₃, hnone, m₄, hput, m₅, hback, rfl⟩ := hfollows
  have hm : ∀ t < npes, m₃ t = a.staged npes (mem t) t := by
    intro t ht
    rw [hnone.eq_of_copies (fun _ _ _ hop => absurd hop List.not_mem_nil) ht,
      hrecv.eq_of_copies (fun _ _ => List.forall_mem_singleton.mpr rfl) ht,
      hsend.eq_of_copies (fun _ _ => List.forall_mem_singleton.mpr rfl) ht]
    rfl
  have hroot : m₅ a.root = write (m₄ a.root) a.recvbuf.addr
      (read (m₄ a.root) (a.area a.root) (a.backBytes npes)) := by
    rw [hback.eq_of_copies (fun pe _ op hop => (backStep_copies op hop).2) ha.root]
    unfold backStep
    rw [if_pos rfl, recv_root]
    rfl
  rw [hroot]
  refine ⟨fun i hi => read_eq_read.mpr fun k hk => ?_, fun q hq hmiss => ?_⟩
  · obtain ⟨hstart, hbytes, -⟩ := ha.bytes_inside hi
    have hend := h.blocks i hi (ha.count_pos hi (by omega))
    obtain ⟨l, hl⟩ : ∃ l : ℕ, a.start i + (k : ℤ) = l := ⟨(a.start i + k).toNat, by omega⟩
    rw [add_add, ← put_block ha h hboth hm hput hi hk, hl]
    exact write_read _ _ _ (by omega)
  · obtain ⟨k, hk, rfl⟩ := covers_iff.mp hq
    by_cases hkb : (k : ℤ) < a.backBytes npes
    · rw [write_read _ _ _ hkb]
      refine put_between ha h hm hput hkb fun i hi hin => hmiss i hi ⟨rfl, ?_, ?_⟩
      · rw [add_offset, add_offset]
        omega
      · rw [add_offset, add_offset]
        omega
    · rw [write_read_of_not_covers]
      · exact put_user ha hm hput (addr_region_ne_buffer a.recvbuf)
      · rintro ⟨-, -, hlt⟩
        rw [add_offset] at hlt
        omega

include hcomm

theorem places_of_both : a.Places npes bufBytes comm := by
  have hjoin : ∀ junk, ∀ pe < npes, (a.call npes comm junk pe).1 =
      joinSteps pe (a.sendStep :: a.laterSteps npes) := fun junk pe hpe =>
    call_eq_joinSteps (hcomm pe hpe).1 (hcomm pe hpe).2 (h.passed pe hpe) (ha.count pe hpe).2
      (hboth pe hpe)
  refine ⟨fun junk pe hpe => ?_, fun junk pe hpe op hop q hreach hq => ?_, fun junk =>
    computes_of_follows (hjoin junk) (Nat.zero_lt_of_lt ha.root) (ok_steps ha h hboth)
      (raceFree_steps ha h hboth) fun mem mem' hfollows => ?_⟩
  · rw [call_eq (h.passed pe hpe) (ha.count pe hpe).2]
  · -- only what is copied back is outside the communicator's buffer
    have hl : a.locals comm junk pe = _ :=
      locals_of_both (hcomm pe hpe).1 (hcomm pe hpe).2 (hboth pe hpe)
    rcases mem_call (h.passed pe hpe) (ha.count pe hpe).2 hop with
      rfl | ⟨-, rfl⟩ | ⟨-, rfl⟩ | rfl | ⟨rfl, rfl⟩
    · exact hreach.elim
    · rw [hl] at hreach
      exact absurd hreach.2.1 hq
    · rw [hl] at hreach
      exact absurd hreach.2.1 hq
    · unfold dst at hreach
      rw [hl] at hreach
      exact absurd hreach.2.1 hq
    · obtain ⟨-, hregion, hle, hlt⟩ := hreach
      have hwithin := h.within
      rw [recv_root] at hregion hle hlt
      exact ⟨hregion, hle, by omega⟩
  · exact post_of_follows ha h hboth hfollows

end Both

/-! ## Marked bytes -/

/-- A one at byte `k` of the block of PE `i`, zeros elsewhere. -/
def mark (a : GathervArgs) (i k pe : ℕ) : Mem Region := fun q =>
  if pe = i ∧ q = (a.sendbuf i).addr + (k : ℤ) then 1 else 0

theorem mark_eq_one {i k pe : ℕ} {q : Addr} (hq : a.mark i k pe q = 1) :
    pe = i ∧ q = (a.sendbuf i).addr + (k : ℤ) := by
  by_contra hne
  unfold mark at hq
  rw [if_neg hne] at hq
  exact absurd hq (by decide)

/-- There are no ones in the receive buffer. -/
theorem mark_recvbuf (ha : a.Allowed npes) {i k n : ℕ} (hk : (k : ℤ) < a.bytes i)
    (hn : (n : ℤ) < a.extent) : a.mark i k a.root (a.recvbuf.addr + (n : ℤ)) ≠ 1 := by
  intro hone
  obtain ⟨rfl, he⟩ := mark_eq_one hone
  exact ha.apart _ (covers_iff.mpr ⟨n, hn, rfl⟩) (covers_iff.mpr ⟨k, hk, he⟩)

theorem mark_area {i k n t : ℕ} : a.mark i k t (a.area t + (n : ℤ)) ≠ 1 := fun hone =>
  addr_region_ne_buffer (a.sendbuf i) (congrArg Ptr.region (mark_eq_one hone).2).symm

/-- Where a byte that is put is the one. -/
theorem staged_mark {i k j k' : ℕ}
    (hone : a.staged npes (a.mark i k j) j (sharedBuffer + (k' : ℤ)) = 1) :
    j = i ∧ ((k' : ℤ) < a.sendBytes j ∧ k' = k ∨
      (k' : ℤ) < a.sendBytes j + a.recvBytes npes ∧
        ∃ l : ℕ, (k' : ℤ) = a.sendBytes j + l ∧
          (a.recv j).addr + (l : ℤ) = (a.sendbuf i).addr + (k : ℤ)) := by
  by_cases hsend : (k' : ℤ) < a.sendBytes j
  · rw [staged_send hsend] at hone
    obtain ⟨rfl, he⟩ := mark_eq_one hone
    have hoff : (a.sendbuf j).addr.offset + (k' : ℤ) = (a.sendbuf j).addr.offset + k :=
      congrArg Ptr.offset he
    exact ⟨rfl, Or.inl ⟨hsend, by omega⟩⟩
  · obtain ⟨l, hl⟩ : ∃ l : ℕ, (k' : ℤ) = a.sendBytes j + l := ⟨(k' - a.sendBytes j).toNat, by omega⟩
    have hplace : sharedBuffer + (k' : ℤ) = a.area j + (l : ℤ) := by
      rw [hl]
      exact congrArg (Ptr.mk Region.buffer) (zero_add _)
    rw [hplace] at hone
    by_cases hrecv : (l : ℤ) < a.recvBytes npes
    · rw [staged_recv hrecv] at hone
      obtain ⟨hj, he⟩ := mark_eq_one hone
      exact ⟨hj, Or.inr ⟨by omega, l, hl, he⟩⟩
    · rw [staged_rest (not_lt.mp hrecv)] at hone
      exact absurd hone mark_area

section Iff

variable (hcomm : ∀ pe < npes, (comm pe).bufferPtr = sharedBuffer ∧ (comm pe).offset = 0)
  (ha : a.Allowed npes)

include hcomm ha

theorem places_of_covered (h : a.Covered npes bufBytes) : a.Places npes bufBytes comm := by
  have hsame : ∀ pe < npes, (a.Both pe ↔ a.Both a.root) := by
    intro pe hpe
    rw [both_iff, both_iff, h.copies pe hpe]
  by_cases hroot : a.Both a.root
  · exact places_of_both hcomm ha h fun pe hpe => (hsame pe hpe).mpr hroot
  · exact places_of_not_both hcomm ha h fun pe hpe hboth => hroot ((hsame pe hpe).mp hboth)

/-! ## Where the bytes come from -/

namespace Places

variable (h : a.Places npes bufBytes comm)

include h

omit hcomm ha in
theorem passed (hpe : pe < npes) : a.recvArg pe ≠ none :=
  recvArg_ne_none_of_success (h.success (fun _ => wild 0) pe hpe)

omit hcomm in
/-- The call comes to its end only if all PEs pass the same barriers. -/
theorem copies (hpe : pe < npes) : a.copies pe = a.copies a.root := by
  obtain ⟨ls, w, hexec, hnil, -⟩ :=
    (h.computes fun _ => wild 0).completes (fun _ _ => 0) [] _ rfl
  have hcount : ∀ t < npes, a.copies t + 2 = ls.count .barrier := by
    intro t ht
    have hrun := countP_barrier_of_run hexec t
    rw [hnil t, List.countP_nil, zero_add, if_pos (show t < (shmem npes bufBytes).npes from ht)]
      at hrun
    rw [← countP_call (h.passed ht) (ha.count t ht).2, ← hrun]
    exact congrArg _ (if_pos ht).symm
  have hpes := hcount pe hpe
  have hroot := hcount a.root ha.root
  omega

omit ha in
theorem fits (hpe : pe < npes) : gathervFits bufBytes npes pe (a.sendbuf pe) (a.sendcount pe)
    a.dataType (a.recv pe) a.recvcount a.displs a.dataType a.root := by
  refine (safe_mpiGatherv_iff (hcomm pe hpe).2 (hcomm pe hpe).1).mp fun junk => ?_
  rw [← recvArg_eq (h.passed hpe)]
  exact safe_of_ok fun op hop => (h.computes fun _ => junk).ok hpe hop

/-! ### The run in order -/

section InOrder

variable (hboth : ∀ pe < npes, a.Both pe)

include hboth

/-- In order, the root has after the puts what it had, or something that was put there, and copies
that back. -/
theorem exists_inOrder (mem : ℕ → Mem Region) : ∃ m m' mem' : ℕ → Mem Region,
    (∀ t < npes, m t = a.staged npes (mem t) t) ∧
    (∀ q, m' a.root q = m a.root q ∨ ∃ i < npes, ∃ k : ℕ, (k : ℤ) < a.bytes i ∧
      q = a.area i + a.start i + (k : ℤ) ∧ m' a.root q = m i (sharedBuffer + (k : ℤ))) ∧
    mem' a.root = write (m' a.root) a.recvbuf.addr
      (read (m' a.root) (a.area a.root) (a.backBytes npes)) ∧
    (∀ i < npes, read (mem' a.root) (a.recvbuf.addr + a.start i) (a.bytes i) =
      read (mem i) (a.sendbuf i).addr (a.bytes i)) ∧
    ∀ q, a.recvbuf.addr.Covers a.extent q →
      (∀ i < npes, ¬ (a.recvbuf.addr + a.start i).Covers (a.bytes i) q) →
      mem' a.root q = mem a.root q := by
  have hlocal : ∀ s ∈ a.sendStep :: a.laterSteps npes, ∀ pe < npes, ∀ op ∈ s pe,
      op.isLocal = true := by
    unfold laterSteps
    rw [List.forall_mem_cons, List.forall_mem_cons, List.forall_mem_cons, List.forall_mem_cons,
      List.forall_mem_singleton]
    exact ⟨fun _ _ => List.forall_mem_singleton.mpr rfl, fun _ _ =>
      List.forall_mem_singleton.mpr rfl, fun _ _ _ hop => absurd hop List.not_mem_nil, fun _ _ =>
      List.forall_mem_singleton.mpr rfl, fun _ _ op hop => (backStep_copies op hop).1⟩
  obtain ⟨hblocks, hrest⟩ := (h.computes fun _ => wild 0).inOrder (fun pe hpe =>
    call_eq_joinSteps (hcomm pe hpe).1 (hcomm pe hpe).2 (h.passed hpe) (ha.count pe hpe).2
      (hboth pe hpe)) hlocal mem
  let m := OneSided.inOrder npes (OneSided.inOrder npes (OneSided.inOrder npes mem a.sendStep)
    (a.recvStep npes)) fun _ => []
  let m' := OneSided.inOrder npes m a.putStep
  refine ⟨m, m', OneSided.inOrder npes m' (a.backStep npes), fun t ht => ?_, fun q => ?_, ?_,
    hblocks, hrest⟩
  · refine (inOrder_of_copies (fun _ _ _ hop => absurd hop List.not_mem_nil) _ ht).trans ?_
    have hsend : OneSided.inOrder npes mem a.sendStep t = (localRun (mem t) (a.sendStep t)).1 :=
      inOrder_of_copies (fun _ _ => List.forall_mem_singleton.mpr rfl) mem ht
    have hrecv : OneSided.inOrder npes (OneSided.inOrder npes mem a.sendStep) (a.recvStep npes) t =
        (localRun (OneSided.inOrder npes mem a.sendStep t) (a.recvStep npes t)).1 :=
      inOrder_of_copies (fun _ _ => List.forall_mem_singleton.mpr rfl) _ ht
    rw [hrecv, hsend]
    rfl
  · exact (inOrder_put_eq_or npes a.root (fun pe => a.area pe + a.start pe) (fun _ => sharedBuffer)
      a.bytes m a.root q).imp_right And.right
  · refine (inOrder_of_copies (fun pe _ op hop => (backStep_copies op hop).2) _ ha.root).trans ?_
    unfold backStep
    rw [if_pos rfl, recv_root]
    rfl

/-- Byte `k` of the block of PE `i` is copied back, and was put from where it had been copied to. -/
theorem exists_source {i k : ℕ} (hi : i < npes) (hk : (k : ℤ) < a.bytes i) :
    a.start i + k < a.backBytes npes ∧ ∃ k' : ℕ, (k' : ℤ) < a.bytes i ∧
      a.sendBytes a.root + k = a.sendBytes i + k' ∧
      ((k' : ℤ) < a.sendBytes i ∧ k' = k ∨ (k' : ℤ) < a.sendBytes i + a.recvBytes npes ∧
        ∃ l : ℕ, (k' : ℤ) = a.sendBytes i + l ∧
          (a.recv i).addr + (l : ℤ) = (a.sendbuf i).addr + (k : ℤ)) := by
  obtain ⟨m, m', mem', hm, hput, hback, hblocks, -⟩ :=
    h.exists_inOrder hcomm ha hboth (a.mark i k)
  obtain ⟨hstart, -, hin⟩ := ha.bytes_inside hi
  obtain ⟨n, hn⟩ : ∃ n : ℕ, a.start i + (k : ℤ) = n := ⟨(a.start i + k).toNat, by omega⟩
  have hnone : a.mark i k a.root (a.recvbuf.addr + (n : ℤ)) ≠ 1 := mark_recvbuf ha hk (by omega)
  have hone : mem' a.root (a.recvbuf.addr + (n : ℤ)) = 1 := by
    rw [← hn, ← add_add, read_eq_read.mp (hblocks i hi) k hk]
    exact if_pos ⟨rfl, rfl⟩
  rw [hback] at hone
  by_cases hlt : (n : ℤ) < a.backBytes npes
  · rw [write_read _ _ _ hlt] at hone
    rcases hput (a.area a.root + (n : ℤ)) with hold | ⟨j, hj, k', hk', hplace, hval⟩
    · -- it was not there before
      rw [hold, hm _ ha.root] at hone
      by_cases hrecv : (n : ℤ) < a.recvBytes npes
      · rw [staged_recv hrecv, recv_root] at hone
        exact absurd hone hnone
      · rw [staged_rest (not_lt.mp hrecv)] at hone
        exact absurd hone mark_area
    · rw [hval, hm j hj] at hone
      obtain ⟨rfl, hsource⟩ := staged_mark hone
      have hoff : a.sendBytes a.root + (n : ℤ) = a.sendBytes j + a.start j + k' :=
        congrArg Ptr.offset hplace
      exact ⟨by omega, k', hk', by omega, hsource⟩
  · rw [write_read_of_not_covers] at hone
    · -- nothing is put into the receive buffer itself
      rcases hput (a.recvbuf.addr + (n : ℤ)) with hold | ⟨j, -, k', -, hplace, -⟩
      · have huser : (a.recvbuf.addr + (n : ℤ)).region ≠ .buffer := addr_region_ne_buffer a.recvbuf
        rw [hold, hm _ ha.root, staged_of_ne_buffer huser] at hone
        exact absurd hone hnone
      · exact absurd (congrArg Ptr.region hplace) (addr_region_ne_buffer a.recvbuf)
    · rintro ⟨-, -, hlt'⟩
      rw [add_offset] at hlt'
      omega

theorem blocks {i : ℕ} (hi : i < npes) (hbytes : 0 < a.bytes i) :
    a.start i + a.bytes i ≤ a.backBytes npes := by
  have hlast := (h.exists_source hcomm ha hboth hi (k := (a.bytes i - 1).toNat) (by omega)).1
  omega

theorem places {i : ℕ} (hi : i < npes) (hbytes : 0 < a.bytes i) :
    a.sendBytes i = a.sendBytes a.root := by
  obtain ⟨-, k, hk, hfirst, -⟩ := h.exists_source hcomm ha hboth hi (k := 0) (by omega)
  obtain ⟨-, k', hk', hlast, -⟩ :=
    h.exists_source hcomm ha hboth hi (k := (a.bytes i - 1).toNat) (by omega)
  omega

theorem staged {i : ℕ} (hi : i < npes) (hbytes : 0 < a.bytes i) : a.bytes i ≤ a.sendBytes i ∨
    a.bytes i ≤ a.sendBytes i + a.recvBytes npes ∧
      (a.recv i).addr = (a.sendbuf i).addr + a.sendBytes i := by
  have hplaces := h.places hcomm ha hboth hi hbytes
  have hnonneg := (fits_both (ha.count i hi).2 (h.fits hcomm hi) (hboth i hi)).1.nonneg
  by_cases hle : a.bytes i ≤ a.sendBytes i
  · exact Or.inl hle
  · -- the last byte, and the first one behind the copy of the send buffer
    obtain ⟨n, hn⟩ : ∃ n : ℕ, a.bytes i = n + 1 := ⟨(a.bytes i - 1).toNat, by omega⟩
    obtain ⟨s, hs⟩ : ∃ s : ℕ, a.sendBytes i = s := ⟨(a.sendBytes i).toNat, by omega⟩
    obtain ⟨-, k, -, hk, hlast⟩ := h.exists_source hcomm ha hboth hi (k := n) (by omega)
    obtain ⟨-, k', -, hk', hfirst⟩ := h.exists_source hcomm ha hboth hi (k := s) (by omega)
    obtain ⟨hend, -⟩ := hlast.resolve_left fun hin => by omega
    obtain ⟨-, l, hl, he⟩ := hfirst.resolve_left fun hin => by omega
    obtain rfl : l = 0 := by omega
    rw [hs]
    exact Or.inr ⟨by omega, (add_zero_ptr _).symm.trans he⟩

/-- Nothing is copied back behind the receive buffer. -/
theorem within_extent : a.backBytes npes ≤ a.extent := by
  by_contra hlt
  obtain ⟨hstart, hbytes, hin⟩ := ha.bytes_inside ha.root
  have hop : .copy (a.recv a.root).addr (a.area a.root) (a.backBytes npes) ∈
      (a.call npes comm (fun _ => wild 0) a.root).1 := by
    rw [call_eq_joinSteps (hcomm _ ha.root).1 (hcomm _ ha.root).2 (h.passed ha.root)
      (ha.count _ ha.root).2 (hboth _ ha.root)]
    have hback : a.backStep npes ∈ a.sendStep :: a.laterSteps npes := by
      unfold laterSteps
      simp
    refine mem_joinSteps_of_mem hback ?_
    unfold backStep
    rw [if_pos rfl]
    exact List.mem_cons_self
  have hreach : Op.Reaches a.root a.root (a.recvbuf.addr + a.extent)
      (.copy (a.recv a.root).addr (a.area a.root) (a.backBytes npes)) := by
    rw [recv_root]
    refine ⟨rfl, rfl, ?_, ?_⟩ <;> rw [add_offset] <;> omega
  obtain ⟨-, -, hend⟩ := h.within _ a.root ha.root _ hop _ hreach (addr_region_ne_buffer a.recvbuf)
  rw [add_offset] at hend
  omega

/-- What is copied back and is in no block was copied from the receive buffer. -/
theorem between {k : ℕ} (hrecv : a.recvBytes npes ≤ k) (hback : k < a.backBytes npes) :
    ∃ i < npes, a.start i ≤ k ∧ k < a.start i + a.bytes i := by
  by_contra hnone
  push Not at hnone
  -- ones in the communicator's buffer only
  let mem : ℕ → Mem Region := fun _ q => if q.region = .buffer then 1 else 0
  obtain ⟨m, m', mem', hm, hput, hmem, -, hrest⟩ := h.exists_inOrder hcomm ha hboth mem
  have hwithin := h.within_extent hcomm ha hboth
  have hzero : mem' a.root (a.recvbuf.addr + (k : ℤ)) = 0 := by
    rw [hrest _ (covers_iff.mpr ⟨k, by omega, rfl⟩) fun i hi hc => ?_]
    · exact if_neg (addr_region_ne_buffer a.recvbuf)
    · obtain ⟨-, hle, hlt⟩ := hc
      rw [add_offset, add_offset] at hle hlt
      exact absurd (hnone i hi (by omega)) (by omega)
  rw [hmem, write_read _ _ _ hback] at hzero
  rcases hput (a.area a.root + (k : ℤ)) with hold | ⟨i, hi, k', hk', hplace, -⟩
  · rw [hold, hm _ ha.root, staged_rest hrecv] at hzero
    exact absurd (hzero.symm.trans (if_pos rfl)) (by decide)
  · have hplaces := h.places hcomm ha hboth hi (by omega)
    have hoff : a.sendBytes a.root + (k : ℤ) = a.sendBytes i + a.start i + k' :=
      congrArg Ptr.offset hplace
    exact absurd (hnone i hi (by omega)) (by omega)

end InOrder

theorem covered : a.Covered npes bufBytes := by
  have hpassed : ∀ pe < npes, a.recvArg pe ≠ none := fun pe hpe => h.passed hpe
  have hcopies : ∀ pe < npes, a.copies pe = a.copies a.root := fun pe hpe => h.copies ha hpe
  have hfits : ∀ pe < npes, _ := fun pe hpe => h.fits hcomm hpe
  by_cases hroot : a.Both a.root
  · have hboth : ∀ pe < npes, a.Both pe := by
      intro pe hpe
      rwa [both_iff, hcopies pe hpe, ← both_iff]
    exact ⟨hpassed, hcopies, hfits,
      fun i hi hcount => h.staged hcomm ha hboth hi (bytes_pos hcount),
      fun i hi hcount => h.places hcomm ha hboth hi (bytes_pos hcount),
      fun i hi hcount => h.blocks hcomm ha hboth hi (bytes_pos hcount),
      fun k => h.between hcomm ha hboth, h.within_extent hcomm ha hboth⟩
  · -- nothing is moved
    have hnot : ∀ pe < npes, ¬ a.Both pe := by
      intro pe hpe
      rwa [both_iff, hcopies pe hpe, ← both_iff]
    have hzero : ∀ i < npes, ¬ 0 < a.count i := by
      intro i hi
      rw [(fits_not_both (ha.count i hi).2 (hfits i hi) (hnot i hi)).2.2.1]
      exact lt_irrefl 0
    have hback : a.backBytes npes = 0 := (fits_not_both (ha.count _ ha.root).2 (hfits _ ha.root)
      hroot).2.2.2 rfl
    obtain ⟨hstart, hbytes, hin⟩ := ha.bytes_inside ha.root
    exact ⟨hpassed, hcopies, hfits, fun i hi hcount => absurd hcount (hzero i hi),
      fun i hi hcount => absurd hcount (hzero i hi), fun i hi hcount => absurd hcount (hzero i hi),
      fun k _ hk => by omega, by omega⟩

end Places

end Iff

end GathervArgs

/-! ## When the call gathers -/

/-- `MPI_Gatherv` places the blocks if and only if every PE passes a receive buffer and copies as many
of its buffers as the root, what is accessed fits, the blocks are copied and put to their places,
and the sum of the displacements, in `int`s, covers them and stays in the receive buffer. -/
theorem places_iff (a : GathervArgs) (npes : ℕ) (bufBytes : ℤ) (comm : ℕ → MpidComm)
    (hcomm : ∀ pe < npes, (comm pe).bufferPtr = sharedBuffer ∧ (comm pe).offset = 0)
    (ha : a.Allowed npes) : a.Places npes bufBytes comm ↔ a.Covered npes bufBytes :=
  ⟨fun h => h.covered hcomm ha, GathervArgs.places_of_covered hcomm ha⟩

/-- Two PEs with one `int` each: the displacements add up to 1, and the second block is not copied
back. -/
theorem not_places_two_ints :
    let a : GathervArgs := ⟨fun _ => .process 0, fun _ => 1, .process 4, 2,
      fun _ => some (.process 4), [1, 1], [0, 1], .int, 0⟩
    let comm := fun pe => mpiInit 2 pe ⟨.heap, 0⟩ ⟨.heap, 0⟩
    a.Allowed 2 ∧ ∀ bufBytes, ¬ a.Places 2 bufBytes comm := by
  intro a comm
  have ha : a.Allowed 2 := by
    refine ⟨by decide, by decide, by decide, ?_, ?_⟩
    · intro i hi j hj hij k
      obtain rfl | rfl : i = 0 ∨ i = 1 := by omega
      all_goals obtain rfl | rfl : j = 0 ∨ j = 1 := by omega
      all_goals simp [a, GathervArgs.displ, GathervArgs.count] at hij ⊢
      all_goals omega
    · rintro q ⟨-, hle, -⟩ ⟨-, -, hlt⟩
      have h : (4 : ℤ) < 0 + 4 := lt_of_le_of_lt hle hlt
      exact absurd h (by decide)
  refine ⟨ha, fun bufBytes h => ?_⟩
  have hboth : ∀ pe < 2, a.Both pe := by
    unfold GathervArgs.Both
    decide
  have hend := h.blocks (fun _ _ => ⟨rfl, rfl⟩) ha hboth (show 1 < 2 by decide) (by decide)
  exact absurd hend (by decide)

/-- Three PEs with one `int` each: the displacements add up to 3. -/
theorem places_three_ints :
    let a : GathervArgs := ⟨fun _ => .process 0, fun _ => 1, .process 4, 3,
      fun _ => some (.process 4), [1, 1, 1], [0, 1, 2], .int, 0⟩
    a.Places 3 16 fun pe => mpiInit 3 pe ⟨.heap, 0⟩ ⟨.heap, 0⟩ := by
  refine (places_iff _ 3 16 _ (fun _ _ => ⟨rfl, rfl⟩) ⟨by decide, by decide, by decide, ?_, ?_⟩).mpr
    ⟨by decide, by decide, ?_, by decide, by decide, by decide, ?_, by decide⟩
  · intro i hi j hj hij k
    obtain rfl | rfl | rfl : i = 0 ∨ i = 1 ∨ i = 2 := by omega
    all_goals obtain rfl | rfl | rfl : j = 0 ∨ j = 1 ∨ j = 2 := by omega
    all_goals simp [GathervArgs.displ, GathervArgs.count] at hij ⊢
    all_goals omega
  · rintro q ⟨-, hle, -⟩ ⟨-, -, hlt⟩
    have h : (4 : ℤ) < 0 + 4 := lt_of_le_of_lt hle hlt
    exact absurd h (by decide)
  · intro pe hpe
    obtain rfl | rfl | rfl : pe = 0 ∨ pe = 1 ∨ pe = 2 := by omega
    all_goals
      unfold gathervFits InBuffer
      decide
  · exact fun k hrecv hback => absurd (lt_of_le_of_lt hrecv hback) (by decide)

end MpiToShmem.Shmem
