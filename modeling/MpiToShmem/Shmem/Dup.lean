import MpiToShmem.Kit.Unseen
import MpiToShmem.Shmem.Collectives

/-!
# Calls on a duplicated communicator

`MPI_Comm_dup` sets the buffer, the ranks and the group. `GetBufferOffset` also reads `offset`, and
`MPI_Send` and `MPI_Recv` read where `sendInfo` points, which hold whatever the memory held.

1. `CommCall`, `outcomes`: sequences of calls, each on the communicator that the last one left.
2. `Agreed`: what the calls read of the fields that were not set is as on the original.
3. `outcomes_eq`: then the calls are the same operations, and return the same.
4. `dup_works_like_original`: they leave the same in memory, if they see none of the buffer but what
   was written there.
-/

namespace MpiToShmem.Shmem

open Kit OneSided

/-! ## Sequences of calls -/

/-- The arguments of a call. -/
inductive CommCall where
  | bcast (source : UserBuf) (count : ℤ) (dataType : MpiDatatype) (root : ℕ)
  | gather (sendbuf : Option UserBuf) (sendcount : ℤ) (sendtype : MpiDatatype)
      (recvbuf : Option UserBuf) (recvtype : MpiDatatype) (root : ℕ)
  | allgather (sendbuf : Option UserBuf) (sendcount : ℤ) (sendtype : MpiDatatype)
      (recvbuf : Option UserBuf) (recvtype : MpiDatatype)
  | pack (inbuf : UserBuf) (incount : ℤ) (datatype : MpiDatatype) (outbuf : UserBuf)
      (outsize position : ℤ)
  | unpack (inbuf : UserBuf) (insize position : ℤ) (outbuf : UserBuf) (outcount : ℤ)
      (datatype : MpiDatatype)
  | send (buf : UserBuf) (count : ℕ) (datatype : MpiDatatype) (dest : ℕ) (tag : ℤ)
  | recv (buf : UserBuf) (count : ℤ) (datatype : MpiDatatype)
deriving DecidableEq

/-- What a call does, what it returns, where it returns anything that was set, and in `position`. -/
structure Outcome where
  ops : List (Op Region)
  ret : Option MpiRet
  position : Option ℤ
deriving DecidableEq

namespace CommCall

def outcome (npes myPe : ℕ) (comm : MpidComm) : CommCall → Outcome
  | bcast source count dataType root =>
    ⟨mpiBcast npes myPe source count dataType root comm, some .success, none⟩
  | gather sendbuf sendcount sendtype recvbuf recvtype root =>
    let r := mpiGather npes myPe sendbuf sendcount sendtype recvbuf recvtype root comm
    ⟨r.1, some r.2, none⟩
  | allgather sendbuf sendcount sendtype recvbuf recvtype =>
    let r := mpiAllgather npes myPe sendbuf sendcount sendtype recvbuf recvtype comm
    ⟨r.1, some r.2, none⟩
  | pack inbuf incount datatype outbuf outsize position =>
    let r := mpiPack inbuf incount datatype outbuf outsize position comm
    ⟨r.1, some r.2.1, some r.2.2⟩
  | unpack inbuf insize position outbuf outcount datatype =>
    let r := mpiUnpack inbuf insize position outbuf outcount datatype comm
    ⟨r.1, some r.2.1, some r.2.2⟩
  | send buf count datatype dest tag => ⟨(mpiSend buf count datatype dest tag comm).1, none, none⟩
  | recv buf count datatype => ⟨(mpiRecv buf count datatype comm).1, none, none⟩

/-- The communicator after the call. -/
def next (comm : MpidComm) : CommCall → MpidComm
  | send buf count datatype dest tag => (mpiSend buf count datatype dest tag comm).2
  | recv buf count datatype => (mpiRecv buf count datatype comm).2
  | _ => comm

end CommCall

/-- The calls of one PE. -/
def outcomes (npes myPe : ℕ) (comm : MpidComm) : List CommCall → List Outcome
  | [] => []
  | call :: calls => call.outcome npes myPe comm :: outcomes npes myPe (call.next comm) calls

/-- All PEs start their calls; nothing has been written. -/
def launch (npes : ℕ) (comm : ℕ → MpidComm) (calls : ℕ → List CommCall) (mem : ℕ → Mem Region) :
    OneSided.World Region where
  mem := mem
  prog pe := if pe < npes then (outcomes npes pe (comm pe) (calls pe)).flatMap Outcome.ops else []
  flight := []
  stored _ _ := false

/-- The buffer of the communicator. -/
def Region.IsBuffer (r : Region) : Prop := r = .buffer

instance : DecidablePred Region.IsBuffer := fun r => inferInstanceAs (Decidable (r = .buffer))

/-- What a program can see: all memory but the buffer of the communicator. -/
def visible (w : OneSided.World Region) (pe : ℕ) (q : Addr) : UInt8 :=
  if q.region.IsBuffer then 0 else w.mem pe q

/-! ## Fields that were not set -/

namespace CommCall

/-- The call reads `offset`. -/
def readsOffset : CommCall → Bool
  | bcast source _ _ _ => !shmemAddrAccessible source
  | gather sendbuf _ _ recvbuf _ _ =>
    sendbuf.any (!shmemAddrAccessible ·) && recvbuf.any (!shmemAddrAccessible ·)
  | allgather sendbuf _ _ recvbuf _ =>
    sendbuf.any (!shmemAddrAccessible ·) && recvbuf.any (!shmemAddrAccessible ·)
  | send _ _ datatype _ _ => datatype.marker.isSome
  | _ => false

/-- The call reads `bufPtr` in the slot of `sendInfo`. -/
def readsBufPtr : CommCall → Bool
  | send _ _ _ _ _ | recv _ _ _ => true
  | _ => false

end CommCall

/-- Whenever a call reads `offset` or `bufPtr`, both communicators hold the same there. -/
def Agreed (comm comm' : MpidComm) : List CommCall → Prop
  | [] => True
  | call :: calls =>
    (call.readsOffset = true → comm.offset = comm'.offset) ∧
      (call.readsBufPtr = true → comm.sendInfo.bufPtr = comm'.sendInfo.bufPtr) ∧
      Agreed (call.next comm) (call.next comm') calls

instance Agreed.decidable :
    (calls : List CommCall) → (comm comm' : MpidComm) → Decidable (Agreed comm comm' calls)
  | [], _, _ => isTrue trivial
  | call :: calls, comm, comm' =>
    have := Agreed.decidable calls (call.next comm) (call.next comm')
    inferInstanceAs (Decidable (_ ∧ _ ∧ _))

instance (comm comm' : MpidComm) (calls : List CommCall) : Decidable (Agreed comm comm' calls) :=
  Agreed.decidable calls comm comm'

/-- What `MPI_Comm_dup` sets and the calls read. -/
structure SameSet (comm comm' : MpidComm) : Prop where
  bufferPtr : comm.bufferPtr = comm'.bufferPtr
  rank : mpiCommRank comm = mpiCommRank comm'

theorem sameSet_dup {orig : MpidComm} (h : orig.bufferPtr = sharedBuffer) (myPe : ℤ)
    (junk : MpidComm) : SameSet orig (mpiCommDup orig myPe junk) :=
  ⟨h, rfl⟩

variable {npes pe : ℕ} {comm comm' : MpidComm}

theorem SameSet.next (h : SameSet comm comm') (call : CommCall) :
    SameSet (call.next comm) (call.next comm') := by
  cases call with
  | send | recv => exact ⟨h.bufferPtr, h.rank⟩
  | _ => exact h

theorem SameSet.getBufferOffset (h : SameSet comm comm') (hoff : comm.offset = comm'.offset)
    (count : ℤ) (dataType : MpiDatatype) :
    getBufferOffset count dataType comm = getBufferOffset count dataType comm' := by
  unfold Shmem.getBufferOffset
  rw [h.bufferPtr, hoff]

theorem SameSet.symRecv (h : SameSet comm comm') {sendbuf : UserBuf}
    (hoff : shmemAddrAccessible sendbuf = false → comm.offset = comm'.offset) (sendcount : ℤ)
    (sendtype : MpiDatatype) :
    symRecv comm sendbuf sendcount sendtype = symRecv comm' sendbuf sendcount sendtype := by
  unfold Shmem.symRecv
  cases hacc : shmemAddrAccessible sendbuf with
  | true => exact h.bufferPtr
  | false => exact h.getBufferOffset (hoff hacc) sendcount sendtype

theorem SameSet.sendAddr (h : SameSet comm comm') (sendbuf : UserBuf) :
    sendAddr comm sendbuf = sendAddr comm' sendbuf := by
  unfold Shmem.sendAddr
  rw [h.bufferPtr]

theorem SameSet.stage (h : SameSet comm comm') (buf : UserBuf) (count : ℤ)
    (dataType : MpiDatatype) : stage comm buf count dataType = stage comm' buf count dataType := by
  unfold Shmem.stage
  rw [h.bufferPtr]

section Receive

variable {sendbuf recvbuf : UserBuf} (h : SameSet comm comm')
  (hoff : shmemAddrAccessible sendbuf = false → shmemAddrAccessible recvbuf = false →
    comm.offset = comm'.offset)
include h hoff

theorem SameSet.recvAddr (sendcount : ℤ) (sendtype : MpiDatatype) :
    recvAddr comm sendbuf recvbuf sendcount sendtype =
      recvAddr comm' sendbuf recvbuf sendcount sendtype := by
  unfold Shmem.recvAddr
  cases hacc : shmemAddrAccessible recvbuf with
  | true => rfl
  | false => exact h.symRecv (fun hs => hoff hs hacc) sendcount sendtype

theorem SameSet.unstage (sendcount count : ℤ) (sendtype recvtype : MpiDatatype) :
    unstage recvbuf (Shmem.symRecv comm sendbuf sendcount sendtype) count recvtype =
      unstage recvbuf (Shmem.symRecv comm' sendbuf sendcount sendtype) count recvtype := by
  unfold Shmem.unstage
  cases hacc : shmemAddrAccessible recvbuf with
  | true => rfl
  | false => rw [h.symRecv (fun hs => hoff hs hacc) sendcount sendtype]

end Receive

/-- A call that reads the same does and returns the same. -/
theorem outcome_eq (h : SameSet comm comm') {call : CommCall}
    (hoff : call.readsOffset = true → comm.offset = comm'.offset)
    (hptr : call.readsBufPtr = true → comm.sendInfo.bufPtr = comm'.sendInfo.bufPtr) :
    call.outcome npes pe comm = call.outcome npes pe comm' := by
  cases call with
  | bcast source count dataType root =>
    have hprivate : shmemAddrAccessible source = false → comm.offset = comm'.offset :=
      fun hs => hoff (by simp [CommCall.readsOffset, hs])
    show Outcome.mk (mpiBcast _ _ _ _ _ _ comm) _ _ = Outcome.mk (mpiBcast _ _ _ _ _ _ comm') _ _
    unfold mpiBcast
    rw [h.stage, h.sendAddr, h.symRecv hprivate]
  | gather sendbuf sendcount sendtype recvbuf recvtype root =>
    cases sendbuf with
    | none => rfl
    | some sendbuf =>
      cases recvbuf with
      | none => rfl
      | some recvbuf =>
        have hboth : shmemAddrAccessible sendbuf = false → shmemAddrAccessible recvbuf = false →
            comm.offset = comm'.offset :=
          fun hs hr => hoff (by simp [CommCall.readsOffset, hs, hr])
        dsimp only [CommCall.outcome, mpiGather]
        rw [h.stage, h.sendAddr, h.recvAddr hboth, h.unstage hboth]
  | allgather sendbuf sendcount sendtype recvbuf recvtype =>
    cases sendbuf with
    | none => rfl
    | some sendbuf =>
      cases recvbuf with
      | none => rfl
      | some recvbuf =>
        have hboth : shmemAddrAccessible sendbuf = false → shmemAddrAccessible recvbuf = false →
            comm.offset = comm'.offset :=
          fun hs hr => hoff (by simp [CommCall.readsOffset, hs, hr])
        dsimp only [CommCall.outcome, mpiAllgather]
        rw [h.stage, h.sendAddr, h.recvAddr hboth, h.unstage hboth]
  | pack inbuf incount datatype outbuf outsize position =>
    dsimp only [CommCall.outcome, mpiPack]
    rw [h.sendAddr, h.bufferPtr, h.rank]
  | unpack inbuf insize position outbuf outcount datatype =>
    dsimp only [CommCall.outcome, mpiUnpack]
    rw [h.stage, h.sendAddr, h.rank]
  | send buf count datatype dest tag =>
    dsimp only [CommCall.outcome, mpiSend]
    rw [h.bufferPtr, hptr rfl]
    cases hmarker : datatype.marker with
    | none => rfl
    | some e =>
      have hmark : (CommCall.send buf count datatype dest tag).readsOffset = true := by
        show datatype.marker.isSome = true
        rw [hmarker]
        rfl
      dsimp only
      rw [h.getBufferOffset (hoff hmark)]
  | recv buf count datatype =>
    dsimp only [CommCall.outcome, mpiRecv]
    rw [h.bufferPtr, hptr rfl]

/-- Calls that read the same are the same operations, and return the same. -/
theorem outcomes_eq {calls : List CommCall} (h : SameSet comm comm') (ha : Agreed comm comm' calls) :
    outcomes npes pe comm calls = outcomes npes pe comm' calls := by
  induction calls generalizing comm comm' with
  | nil => rfl
  | cons call calls ih =>
    obtain ⟨hoff, hptr, hrest⟩ := ha
    rw [outcomes, outcomes, outcome_eq h hoff hptr, ih (h.next call) hrest]

/-! ## Runs -/

/-- The communicators that `MPI_Comm_dup` makes in memory that holds `junk`. -/
def dups (orig junk : ℕ → MpidComm) (pe : ℕ) : MpidComm := mpiCommDup (orig pe) pe (junk pe)

/-- What the calls of one PE return. -/
def returns (npes myPe : ℕ) (comm : MpidComm) (calls : List CommCall) :
    List (Option MpiRet × Option ℤ) :=
  (outcomes npes myPe comm calls).map fun o => (o.ret, o.position)

section Runs

variable {bufBytes bufBytes' : ℤ} {orig junk : ℕ → MpidComm} {calls : ℕ → List CommCall}
  {mem mem' : ℕ → Mem Region} {w w' : OneSided.World Region} {ls : List OneSided.Label}

theorem visible_eq (h : Alike Region.IsBuffer w w') : visible w = visible w' := by
  funext pe q
  unfold visible
  split_ifs with hq
  · rfl
  · exact h.mem pe q fun hb => absurd hb hq

theorem map_visible_eq {o o' : Option (OneSided.World Region)}
    (h : Option.Rel (Alike Region.IsBuffer) o o') : o.map visible = o'.map visible := by
  cases h with
  | none => rfl
  | some h => exact congrArg some (visible_eq h)

/-- The same programs in memory that differs in the buffers only. -/
theorem launch_alike (h : ∀ pe < npes, outcomes npes pe (orig pe) (calls pe) =
      outcomes npes pe (dups orig junk pe) (calls pe))
    (hmem : ∀ pe q, ¬ q.region.IsBuffer → mem pe q = mem' pe q) :
    Alike Region.IsBuffer (launch npes orig calls mem)
      (launch npes (dups orig junk) calls mem') where
  prog := by
    funext pe
    unfold launch
    dsimp only
    split_ifs with hpe
    · rw [h pe hpe]
    · rfl
  flight := rfl
  stored := rfl
  mem pe q hq := by
    apply hmem
    intro hb
    cases hq hb

/-- In every run in which the calls read the same in the fields that `MPI_Comm_dup` leaves alone,
see nothing of the buffer but what was written there, and fit both buffers or neither, the copy
works like the original, whatever the memory held. -/
theorem dup_works_like_original (hbuf : ∀ pe < npes, (orig pe).bufferPtr = sharedBuffer)
    (hagreed : ∀ pe < npes, Agreed (orig pe) (dups orig junk pe) (calls pe))
    (hmem : ∀ pe q, ¬ q.region.IsBuffer → mem pe q = mem' pe q)
    (hguard : Meets (OneSided.step (shmem npes bufBytes))
      (Guarded Region.IsBuffer (shmem npes bufBytes) (shmem npes bufBytes'))
      (launch npes orig calls mem) ls) :
    (exec (OneSided.step (shmem npes bufBytes)) (launch npes orig calls mem) ls).map visible =
        (exec (OneSided.step (shmem npes bufBytes'))
          (launch npes (dups orig junk) calls mem') ls).map visible ∧
      ∀ pe < npes, returns npes pe (orig pe) (calls pe) =
        returns npes pe (dups orig junk pe) (calls pe) := by
  have hsame : ∀ pe < npes, outcomes npes pe (orig pe) (calls pe) =
      outcomes npes pe (dups orig junk pe) (calls pe) :=
    fun pe hpe => outcomes_eq (sameSet_dup (hbuf pe hpe) pe (junk pe)) (hagreed pe hpe)
  constructor
  · have hnpes : (shmem npes bufBytes).npes = (shmem npes bufBytes').npes := rfl
    exact map_visible_eq (exec_alike hnpes (launch_alike hsame hmem) hguard)
  · intro pe hpe
    unfold returns
    rw [hsame pe hpe]

end Runs

/-- Two PEs that broadcast from symmetric memory, and pack, on copies whose `offset` is 5. -/
theorem dup_works_two_pes :
    let world : ℕ → MpidComm := fun pe => mpiInit 2 pe ⟨.heap, 64⟩ ⟨.heap, 128⟩
    let junk : ℕ → MpidComm := fun _ => { freshComm with offset := 5 }
    let calls : ℕ → List CommCall := fun _ =>
      [.bcast (.heap 0) 1 .long 0, .pack (.process 0) 1 .int (.process 16) 8 0]
    let ls : List OneSided.Label := [.barrier, .run 0, .land 0, .barrier, .run 0, .land 0, .run 0,
      .run 1, .run 1, .land 0, .run 1]
    let run := exec (OneSided.step (shmem 2 200000)) (launch 2 world calls fun pe _ => pe.toUInt8) ls
    run.isSome = true ∧ run.map visible =
      (exec (OneSided.step (shmem 2 100000)) (launch 2 (dups world junk) calls fun pe q =>
        if q.region = .buffer then 9 else pe.toUInt8) ls).map visible ∧
      ∀ pe < 2, returns 2 pe (world pe) (calls pe) = returns 2 pe (dups world junk pe) (calls pe) := by
  intro world junk calls ls run
  refine ⟨by decide +kernel, dup_works_like_original (fun _ _ => rfl) (by decide +kernel)
    (fun pe q hq => ?_) (by decide +kernel)⟩
  exact (if_neg hq).symm

/-- Two PEs broadcast from memory of their processes. Where the memory of the new communicator held
an `offset` of 8 on the root, and of 0 on the other, that one keeps what it had. -/
theorem dup_bcast_differs :
    let world : ℕ → MpidComm := fun pe => mpiInit 2 pe ⟨.heap, 64⟩ ⟨.heap, 128⟩
    let junk : ℕ → MpidComm := fun pe => { freshComm with offset := if pe = 0 then 8 else 0 }
    let calls : ℕ → List CommCall := fun _ => [.bcast (.process 0) 1 .long 0]
    let mem : ℕ → Mem Region := fun pe q => if pe = 0 ∧ q.region = .process then 1 else 0
    let ls : List OneSided.Label := [.run 0, .run 1, .barrier, .run 0, .land 0, .barrier, .run 1]
    (exec (OneSided.step (shmem 2 200000)) (launch 2 world calls mem) ls).map
        (visible · 1 ⟨.process, 0⟩) = some 1 ∧
      (exec (OneSided.step (shmem 2 200000)) (launch 2 (dups world junk) calls mem) ls).map
        (visible · 1 ⟨.process, 0⟩) = some 0 := by
  decide +kernel

end MpiToShmem.Shmem
