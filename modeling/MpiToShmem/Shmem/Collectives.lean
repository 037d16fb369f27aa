import MpiToShmem.Shmem.Comm

/-!
# The calls as programs

What a call does on one PE, as operations on memory: which they are depends on its arguments and on
the communicator, not on what memory holds. `shmem_broadcast64` and `shmem_fcollect64` are the puts
that fill their targets; they move 8 bytes for every element.

1. `mpiBcast`, `mpiAllgather`, `mpiGather` and `mpiGatherv` with the code they return.
2. `mpiIsend` and `mpiIrecv`.
3. `mpiPack` and `mpiUnpack`, with the new position.
4. `mpiSend` and `mpiRecv`, with the communicator they leave.
-/

namespace MpiToShmem.Shmem

open Kit OneSided

/-- What a call returns. -/
inductive MpiRet where
  | success
  | errBuffer
  | errSize
  | errNoSpace
deriving DecidableEq

/-! ## Collectives of SHMEM -/

/-- `shmem_broadcast64`: the root puts its elements everywhere else. -/
def shmemBroadcast64 (npes myPe : ℕ) (dest source : Addr) (nelems : ℤ) (root : ℕ) :
    List (Op Region) :=
  if myPe = root then
    ((List.range npes).filter fun pe => pe ≠ root).map fun pe => .put pe dest source (8 * nelems)
  else []

/-- `shmem_fcollect64`: every PE puts its elements at its place everywhere. -/
def shmemFcollect64 (npes myPe : ℕ) (dest source : Addr) (nelems : ℤ) : List (Op Region) :=
  let start : ℤ := 8 * nelems * myPe
  (List.range npes).map fun pe => .put pe (dest + start) source (8 * nelems)

/-! ## Staging -/

/-- Where the send side reads: `symSend` holds a copy of a buffer that is not symmetric. -/
def sendAddr (comm : MpidComm) (sendbuf : UserBuf) : Addr :=
  if shmemAddrAccessible sendbuf then sendbuf.addr else comm.bufferPtr

/-- `symRecv`: behind the copy of the send buffer, if there is one. -/
def symRecv (comm : MpidComm) (sendbuf : UserBuf) (sendcount : ℤ) (sendtype : MpiDatatype) :
    Addr :=
  if shmemAddrAccessible sendbuf then comm.bufferPtr else getBufferOffset sendcount sendtype comm

/-- Where the receive side is. -/
def recvAddr (comm : MpidComm) (sendbuf recvbuf : UserBuf) (sendcount : ℤ)
    (sendtype : MpiDatatype) : Addr :=
  if shmemAddrAccessible recvbuf then recvbuf.addr else symRecv comm sendbuf sendcount sendtype

/-- A buffer that is not symmetric is copied to the communicator's buffer. -/
def stage (comm : MpidComm) (buf : UserBuf) (count : ℤ) (dataType : MpiDatatype) :
    List (Op Region) :=
  if shmemAddrAccessible buf then [] else [copyMyData comm.bufferPtr buf.addr count dataType]

/-- A receive buffer that is not symmetric is copied back. -/
def unstage (recvbuf : UserBuf) (symRecv : Addr) (count : ℤ) (dataType : MpiDatatype) :
    List (Op Region) :=
  if shmemAddrAccessible recvbuf then [] else [copyMyData recvbuf.addr symRecv count dataType]

/-! ## Collectives -/

/-- `MPI_Bcast`. -/
def mpiBcast (npes myPe : ℕ) (source : UserBuf) (count : ℤ) (dataType : MpiDatatype) (root : ℕ)
    (comm : MpidComm) : List (Op Region) :=
  let dest := symRecv comm source count dataType
  stage comm source count dataType ++ .barrier ::
    (shmemBroadcast64 npes myPe dest (sendAddr comm source) count root ++ .barrier ::
      if myPe = root then [] else [copyMyData source.addr dest count dataType])

/-- `MPI_Allgather`; the receive count is not used. -/
def mpiAllgather (npes myPe : ℕ) (sendbuf : Option UserBuf) (sendcount : ℤ) (sendtype : MpiDatatype)
    (recvbuf : Option UserBuf) (recvtype : MpiDatatype) (comm : MpidComm) :
    List (Op Region) × MpiRet :=
  match sendbuf, recvbuf with
  | some sendbuf, some recvbuf =>
    (stage comm sendbuf sendcount sendtype ++ .barrier ::
      (shmemFcollect64 npes myPe (recvAddr comm sendbuf recvbuf sendcount sendtype)
        (sendAddr comm sendbuf) sendcount ++ .barrier ::
        unstage recvbuf (symRecv comm sendbuf sendcount sendtype) (wrapInt (sendcount * npes))
          recvtype), .success)
  | _, _ => ([], .errBuffer)

/-- `MPI_Gather`; the receive count is not used. -/
def mpiGather (npes myPe : ℕ) (sendbuf : Option UserBuf) (sendcount : ℤ) (sendtype : MpiDatatype)
    (recvbuf : Option UserBuf) (recvtype : MpiDatatype) (root : ℕ) (comm : MpidComm) :
    List (Op Region) × MpiRet :=
  match sendbuf, recvbuf with
  | some sendbuf, some recvbuf =>
    let start : ℤ := wrapInt (sendcount * myPe) * sendtype.size
    (stage comm sendbuf sendcount sendtype ++ .barrier ::
      .put root (recvAddr comm sendbuf recvbuf sendcount sendtype + start) (sendAddr comm sendbuf)
        (sendcount * sendtype.size) :: .barrier ::
      if myPe = root then
        unstage recvbuf (symRecv comm sendbuf sendcount sendtype) (wrapInt (sendcount * npes))
          recvtype
      else [], .success)
  | _, _ => ([], .errBuffer)

/-- The variables that `MPI_Gatherv` does not initialise. -/
structure GathervLocals where
  createSymSend : Bool
  createSymRecv : Bool
  symSend : Addr
  symRecv : Addr
  recvBufIndex : Option Addr
deriving DecidableEq

/-- The variables after the send buffer has been looked at. -/
def GathervLocals.send (junk : GathervLocals) (comm : MpidComm) (sendbuf : UserBuf) (sendcount : ℤ)
    (sendtype : MpiDatatype) : GathervLocals :=
  if shmemAddrAccessible sendbuf then junk
  else { junk with
    createSymSend := true
    symSend := comm.bufferPtr
    recvBufIndex := some (getBufferOffset sendcount sendtype comm) }

/-- The variables after the receive buffer has been looked at. -/
def GathervLocals.recv (l : GathervLocals) (comm : MpidComm) (recvbuf : UserBuf) : GathervLocals :=
  if shmemAddrAccessible recvbuf then l
  else { l with
    createSymRecv := true
    symRecv := l.recvBufIndex.getD comm.bufferPtr }

/-- `MPI_Gatherv`. -/
def mpiGatherv (npes myPe : ℕ) (sendbuf : Option UserBuf) (sendcount : ℤ) (sendtype : MpiDatatype)
    (recvbuf : Option UserBuf) (recvcount displs : List ℤ) (recvtype : MpiDatatype) (root : ℕ)
    (comm : MpidComm) (junk : GathervLocals) : List (Op Region) × MpiRet :=
  match sendbuf, recvbuf with
  | some sendbuf, some recvbuf =>
    let l := (junk.send comm sendbuf sendcount sendtype).recv comm recvbuf
    let totalNumSent := (displs.take npes).foldl (fun total d => wrapInt (d + total)) 0
    let staging :=
      (if shmemAddrAccessible sendbuf then []
        else [copyMyData l.symSend sendbuf.addr sendcount sendtype, .barrier]) ++
      if shmemAddrAccessible recvbuf then []
        else [copyMyData l.symRecv recvbuf.addr totalNumSent recvtype, .barrier]
    let count := recvcount.getD myPe 0
    if sendcount < count then (staging, .errSize)
    else
      let dst := if l.createSymRecv then l.symRecv else recvbuf.addr
      let src := if l.createSymSend then l.symSend else sendbuf.addr
      let start : ℤ := displs.getD myPe 0 * sendtype.size
      (staging ++ .barrier ::
        .put root (dst + start) src (count * sendtype.size) ::
        .barrier ::
        if myPe = root ∧ l.createSymRecv then [copyMyData recvbuf.addr l.symRecv totalNumSent .int]
        else [], .success)
  | _, _ => ([], .errBuffer)

/-! ## Nonblocking calls -/

/-- Where the `expected` value of a request is. -/
def expected : Addr := ⟨.request, 0⟩

/-- The last `int` of a buffer with `count` of them. -/
def lastInt (buf : Addr) (count : ℤ) : Addr := buf + 4 * (count - 1)

/-- `MPI_Isend`, whose copy of a buffer that is not symmetric is behind the place for its size. -/
def mpiIsend (buf : UserBuf) (count : ℤ) (datatype : MpiDatatype) (dest : ℕ) (comm : MpidComm) :
    List (Op Region) :=
  let symSendBuf := getBufferOffset count datatype comm
  (if shmemAddrAccessible buf then [] else [copyMyData symSendBuf buf.addr count datatype]) ++
    [.copy expected (lastInt buf.addr count) 4,
      .put dest comm.bufferPtr (if shmemAddrAccessible buf then buf.addr else symSendBuf)
        (count * datatype.size)]

/-- `MPI_Irecv`, which reads the buffer of the source. -/
def mpiIrecv (buf : UserBuf) (count : ℤ) (datatype : MpiDatatype) (source : ℕ) (comm : MpidComm) :
    List (Op Region) :=
  [.get source buf.addr comm.bufferPtr (count * datatype.size),
    .get source expected (lastInt comm.bufferPtr count) 4]

/-! ## Packing -/

/-- `MPI_Pack`, which puts to the PE whose number is the rank of the caller in its group. -/
def mpiPack (inbuf : UserBuf) (incount : ℤ) (datatype : MpiDatatype) (outbuf : UserBuf)
    (outsize position : ℤ) (comm : MpidComm) : List (Op Region) × MpiRet × ℤ :=
  let numBytes := getNumBytes incount datatype
  if outsize < wrapInt (numBytes + position) then ([], .errNoSpace, position)
  else
    (.put (mpiCommRank comm).toNat (sendAddr comm outbuf + position) inbuf.addr numBytes ::
      unstage outbuf comm.bufferPtr numBytes .char, .success, wrapInt (position + numBytes))

/-- `MPI_Unpack`, which copies its buffer before it looks whether there is enough in it. -/
def mpiUnpack (inbuf : UserBuf) (insize position : ℤ) (outbuf : UserBuf) (outcount : ℤ)
    (datatype : MpiDatatype) (comm : MpidComm) : List (Op Region) × MpiRet × ℤ :=
  let numBytes := getNumBytes outcount datatype
  let staging := stage comm inbuf outcount datatype
  if insize < wrapInt (numBytes + position) then (staging, .errNoSpace, position)
  else
    (staging ++ [.get (mpiCommRank comm).toNat outbuf.addr (sendAddr comm inbuf + position) numBytes],
      .success, wrapInt (position + numBytes))

/-! ## Blocking calls

Both return a variable that they never set. -/

/-- The variable of `MPI_Send` with what it expects. -/
def expectedInt : Addr := ⟨.request, 8⟩

/-- `MPI_Send`. -/
def mpiSend (buf : UserBuf) (count : ℕ) (datatype : MpiDatatype) (dest : ℕ) (tag : ℤ)
    (comm : MpidComm) : List (Op Region) × MpidComm :=
  let recvBuf := comm.bufferPtr + comm.sendInfo.bufPtr
  let put : Op Region := .put dest recvBuf buf.addr (count * datatype.size)
  (match datatype.marker with
    | some e =>
      let offset := getBufferOffset count datatype comm
      [put, .putInt dest offset e, .await dest offset 4 (.lit e)]
    | none =>
      let last : ℤ := (count - 1) * datatype.size
      [.copy expectedInt (buf.addr + last) datatype.size, put,
        .await dest (recvBuf + last) datatype.size (.own expectedInt)],
    { comm with sendInfo := { comm.sendInfo with tag := tag, datatype := datatype, count := count } })

/-- `MPI_Recv`; its other arguments only choose what it prints. -/
def mpiRecv (buf : UserBuf) (count : ℤ) (datatype : MpiDatatype) (comm : MpidComm) :
    List (Op Region) × MpidComm :=
  ([copyMyData buf.addr (comm.bufferPtr + comm.sendInfo.bufPtr) count datatype],
    { comm with sendInfo := .free })

end MpiToShmem.Shmem
