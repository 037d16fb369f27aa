import MpiToShmem.Kit.Bytes
import MpiToShmem.Kit.Mailbox
import Mathlib.Logic.Function.Basic

/-!
# `MPI_Send` and `MPI_Recv` over symmetric memory

The PEs of `MPI_COMM_WORLD` with their symmetric send areas. Addresses are offsets from
`comm->bufferPtr`, which names the same place on every PE. A SHMEM put is the list of bytes it
stores, in flight until they land one by one, in order between two PEs.

1. `mpiSend` fills slot 0 of the caller's `sendInfo`, puts the data and the marker on the target,
   and leaves the caller polling the target (`Poll`) until it sees what it expects.
2. `recvStart`, `recvCopy` and `recvReturn` are `MPI_Recv`: read slot 0, copy, reset slot 0. The
   tag, count and datatype comparisons of the source only choose what it prints.
3. `step` interleaves the PEs and the network; `history` records what was sent and received.
-/

namespace MpiToShmem

open Kit

/-! ## Datatypes -/

/-- `MPI_Datatype`; `other` is any code that the switches leave to their default. -/
inductive MpiDatatype where
  | char | unsignedChar | byte | short | unsignedShort | int | unsigned | long | unsignedLong
  | float | double | longDouble | longLong
  | other (code : ℤ)
deriving DecidableEq

/-- `sizeof` one element (LP64). -/
def MpiDatatype.size : MpiDatatype → ℕ
  | char | unsignedChar | byte => 1
  | short | unsignedShort => 2
  | int | unsigned => 4
  | long | unsignedLong => 8
  | float => 4
  | double => 8
  | longDouble => 16
  | longLong => 8
  | other _ => 1

/-- The value that `MPI_Send` puts behind the data and waits for; `none` where it waits for the
last element of the data itself. -/
def MpiDatatype.marker : MpiDatatype → Option ℤ
  | char | unsignedChar | byte => some 12345
  | short | unsignedShort => some 23456
  | int | unsigned => none
  | long | unsignedLong => none
  | float => some 34567
  | double => some 45678
  | longDouble => some 56789
  | longLong => none
  | other _ => some 67890

/-- `GetNumBytes`, which returns its `long` as an `int`. -/
def getNumBytes (count : ℕ) (dataType : MpiDatatype) : ℤ := wrapInt (count * dataType.size)

/-! ## State -/

/-- `MPID_SendRecv`: one slot of `comm->sendInfo`. -/
structure MpidSendRecv where
  tag : ℤ
  datatype : MpiDatatype
  count : ℕ
  bufPtr : ℤ
  afterBufAreaPtr : ℤ
deriving DecidableEq

/-- `comm->bufferPtr`. -/
def bufferPtr : ℤ := 0

/-- A slot as `MPI_Init` and `MPI_Recv` leave it. -/
def MpidSendRecv.free : MpidSendRecv := ⟨0, .other (-1), 0, bufferPtr, bufferPtr⟩

/-- The wait loop of `MPI_Send`: the cell of the target that the compare-and-swap reads. -/
structure Poll (n : ℕ) where
  dest : Fin n
  offset : ℤ
  width : ℕ
  expected : ℤ
deriving DecidableEq

/-- An `MPI_Recv` that is copying: its arguments, and the bytes of `buf` written so far. -/
structure RecvCall (n : ℕ) where
  source : Fin n
  tag : ℤ
  recvBuf : ℤ
  numBytes : ℕ
  buf : List UInt8
deriving DecidableEq

/-- Where a PE is. `sending none` waits for a cell outside the send area. -/
inductive Pc (n : ℕ) where
  | idle
  | sending (cell : Option (Poll n))
  | receiving (call : RecvCall n)
deriving DecidableEq

/-- A PE: the communicator's fields that the two calls use, its send area, and where it is. Both
calls use slot 0 of `sendInfo` only. -/
structure Pe (n : ℕ) where
  sendInfo : MpidSendRecv
  offset : ℤ
  buffer : ℤ → UInt8
  pc : Pc n

/-- A byte on its way to an address. -/
abbrev Store := ℤ × UInt8

/-- All PEs, the stores in flight from one to another, and what happened so far. -/
structure World (n : ℕ) where
  pe : Fin n → Pe n
  chan : Fin n × Fin n → List Store
  history : List (MailEvent (Fin n) ℤ (List UInt8))

variable {n : ℕ}

/-- A PE after `MPI_Init`. -/
def Pe.init : Pe n := ⟨.free, 0, fun _ => 0, .idle⟩

/-- All PEs after `MPI_Init`. -/
def World.init : World n := ⟨fun _ => .init, fun _ => [], []⟩

/-- The world with PE `p` replaced. -/
def World.setPe (w : World n) (p : Fin n) (c : Pe n) : World n :=
  { w with pe := Function.update w.pe p c }

/-! ## Stores -/

/-- The stores of a put of `bs` at `a`. -/
def putBytes (a : ℤ) : List UInt8 → List Store
  | [] => []
  | b :: bs => (a, b) :: putBytes (a + 1) bs

/-- A byte lands; past the send area it is not stored in the buffer. -/
def land (bufBytes : ℕ) (m : ℤ → UInt8) (w : Store) : ℤ → UInt8 :=
  if 0 ≤ w.1 ∧ w.1 < bufBytes then Function.update m w.1 w.2 else m

/-- The `w` bytes at `a`. -/
def readBytes (m : ℤ → UInt8) (a : ℤ) (w : ℕ) : List UInt8 :=
  (List.range w).map fun i => m (a + i)

/-! ## `MPI_Send` -/

/-- `GetBufferOffset`. -/
def getBufferOffset (c : Pe n) (count : ℕ) (dataType : MpiDatatype) : ℤ :=
  bufferPtr + (c.offset + getNumBytes count dataType)

/-- What a send puts on its target: the data at `bufPtr`, then the marker, if it has one. -/
def sendPuts (c : Pe n) (datatype : MpiDatatype) (count : ℕ) (buf : List UInt8) : List Store :=
  putBytes c.sendInfo.bufPtr (buf.take (count * datatype.size)) ++
    match datatype.marker with
    | some e => putBytes (getBufferOffset c count datatype) (encodeInt e)
    | none => []

/-- The cell a send polls. Without a marker and with no element, the source reads before the
first element. -/
def sendPoll (c : Pe n) (dest : Fin n) (datatype : MpiDatatype) (count : ℕ) (buf : List UInt8) :
    Option (Poll n) :=
  match datatype.marker with
  | some e => some ⟨dest, getBufferOffset c count datatype, 4, e⟩
  | none =>
    if count = 0 then none
    else
      let last := (count - 1) * datatype.size
      some ⟨dest, c.sendInfo.bufPtr + last, datatype.size,
        leInt ((buf.drop last).take datatype.size)⟩

/-- `MPI_Send` up to its wait loop. -/
def mpiSend (w : World n) (src dest : Fin n) (tag : ℤ) (datatype : MpiDatatype) (count : ℕ)
    (buf : List UInt8) : World n :=
  let c := w.pe src
  { pe := Function.update w.pe src
      { c with
        sendInfo := { c.sendInfo with tag := tag, datatype := datatype, count := count }
        pc := .sending (sendPoll c dest datatype count buf) }
    chan := Function.update w.chan (src, dest)
      (w.chan (src, dest) ++ sendPuts c datatype count buf)
    history := w.history ++ [.sent ⟨src, dest, tag, buf.take (count * datatype.size)⟩] }

/-- The compare-and-swap of the wait loop returned what is expected; the value it returns is
narrowed to `int` first. -/
def Poll.isItThere (w : World n) (c : Poll n) : Bool :=
  wrapInt (leInt (readBytes (w.pe c.dest).buffer c.offset c.width)) = c.expected

/-! ## `MPI_Recv` -/

/-- `MPI_Recv` up to its copy. -/
def recvStart (w : World n) (p source : Fin n) (tag : ℤ) (numBytes : ℕ) : World n :=
  let c := w.pe p
  w.setPe p { c with pc := .receiving ⟨source, tag, c.sendInfo.bufPtr, numBytes, []⟩ }

/-- One byte of `CopyMyData`. -/
def recvCopy (w : World n) (p : Fin n) (r : RecvCall n) : World n :=
  let c := w.pe p
  let b := c.buffer (r.recvBuf + r.buf.length)
  w.setPe p { c with pc := .receiving { r with buf := r.buf ++ [b] } }

/-- The end of `MPI_Recv`: slot 0 is reset and the call returns. -/
def recvReturn (w : World n) (p : Fin n) (r : RecvCall n) : World n :=
  { w with
    pe := Function.update w.pe p { w.pe p with sendInfo := .free, pc := .idle }
    history := w.history ++ [.received ⟨r.source, p, r.tag, r.buf⟩] }

/-! ## Steps -/

/-- What can happen next. -/
inductive Label (n : ℕ) where
  | send (src dest : Fin n) (tag : ℤ) (datatype : MpiDatatype) (count : ℕ) (buf : List UInt8)
  | deliver (src dest : Fin n)
  | poll (p : Fin n)
  | recv (p source : Fin n) (tag : ℤ) (datatype : MpiDatatype) (count : ℕ)
  | copy (p : Fin n)
  | ret (p : Fin n)
deriving DecidableEq

/-- The first store in flight from `src` lands at `dest`. -/
def deliver (bufBytes : ℕ) (w : World n) (src dest : Fin n) (s : Store) (l : List Store) :
    World n :=
  let c := w.pe dest
  { w with
    pe := Function.update w.pe dest { c with buffer := land bufBytes c.buffer s }
    chan := Function.update w.chan (src, dest) l }

/-- One step. A send needs its data in `buf`; a receive of a negative size has no meaning. -/
def step (bufBytes : ℕ) (w : World n) : Label n → Option (World n)
  | .send src dest tag datatype count buf =>
    if (w.pe src).pc = .idle ∧ count * datatype.size ≤ buf.length then
      some (mpiSend w src dest tag datatype count buf)
    else none
  | .deliver src dest =>
    match w.chan (src, dest) with
    | [] => none
    | s :: l => some (deliver bufBytes w src dest s l)
  | .poll p =>
    match (w.pe p).pc with
    | .sending cell =>
      if cell.all fun c => c.isItThere w then
        some (w.setPe p { w.pe p with pc := .idle })
      else none
    | _ => none
  | .recv p source tag datatype count =>
    if (w.pe p).pc = .idle ∧ 0 ≤ getNumBytes count datatype then
      some (recvStart w p source tag (getNumBytes count datatype).toNat)
    else none
  | .copy p =>
    match (w.pe p).pc with
    | .receiving r => if r.buf.length < r.numBytes then some (recvCopy w p r) else none
    | _ => none
  | .ret p =>
    match (w.pe p).pc with
    | .receiving r => if r.buf.length = r.numBytes then some (recvReturn w p r) else none
    | _ => none

end MpiToShmem
