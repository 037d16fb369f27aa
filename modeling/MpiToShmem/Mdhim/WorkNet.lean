import Mathlib.Data.List.ReduceOption
import MpiToShmem.Kit.Fifo
import MpiToShmem.Mdhim.Messages

/-!
# Requests on their way to the range servers

A request travels as two messages with different tags: its size and its packed body. Messages with
one tag from one rank to another arrive in the order they were sent in; nothing else is known about
the order.

1. `sendRangesrvWork` and `sendAllRangesrvWork` are the requests of a call; `post` sends the next
   size or body of a rank.
2. `receive`, `recvSize` and `recvBody` are `receive_rangesrv_work` in the loop of the listener
   thread: the size from any rank, then the body from that rank.
3. `workStep` interleaves all of them. Requests carry their sender and a number that no step looks
   at; `sent` and `received` record what happened.
-/

namespace MpiToShmem

open Kit Fifo

/-! ## Messages -/

/-- `mdhim_basem_t`. -/
structure Basem where
  mtype : ℤ
  serverRank : ℤ
  size : ℤ
deriving DecidableEq

def Basem.layout : List Slot := [.int, .int, .int]

def Basem.image (m : Basem) : List UInt8 := fill Basem.layout [m.mtype, m.serverRank, m.size]

/-- `pack_base_message`. -/
def packBaseMessage (cm : Basem) : Option (Packed Basem) :=
  packAll (layoutSize Basem.layout) (fun size => { cm with size := size }) fun cm => [cm.image]

/-- A message of `send_all_rangesrv_work`. -/
inductive BulkWork where
  | bput (bpm : Bputm)
  | bget (bgm : Bgetm)
  | bdel (bdm : Bdelm)

/-- A message of `send_rangesrv_work`; `base` is a commit or a close. -/
inductive Work where
  | put (pm : Putm)
  | get (gm : Getm)
  | del (dm : Delm)
  | bulk (m : BulkWork)
  | base (cm : Basem)

def BulkWork.serverRank : BulkWork → ℤ
  | bput bpm => bpm.serverRank
  | bget bgm => bgm.serverRank
  | bdel bdm => bdm.serverRank

/-- `sendsize` and `sendbuf`, if the message packs. -/
def BulkWork.pack : BulkWork → Option (ℤ × List UInt8)
  | bput bpm => (packBputMessage bpm).map fun p => (p.sendsize, p.sendbuf)
  | bget bgm => (packBgetMessage bgm).map fun p => (p.sendsize, p.sendbuf)
  | bdel bdm => (packBdelMessage bdm).map fun p => (p.sendsize, p.sendbuf)

def Work.pack : Work → Option (ℤ × List UInt8)
  | put pm => (packPutMessage pm).map fun p => (p.sendsize, p.sendbuf)
  | get gm => (packGetMessage gm).map fun p => (p.sendsize, p.sendbuf)
  | del dm => (packDelMessage dm).map fun p => (p.sendsize, p.sendbuf)
  | bulk m => m.pack
  | base cm => (packBaseMessage cm).map fun p => (p.sendsize, p.sendbuf)

/-! ## State -/

/-- A packed request, with its sender and number. -/
structure BodyMsg where
  request : ℤ × ℕ
  sendsize : ℤ
  sendbuf : List UInt8
deriving DecidableEq

/-- The message with the size of a request. -/
structure SizeMsg where
  request : ℤ × ℕ
  recvsize : ℤ
deriving DecidableEq

def BodyMsg.sizeMsg (m : BodyMsg) : SizeMsg := ⟨m.request, m.sendsize⟩

/-- The call of a rank: the request whose size is posted and whose body is not, and the requests
after it, each with its destination. -/
structure Sender where
  half : Option (ℤ × BodyMsg)
  todo : List (ℤ × BodyMsg)
deriving DecidableEq

/-- The listener thread: between two calls of `receive_rangesrv_work`, waiting for a size, waiting
for the body from the source of the size, or at its end. -/
inductive Listener where
  | idle
  | size
  | body (src : ℤ) (m : SizeMsg)
  | stopped
deriving DecidableEq

/-- A call of `receive_rangesrv_work` that completed, with `*src` and the two messages it took. -/
structure Received where
  server : ℤ
  src : ℤ
  size : SizeMsg
  body : BodyMsg
deriving DecidableEq

/-- All ranks and the messages in flight, by sender and receiver. -/
structure WorkNet where
  sender : ℤ → Sender
  nextId : ℤ → ℕ
  listener : ℤ → Listener
  sizeMsgs : ℤ × ℤ → List SizeMsg
  bodyMsgs : ℤ × ℤ → List BodyMsg
  sent : ℤ × ℤ → List BodyMsg
  received : List Received

namespace WorkNet

def init : WorkNet :=
  ⟨fun _ => ⟨none, []⟩, fun _ => 0, fun _ => .idle, fun _ => [], fun _ => [], fun _ => [], []⟩

/-! ## Sending -/

/-- The requests of `send_rangesrv_work`. -/
def sendRangesrvWork (dest : ℤ) (message : Work) : List (ℤ × ℤ × List UInt8) :=
  (message.pack.map fun p => (dest, p)).toList

/-- The requests of `send_all_rangesrv_work`, which goes on after a message that does not pack. -/
def sendAllRangesrvWork (messages : List (Option BulkWork)) : List (ℤ × ℤ × List UInt8) :=
  messages.reduceOption.filterMap fun m => m.pack.map fun p => (m.serverRank, p)

/-- Requests of `client`, numbered from `k` on. -/
def number (client : ℤ) (k : ℕ) : List (ℤ × ℤ × List UInt8) → List (ℤ × BodyMsg)
  | [] => []
  | (dest, sendsize, sendbuf) :: l =>
    (dest, ⟨(client, k), sendsize, sendbuf⟩) :: number client (k + 1) l

/-- `client` starts a call with these requests. -/
def call (w : WorkNet) (client : ℤ) (l : List (ℤ × ℤ × List UInt8)) : Option WorkNet :=
  if w.sender client = ⟨none, []⟩ then
    some { w with
      sender := Function.update w.sender client ⟨none, number client (w.nextId client) l⟩
      nextId := Function.update w.nextId client (w.nextId client + l.length) }
  else none

/-- `client` sends its next message: the body of the request whose size it has sent, or the size of
the next request. -/
def post (w : WorkNet) (client : ℤ) : Option WorkNet :=
  match w.sender client with
  | ⟨some (dest, m), todo⟩ =>
    some { w with
      sender := Function.update w.sender client ⟨none, todo⟩
      bodyMsgs := push w.bodyMsgs (client, dest) m }
  | ⟨none, (dest, m) :: todo⟩ =>
    some { w with
      sender := Function.update w.sender client ⟨some (dest, m), todo⟩
      sizeMsgs := push w.sizeMsgs (client, dest) m.sizeMsg
      sent := push w.sent (client, dest) m }
  | ⟨none, []⟩ => none

/-! ## Receiving -/

/-- The header says `MDHIM_CLOSE`, in a message that is not empty. -/
def isClose (recvsize : ℤ) (recvbuf : List UInt8) : Bool :=
  match unpackHeader Basem.layout recvbuf recvsize with
  | some ([mtype, _, msgSize], _) => msgSize ≠ 0 ∧ mtype = 7
  | _ => false

/-- The listener calls `receive_rangesrv_work`. -/
def receive (w : WorkNet) (server : ℤ) : Option WorkNet :=
  match w.listener server with
  | .idle => some { w with listener := Function.update w.listener server .size }
  | _ => none

/-- The receive of a size from any source completes with one from `client`. -/
def recvSize (w : WorkNet) (server client : ℤ) : Option WorkNet :=
  match w.listener server with
  | .size => do
    let (m, sizeMsgs) ← pop w.sizeMsgs (client, server)
    return { w with
      listener := Function.update w.listener server (.body client m)
      sizeMsgs := sizeMsgs }
  | _ => none

/-- The receive of the body completes, and with it the call. The listener stops after a close. -/
def recvBody (w : WorkNet) (server : ℤ) : Option WorkNet :=
  match w.listener server with
  | .body src size => do
    let (m, bodyMsgs) ← pop w.bodyMsgs (src, server)
    return { w with
      listener := Function.update w.listener server
        (if isClose size.recvsize m.sendbuf then .stopped else .idle)
      bodyMsgs := bodyMsgs
      received := w.received ++ [⟨server, src, size, m⟩] }
  | _ => none

/-! ## Steps -/

inductive Label where
  | work (client dest : ℤ) (message : Work)
  | allWork (client : ℤ) (messages : List (Option BulkWork))
  | post (client : ℤ)
  | receive (server : ℤ)
  | recvSize (server client : ℤ)
  | recvBody (server : ℤ)

/-- One step. -/
def workStep (w : WorkNet) : Label → Option WorkNet
  | .work client dest message => w.call client (sendRangesrvWork dest message)
  | .allWork client messages => w.call client (sendAllRangesrvWork messages)
  | .post client => w.post client
  | .receive server => w.receive server
  | .recvSize server client => w.recvSize server client
  | .recvBody server => w.recvBody server

end WorkNet

end MpiToShmem
