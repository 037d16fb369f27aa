import MpiToShmem.Mdhim.Bulk
import MpiToShmem.Mdhim.Codec
import MpiToShmem.Mdhim.Cursor

/-!
# The messages of a client's calls

Which messages each of the calls of a client leads to: those to other ranks, in the order they are
sent, with what its pack function says of each, and whether there is one for the own range server.
-/

namespace MpiToShmem

open Kit

/-- A call of a client, with its keys as bytes. The cursor operations carry the server that
`get_range_server_from_stats` finds. -/
inductive ApiCall where
  | put (key value : List UInt8)
  | get (key : List UInt8)
  | getOp (key : List UInt8) (op : CursorOp) (ri : Option RangesrvInfo)
  | delete (key : List UInt8)
  | bput (recs : List KeyValue)
  | bget (keys : List (List UInt8))
  | bgetOp (key : List UInt8) (numRecords : ℤ) (op : CursorOp) (ri : Option RangesrvInfo)
  | bdelete (keys : List (List UInt8))

/-- A message to another rank. -/
structure Outgoing where
  rank : ℕ
  packs : Bool
deriving DecidableEq

/-- The messages of a call: to other ranks, and to the own range server. -/
structure CallPlan where
  remote : List Outgoing
  own : Bool
deriving DecidableEq

variable (md : Mdhim)

/-- A call with one message for a server, if there is one. -/
def singlePlan (ri : Option RangesrvInfo) (packs : ℕ → Bool) : CallPlan :=
  match ri with
  | none => ⟨[], false⟩
  | some ri =>
    if md.imRangeServer ∧ md.mdhimRank = ri.rank then ⟨[], true⟩
    else ⟨[⟨ri.rank, packs ri.rank⟩], false⟩

/-- A call with many records; `ownFits` is the check of the message to the own range server. -/
def bulkPlan {R : Type} (key : R → List UInt8) (packs : BulkMsg R → Bool)
    (ownFits : BulkMsg R → Bool) (recs : List R) : CallPlan :=
  if maxBulkOps < recs.length then ⟨[], false⟩
  else
    let b := bulkLists md key recs
    ⟨b.list.reduceOption.map fun m => ⟨m.serverRank, packs m⟩, b.own.any ownFits⟩

/-- The messages of a call. -/
def ApiCall.plan : ApiCall → CallPlan
  | put key value =>
    singlePlan md (getRangeServer md (some key)) fun rank =>
      (packPutMessage ⟨1, rank, 0, key, value⟩).isSome
  | get key =>
    singlePlan md (getRangeServer md (some key)) fun rank =>
      (packGetMessage ⟨3, rank, 0, 0, key, 1⟩).isSome
  | getOp key op ri =>
    singlePlan md ri fun rank => (packGetMessage ⟨3, rank, 0, op.code, key, 1⟩).isSome
  | delete key =>
    singlePlan md (getRangeServer md (some key)) fun rank =>
      (packDelMessage ⟨5, rank, 0, key⟩).isSome
  | bput recs =>
    bulkPlan md Prod.fst (fun m => (packBputMessage ⟨2, m.serverRank, 0, m.recs⟩).isSome)
      (fun m => layoutSize Bputm.layout + recLens m.recs ≤ mdhimMaxMsgSize) recs
  | bget keys =>
    bulkPlan md id (fun m => (packBgetMessage ⟨4, m.serverRank, 0, 0, m.recs⟩).isSome)
      (fun _ => true) keys
  | bgetOp key numRecords op ri =>
    if (maxBulkOps : ℤ) < numRecords then ⟨[], false⟩
    else singlePlan md ri fun rank => (packGetMessage ⟨3, rank, 0, op.code, key, numRecords⟩).isSome
  | bdelete keys =>
    bulkPlan md id (fun m => (packBdelMessage ⟨6, m.serverRank, 0, m.recs⟩).isSome)
      (fun _ => true) keys

end MpiToShmem
