import MpiToShmem.Kit.Layout

/-!
# MDHIM messages on the wire

The nine message types that travel between clients and range servers, with the functions that pack
them into a buffer and unpack them from one. A message holds its keys and values as lists of bytes,
whose lengths are the `key_len`, `value_len` and `num_records` members.

Packing computes a size, refuses messages that are too large, stores the size in the message, and
appends the struct and then its keys and values; unpacking reads them in the same order. All nine
pairs are `packAll` and `unpackHeader` applied to the struct, the size formula and the items of the
type. `none` is `MDHIM_ERROR`.
-/

namespace MpiToShmem

open Kit

/-- `MDHIM_MAX_MSG_SIZE`. -/
def mdhimMaxMsgSize : ℤ := 2147483647

/-! ## Buffers -/

/-- `MPI_Pack` of bytes behind those in `outbuf`, which holds `outsize`. -/
def mpiPack (outsize : ℤ) (outbuf bs : List UInt8) : Option (List UInt8) :=
  if (outbuf.length : ℤ) + bs.length ≤ outsize then some (outbuf ++ bs) else none

/-- `MPI_Unpack` of `n` bytes: these and what is left of the message. -/
def mpiUnpack (n : ℤ) (rest : List UInt8) : Option (List UInt8 × List UInt8) :=
  if 0 ≤ n ∧ n ≤ rest.length then some (rest.take n.toNat, rest.drop n.toNat) else none

/-- The reading of a get reply's blobs: a length of zero allocates and reads nothing. -/
def mpiUnpackNonzero (n : ℤ) (rest : List UInt8) : Option (List UInt8 × List UInt8) :=
  if n = 0 then some ([], rest) else mpiUnpack n rest

/-- What a pack function returns: the message with its size set, `*sendsize`, and the bytes
written to `*sendbuf`, which may be fewer than were allocated. -/
structure Packed (M : Type) where
  msg : M
  sendsize : ℤ
  sendbuf : List UInt8
deriving DecidableEq

/-- The pack functions: size check, allocation (which a negative size fails), one `MPI_Pack` an
item. -/
def packAll {M : Type} (mSize : ℤ) (withSize : ℤ → M) (items : M → List (List UInt8)) :
    Option (Packed M) :=
  if mSize > mdhimMaxMsgSize then none
  else
    let mesgSize := wrapInt mSize
    if mesgSize < 0 then none
    else
      ((items (withSize mesgSize)).foldlM (mpiPack mesgSize) []).map fun sendbuf =>
        ⟨withSize mesgSize, mesgSize, sendbuf⟩

/-- The start of the unpack functions: the `int` members of the struct, and the bytes behind it. -/
def unpackHeader (layout : List Slot) (message : List UInt8) (mesgSize : ℤ) :
    Option (List ℤ × List UInt8) := do
  let (image, rest) ← mpiUnpack (layoutSize layout) (message.take mesgSize.toNat)
  return (scan layout image, rest)

/-! ## Records -/

/-- A record of a bulk message with values. -/
abbrev KeyValue := List UInt8 × List UInt8

/-- Each key behind its length. -/
def keyItems (keys : List (List UInt8)) : List (List UInt8) :=
  keys.flatMap fun key => [encodeInt key.length, key]

/-- Each key and value behind its length. -/
def recItems (recs : List KeyValue) : List (List UInt8) :=
  recs.flatMap fun r => [encodeInt r.1.length, r.1, encodeInt r.2.length, r.2]

/-- As `recItems`, leaving out what is empty. -/
def recItemsSkip (recs : List KeyValue) : List (List UInt8) :=
  recs.flatMap fun r =>
    encodeInt r.1.length :: (if (r.1.length : ℤ) > 0 then [r.1] else []) ++
      encodeInt r.2.length :: (if (r.2.length : ℤ) > 0 then [r.2] else [])

/-- The sum of the lengths of keys. -/
def keyLens (keys : List (List UInt8)) : ℤ := (keys.map fun key => (key.length : ℤ)).sum

/-- The sum over the records of `key_lens[i] + value_lens[i]`, each an `int`. -/
def recLens (recs : List KeyValue) : ℤ :=
  (recs.map fun r => wrapInt (r.1.length + r.2.length)).sum

/-- An `int` length and that many bytes. -/
def unpackBlob (rest : List UInt8) : Option (List UInt8 × List UInt8) := do
  let (len, rest) ← mpiUnpack 4 rest
  mpiUnpack (decodeInt len) rest

/-- The loop over keys, after as many allocations, which a negative number fails. -/
def unpackKeys (numRecords : ℤ) (rest : List UInt8) : Option (List (List UInt8)) :=
  if numRecords < 0 then none else loop numRecords.toNat rest
where
  loop : ℕ → List UInt8 → Option (List (List UInt8))
    | 0, _ => some []
    | n + 1, rest => do
      let (key, rest) ← unpackBlob rest
      let keys ← loop n rest
      return key :: keys

/-- The loop over records, which reads a key and a value with `blob`. -/
def unpackRecs (blob : List UInt8 → Option (List UInt8 × List UInt8)) (numRecords : ℤ)
    (rest : List UInt8) : Option (List KeyValue) :=
  if numRecords < 0 then none else loop numRecords.toNat rest
where
  loop : ℕ → List UInt8 → Option (List KeyValue)
    | 0, _ => some []
    | n + 1, rest => do
      let (key, rest) ← blob rest
      let (value, rest) ← blob rest
      let recs ← loop n rest
      return (key, value) :: recs

/-! ## Put -/

/-- `mdhim_putm_t`. -/
structure Putm where
  mtype : ℤ
  serverRank : ℤ
  size : ℤ
  key : List UInt8
  value : List UInt8
deriving DecidableEq

def Putm.layout : List Slot := [.int, .int, .int, .gap 12, .int, .gap 12, .int, .gap 4]

def Putm.ints (pm : Putm) : List ℤ :=
  [pm.mtype, pm.serverRank, pm.size, pm.key.length, pm.value.length]

def Putm.image (pm : Putm) : List UInt8 := fill Putm.layout pm.ints

/-- `pack_put_message`. -/
def packPutMessage (pm : Putm) : Option (Packed Putm) :=
  packAll (layoutSize Putm.layout + wrapInt (pm.key.length + pm.value.length))
    (fun size => { pm with size := size }) fun pm => [pm.image, pm.key, pm.value]

/-- `unpack_put_message`. -/
def unpackPutMessage (message : List UInt8) (mesgSize : ℤ) : Option Putm := do
  match ← unpackHeader Putm.layout message mesgSize with
  | ([mtype, serverRank, size, keyLen, valueLen], rest) =>
    let (key, rest) ← mpiUnpack keyLen rest
    let (value, _) ← mpiUnpack valueLen rest
    return ⟨mtype, serverRank, size, key, value⟩
  | _ => none

/-! ## Bulk put -/

/-- `mdhim_bputm_t`. -/
structure Bputm where
  mtype : ℤ
  serverRank : ℤ
  size : ℤ
  recs : List KeyValue
deriving DecidableEq

def Bputm.layout : List Slot := [.int, .int, .int, .gap 36, .int, .gap 4]

def Bputm.ints (bpm : Bputm) : List ℤ := [bpm.mtype, bpm.serverRank, bpm.size, bpm.recs.length]

def Bputm.image (bpm : Bputm) : List UInt8 := fill Bputm.layout bpm.ints

/-- `pack_bput_message`. -/
def packBputMessage (bpm : Bputm) : Option (Packed Bputm) :=
  packAll (layoutSize Bputm.layout + wrapInt (2 * bpm.recs.length) * 4 + recLens bpm.recs)
    (fun size => { bpm with size := size }) fun bpm => bpm.image :: recItems bpm.recs

/-- `unpack_bput_message`. -/
def unpackBputMessage (message : List UInt8) (mesgSize : ℤ) : Option Bputm := do
  match ← unpackHeader Bputm.layout message mesgSize with
  | ([mtype, serverRank, size, numRecords], rest) =>
    let recs ← unpackRecs unpackBlob numRecords rest
    return ⟨mtype, serverRank, size, recs⟩
  | _ => none

/-! ## Get -/

/-- `mdhim_getm_t`. -/
structure Getm where
  mtype : ℤ
  serverRank : ℤ
  size : ℤ
  op : ℤ
  key : List UInt8
  numRecords : ℤ
deriving DecidableEq

def Getm.layout : List Slot := [.int, .int, .int, .int, .gap 8, .int, .int]

def Getm.ints (gm : Getm) : List ℤ :=
  [gm.mtype, gm.serverRank, gm.size, gm.op, gm.key.length, gm.numRecords]

def Getm.image (gm : Getm) : List UInt8 := fill Getm.layout gm.ints

/-- `pack_get_message`. -/
def packGetMessage (gm : Getm) : Option (Packed Getm) :=
  packAll (layoutSize Getm.layout + gm.key.length)
    (fun size => { gm with size := size }) fun gm => [gm.image, gm.key]

/-- `unpack_get_message`. -/
def unpackGetMessage (message : List UInt8) (mesgSize : ℤ) : Option Getm := do
  match ← unpackHeader Getm.layout message mesgSize with
  | ([mtype, serverRank, size, op, keyLen, numRecords], rest) =>
    let (key, _) ← mpiUnpack keyLen rest
    return ⟨mtype, serverRank, size, op, key, numRecords⟩
  | _ => none

/-! ## Bulk get -/

/-- `mdhim_bgetm_t`. -/
structure Bgetm where
  mtype : ℤ
  serverRank : ℤ
  size : ℤ
  op : ℤ
  keys : List (List UInt8)
deriving DecidableEq

def Bgetm.layout : List Slot := [.int, .int, .int, .int, .gap 16, .int, .gap 4]

def Bgetm.ints (bgm : Bgetm) : List ℤ :=
  [bgm.mtype, bgm.serverRank, bgm.size, bgm.op, bgm.keys.length]

def Bgetm.image (bgm : Bgetm) : List UInt8 := fill Bgetm.layout bgm.ints

/-- The size that `pack_bget_message` computes: two lengths a key, though one is packed. -/
def Bgetm.packSize (bgm : Bgetm) : ℤ :=
  layoutSize Bgetm.layout + bgm.keys.length * 4 * 2 + keyLens bgm.keys

/-- `pack_bget_message`. -/
def packBgetMessage (bgm : Bgetm) : Option (Packed Bgetm) :=
  packAll bgm.packSize (fun size => { bgm with size := size }) fun bgm =>
    bgm.image :: keyItems bgm.keys

/-- `unpack_bget_message`. -/
def unpackBgetMessage (message : List UInt8) (mesgSize : ℤ) : Option Bgetm := do
  match ← unpackHeader Bgetm.layout message mesgSize with
  | ([mtype, serverRank, size, op, numRecords], rest) =>
    let keys ← unpackKeys numRecords rest
    return ⟨mtype, serverRank, size, op, keys⟩
  | _ => none

/-! ## Delete -/

/-- `mdhim_delm_t`. -/
structure Delm where
  mtype : ℤ
  serverRank : ℤ
  size : ℤ
  key : List UInt8
deriving DecidableEq

def Delm.layout : List Slot := [.int, .int, .int, .gap 12, .int, .gap 4]

def Delm.ints (dm : Delm) : List ℤ := [dm.mtype, dm.serverRank, dm.size, dm.key.length]

def Delm.image (dm : Delm) : List UInt8 := fill Delm.layout dm.ints

/-- `pack_del_message`. -/
def packDelMessage (dm : Delm) : Option (Packed Delm) :=
  packAll (layoutSize Delm.layout + dm.key.length)
    (fun size => { dm with size := size }) fun dm => [dm.image, dm.key]

/-- `unpack_del_message`. -/
def unpackDelMessage (message : List UInt8) (mesgSize : ℤ) : Option Delm := do
  match ← unpackHeader Delm.layout message mesgSize with
  | ([mtype, serverRank, size, keyLen], rest) =>
    let (key, _) ← mpiUnpack keyLen rest
    return ⟨mtype, serverRank, size, key⟩
  | _ => none

/-! ## Bulk delete -/

/-- `mdhim_bdelm_t`. -/
structure Bdelm where
  mtype : ℤ
  serverRank : ℤ
  size : ℤ
  keys : List (List UInt8)
deriving DecidableEq

def Bdelm.layout : List Slot := [.int, .int, .int, .gap 20, .int, .gap 4]

def Bdelm.ints (bdm : Bdelm) : List ℤ := [bdm.mtype, bdm.serverRank, bdm.size, bdm.keys.length]

def Bdelm.image (bdm : Bdelm) : List UInt8 := fill Bdelm.layout bdm.ints

/-- `pack_bdel_message`. -/
def packBdelMessage (bdm : Bdelm) : Option (Packed Bdelm) :=
  packAll (layoutSize Bdelm.layout + bdm.keys.length * 4 + keyLens bdm.keys)
    (fun size => { bdm with size := size }) fun bdm => bdm.image :: keyItems bdm.keys

/-- `unpack_bdel_message`. -/
def unpackBdelMessage (message : List UInt8) (mesgSize : ℤ) : Option Bdelm := do
  match ← unpackHeader Bdelm.layout message mesgSize with
  | ([mtype, serverRank, size, numRecords], rest) =>
    let keys ← unpackKeys numRecords rest
    return ⟨mtype, serverRank, size, keys⟩
  | _ => none

/-! ## Return -/

/-- `mdhim_rm_t`. -/
structure Rm where
  mtype : ℤ
  serverRank : ℤ
  size : ℤ
  error : ℤ
deriving DecidableEq

def Rm.layout : List Slot := [.int, .int, .int, .int]

def Rm.ints (rm : Rm) : List ℤ := [rm.mtype, rm.serverRank, rm.size, rm.error]

def Rm.image (rm : Rm) : List UInt8 := fill Rm.layout rm.ints

/-- `pack_return_message`; its size is a constant below the limit. -/
def packReturnMessage (rm : Rm) : Option (Packed Rm) :=
  packAll (layoutSize Rm.layout) (fun size => { rm with size := size }) fun rm => [rm.image]

/-- `unpack_return_message`, which is not given a size. -/
def unpackReturnMessage (message : List UInt8) : Option Rm := do
  match ← unpackHeader Rm.layout message (layoutSize Rm.layout) with
  | ([mtype, serverRank, size, error], _) => return ⟨mtype, serverRank, size, error⟩
  | _ => none

/-! ## Get reply -/

/-- `mdhim_getrm_t`. -/
structure Getrm where
  mtype : ℤ
  serverRank : ℤ
  size : ℤ
  error : ℤ
  key : List UInt8
  value : List UInt8
deriving DecidableEq

def Getrm.layout : List Slot := [.int, .int, .int, .int, .gap 8, .int, .gap 12, .int, .gap 4]

def Getrm.ints (grm : Getrm) : List ℤ :=
  [grm.mtype, grm.serverRank, grm.size, grm.error, grm.key.length, grm.value.length]

def Getrm.image (grm : Getrm) : List UInt8 := fill Getrm.layout grm.ints

/-- `pack_getrm_message`. -/
def packGetrmMessage (grm : Getrm) : Option (Packed Getrm) :=
  packAll (layoutSize Getrm.layout + wrapInt (grm.key.length + grm.value.length))
    (fun size => { grm with size := size }) fun grm =>
      grm.image :: (if grm.key.length ≠ 0 then [grm.key] else []) ++
        if grm.value.length ≠ 0 then [grm.value] else []

/-- `unpack_getrm_message`. -/
def unpackGetrmMessage (message : List UInt8) (mesgSize : ℤ) : Option Getrm := do
  match ← unpackHeader Getrm.layout message mesgSize with
  | ([mtype, serverRank, size, error, keyLen, valueLen], rest) =>
    let (key, rest) ← mpiUnpackNonzero keyLen rest
    let (value, _) ← mpiUnpackNonzero valueLen rest
    return ⟨mtype, serverRank, size, error, key, value⟩
  | _ => none

/-! ## Bulk get reply -/

/-- `mdhim_bgetrm_t`; its `next` is set by the receiver. -/
structure Bgetrm where
  mtype : ℤ
  serverRank : ℤ
  size : ℤ
  error : ℤ
  recs : List KeyValue
deriving DecidableEq

def Bgetrm.layout : List Slot := [.int, .int, .int, .int, .gap 32, .int, .gap 12]

def Bgetrm.ints (bgrm : Bgetrm) : List ℤ :=
  [bgrm.mtype, bgrm.serverRank, bgrm.size, bgrm.error, bgrm.recs.length]

def Bgetrm.image (bgrm : Bgetrm) : List UInt8 := fill Bgetrm.layout bgrm.ints

/-- `pack_bgetrm_message`. -/
def packBgetrmMessage (bgrm : Bgetrm) : Option (Packed Bgetrm) :=
  packAll (layoutSize Bgetrm.layout + wrapInt (2 * bgrm.recs.length) * 4 + recLens bgrm.recs)
    (fun size => { bgrm with size := size }) fun bgrm => bgrm.image :: recItemsSkip bgrm.recs

/-- A length and blob of a bulk get reply. -/
def unpackBlobSkip (rest : List UInt8) : Option (List UInt8 × List UInt8) := do
  let (len, rest) ← mpiUnpack 4 rest
  mpiUnpackNonzero (decodeInt len) rest

/-- `unpack_bgetrm_message`. -/
def unpackBgetrmMessage (message : List UInt8) (mesgSize : ℤ) : Option Bgetrm := do
  match ← unpackHeader Bgetrm.layout message mesgSize with
  | ([mtype, serverRank, size, error, numRecords], rest) =>
    let recs ← unpackRecs unpackBlobSkip numRecords rest
    return ⟨mtype, serverRank, size, error, recs⟩
  | _ => none

end MpiToShmem
