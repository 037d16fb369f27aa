import MpiToShmem.Kit.Gather
import MpiToShmem.Mdhim.Messages
import MpiToShmem.Mdhim.RangeServers
import MpiToShmem.Mdhim.Stats

/-!
# The stat flush

`mdhimStatFlush` on all ranks at once. Every range server packs its statistics; the master, the
last rank of the servers' communicator, gathers how many there are and then the records, and
broadcasts both to all ranks, which merge the records into `md->stats`.

Sizes, counts and displacements are `int`s. Where an MPI call would get a buffer that is missing or
too small, or blocks that do not fit, the flush has no result.
-/

namespace MpiToShmem

open Kit

/-! ## Records -/

/-- How a limit travels: as 8 bytes of a `uint64_t`, or 16 bytes of a `long double`. -/
structure LimitCodec (S : Type) where
  width : ℕ
  encode : S → List UInt8
  decode : List UInt8 → S
  InRange : S → Prop
  length_encode : ∀ s, (encode s).length = width
  decode_encode : ∀ s, InRange s → decode (encode s) = s

/-- The limits of integer keys. -/
def uint64Limit : LimitCodec ℕ where
  width := 8
  encode := leBytes 8
  decode := leNat
  InRange n := n < 256 ^ 8
  length_encode := length_leBytes 8
  decode_encode _ h := leNat_leBytes h

variable {S : Type} (L : LimitCodec S)

/-- `sizeof(struct mdhim_db_istat)` or `sizeof(struct mdhim_db_fstat)`. -/
def statSize : ℕ := 16 + 2 * L.width

/-- The bytes of `mdhim_db_istat` or `mdhim_db_fstat`. -/
def encodeStat (stat : MdhimStat S) : List UInt8 :=
  encodeInt stat.key ++ (List.replicate 4 0 ++ (leBytes 8 stat.num ++
    (L.encode stat.max ++ L.encode stat.min)))

/-- The entry that is built from these bytes. -/
def decodeStat (bs : List UInt8) : MdhimStat S where
  key := decodeInt (bs.take 4)
  num := leNat ((bs.drop 8).take 8)
  max := L.decode ((bs.drop 16).take L.width)
  min := L.decode (bs.drop (16 + L.width))

/-- The members of an entry have values of their types. -/
structure StatInRange (stat : MdhimStat S) : Prop where
  key : IsInt stat.key
  num : stat.num < 256 ^ 8
  max : L.InRange stat.max
  min : L.InRange stat.min

instance [DecidablePred L.InRange] (stat : MdhimStat S) : Decidable (StatInRange L stat) :=
  decidable_of_iff (IsInt stat.key ∧ stat.num < 256 ^ 8 ∧ L.InRange stat.max ∧ L.InRange stat.min)
    ⟨fun ⟨h₁, h₂, h₃, h₄⟩ => ⟨h₁, h₂, h₃, h₄⟩, fun h => ⟨h.key, h.num, h.max, h.min⟩⟩

instance : DecidablePred uint64Limit.InRange := fun n => inferInstanceAs (Decidable (n < 256 ^ 8))

/-! ## Range servers -/

/-- The ranks of `rs_comm`, in the order of the list. -/
def rsComm (md : Mdhim) : List ℕ := md.rangesrvs.map RangesrvInfo.rank

/-- `num_items` of one server. -/
def numItems (table : List (MdhimStat S)) : ℤ := wrapInt table.length

/-- `sendbuf` of one server, which holds `sendsize` bytes. -/
def packStats (table : List (MdhimStat S)) : Option (List UInt8) :=
  let sendsize := wrapInt (table.length * statSize L)
  if sendsize < 0 then none else (table.map (encodeStat L)).foldlM (mpiPack sendsize) []

/-- The loop over the gathered counts: `displs` and `recvcounts`, from `num_items` on. -/
def displs : ℤ → List ℤ → List (ℤ × ℤ)
  | _, [] => []
  | n, c :: cs => (wrapInt (n * statSize L), wrapInt (c * statSize L)) :: displs (wrapInt (n + c)) cs

/-- `num_items` after that loop. -/
def totalItems (counts : List ℤ) : ℤ := counts.foldl (fun n c => wrapInt (n + c)) 0

/-- The blocks that come in at the master. -/
def gatherBlocks (sendbufs : List (List UInt8)) (counts : List ℤ) : List (Block UInt8) :=
  (sendbufs.zip (displs L 0 counts)).map fun p => ⟨p.1, p.2.1, p.2.2⟩

/-- `malloc` and `memset` of a size. -/
def zeroBuffer (size : ℤ) : Option (List UInt8) :=
  if size < 0 then none else some (List.replicate size.toNat 0)

/-- What a rank has of `num_items` and `recvbuf` before the broadcasts. A client has nothing. The
root of the gathers is the last rank of `rs_comm`; on the other servers all counts are zero. -/
def serverPart (md : Mdhim) (tables : ℕ → List (MdhimStat S)) :
    Option (ℤ × Option (List UInt8)) :=
  if md.imRangeServer then do
    let sendbufs ← (rsComm md).mapM fun rank => packStats L (tables rank)
    if (rsComm md).length ≠ md.numRangesrvs then none
    else if (rsComm md).getLast? = some md.mdhimRank then
      let counts := (rsComm md).map fun rank => numItems (tables rank)
      if md.mdhimRank ≠ md.rangesrvMaster then none
      else
        let recvbuf ← zeroBuffer (wrapInt (totalItems counts * statSize L))
        let recvbuf ← gatherv (gatherBlocks L sendbufs counts) recvbuf
        return (totalItems counts, some recvbuf)
    else return (0, if md.mdhimRank = md.rangesrvMaster then some [] else none)
  else some (0, none)

/-! ## All ranks -/

/-- The merge of one record into `md->stats`. -/
def mergeStat (stats : List (MdhimStat S)) (stat : MdhimStat S) : List (MdhimStat S) :=
  HashTable.upsert MdhimStat.key stats stat

/-- The unpacking loop, for a number of records. -/
def unpackStats : ℕ → List UInt8 → List (MdhimStat S) → Option (List (MdhimStat S))
  | 0, _, stats => some stats
  | n + 1, rest, stats => do
    let (tstat, rest) ← mpiUnpack (statSize L) rest
    unpackStats n rest (mergeStat stats (decodeStat L tstat))

/-- How often a loop that adds `statSize` runs below `recvsize`. -/
def rounds (recvsize : ℤ) : ℕ := ((recvsize + statSize L - 1) / statSize L).toNat

/-- `get_stat_flush` on one rank, when all call it: the `md->stats` it ends with. `master` is what
the rank that broadcasts knows. -/
def getStatFlush (md master : Mdhim) (tables : ℕ → List (MdhimStat S))
    (stats : List (MdhimStat S)) : Option (List (MdhimStat S)) := do
  let _ ← serverPart L md tables
  let (numItems, recvbuf) ← serverPart L master tables
  let recvsize := wrapInt (numItems * statSize L)
  let _ ← zeroBuffer recvsize
  let recvbuf ← recvbuf
  unpackStats L (rounds L recvsize) recvbuf stats

/-- `mdhimStatFlush`, a collective call: the `md->stats` of every rank after it. -/
def mdhimStatFlush (o : MdhimOptions) (size : ℕ) (tables stats : ℕ → List (MdhimStat S)) (rank : ℕ) :
    Option (List (MdhimStat S)) := do
  let md ← mdhimInit o size rank
  let master ← mdhimInit o size md.rangesrvMaster
  getStatFlush L md master tables (stats rank)

end MpiToShmem
