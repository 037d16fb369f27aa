import MpiToShmem.Mdhim.Codec
import MpiToShmem.Mdhim.Flush

/-!
# All ranks agree after a stat flush

1. `wireStat_eq`: a record carries an entry.
2. `gatherv_gatherBlocks`: a gather that succeeds overflows nothing, and concatenates the records
   in the order of the servers.
3. `mdhimStatFlush_eq`: every rank merges the entries of all servers, in that order.
4. `flush_agrees`: every rank ends with every server's entries, whatever it had before.
-/

namespace MpiToShmem

open Kit

variable {S : Type} (L : LimitCodec S)

/-! ## Records -/

theorem length_encodeStat (stat : MdhimStat S) : (encodeStat L stat).length = statSize L := by
  simp only [encodeStat, List.length_append, length_encodeInt, List.length_replicate,
    length_leBytes, L.length_encode, statSize]
  omega

theorem length_flatMap_encodeStat (table : List (MdhimStat S)) :
    (table.flatMap (encodeStat L)).length = table.length * statSize L := by
  induction table with
  | nil => simp
  | cons stat table ih =>
    rw [List.flatMap_cons, List.length_append, ih, length_encodeStat, List.length_cons]
    ring

/-- An entry after the trip. -/
def wireStat (stat : MdhimStat S) : MdhimStat S := decodeStat L (encodeStat L stat)

variable {L}

theorem wireStat_key {stat : MdhimStat S} (h : IsInt stat.key) :
    (wireStat L stat).key = stat.key := by
  have htake : (encodeStat L stat).take 4 = encodeInt stat.key := List.take_left' (length_encodeInt _)
  rw [wireStat, decodeStat, htake, decodeInt_encodeInt h]

theorem drop_encodeStat (stat : MdhimStat S) :
    (encodeStat L stat).drop 8 = leBytes 8 stat.num ++ (L.encode stat.max ++ L.encode stat.min) := by
  rw [encodeStat, ← List.append_assoc, List.drop_left']
  rw [List.length_append, length_encodeInt, List.length_replicate]

theorem drop_limits_encodeStat (stat : MdhimStat S) :
    (encodeStat L stat).drop 16 = L.encode stat.max ++ L.encode stat.min := by
  have hdrop : (encodeStat L stat).drop 16 = ((encodeStat L stat).drop 8).drop 8 := by
    rw [List.drop_drop]
  rw [hdrop, drop_encodeStat, List.drop_left' (length_leBytes _ _)]

theorem wireStat_num {stat : MdhimStat S} (h : stat.num < 256 ^ 8) :
    (wireStat L stat).num = stat.num := by
  rw [wireStat, decodeStat, drop_encodeStat, List.take_left' (length_leBytes _ _), leNat_leBytes h]

theorem wireStat_max {stat : MdhimStat S} (h : L.InRange stat.max) :
    (wireStat L stat).max = stat.max := by
  rw [wireStat, decodeStat, drop_limits_encodeStat, List.take_left' (L.length_encode _),
    L.decode_encode _ h]

theorem wireStat_min {stat : MdhimStat S} (h : L.InRange stat.min) :
    (wireStat L stat).min = stat.min := by
  rw [wireStat, decodeStat, ← List.drop_drop, drop_limits_encodeStat,
    List.drop_left' (L.length_encode _), L.decode_encode _ h]

/-- Values of the members' types survive. -/
theorem wireStat_eq {stat : MdhimStat S} (h : StatInRange L stat) : wireStat L stat = stat :=
  MdhimStat.ext (wireStat_key h.key) (wireStat_max h.max) (wireStat_min h.min) (wireStat_num h.num)

/-! ## The gather -/

/-- The servers' send buffers, none of which is longer than an `int`. -/
theorem mapM_packStats {tables : ℕ → List (MdhimStat S)} {ranks : List ℕ}
    {sendbufs : List (List UInt8)}
    (h : ranks.mapM (fun rank => packStats L (tables rank)) = some sendbufs) :
    sendbufs = ranks.map (fun rank => (tables rank).flatMap (encodeStat L)) ∧
      ∀ rank ∈ ranks, ((tables rank).length * statSize L : ℤ) ≤ intMax := by
  induction ranks generalizing sendbufs with
  | nil =>
    obtain rfl : [] = sendbufs := Option.some.inj h
    exact ⟨rfl, fun rank hrank => by cases hrank⟩
  | cons rank ranks ih =>
    rw [List.mapM_cons] at h
    obtain ⟨sendbuf, hpack, h⟩ := Option.bind_eq_some_iff.mp h
    obtain ⟨rest, hrest, h⟩ := Option.bind_eq_some_iff.mp h
    obtain rfl : sendbuf :: rest = sendbufs := Option.some.inj h
    obtain ⟨hmap, hall⟩ := ih hrest
    dsimp only [packStats] at hpack
    split_ifs at hpack with hneg
    obtain ⟨hout, hle⟩ := length_le_of_foldlM (by simpa using hneg) hpack
    rw [List.nil_append, ← List.flatMap_def] at hout
    rw [hout, length_flatMap_encodeStat] at hle
    push_cast at hle
    refine ⟨by rw [hmap, hout, List.map_cons], fun r hr => ?_⟩
    rcases List.mem_cons.mp hr with rfl | hr
    · exact hle.trans (isInt_wrapInt _).2
    · exact hall r hr

/-- Behind the records of `items` entries, written to `pre`, a gather that succeeds writes those of
the other servers, and counts them without overflow. -/
theorem gatherv_gatherBlocks (tables : List (List (MdhimStat S))) (items : ℕ)
    (pre zs : List UInt8) {out : List UInt8} (hpre : pre.length = items * statSize L)
    (hmax : ((pre ++ zs).length : ℤ) ≤ intMax)
    (hall : ∀ table ∈ tables, (table.length * statSize L : ℤ) ≤ intMax)
    (h : gatherv (((tables.map fun table => table.flatMap (encodeStat L)).zip
      (displs L items (tables.map numItems))).map fun p => ⟨p.1, p.2.1, p.2.2⟩) (pre ++ zs) =
        some out) :
    out = pre ++ (tables.flatten.flatMap (encodeStat L) ++ zs.drop (tables.flatten.length *
      statSize L)) ∧ ((items + tables.flatten.length) * statSize L ≤ (pre ++ zs).length) ∧
      (tables.map numItems).foldl (fun n c => wrapInt (n + c)) (items : ℤ) =
        (items + tables.flatten.length : ℕ) := by
  induction tables generalizing items pre zs with
  | nil =>
    obtain rfl : pre ++ zs = out := Option.some.inj h
    refine ⟨by simp, ?_, by simp⟩
    rw [List.flatten_nil, List.length_nil, Nat.add_zero, List.length_append, ← hpre]
    exact Nat.le_add_right _ _
  | cons table tables ih =>
    have hw : 0 < statSize L := by unfold statSize; omega
    have hdata := length_flatMap_encodeStat L table
    have hitems : wrapInt (items * statSize L) = pre.length := by
      rw [hpre, ← Nat.cast_mul, wrapInt_natCast]
      rw [← hpre]
      rw [List.length_append] at hmax
      unfold intMax at hmax
      omega
    have hcount : numItems table = table.length := by
      have hle := hall table List.mem_cons_self
      have hlen : table.length ≤ table.length * statSize L := Nat.le_mul_of_pos_right _ hw
      unfold intMax at hle
      exact wrapInt_natCast (by omega)
    rw [List.map_cons, List.map_cons, displs, List.zip_cons_cons, List.map_cons] at h
    obtain ⟨hfit, hrest⟩ := gatherv_cons_append (by dsimp only; exact hitems) h
    dsimp only at hfit hrest
    have hpre' : (pre ++ table.flatMap (encodeStat L)).length =
        (items + table.length) * statSize L := by
      rw [List.length_append, hpre, hdata, Nat.add_mul]
    have htotal : (pre ++ table.flatMap (encodeStat L) ++
        zs.drop (table.flatMap (encodeStat L)).length).length = (pre ++ zs).length := by
      simp only [List.length_append, List.length_drop]
      omega
    have hnext : wrapInt (items + numItems table) = (items + table.length : ℕ) := by
      rw [hcount, ← Nat.cast_add, wrapInt_natCast]
      have hlen : items + table.length ≤ (items + table.length) * statSize L :=
        Nat.le_mul_of_pos_right _ hw
      rw [← hpre', List.length_append] at hlen
      rw [List.length_append] at hmax
      unfold intMax at hmax
      omega
    rw [hnext] at hrest
    obtain ⟨hout, hle, hsum⟩ := ih _ _ _ hpre' (by rw [htotal]; exact hmax)
      (fun t ht => hall t (List.mem_cons_of_mem _ ht)) hrest
    refine ⟨?_, ?_, ?_⟩
    · rw [hout, hdata, List.drop_drop, ← Nat.add_mul, List.flatten_cons, List.flatMap_append,
        List.length_append, List.append_assoc, List.append_assoc]
    · rw [htotal] at hle
      rw [List.flatten_cons, List.length_append, ← Nat.add_assoc]
      exact hle
    · rw [List.map_cons, List.foldl_cons, hnext, hsum, List.flatten_cons, List.length_append,
        Nat.add_assoc]

/-- The entries of all servers, in the order of their list. -/
def allEntries (md : Mdhim) (tables : ℕ → List (MdhimStat S)) : List (MdhimStat S) :=
  ((rsComm md).map tables).flatten

/-- What the master broadcasts. -/
theorem serverPart_master {md : Mdhim} {tables : ℕ → List (MdhimStat S)} {n : ℤ}
    {recvbuf : Option (List UInt8)} (hrs : md.imRangeServer)
    (hlast : (rsComm md).getLast? = some md.mdhimRank)
    (h : serverPart L md tables = some (n, recvbuf)) :
    n = (allEntries md tables).length ∧
      recvbuf = some ((allEntries md tables).flatMap (encodeStat L)) ∧
      ((allEntries md tables).length * statSize L : ℤ) ≤ intMax := by
  unfold serverPart at h
  rw [if_pos hrs] at h
  obtain ⟨sendbufs, hpack, h⟩ := Option.bind_eq_some_iff.mp h
  split_ifs at h with hlen hmaster
  obtain ⟨buf, hbuf, h⟩ := Option.bind_eq_some_iff.mp h
  obtain ⟨out, hgather, h⟩ := Option.bind_eq_some_iff.mp h
  obtain ⟨rfl, rfl⟩ := Prod.mk.inj (Option.some.inj h)
  obtain ⟨rfl, hall⟩ := mapM_packStats hpack
  unfold zeroBuffer at hbuf
  split_ifs at hbuf with hneg
  obtain rfl := Option.some.inj hbuf
  generalize hcounts : (rsComm md).map (fun rank => numItems (tables rank)) = counts at *
  have hmap : ((rsComm md).map tables).map numItems = counts := by
    simp only [← hcounts, List.map_map, Function.comp_def]
  have hsend : (rsComm md).map (fun rank => (tables rank).flatMap (encodeStat L)) =
      ((rsComm md).map tables).map fun table => table.flatMap (encodeStat L) := by
    simp only [List.map_map, Function.comp_def]
  have hsize := (isInt_wrapInt (totalItems counts * statSize L)).2
  rw [gatherBlocks, hsend, ← hmap, ← Nat.cast_zero (R := ℤ)] at hgather
  obtain ⟨hout, hle, htotal⟩ := gatherv_gatherBlocks ((rsComm md).map tables) 0 []
    (List.replicate (wrapInt (totalItems counts * statSize L)).toNat 0) (by simp)
    (by rw [List.nil_append, List.length_replicate]; omega)
    (fun table ht => by obtain ⟨rank, hrank, rfl⟩ := List.mem_map.mp ht; exact hall rank hrank)
    (by rw [List.nil_append, ← hmap]; exact hgather)
  have hitems : totalItems counts = ((allEntries md tables).length : ℕ) := by
    rw [Nat.zero_add, Nat.cast_zero] at htotal
    rw [← hmap, totalItems, allEntries, htotal]
  rw [List.nil_append, List.length_replicate, Nat.zero_add] at hle
  have hbytes : ((allEntries md tables).length * statSize L : ℕ) ≤ intMax := by
    unfold allEntries
    omega
  push_cast at hbytes
  refine ⟨hitems, ?_, hbytes⟩
  have hzero : (List.replicate (wrapInt (totalItems counts * statSize L)).toNat (0 : UInt8)).drop
      ((allEntries md tables).length * statSize L) = [] := by
    rw [hitems, ← Nat.cast_mul, wrapInt_natCast (by unfold intMax at hbytes; omega),
      Int.toNat_natCast, List.drop_eq_nil_iff, List.length_replicate]
  rw [hout, List.nil_append]
  unfold allEntries at hzero ⊢
  rw [hzero, List.append_nil]

/-! ## The merge -/

/-- The unpacking loop merges the entries whose records it reads. -/
theorem unpackStats_flatMap (entries stats : List (MdhimStat S)) :
    unpackStats L entries.length (entries.flatMap (encodeStat L)) stats =
      some ((entries.map (wireStat L)).foldl mergeStat stats) := by
  induction entries generalizing stats with
  | nil => rfl
  | cons stat entries ih =>
    have hlen : (statSize L : ℤ) = (encodeStat L stat).length :=
      congrArg Nat.cast (length_encodeStat L stat).symm
    rw [List.flatMap_cons, List.length_cons, unpackStats, mpiUnpack_append hlen,
      Option.bind_eq_bind, Option.bind_some]
    exact ih _

theorem rounds_eq {n : ℕ} (h : (n * statSize L : ℤ) ≤ intMax) :
    rounds L (wrapInt (n * statSize L)) = n := by
  have hw : 0 < statSize L := by unfold statSize; omega
  unfold intMax at h
  rw [← Nat.cast_mul, wrapInt_natCast (by omega), rounds]
  have hdiv : ((n * statSize L : ℕ) + (statSize L : ℤ) - 1) / statSize L = n := by
    rw [Int.ediv_eq_iff_of_pos (by omega)]
    push_cast
    constructor <;> nlinarith
  rw [hdiv, Int.toNat_natCast]

/-- Every rank merges the entries of all servers into what it has. -/
theorem mdhimStatFlush_eq {o : MdhimOptions} {size : ℕ} (hsize : 0 < size)
    {tables stats : ℕ → List (MdhimStat S)} {rank : ℕ} {new : List (MdhimStat S)}
    (h : mdhimStatFlush L o size tables stats rank = some new) :
    new = (((rangesrvsOf o size).flatMap fun rs => tables rs.rank).map (wireStat L)).foldl mergeStat
      (stats rank) := by
  unfold mdhimStatFlush at h
  rw [mdhimInit_eq hsize] at h
  simp only [Option.bind_eq_bind, Option.bind_some] at h
  rw [mdhimInit_eq hsize] at h
  simp only [Option.bind_some] at h
  obtain ⟨_, -, h⟩ := Option.bind_eq_some_iff.mp h
  obtain ⟨⟨n, recvbuf⟩, hmaster, h⟩ := Option.bind_eq_some_iff.mp h
  have hlast := getLast?_rangesrvsOf (o := o) hsize
  obtain ⟨rs, hrs, hrank⟩ := List.mem_map.mp (List.mem_of_getLast? hlast)
  obtain ⟨-, hnum, hself⟩ := mem_rangesrvsOf.mp hrs
  have hserver : isRangeServer o size (getNumRangeServers o size)
      (rangesrvMaster (rangesrvsOf o size)) ≠ 0 := by
    rw [← hrank, hself]
    exact hnum
  obtain ⟨rfl, rfl, hbytes⟩ := serverPart_master (by exact hserver) (by exact hlast) hmaster
  have hentries : ∀ md : Mdhim, md.rangesrvs = rangesrvsOf o size →
      allEntries md tables = (rangesrvsOf o size).flatMap fun rs => tables rs.rank := by
    intro md hmd
    rw [allEntries, rsComm, hmd, List.map_map, List.flatMap_def]
    rfl
  rw [hentries _ rfl] at h hbytes
  dsimp only at h
  obtain ⟨_, -, h⟩ := Option.bind_eq_some_iff.mp h
  rw [Option.bind_eq_bind, Option.bind_some, rounds_eq hbytes, unpackStats_flatMap] at h
  exact (Option.some.inj h).symm

/-! ## Agreement -/

theorem distinct_entries {l : List RangesrvInfo} {tables : ℕ → List (MdhimStat S)}
    (hnodup : (l.map RangesrvInfo.rank).Nodup)
    (hdistinct : ∀ rs ∈ l, HashTable.Distinct MdhimStat.key (tables rs.rank))
    (hdisjoint : ∀ rs ∈ l, ∀ rs' ∈ l, ∀ stat ∈ tables rs.rank, ∀ stat' ∈ tables rs'.rank,
      stat.key = stat'.key → rs.rank = rs'.rank) :
    HashTable.Distinct MdhimStat.key (l.flatMap fun rs => tables rs.rank) := by
  induction l with
  | nil => exact HashTable.distinct_nil
  | cons rs l ih =>
    have hrec := ih (List.nodup_cons.mp hnodup).2
      (fun r hr => hdistinct r (List.mem_cons_of_mem _ hr))
      (fun r hr r' hr' => hdisjoint r (List.mem_cons_of_mem _ hr) r' (List.mem_cons_of_mem _ hr'))
    unfold HashTable.Distinct at hrec ⊢
    rw [List.flatMap_cons, List.map_append, List.nodup_append]
    refine ⟨hdistinct rs List.mem_cons_self, hrec, ?_⟩
    intro a ha b hb hab
    obtain ⟨stat, hstat, rfl⟩ := List.mem_map.mp ha
    obtain ⟨stat', hstat', rfl⟩ := List.mem_map.mp hb
    obtain ⟨rs', hrs', hstat'⟩ := List.mem_flatMap.mp hstat'
    have heq := hdisjoint rs List.mem_cons_self rs' (List.mem_cons_of_mem _ hrs') stat hstat stat'
      hstat' hab
    exact (List.nodup_cons.mp hnodup).1 (heq ▸ List.mem_map_of_mem hrs')

/-- After a stat flush every rank has exactly the entry of the server for every slice of a server,
and so all ranks have the same entries for these slices. -/
theorem flush_agrees (L : LimitCodec S) (o : MdhimOptions) {size : ℕ} (hsize : 0 < size)
    {tables stats new : ℕ → List (MdhimStat S)}
    (hrange : ∀ rs ∈ rangesrvsOf o size, ∀ stat ∈ tables rs.rank, StatInRange L stat)
    (hdistinct : ∀ rs ∈ rangesrvsOf o size, HashTable.Distinct MdhimStat.key (tables rs.rank))
    (hdisjoint : ∀ rs ∈ rangesrvsOf o size, ∀ rs' ∈ rangesrvsOf o size,
      ∀ stat ∈ tables rs.rank, ∀ stat' ∈ tables rs'.rank, stat.key = stat'.key → rs.rank = rs'.rank)
    (hstats : ∀ rank < size, HashTable.Distinct MdhimStat.key (stats rank))
    (h : ∀ rank < size, mdhimStatFlush L o size tables stats rank = some (new rank)) :
    (∀ rank < size, ∀ rs ∈ rangesrvsOf o size, ∀ stat ∈ tables rs.rank,
      ∀ e, e ∈ new rank ∧ e.key = stat.key ↔ e = stat) ∧
    ∀ rank < size, ∀ rank' < size, ∀ rs ∈ rangesrvsOf o size, ∀ stat ∈ tables rs.rank,
      HashTable.find MdhimStat.key (new rank) stat.key =
        HashTable.find MdhimStat.key (new rank') stat.key := by
  have hall := distinct_entries nodup_rangesrvsOf hdistinct hdisjoint
  have hwire : ((rangesrvsOf o size).flatMap fun rs => tables rs.rank).map (wireStat L) =
      (rangesrvsOf o size).flatMap fun rs => tables rs.rank := by
    refine (List.map_congr_left fun stat hstat => ?_).trans (List.map_id _)
    obtain ⟨rs, hrs, hstat⟩ := List.mem_flatMap.mp hstat
    exact wireStat_eq (hrange rs hrs stat hstat)
  have hfind : ∀ rank < size, HashTable.Distinct MdhimStat.key (new rank) ∧
      ∀ rs ∈ rangesrvsOf o size, ∀ stat ∈ tables rs.rank,
        HashTable.find MdhimStat.key (new rank) stat.key = some stat := by
    intro rank hrank
    rw [mdhimStatFlush_eq hsize (h rank hrank), hwire]
    refine ⟨(HashTable.find_foldl_upsert (k := 0) (hstats rank hrank) hall).1,
      fun rs hrs stat hstat => ?_⟩
    have hmem : stat ∈ (rangesrvsOf o size).flatMap fun rs => tables rs.rank :=
      List.mem_flatMap.mpr ⟨rs, hrs, hstat⟩
    refine (HashTable.find_foldl_upsert (hstats rank hrank) hall).2.trans ?_
    rw [(HashTable.find_eq_some hall).mpr ⟨hmem, rfl⟩]
    rfl
  constructor
  · intro rank hrank rs hrs stat hstat e
    obtain ⟨hdist, hnew⟩ := hfind rank hrank
    rw [← HashTable.find_eq_some hdist, hnew rs hrs stat hstat, Option.some.injEq, eq_comm]
  · intro rank hrank rank' hrank' rs hrs stat hstat
    rw [(hfind rank hrank).2 rs hrs stat hstat, (hfind rank' hrank').2 rs hrs stat hstat]

/-- Four ranks with two servers, of which one client has an older entry. -/
theorem flush_agrees_four_ranks :
    let o : MdhimOptions := ⟨.int, 2, 10, by decide, by decide, by decide⟩
    let tables : ℕ → List (MdhimStat ℕ) := fun rank =>
      if rank = 0 then [⟨0, 7, 5, 2⟩, ⟨2, 25, 21, 3⟩] else if rank = 2 then [⟨1, 13, 13, 1⟩] else []
    let stats : ℕ → List (MdhimStat ℕ) := fun rank => if rank = 1 then [⟨2, 22, 21, 2⟩] else []
    ∃ new : ℕ → List (MdhimStat ℕ),
      (∀ rank < 4, mdhimStatFlush uint64Limit o 4 tables stats rank = some (new rank)) ∧
      ∀ rank < 4, ∀ e : MdhimStat ℕ, e ∈ new rank ∧ e.key = 2 ↔ e = ⟨2, 25, 21, 3⟩ := by
  intro o tables stats
  have hrun : ∀ rank < 4, mdhimStatFlush uint64Limit o 4 tables stats rank =
      some ((mdhimStatFlush uint64Limit o 4 tables stats rank).getD []) := by decide +kernel
  exact ⟨_, hrun, fun rank hrank => (flush_agrees uint64Limit o (by decide) (by decide) (by decide)
    (by decide) (by decide) hrun).1 rank hrank ⟨0, 1⟩ (by decide) ⟨2, 25, 21, 3⟩ (by decide)⟩

end MpiToShmem
