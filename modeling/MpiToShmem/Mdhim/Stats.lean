import MpiToShmem.Kit.HashTable
import MpiToShmem.Mdhim.Store

/-!
# Slice statistics

A range server keeps, for each slice it holds keys of, the least and the greatest key it has seen
and a count, in a hash table by slice number. The table is written to a database of its own when
the server stops and read back when it starts.

1. `updateAllStats` counts one more key (`find_updateAllStats`).
2. `writeStats` and `loadStats`: the read loop visits every entry once (`loadStats_eq`), so a
   restart gives back the table (`loadStats_writeStats`).
-/

namespace MpiToShmem

open Kit

/-- How keys enter the statistics: their slice, and the number that stands for them (a
`uint64_t` for integer keys, a `long double` for the others). -/
structure Keying (K S : Type*) where
  slice : K → ℤ
  stat : K → S
  slice_isInt : ∀ k, IsInt (slice k)

/-- `mdhim_stat`. -/
@[ext]
structure MdhimStat (S : Type*) where
  key : ℤ
  max : S
  min : S
  num : ℕ
deriving DecidableEq

/-- `mdhim_db_stat`, with the pair of limits that the key type uses. -/
structure MdhimDbStat (S : Type*) where
  slice : ℤ
  max : S
  min : S
  num : ℕ
deriving DecidableEq

section Update

variable {K S : Type*} [LinearOrder S] (κ : Keying K S)

/-- The entry that `update_all_stats` builds, over the one that is there, if any. -/
def newStat (key : K) (os : Option (MdhimStat S)) : MdhimStat S :=
  match os with
  | none => ⟨κ.slice key, κ.stat key, κ.stat key, 1⟩
  | some os =>
    { key := κ.slice key
      min := if os.min > κ.stat key then κ.stat key else os.min
      max := if os.max < κ.stat key then κ.stat key else os.max
      num := os.num + 1 }

/-- `update_all_stats`. -/
def updateAllStats (stats : List (MdhimStat S)) (key : K) : List (MdhimStat S) :=
  let os := HashTable.find MdhimStat.key stats (κ.slice key)
  match os with
  | none => HashTable.add stats (newStat κ key os)
  | some _ => HashTable.replace MdhimStat.key stats (newStat κ key os)

variable {κ} {stats : List (MdhimStat S)} {key : K}

@[simp] theorem newStat_key (os : Option (MdhimStat S)) : (newStat κ key os).key = κ.slice key := by
  cases os <;> rfl

theorem updateAllStats_eq : updateAllStats κ stats key = HashTable.upsert MdhimStat.key stats
    (newStat κ key (HashTable.find MdhimStat.key stats (κ.slice key))) := by
  unfold updateAllStats HashTable.upsert
  rw [newStat_key]
  cases HashTable.find MdhimStat.key stats (κ.slice key) <;> simp

theorem distinct_updateAllStats (hd : HashTable.Distinct MdhimStat.key stats) :
    HashTable.Distinct MdhimStat.key (updateAllStats κ stats key) := by
  rw [updateAllStats_eq]
  exact HashTable.distinct_upsert hd

/-- One entry changes. -/
theorem find_updateAllStats (hd : HashTable.Distinct MdhimStat.key stats) (j : ℤ) :
    HashTable.find MdhimStat.key (updateAllStats κ stats key) j =
      if j = κ.slice key then
        some (newStat κ key (HashTable.find MdhimStat.key stats (κ.slice key)))
      else HashTable.find MdhimStat.key stats j := by
  rw [updateAllStats_eq, HashTable.find_upsert hd, newStat_key]

theorem newStat_min_le (os : Option (MdhimStat S)) : (newStat κ key os).min ≤ κ.stat key := by
  cases os with
  | none => exact le_rfl
  | some os =>
    show (if os.min > κ.stat key then κ.stat key else os.min) ≤ κ.stat key
    split_ifs with h
    · exact le_rfl
    · exact not_lt.mp h

theorem newStat_le_max (os : Option (MdhimStat S)) : κ.stat key ≤ (newStat κ key os).max := by
  cases os with
  | none => exact le_rfl
  | some os =>
    show κ.stat key ≤ if os.max < κ.stat key then κ.stat key else os.max
    split_ifs with h
    · exact le_rfl
    · exact not_lt.mp h

/-- The limits only move apart. -/
theorem newStat_min_le_old (os : MdhimStat S) : (newStat κ key (some os)).min ≤ os.min := by
  show (if os.min > κ.stat key then κ.stat key else os.min) ≤ os.min
  split_ifs with h
  · exact h.le
  · exact le_rfl

theorem old_le_newStat_max (os : MdhimStat S) : os.max ≤ (newStat κ key (some os)).max := by
  show os.max ≤ if os.max < κ.stat key then κ.stat key else os.max
  split_ifs with h
  · exact h.le
  · exact le_rfl

end Update

/-! ## Writing and loading -/

section Persist

variable {S : Type*}

/-- The record of an entry. -/
def MdhimStat.toDb (stat : MdhimStat S) : MdhimDbStat S := ⟨stat.key, stat.max, stat.min, stat.num⟩

/-- The entry of a record, under the slice that it is stored at. -/
def MdhimDbStat.load (val : MdhimDbStat S) (slice : ℕ) : MdhimStat S :=
  ⟨wrapInt slice, val.max, val.min, val.num⟩

theorem MdhimDbStat.load_key (val : MdhimDbStat S) (slice : ℕ) :
    (val.load slice).key = wrapInt slice := by simp only [MdhimDbStat.load]

/-- `write_stats`: the database afterwards; the table is empty. The database orders the bytes of
a slice number as a `uint32_t`. -/
def writeStats (dbStats : OrdMap ℕ (MdhimDbStat S)) (stats : List (MdhimStat S)) :
    OrdMap ℕ (MdhimDbStat S) :=
  stats.foldl (fun db stat => (leveldbPut true db (toUInt32 stat.key) stat.toDb).1) dbStats

/-- The loop of `load_stats`, which asks for the record after the slice it has just read. -/
def loadStatsFrom (dbStats : OrdMap ℕ (MdhimDbStat S)) :
    ℕ → Option ℕ → List (MdhimStat S) → List (MdhimStat S)
  | 0, _, stats => stats
  | fuel + 1, slice, stats =>
    match (leveldbGetNext dbStats slice).2 with
    | none => stats
    | some (slice, val) =>
      loadStatsFrom dbStats fuel (some slice) (HashTable.add stats (val.load slice))

/-- `load_stats`. Each round reads a further record, so one more round than records is enough
(`loadStats_eq`). -/
def loadStats (dbStats : OrdMap ℕ (MdhimDbStat S)) : List (MdhimStat S) :=
  loadStatsFrom dbStats (dbStats.toList.length + 1) none []

variable {dbStats : OrdMap ℕ (MdhimDbStat S)} {stats : List (MdhimStat S)}

theorem filter_gt_of_append {V : Type*} {pre suf : List (ℕ × V)} {p : ℕ × V}
    (hs : (pre ++ p :: suf).Pairwise fun a b => a.1 < b.1) :
    (pre ++ p :: suf).filter (fun q => p.1 < q.1) = suf := by
  rw [List.pairwise_append, List.pairwise_cons] at hs
  obtain ⟨_, ⟨hsuf, _⟩, hpre⟩ := hs
  rw [List.filter_append, List.filter_cons_of_neg (by simp),
    List.filter_eq_nil_iff.mpr (fun q hq => by
      have := hpre q hq p List.mem_cons_self
      simp only [decide_eq_true_eq]
      omega), List.nil_append, List.filter_eq_self.mpr (fun q hq => by simpa using hsuf q hq)]

/-- After the record of `p`, the loop reads the ones behind it, given a round for each and one to
see the end. -/
theorem loadStatsFrom_eq {suf : List (ℕ × MdhimDbStat S)} {fuel : ℕ} (hfuel : suf.length < fuel) :
    ∀ (pre : List (ℕ × MdhimDbStat S)) (p : ℕ × MdhimDbStat S) (acc : List (MdhimStat S)),
      dbStats.toList = pre ++ p :: suf →
        loadStatsFrom dbStats fuel (some p.1) acc = acc ++ suf.map fun q => q.2.load q.1 := by
  induction suf generalizing fuel with
  | nil =>
    intro pre p acc h
    obtain ⟨fuel, rfl⟩ : ∃ m, fuel = m + 1 := ⟨fuel - 1, by simp at hfuel; omega⟩
    have hmem : p.1 ∈ dbStats.keys := OrdMap.mem_keys_of_mem (by rw [h]; simp)
    have hnext : (leveldbGetNext dbStats (some p.1)).2 = none := by
      rw [leveldbGetNext_of_mem hmem, h, filter_gt_of_append (h ▸ dbStats.sorted)]
      rfl
    simp [loadStatsFrom, hnext]
  | cons q suf ih =>
    intro pre p acc h
    obtain ⟨fuel, rfl⟩ : ∃ m, fuel = m + 1 := ⟨fuel - 1, by simp at hfuel; omega⟩
    have hmem : p.1 ∈ dbStats.keys := OrdMap.mem_keys_of_mem (by rw [h]; simp)
    have hnext : (leveldbGetNext dbStats (some p.1)).2 = some q := by
      rw [leveldbGetNext_of_mem hmem, h, filter_gt_of_append (h ▸ dbStats.sorted)]
      rfl
    have hfuel' : suf.length < fuel := by simpa using hfuel
    have hrec := ih hfuel' (pre ++ [p]) q
      (HashTable.add acc (q.2.load q.1)) (by rw [h]; simp)
    rw [loadStatsFrom, hnext]
    simp only
    rw [hrec]
    simp [HashTable.add]

/-- Loading reads every record once, in order. -/
theorem loadStats_eq (dbStats : OrdMap ℕ (MdhimDbStat S)) :
    loadStats dbStats = dbStats.toList.map fun q => q.2.load q.1 := by
  unfold loadStats
  cases h : dbStats.toList with
  | nil => simp [loadStatsFrom, leveldbGetNext_none, h]
  | cons q suf =>
    have hrec := loadStatsFrom_eq (Nat.lt_succ_self suf.length) [] q (HashTable.add [] (q.2.load q.1)) h
    rw [List.length_cons, loadStatsFrom, leveldbGetNext_none, h]
    simp only [List.head?_cons]
    rw [hrec]
    simp [HashTable.add]

/-- The record of a slice is that of its entry, if there is one, and else what it was. -/
theorem get_writeStats (hd : HashTable.Distinct MdhimStat.key stats)
    (hint : ∀ stat ∈ stats, IsInt stat.key) (slice : ℤ) (hslice : IsInt slice) :
    (writeStats dbStats stats).get (toUInt32 slice) =
      ((HashTable.find MdhimStat.key stats slice).map MdhimStat.toDb).or
        (dbStats.get (toUInt32 slice)) := by
  induction stats generalizing dbStats with
  | nil => simp [writeStats]
  | cons stat stats ih =>
    have hstat := hint stat List.mem_cons_self
    have hrec := @ih (dbStats.insert (toUInt32 stat.key) stat.toDb) hd.tail
      (fun s hs => hint s (List.mem_cons_of_mem _ hs))
    have hstep : writeStats dbStats (stat :: stats) =
        writeStats (dbStats.insert (toUInt32 stat.key) stat.toDb) stats := rfl
    rw [hstep, hrec, OrdMap.get_insert]
    by_cases hk : stat.key = slice
    · have hnone : HashTable.find MdhimStat.key stats slice = none := by
        rw [HashTable.find_eq_none]
        intro s hs he
        exact (List.nodup_cons.mp hd).1 (hk ▸ he ▸ List.mem_map_of_mem hs)
      have hsome : HashTable.find MdhimStat.key (stat :: stats) slice = some stat := by
        simp [HashTable.find, hk]
      rw [hnone, hsome, if_pos (by rw [hk])]
      rfl
    · have hne : toUInt32 slice ≠ toUInt32 stat.key := by
        intro he
        rw [← wrapInt_toUInt32 hslice, ← wrapInt_toUInt32 hstat, he] at hk
        exact hk rfl
      have hfind : HashTable.find MdhimStat.key (stat :: stats) slice =
          HashTable.find MdhimStat.key stats slice := by
        simp [HashTable.find, hk]
      rw [if_neg hne, hfind]

theorem mem_keys_writeStats {j : ℕ} :
    j ∈ (writeStats dbStats stats).keys ↔
      j ∈ stats.map (fun stat => toUInt32 stat.key) ∨ j ∈ dbStats.keys := by
  induction stats generalizing dbStats with
  | nil => simp [writeStats]
  | cons stat stats ih =>
    have hstep : writeStats dbStats (stat :: stats) =
        writeStats (dbStats.insert (toUInt32 stat.key) stat.toDb) stats := rfl
    rw [hstep, ih, OrdMap.mem_keys_insert, List.map_cons, List.mem_cons]
    tauto

/-- A table that can be written and read back: one entry a slice, and an entry for every slice
with a record from an earlier run. -/
structure StatsOk (dbStats : OrdMap ℕ (MdhimDbStat S)) (stats : List (MdhimStat S)) : Prop where
  distinct : HashTable.Distinct MdhimStat.key stats
  isInt : ∀ stat ∈ stats, IsInt stat.key
  fresh : ∀ j ∈ dbStats.keys, ∃ stat ∈ stats, toUInt32 stat.key = j

/-- A record read back is an entry that was written. -/
theorem mem_loadStats_writeStats (h : StatsOk dbStats stats) {stat : MdhimStat S} :
    stat ∈ loadStats (writeStats dbStats stats) ↔ stat ∈ stats := by
  have hrec : ∀ stat ∈ stats, (writeStats dbStats stats).get (toUInt32 stat.key) =
      some stat.toDb := by
    intro stat hstat
    rw [get_writeStats h.distinct h.isInt _ (h.isInt stat hstat),
      (HashTable.find_eq_some h.distinct).mpr ⟨hstat, rfl⟩]
    rfl
  have hload : ∀ stat ∈ stats, stat.toDb.load (toUInt32 stat.key) = stat := by
    intro stat hstat
    unfold MdhimDbStat.load MdhimStat.toDb
    rw [wrapInt_toUInt32 (h.isInt stat hstat)]
  rw [loadStats_eq, List.mem_map]
  constructor
  · rintro ⟨⟨j, val⟩, hmem, rfl⟩
    have hj : j ∈ (writeStats dbStats stats).keys := OrdMap.mem_keys_of_mem hmem
    obtain ⟨stat, hstat, rfl⟩ : ∃ stat ∈ stats, toUInt32 stat.key = j := by
      rcases mem_keys_writeStats.mp hj with hj | hj
      · exact List.mem_map.mp hj
      · exact h.fresh j hj
    have hval := hrec stat hstat
    rw [OrdMap.get_eq_some.mpr hmem, Option.some.injEq] at hval
    dsimp only
    rw [hval, hload stat hstat]
    exact hstat
  · intro hstat
    exact ⟨_, OrdMap.get_eq_some.mp (hrec stat hstat), hload stat hstat⟩

theorem distinct_loadStats (h : StatsOk dbStats stats) :
    HashTable.Distinct MdhimStat.key (loadStats (writeStats dbStats stats)) := by
  have hkey : ∀ p ∈ (writeStats dbStats stats).toList, toUInt32 (p.2.load p.1).key = p.1 := by
    intro p hp
    have hj : p.1 ∈ (writeStats dbStats stats).keys := OrdMap.mem_keys_of_mem hp
    obtain ⟨stat, hstat, hj⟩ : ∃ stat ∈ stats, toUInt32 stat.key = p.1 := by
      rcases mem_keys_writeStats.mp hj with hj | hj
      · exact List.mem_map.mp hj
      · exact h.fresh _ hj
    rw [MdhimDbStat.load_key, ← hj, wrapInt_toUInt32 (h.isInt stat hstat)]
  unfold HashTable.Distinct
  rw [loadStats_eq, List.map_map]
  refine List.Nodup.map_on ?_ ((writeStats dbStats stats).keys_nodup.of_map)
  intro p hp q hq he
  rw [Function.comp_apply, Function.comp_apply] at he
  have hpq : p.1 = q.1 := by rw [← hkey p hp, ← hkey q hq, he]
  exact List.inj_on_of_nodup_map (writeStats dbStats stats).keys_nodup hp hq hpq

/-- What was written is read back. -/
theorem loadStats_writeStats (h : StatsOk dbStats stats) :
    (loadStats (writeStats dbStats stats)).Perm stats := by
  rw [List.perm_ext_iff_of_nodup (distinct_loadStats h).of_map h.distinct.of_map]
  exact fun stat => mem_loadStats_writeStats h

/-- A restart leaves the table in order. -/
theorem StatsOk.restart (h : StatsOk dbStats stats) :
    StatsOk (writeStats dbStats stats) (loadStats (writeStats dbStats stats)) where
  distinct := distinct_loadStats h
  isInt stat hstat := h.isInt stat ((mem_loadStats_writeStats h).mp hstat)
  fresh j hj := by
    obtain ⟨stat, hstat, hj⟩ : ∃ stat ∈ stats, toUInt32 stat.key = j := by
      rcases mem_keys_writeStats.mp hj with hj | hj
      · exact List.mem_map.mp hj
      · exact h.fresh j hj
    exact ⟨stat, (mem_loadStats_writeStats h).mpr hstat, hj⟩

end Persist

end MpiToShmem
