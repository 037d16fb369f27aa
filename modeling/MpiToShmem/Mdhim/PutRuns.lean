import MpiToShmem.Mdhim.Cursor
import MpiToShmem.Mdhim.FlushAgree
import MpiToShmem.Mdhim.StatsCover

/-!
# Puts and stat flushes

The range servers and the `md->stats` of all ranks, through puts and bulk puts at the servers and
collective stat flushes, in any order.

1. `PutInv`: a server that is only put to holds keys routed to it, within the limits of its
   statistics, and every greatest key there is still stored.
2. `fresh_of_run`: after a flush, the `md->stats` of every rank have the greatest stored key of every
   slice with a stored key, and no other slices (`Fresh`).
-/

namespace MpiToShmem

open Kit

/-! ## Limits that are attained -/

section Attained

variable {K S : Type} [LinearOrder S] {κ : Keying K S} {stats : List (MdhimStat S)} {ks ls : List K}
  {key : K}

/-- The greatest key of every entry is one of `ks`, in the slice of the entry. -/
def Attained (κ : Keying K S) (stats : List (MdhimStat S)) (ks : List K) : Prop :=
  ∀ stat ∈ stats, ∃ k ∈ ks, κ.slice k = stat.key ∧ κ.stat k = stat.max

omit [LinearOrder S] in
theorem Attained.mono (h : Attained κ stats ks) (hsub : ∀ k ∈ ks, k ∈ ls) :
    Attained κ stats ls := by
  intro stat hstat
  obtain ⟨k, hk, hlim⟩ := h stat hstat
  exact ⟨k, hsub k hk, hlim⟩

theorem Attained.updateAllStats (h : Attained κ stats ks)
    (hd : HashTable.Distinct MdhimStat.key stats) (hkey : key ∈ ks) :
    Attained κ (updateAllStats κ stats key) ks := by
  intro stat hstat
  rw [updateAllStats_eq, HashTable.mem_upsert hd] at hstat
  rcases hstat with rfl | ⟨hstat, -⟩
  · cases hf : HashTable.find MdhimStat.key stats (κ.slice key) with
    | none => exact ⟨key, hkey, rfl, rfl⟩
    | some os =>
      obtain ⟨hos, hslice⟩ := HashTable.find_some hf
      by_cases hlt : os.max < κ.stat key
      · exact ⟨key, hkey, rfl, (if_pos hlt).symm⟩
      · obtain ⟨k, hk, hks, hkm⟩ := h os hos
        exact ⟨k, hk, hks.trans hslice, hkm.trans (if_neg hlt).symm⟩
  · exact h stat hstat

theorem Attained.bputStats {recs : List (BputRec K)} (h : Attained κ stats ks)
    (hd : HashTable.Distinct MdhimStat.key stats) (hkeys : ∀ r ∈ recs, r.key ∈ ks) :
    Attained κ (bputStats κ stats recs) ks := by
  induction recs generalizing stats with
  | nil => exact h
  | cons r recs ih =>
    have htail : ∀ r' ∈ recs, r'.key ∈ ks := fun r' hr' => hkeys r' (List.mem_cons_of_mem _ hr')
    cases he : r.exists_ with
    | true =>
      have hcons : MpiToShmem.bputStats κ stats (r :: recs) = MpiToShmem.bputStats κ stats recs := by
        simp [MpiToShmem.bputStats, he]
      rw [hcons]
      exact ih h hd htail
    | false =>
      have hcons : MpiToShmem.bputStats κ stats (r :: recs) =
          MpiToShmem.bputStats κ (MpiToShmem.updateAllStats κ stats r.key) recs := by
        simp [MpiToShmem.bputStats, he]
      rw [hcons]
      exact ih (h.updateAllStats hd (hkeys r List.mem_cons_self)) (distinct_updateAllStats hd) htail

end Attained

variable {o : IntOptions} {append : Bool} {md : Mdhim} {rank : ℕ}

/-! ## Servers that are only put to -/

/-- The server of the key is on this rank. -/
def RoutedTo (md : Mdhim) (rank : ℕ) (key : IntKey o) : Prop :=
  (getRangeServer md (some (keyBytes key))).map RangesrvInfo.rank = some rank

instance (key : IntKey o) : Decidable (RoutedTo md rank key) :=
  inferInstanceAs (Decidable (_ = some rank))

/-- A routed key is one that the slices can hold, and its server is that of its slice. -/
theorem RoutedTo.bySlice {key : IntKey o} (hmd : md.opts = o.toMdhimOptions)
    (h : RoutedTo md rank key) : ValidKey key ∧ ∃ ri,
      getRangeServerBySlice md ((intKeying o).slice key) = some ri ∧ ri.rank = rank := by
  obtain ⟨ri, hri, hrank⟩ := Option.map_eq_some_iff.mp h
  unfold getRangeServer at hri
  rw [hmd] at hri
  by_cases hs : getSliceNum o.toMdhimOptions (some (keyBytes key)) = mdhimError
  · simp only [if_pos hs] at hri
    cases hri
  · simp only [if_neg hs] at hri
    refine ⟨?_, ri, hri, hrank⟩
    by_contra hv
    exact hs (getSliceNum_of_not_verifyKey fun he => hv ((verifyKey_keyBytes key).mp he))

/-- A put or bulk put of keys that belong to this rank, with values that are not empty. -/
def PutOnly (md : Mdhim) (rank : ℕ) : ServerLabel (IntKey o) → Prop
  | .put _ key value => RoutedTo md rank key ∧ value ≠ []
  | .bput _ recs => ∀ r ∈ recs, RoutedTo md rank r.1 ∧ r.2 ≠ []
  | .del _ _ | .bdel _ _ | .restart => False

instance (a : ServerLabel (IntKey o)) : Decidable (PutOnly md rank a) := by
  cases a <;> unfold PutOnly <;> infer_instance

/-- What holds of a server that is only put to. -/
structure PutInv (md : Mdhim) (rank : ℕ) (s : RangeServer (IntKey o) ℕ) : Prop where
  inv : ServerInv (intKeying o) s
  routed : ∀ k ∈ s.db.keys, RoutedTo md rank k
  attained : Attained (intKeying o) s.stats s.db.keys

theorem putInv_init : PutInv md rank (RangeServer.init : RangeServer (IntKey o) ℕ) where
  inv := serverInv_init
  routed _ h := (List.not_mem_nil h).elim
  attained _ h := (List.not_mem_nil h).elim

/-- A put keeps the invariant and the stored keys. -/
theorem PutInv.step {s s' : RangeServer (IntKey o) ℕ} {a : ServerLabel (IntKey o)}
    (h : PutInv md rank s) (ha : PutOnly md rank a)
    (hs : serverStep (intKeying o) append s a = some s') :
    PutInv md rank s' ∧ ∀ k ∈ s.db.keys, k ∈ s'.db.keys := by
  have hinv := serverInv_step s a s' h.inv hs
  cases a with
  | put io key value =>
    obtain ⟨⟨t, error⟩, ht, rfl⟩ := Option.map_eq_some_iff.mp hs
    rcases rangeServerPut_cases ht with ⟨-, -, rfl⟩ | ⟨-, -, v, -, rfl⟩
    · exact ⟨h, fun k hk => hk⟩
    · have hsub : ∀ k ∈ s.db.keys, k ∈ (s.db.insert key v).keys := fun k hk =>
        OrdMap.mem_keys_insert.mpr (Or.inr hk)
      refine ⟨⟨hinv, fun k hk => ?_, ?_⟩, hsub⟩
      · rcases OrdMap.mem_keys_insert.mp hk with rfl | hk
        · exact ha.1
        · exact h.routed k hk
      · have hmono := h.attained.mono hsub
        dsimp only
        split_ifs
        · exact hmono.updateAllStats h.inv.statsOk.distinct (OrdMap.mem_keys_insert.mpr (Or.inl rfl))
        · exact hmono
  | bput io recs =>
    obtain ⟨⟨t, error⟩, ht, rfl⟩ := Option.map_eq_some_iff.mp hs
    obtain ⟨-, brecs, hb, ⟨-, -, rfl⟩ | ⟨-, -, rfl⟩⟩ := rangeServerBput_cases ht
    · exact ⟨h, fun k hk => hk⟩
    · obtain ⟨hkeys, -⟩ := bputRecs_keys hb
      have hmap : (brecs.map fun r => (r.key, r.value)).map Prod.fst = recs.map Prod.fst := by
        rw [List.map_map, ← hkeys]
        rfl
      have hsub : ∀ k ∈ s.db.keys, k ∈ (putAll s.db (brecs.map fun r => (r.key, r.value))).keys :=
        fun k hk => mem_keys_putAll.mpr (Or.inr hk)
      refine ⟨⟨hinv, fun k hk => ?_, ?_⟩, hsub⟩
      · rcases mem_keys_putAll.mp hk with hk | hk
        · rw [hmap] at hk
          obtain ⟨r, hr, rfl⟩ := List.mem_map.mp hk
          exact (ha r hr).1
        · exact h.routed k hk
      · refine (h.attained.mono hsub).bputStats h.inv.statsOk.distinct fun r hr => ?_
        refine mem_keys_putAll.mpr (Or.inl ?_)
        rw [hmap, ← hkeys]
        exact List.mem_map_of_mem hr
  | del io key => exact ha.elim
  | bdel io keys => exact ha.elim
  | restart => exact ha.elim

/-! ## Jobs -/

/-- The range servers and the `md->stats`, by rank. -/
structure Job (o : IntOptions) where
  server : ℕ → RangeServer (IntKey o) ℕ
  stats : ℕ → List (MdhimStat ℕ)

/-- New databases, and no statistics. -/
def Job.init : Job o := ⟨fun _ => .init, fun _ => []⟩

inductive JobLabel (K : Type) where
  | server (rank : ℕ) (a : ServerLabel K)
  | statFlush

variable (append) in
/-- A message at one server, or a stat flush of all ranks. -/
def jobStep (size : ℕ) (job : Job o) : JobLabel (IntKey o) → Option (Job o)
  | .server rank a => do
    let s ← serverStep (intKeying o) append (job.server rank) a
    return { job with server := Function.update job.server rank s }
  | .statFlush =>
    let tables : ℕ → List (MdhimStat ℕ) := fun rank => (job.server rank).stats
    let flushed := mdhimStatFlush uint64Limit o.toMdhimOptions size tables job.stats
    if ∀ rank < size, (flushed rank).isSome then
      some { job with stats := fun rank => (flushed rank).getD [] }
    else none

/-- Puts of keys with values that are not empty, at the servers of the keys, and stat flushes. -/
def PutOrFlush (md : Mdhim) : JobLabel (IntKey o) → Prop
  | .server rank a => PutOnly md rank a
  | .statFlush => True

instance (a : JobLabel (IntKey o)) : Decidable (PutOrFlush md a) := by
  cases a <;> unfold PutOrFlush <;> infer_instance

/-- Some server has this key. -/
def Job.Stored (job : Job o) (k : IntKey o) : Prop := ∃ rank, k ∈ (job.server rank).db.keys

/-- The greatest stored key of every slice with a stored key, and no other slices. -/
structure Fresh (job : Job o) (stats : List (MdhimStat ℕ)) : Prop where
  distinct : HashTable.Distinct MdhimStat.key stats
  covers : ∀ k, job.Stored k → ∃ e ∈ stats, e.key = (intKeying o).slice k ∧ (k : ℕ) ≤ e.max
  attained : ∀ e ∈ stats, ∃ k, job.Stored k ∧ (intKeying o).slice k = e.key ∧ (k : ℕ) = e.max

/-- What holds of a job with puts and flushes: `md->stats` have only slices with stored keys. -/
structure JobInv (md : Mdhim) (size : ℕ) (job : Job o) : Prop where
  server : ∀ rank, PutInv md rank (job.server rank)
  distinct : ∀ rank < size, HashTable.Distinct MdhimStat.key (job.stats rank)
  stored : ∀ rank < size, ∀ e ∈ job.stats rank, ∃ k, job.Stored k ∧ (intKeying o).slice k = e.key

theorem jobInv_init {size : ℕ} : JobInv md size (Job.init : Job o) where
  server _ := putInv_init
  distinct _ _ := HashTable.distinct_nil
  stored _ _ _ h := (List.not_mem_nil h).elim

section Flush

variable {size client : ℕ} {job job' : Job o}

/-- Keys of one slice are on one server. -/
theorem RoutedTo.eq_of_slice_eq {j k : IntKey o} {r r' : ℕ} (hmd : md.opts = o.toMdhimOptions)
    (hj : RoutedTo md r j) (hk : RoutedTo md r' k)
    (h : (intKeying o).slice j = (intKeying o).slice k) : r = r' := by
  obtain ⟨-, ri, hri, rfl⟩ := hj.bySlice hmd
  obtain ⟨-, ri', hri', rfl⟩ := hk.bySlice hmd
  rw [h, hri', Option.some.injEq] at hri
  rw [hri]

/-- The server of a routed key is on the list. -/
theorem RoutedTo.mem_rangesrvs {k : IntKey o} (h : RoutedTo md rank k) :
    ∃ rs ∈ md.rangesrvs, rs.rank = rank := by
  obtain ⟨rs, hrs, rfl⟩ := Option.map_eq_some_iff.mp h
  exact ⟨rs, mem_rangesrvs_of_getRangeServer hrs, rfl⟩

theorem keyWidth_le : o.keyWidth ≤ 8 := by
  unfold IntOptions.keyWidth
  split_ifs <;> omega

/-- The slice and the greatest key of an entry of a server survive the trip. -/
theorem PutInv.wireStat {s : RangeServer (IntKey o) ℕ} (h : PutInv md rank s) {stat : MdhimStat ℕ}
    (hstat : stat ∈ s.stats) : (wireStat uint64Limit stat).key = stat.key ∧
      (wireStat uint64Limit stat).max = stat.max := by
  obtain ⟨k, -, -, hmax⟩ := h.attained stat hstat
  refine ⟨wireStat_key (h.inv.statsOk.isInt stat hstat), wireStat_max ?_⟩
  show stat.max < 256 ^ 8
  rw [← hmax, stat_intKeying]
  exact lt_of_lt_of_le k.isLt (Nat.pow_le_pow_right (by decide) keyWidth_le)

/-- The entries of the servers have distinct slices. -/
theorem JobInv.distinct_entries (h : JobInv md size job) (hmd : md.opts = o.toMdhimOptions) :
    HashTable.Distinct MdhimStat.key
      ((rangesrvsOf o.toMdhimOptions size).flatMap fun rs => (job.server rs.rank).stats) := by
  refine @MpiToShmem.distinct_entries ℕ _ (fun r => (job.server r).stats) nodup_rangesrvsOf
    (fun rs _ => (h.server rs.rank).inv.statsOk.distinct) ?_
  intro rs _ rs' _ stat hstat stat' hstat' heq
  obtain ⟨k, hk, hslice, -⟩ := (h.server rs.rank).attained stat hstat
  obtain ⟨k', hk', hslice', -⟩ := (h.server rs'.rank).attained stat' hstat'
  exact ((h.server rs.rank).routed k hk).eq_of_slice_eq hmd ((h.server rs'.rank).routed k' hk')
    (by rw [hslice, hslice', heq])

/-- So do the records. -/
theorem JobInv.distinct_wire (h : JobInv md size job) (hmd : md.opts = o.toMdhimOptions) :
    HashTable.Distinct MdhimStat.key
      (((rangesrvsOf o.toMdhimOptions size).flatMap fun rs => (job.server rs.rank).stats).map
        (wireStat uint64Limit)) := by
  have hd := h.distinct_entries hmd
  unfold HashTable.Distinct at hd ⊢
  rw [List.map_map, List.map_congr_left (g := MdhimStat.key)]
  · exact hd
  · intro stat hstat
    obtain ⟨rs, -, hstat⟩ := List.mem_flatMap.mp hstat
    rw [Function.comp_apply]
    exact ((h.server rs.rank).wireStat hstat).1

/-- After a flush the statistics are fresh. -/
theorem JobInv.fresh (h : JobInv md size job) (hsize : 0 < size)
    (hmd : mdhimInit o.toMdhimOptions size client = some md) (hrank : rank < size)
    {new : List (MdhimStat ℕ)}
    (hflush : mdhimStatFlush uint64Limit o.toMdhimOptions size (fun r => (job.server r).stats)
      job.stats rank = some new) : Fresh job new := by
  rw [mdhimInit_eq hsize, Option.some.injEq] at hmd
  have hopts : md.opts = o.toMdhimOptions := by rw [← hmd]
  have hlist : md.rangesrvs = rangesrvsOf o.toMdhimOptions size := by rw [← hmd]
  have hnew := mdhimStatFlush_eq hsize hflush
  have hentries := h.distinct_wire hopts
  -- every server entry with a stored key is found under its slice
  have hfind : ∀ rs ∈ rangesrvsOf o.toMdhimOptions size, ∀ stat ∈ (job.server rs.rank).stats,
      HashTable.find MdhimStat.key new stat.key = some (wireStat uint64Limit stat) := by
    intro rs hrs stat hstat
    rw [hnew]
    refine (HashTable.find_foldl_upsert (h.distinct rank hrank) hentries).2.trans ?_
    rw [(HashTable.find_eq_some hentries).mpr ⟨List.mem_map_of_mem (List.mem_flatMap.mpr
      ⟨rs, hrs, hstat⟩), ((h.server rs.rank).wireStat hstat).1⟩]
    rfl
  have hdistinct : HashTable.Distinct MdhimStat.key new := by
    rw [hnew]
    exact (HashTable.find_foldl_upsert (k := 0) (h.distinct rank hrank) hentries).1
  have hcover : ∀ k, job.Stored k → ∃ rs ∈ rangesrvsOf o.toMdhimOptions size,
      ∃ stat ∈ (job.server rs.rank).stats, stat.key = (intKeying o).slice k ∧ (k : ℕ) ≤ stat.max := by
    rintro k ⟨r, hk⟩
    obtain ⟨rs, hrs, rfl⟩ := ((h.server r).routed k hk).mem_rangesrvs
    obtain ⟨stat, hstat, -, hmax⟩ := (h.server rs.rank).inv.covered k hk
    obtain ⟨hmem, hkey⟩ := HashTable.find_some hstat
    exact ⟨rs, hlist ▸ hrs, stat, hmem, hkey, hmax⟩
  refine ⟨hdistinct, fun k hk => ?_, fun e he => ?_⟩
  · obtain ⟨rs, hrs, stat, hstat, hkey, hmax⟩ := hcover k hk
    obtain ⟨hwkey, hwmax⟩ := (h.server rs.rank).wireStat hstat
    refine ⟨_, (HashTable.find_some (hfind rs hrs stat hstat)).1, hwkey.trans hkey, ?_⟩
    rw [hwmax]
    exact hmax
  · obtain ⟨k, hk, hkey⟩ : ∃ k, job.Stored k ∧ (intKeying o).slice k = e.key := by
      have hfe := (HashTable.find_eq_some hdistinct).mpr ⟨he, rfl⟩
      rw [hnew] at hfe
      rcases Option.or_eq_some_iff.mp ((HashTable.find_foldl_upsert (h.distinct rank hrank)
        hentries).2.symm.trans hfe) with hfe | ⟨-, hfe⟩
      · obtain ⟨hmem, -⟩ := HashTable.find_some hfe
        obtain ⟨stat, hstat, rfl⟩ := List.mem_map.mp hmem
        obtain ⟨rs, -, hstat⟩ := List.mem_flatMap.mp hstat
        obtain ⟨k, hk, hslice, -⟩ := (h.server rs.rank).attained stat hstat
        exact ⟨k, ⟨rs.rank, hk⟩, hslice.trans ((h.server rs.rank).wireStat hstat).1.symm⟩
      · exact h.stored rank hrank e (HashTable.find_some hfe).1
    obtain ⟨rs, hrs, stat, hstat, hskey, -⟩ := hcover k hk
    obtain ⟨hmem, hwkey⟩ := HashTable.find_some (hfind rs hrs stat hstat)
    have heq : e = wireStat uint64Limit stat :=
      hdistinct.eq_of_key_eq he hmem (by rw [hwkey, hskey, hkey])
    obtain ⟨k', hk', hslice, hmax⟩ := (h.server rs.rank).attained stat hstat
    obtain ⟨hw, hwmax⟩ := (h.server rs.rank).wireStat hstat
    refine ⟨k', ⟨rs.rank, hk'⟩, ?_, ?_⟩
    · rw [heq, hw, hslice]
    · rw [heq, hwmax, ← hmax, stat_intKeying]

theorem jobInv_step (hsize : 0 < size)
    (hmd : mdhimInit o.toMdhimOptions size client = some md) (job : Job o)
    (a : JobLabel (IntKey o)) (job' : Job o) (h : JobInv md size job) (ha : PutOrFlush md a)
    (hs : jobStep append size job a = some job') : JobInv md size job' := by
  cases a with
  | server r a =>
    obtain ⟨s, hstep, hs⟩ := Option.bind_eq_some_iff.mp hs
    obtain rfl := Option.some.inj hs
    obtain ⟨hinv, hsub⟩ := (h.server r).step ha hstep
    have hstored : ∀ k, job.Stored k → Job.Stored ⟨Function.update job.server r s, job.stats⟩ k := by
      rintro k ⟨r', hk⟩
      refine ⟨r', ?_⟩
      by_cases hr : r' = r
      · subst hr
        dsimp only
        rw [Function.update_self]
        exact hsub k hk
      · dsimp only
        rwa [Function.update_of_ne hr]
    refine ⟨fun r' => ?_, h.distinct, fun rank hrank e he => ?_⟩
    · by_cases hr : r' = r
      · subst hr
        dsimp only
        rwa [Function.update_self]
      · dsimp only
        rw [Function.update_of_ne hr]
        exact h.server r'
    · obtain ⟨k, hk, hkey⟩ := h.stored rank hrank e he
      exact ⟨k, hstored k hk, hkey⟩
  | statFlush =>
    unfold jobStep at hs
    dsimp only at hs
    split_ifs at hs with hall
    obtain rfl := Option.some.inj hs
    have hfresh : ∀ rank < size, Fresh job ((mdhimStatFlush uint64Limit o.toMdhimOptions size
        (fun r => (job.server r).stats) job.stats rank).getD []) := by
      intro rank hrank
      obtain ⟨new, hnew⟩ := Option.isSome_iff_exists.mp (hall rank hrank)
      rw [hnew]
      exact h.fresh hsize hmd hrank hnew
    refine ⟨h.server, fun rank hrank => (hfresh rank hrank).distinct, fun rank hrank e he => ?_⟩
    obtain ⟨k, hk, hkey, -⟩ := (hfresh rank hrank).attained e he
    exact ⟨k, hk, hkey⟩

/-- After puts and flushes, and a flush at the end, every rank has fresh statistics. -/
theorem fresh_of_run {ls : List (JobLabel (IntKey o))} (hsize : 0 < size)
    (hmd : mdhimInit o.toMdhimOptions size client = some md) (hls : ∀ a ∈ ls, PutOrFlush md a)
    (hrun : exec (jobStep append size) Job.init (ls ++ [.statFlush]) = some job) :
    JobInv md size job ∧ ∀ rank < size, Fresh job (job.stats rank) := by
  rw [exec_append] at hrun
  obtain ⟨job₀, hputs, hrun⟩ := Option.bind_eq_some_iff.mp hrun
  obtain ⟨_, hflush, hnil⟩ := exec_cons_eq_some.mp hrun
  obtain rfl := Option.some.inj hnil
  have h₀ : JobInv md size job₀ :=
    exec_inv_labels (jobInv_step hsize hmd) jobInv_init hls hputs
  refine ⟨jobInv_step hsize hmd _ .statFlush _ h₀ trivial hflush, fun rank hrank => ?_⟩
  unfold jobStep at hflush
  dsimp only at hflush
  split_ifs at hflush with hall
  obtain rfl := Option.some.inj hflush
  obtain ⟨new, hnew⟩ := Option.isSome_iff_exists.mp (hall rank hrank)
  have h := h₀.fresh hsize hmd hrank hnew
  dsimp only
  rw [hnew]
  exact ⟨h.distinct, h.covers, h.attained⟩

end Flush

end MpiToShmem
