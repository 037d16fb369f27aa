import MpiToShmem.Mdhim.IntKeys
import MpiToShmem.Mdhim.RangeServer

/-!
# The statistics never hide a stored key

1. `Covers stats k`: the slice of `k` has an entry whose limits enclose `k`.
2. `ServerInv`: every stored key is covered, and the table is one that survives a restart.
3. `serverInv_step`: messages keep it, failed or not, and restarts keep it; so it holds after every
   history (`stats_cover`).
-/

namespace MpiToShmem

open Kit

variable {K S : Type} [LinearOrder K] [LinearOrder S] {κ : Keying K S} {append : Bool}

/-- The slice of `k` has an entry whose limits enclose `k`. -/
def Covers (κ : Keying K S) (stats : List (MdhimStat S)) (k : K) : Prop :=
  ∃ stat, HashTable.find MdhimStat.key stats (κ.slice k) = some stat ∧
    stat.min ≤ κ.stat k ∧ κ.stat k ≤ stat.max

section Table

variable {stats : List (MdhimStat S)} {dbStats : OrdMap ℕ (MdhimDbStat S)} {key k : K}

omit [LinearOrder K] in
theorem covers_updateAllStats_self (hd : HashTable.Distinct MdhimStat.key stats) :
    Covers κ (updateAllStats κ stats key) key :=
  ⟨_, by rw [find_updateAllStats hd, if_pos rfl], newStat_min_le _, newStat_le_max _⟩

omit [LinearOrder K] in
/-- Counting a key uncovers no other. -/
theorem Covers.updateAllStats (h : Covers κ stats k)
    (hd : HashTable.Distinct MdhimStat.key stats) : Covers κ (updateAllStats κ stats key) k := by
  obtain ⟨stat, hfind, hmin, hmax⟩ := h
  by_cases hk : κ.slice k = κ.slice key
  · refine ⟨_, by rw [find_updateAllStats hd, if_pos hk], ?_⟩
    rw [← hk, hfind]
    exact ⟨(newStat_min_le_old stat).trans hmin, hmax.trans (old_le_newStat_max stat)⟩
  · exact ⟨stat, by rw [find_updateAllStats hd, if_neg hk, hfind], hmin, hmax⟩

omit [LinearOrder K] in
theorem StatsOk.updateAllStats (h : StatsOk dbStats stats) (key : K) :
    StatsOk dbStats (updateAllStats κ stats key) where
  distinct := distinct_updateAllStats h.distinct
  isInt stat hstat := by
    rw [updateAllStats_eq, HashTable.mem_upsert h.distinct] at hstat
    rcases hstat with rfl | hstat
    · rw [newStat_key]
      exact κ.slice_isInt key
    · exact h.isInt stat hstat.1
  fresh j hj := by
    obtain ⟨stat, hstat, rfl⟩ := h.fresh j hj
    by_cases hk : stat.key = κ.slice key
    · refine ⟨newStat κ key (HashTable.find MdhimStat.key stats (κ.slice key)), ?_, ?_⟩
      · rw [updateAllStats_eq, HashTable.mem_upsert h.distinct]
        exact Or.inl rfl
      · rw [newStat_key, hk]
    · refine ⟨stat, ?_, rfl⟩
      rw [updateAllStats_eq, HashTable.mem_upsert h.distinct, newStat_key]
      exact Or.inr ⟨hstat, hk⟩

omit [LinearOrder K] in
/-- After a bulk put the table is in order, what it covered is covered, and so are the keys that
were new. -/
theorem bputStats_covers (κ : Keying K S) (recs : List (BputRec K)) (h : StatsOk dbStats stats) :
    StatsOk dbStats (bputStats κ stats recs) ∧
      (∀ k, Covers κ stats k → Covers κ (bputStats κ stats recs) k) ∧
      ∀ r ∈ recs, r.exists_ = false → Covers κ (bputStats κ stats recs) r.key := by
  induction recs generalizing stats with
  | nil => exact ⟨h, fun k hk => hk, fun r hr => by cases hr⟩
  | cons r recs ih =>
    cases he : r.exists_ with
    | true =>
      have hcons : bputStats κ stats (r :: recs) = bputStats κ stats recs := by
        simp [bputStats, he]
      rw [hcons]
      obtain ⟨h₁, h₂, h₃⟩ := ih h
      refine ⟨h₁, h₂, fun r' hr' he' => ?_⟩
      rcases List.mem_cons.mp hr' with rfl | hr'
      · rw [he] at he'
        cases he'
      · exact h₃ r' hr' he'
    | false =>
      have hcons : bputStats κ stats (r :: recs) =
          bputStats κ (MpiToShmem.updateAllStats κ stats r.key) recs := by
        simp [bputStats, he]
      rw [hcons]
      obtain ⟨h₁, h₂, h₃⟩ := ih (h.updateAllStats (κ := κ) r.key)
      refine ⟨h₁, fun k hk => h₂ k (hk.updateAllStats h.distinct), fun r' hr' he' => ?_⟩
      rcases List.mem_cons.mp hr' with rfl | hr'
      · exact h₂ _ (covers_updateAllStats_self h.distinct)
      · exact h₃ r' hr' he'

end Table

/-! ## The server -/

/-- Every stored key is covered, and the table survives a restart. -/
structure ServerInv (κ : Keying K S) (s : RangeServer K S) : Prop where
  statsOk : StatsOk s.dbStats s.stats
  covered : ∀ k ∈ s.db.keys, Covers κ s.stats k

variable {s s' : RangeServer K S}

theorem serverInv_init : ServerInv κ (RangeServer.init : RangeServer K S) where
  statsOk := ⟨HashTable.distinct_nil, fun _ h => (List.not_mem_nil h).elim,
    fun _ h => (List.not_mem_nil h).elim⟩
  covered _ h := (List.not_mem_nil h).elim

/-- Fewer keys are easier to cover. -/
theorem ServerInv.anti {db : OrdMap K Value} (h : ServerInv κ s)
    (hdb : ∀ k ∈ db.keys, k ∈ s.db.keys) : ServerInv κ { s with db := db } :=
  ⟨h.statsOk, fun k hk => h.covered k (hdb k hk)⟩

theorem ServerInv.put {io : StoreIo} {key : K} {value : Value} {error : ℤ} (h : ServerInv κ s)
    (hs : rangeServerPut κ append io s key value = some (s', error)) : ServerInv κ s' := by
  rcases rangeServerPut_cases hs with ⟨_, _, rfl⟩ | ⟨_, _, v, _, rfl⟩
  · exact h
  cases hold : (leveldbGet (io.get 0) s.db key).2 with
  | none =>
    refine ⟨h.statsOk.updateAllStats key, fun k hk => ?_⟩
    rcases OrdMap.mem_keys_insert.mp hk with rfl | hk
    · exact covers_updateAllStats_self h.statsOk.distinct
    · exact (h.covered k hk).updateAllStats h.statsOk.distinct
  | some old =>
    refine ⟨h.statsOk, fun k hk => ?_⟩
    rcases OrdMap.mem_keys_insert.mp hk with rfl | hk
    · have hget := (leveldbGet_snd_eq_some.mp hold).2.1
      exact h.covered k (OrdMap.mem_keys.mpr (by rw [hget]; exact Option.some_ne_none old))
    · exact h.covered k hk

theorem ServerInv.bput {io : StoreIo} {recs : List (K × Value)} {error : ℤ} (h : ServerInv κ s)
    (hs : rangeServerBput κ append io s recs = some (s', error)) : ServerInv κ s' := by
  obtain ⟨_, brecs, hb, ⟨_, _, rfl⟩ | ⟨_, _, rfl⟩⟩ := rangeServerBput_cases hs
  · exact h
  obtain ⟨_, hex⟩ := bputRecs_keys hb
  obtain ⟨h₁, h₂, h₃⟩ := bputStats_covers κ brecs h.statsOk
  refine ⟨h₁, fun k hk => ?_⟩
  rcases mem_keys_putAll.mp hk with hk | hk
  · rw [List.map_map] at hk
    obtain ⟨r, hr, rfl⟩ := List.mem_map.mp hk
    cases he : r.exists_ with
    | true => exact h₂ _ (h.covered _ (hex r hr he))
    | false => exact h₃ r hr he
  · exact h₂ k (h.covered k hk)

theorem ServerInv.restart (h : ServerInv κ s) : ServerInv κ s.restart := by
  refine ⟨h.statsOk.restart, fun k hk => ?_⟩
  obtain ⟨stat, hfind, hlim⟩ := h.covered k hk
  refine ⟨stat, ?_, hlim⟩
  rw [← hfind]
  exact HashTable.find_eq_of_perm (distinct_loadStats h.statsOk) h.statsOk.distinct
    (loadStats_writeStats h.statsOk)

theorem serverInv_step (s : RangeServer K S) (a : ServerLabel K) (s' : RangeServer K S)
    (h : ServerInv κ s) (hs : serverStep κ append s a = some s') : ServerInv κ s' := by
  cases a with
  | put io key value =>
    obtain ⟨⟨t, error⟩, ht, rfl⟩ := Option.map_eq_some_iff.mp hs
    exact h.put ht
  | bput io recs =>
    obtain ⟨⟨t, error⟩, ht, rfl⟩ := Option.map_eq_some_iff.mp hs
    exact h.bput ht
  | del io key =>
    cases hs
    exact h.anti fun k => mem_keys_of_mem_leveldbDel
  | bdel io keys =>
    cases hs
    exact h.anti fun k => mem_keys_of_mem_bdelLoop
  | restart =>
    cases hs
    exact h.restart

/-- After any history, every stored key is within the limits of its slice's entry, and a restart
gives back the table. -/
theorem stats_cover (o : IntOptions) (append : Bool) {ls : List (ServerLabel (IntKey o))}
    {s : RangeServer (IntKey o) ℕ}
    (hrun : exec (serverStep (intKeying o) append) RangeServer.init ls = some s) :
    (∀ k ∈ s.db.keys, ∃ stat ∈ s.stats, stat.key = (intKeying o).slice k ∧
      stat.min ≤ k ∧ k ≤ stat.max) ∧
    s.restart.stats.Perm s.stats := by
  have h : ServerInv (intKeying o) s := exec_inv serverInv_step serverInv_init hrun
  refine ⟨fun k hk => ?_, loadStats_writeStats h.statsOk⟩
  obtain ⟨stat, hfind, hlim⟩ := h.covered k hk
  obtain ⟨hmem, hkey⟩ := HashTable.find_some hfind
  exact ⟨stat, hmem, hkey, hlim⟩

/-- A history with a failed put, a bulk put with a repeated key, a delete and a restart. -/
theorem stats_cover_history :
    let o : IntOptions := ⟨⟨.int, 1, 10, by decide, by decide, by decide⟩, Or.inl rfl⟩
    ∃ s : RangeServer (IntKey o) ℕ,
      exec (serverStep (intKeying o) true) RangeServer.init
        [.put ⟨fun _ => true, false, fun _ => true⟩ 5 [1], .bput .ok [(12, [1]), (17, []), (12, [2])],
          .del .ok 17, .restart] = some s ∧
      (∀ k ∈ s.db.keys, ∃ stat ∈ s.stats, stat.key = (intKeying o).slice k ∧
        stat.min ≤ k ∧ k ≤ stat.max) ∧ s.restart.stats.Perm s.stats := by
  intro o
  have hrun : (exec (serverStep (intKeying o) true) RangeServer.init
      [.put ⟨fun _ => true, false, fun _ => true⟩ 5 [1], .bput .ok [(12, [1]), (17, []), (12, [2])],
        .del .ok 17, .restart]).isSome := by decide
  obtain ⟨s, hs⟩ := Option.isSome_iff_exists.mp hrun
  exact ⟨s, hs, stats_cover o true hs⟩

end MpiToShmem
