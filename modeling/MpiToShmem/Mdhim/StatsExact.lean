import MpiToShmem.Mdhim.StatsCover
import Mathlib.Order.Bounds.Image

/-!
# When the statistics are exact

`data_store.h` says that an entry holds the number of keys in its slice and its least and greatest
key. The handlers count a key on every put that finds no value for it, and never uncount one.

1. `Exact stats ks`: the entries say exactly this of the stored keys `ks`.
2. `Exact.updateAllStats`: counting a key that is not stored yet, as it is stored, is right.
3. `Counted` excludes what upsets the count: a delete of a stored key, a put that does not find the
   value of a stored key, a bulk put that repeats a new key. Away from these the statistics are
   exact (`exact_of_counted`).
-/

namespace MpiToShmem

open Kit

variable {K S : Type} [LinearOrder K] [LinearOrder S] {κ : Keying K S} {append : Bool}

/-- The numbers of the keys of one slice. -/
def sliceStats (κ : Keying K S) (ks : List K) (slice : ℤ) : Set S :=
  {v | ∃ k ∈ ks, κ.slice k = slice ∧ κ.stat k = v}

/-- One entry is exact: the number of keys of its slice, the greatest and the least. -/
structure ExactStat (κ : Keying K S) (ks : List K) (stat : MdhimStat S) : Prop where
  num : stat.num = (ks.filter fun k => κ.slice k = stat.key).length
  max : IsGreatest (sliceStats κ ks stat.key) stat.max
  min : IsLeast (sliceStats κ ks stat.key) stat.min

/-- The table is exact for the stored keys `ks`: every entry is, and every stored key has one. -/
structure Exact (κ : Keying K S) (stats : List (MdhimStat S)) (ks : List K) : Prop where
  entry : ∀ stat ∈ stats, ExactStat κ ks stat
  total : ∀ k ∈ ks, ∃ stat ∈ stats, stat.key = κ.slice k

section Table

omit [LinearOrder K]

variable {stats : List (MdhimStat S)} {ks ls : List K} {key : K}

omit [LinearOrder S] in
theorem sliceStats_congr (h : ∀ k, k ∈ ks ↔ k ∈ ls) (slice : ℤ) :
    sliceStats κ ks slice = sliceStats κ ls slice := by
  unfold sliceStats
  simp only [h]

/-- A slice with no stored key has no entry. -/
theorem Exact.find_eq_none (h : Exact κ stats ks) {slice : ℤ} (hs : ∀ k ∈ ks, κ.slice k ≠ slice) :
    HashTable.find MdhimStat.key stats slice = none := by
  rw [HashTable.find_eq_none]
  rintro stat hstat rfl
  obtain ⟨k, hk, hslice, _⟩ := (h.entry stat hstat).max.1
  exact hs k hk hslice

theorem Exact.perm (h : Exact κ stats ks) (hp : ks.Perm ls) : Exact κ stats ls where
  entry stat hstat := by
    obtain ⟨hnum, hmax, hmin⟩ := h.entry stat hstat
    rw [sliceStats_congr fun k => hp.mem_iff] at hmax hmin
    exact ⟨hnum.trans (hp.filter _).length_eq, hmax, hmin⟩
  total k hk := h.total k (hp.mem_iff.mpr hk)

theorem isLeast_insert {s : Set S} {a v : S} (h : IsLeast s a) :
    IsLeast (insert v s) (if a > v then v else a) := by
  split_ifs with hv
  · exact ⟨Set.mem_insert _ _, fun b hb => by
      rcases hb with rfl | hb
      · exact le_rfl
      · exact hv.le.trans (h.2 hb)⟩
  · exact ⟨Set.mem_insert_of_mem _ h.1, fun b hb => by
      rcases hb with rfl | hb
      · exact not_lt.mp hv
      · exact h.2 hb⟩

theorem isGreatest_insert {s : Set S} {a v : S} (h : IsGreatest s a) :
    IsGreatest (insert v s) (if a < v then v else a) := by
  split_ifs with hv
  · exact ⟨Set.mem_insert _ _, fun b hb => by
      rcases hb with rfl | hb
      · exact le_rfl
      · exact (h.2 hb).trans hv.le⟩
  · exact ⟨Set.mem_insert_of_mem _ h.1, fun b hb => by
      rcases hb with rfl | hb
      · exact not_lt.mp hv
      · exact h.2 hb⟩

omit [LinearOrder S] in
theorem sliceStats_cons_self :
    sliceStats κ (key :: ks) (κ.slice key) = insert (κ.stat key) (sliceStats κ ks (κ.slice key)) := by
  ext v
  constructor
  · rintro ⟨k, hk, hs, rfl⟩
    rcases List.mem_cons.mp hk with rfl | hk
    · exact Set.mem_insert _ _
    · exact Set.mem_insert_of_mem _ ⟨k, hk, hs, rfl⟩
  · rintro (rfl | ⟨k, hk, hs, rfl⟩)
    · exact ⟨key, List.mem_cons_self, rfl, rfl⟩
    · exact ⟨k, List.mem_cons_of_mem _ hk, hs, rfl⟩

omit [LinearOrder S] in
theorem sliceStats_cons_of_ne {slice : ℤ} (h : κ.slice key ≠ slice) :
    sliceStats κ (key :: ks) slice = sliceStats κ ks slice := by
  ext v
  constructor
  · rintro ⟨k, hk, hs, rfl⟩
    rcases List.mem_cons.mp hk with rfl | hk
    · exact absurd hs h
    · exact ⟨k, hk, hs, rfl⟩
  · rintro ⟨k, hk, hs, rfl⟩
    exact ⟨k, List.mem_cons_of_mem _ hk, hs, rfl⟩

/-- The first key of a slice. -/
theorem exactStat_first (hs : ∀ k ∈ ks, κ.slice k ≠ κ.slice key) :
    ExactStat κ (key :: ks) (newStat κ key none) := by
  have hempty : sliceStats κ ks (κ.slice key) = ∅ := by
    ext v
    simp only [Set.mem_empty_iff_false, iff_false]
    rintro ⟨k, hk, hsl, _⟩
    exact hs k hk hsl
  have hset : sliceStats κ (key :: ks) (newStat κ key none).key = {κ.stat key} := by
    rw [newStat_key, sliceStats_cons_self, hempty, insert_empty_eq]
  refine ⟨?_, ?_, ?_⟩
  · rw [newStat_key, List.filter_cons_of_pos (by simp),
      List.filter_eq_nil_iff.mpr (fun k hk => by simpa using hs k hk)]
    rfl
  · rw [hset]
    exact isGreatest_singleton
  · rw [hset]
    exact isLeast_singleton

/-- A further key of a slice. -/
theorem ExactStat.newStat {os : MdhimStat S} (h : ExactStat κ ks os) (hk : os.key = κ.slice key) :
    ExactStat κ (key :: ks) (newStat κ key (some os)) := by
  obtain ⟨hnum, hmax, hmin⟩ := h
  rw [hk] at hnum hmax hmin
  refine ⟨?_, ?_, ?_⟩
  · rw [newStat_key, List.filter_cons_of_pos (by simp), List.length_cons, ← hnum]
    rfl
  · rw [newStat_key, sliceStats_cons_self]
    exact isGreatest_insert hmax
  · rw [newStat_key, sliceStats_cons_self]
    exact isLeast_insert hmin

/-- A key of another slice. -/
theorem ExactStat.cons {stat : MdhimStat S} (h : ExactStat κ ks stat)
    (hk : κ.slice key ≠ stat.key) : ExactStat κ (key :: ks) stat := by
  obtain ⟨hnum, hmax, hmin⟩ := h
  refine ⟨?_, ?_, ?_⟩
  · rw [hnum, List.filter_cons_of_neg (by simpa using hk)]
  · rwa [sliceStats_cons_of_ne hk]
  · rwa [sliceStats_cons_of_ne hk]

/-- Counting a key as it is first stored keeps the table exact. -/
theorem Exact.updateAllStats (h : Exact κ stats ks)
    (hd : HashTable.Distinct MdhimStat.key stats) (key : K) :
    Exact κ (updateAllStats κ stats key) (key :: ks) where
  entry stat hstat := by
    rw [updateAllStats_eq, HashTable.mem_upsert hd, newStat_key] at hstat
    rcases hstat with rfl | ⟨hstat, hne⟩
    · cases hf : HashTable.find MdhimStat.key stats (κ.slice key) with
      | none =>
        refine exactStat_first fun k hk he => ?_
        obtain ⟨stat, hstat, hsk⟩ := h.total k hk
        exact HashTable.find_eq_none.mp hf stat hstat (hsk.trans he)
      | some os =>
        obtain ⟨hos, hkey⟩ := HashTable.find_some hf
        exact (h.entry os hos).newStat hkey
    · exact (h.entry stat hstat).cons hne.symm
  total k hk := by
    rcases List.mem_cons.mp hk with rfl | hk
    · refine ⟨_, ?_, newStat_key (HashTable.find MdhimStat.key stats (κ.slice k))⟩
      rw [updateAllStats_eq, HashTable.mem_upsert hd]
      exact Or.inl rfl
    · obtain ⟨stat, hstat, hsk⟩ := h.total k hk
      by_cases he : stat.key = κ.slice key
      · refine ⟨newStat κ key (HashTable.find MdhimStat.key stats (κ.slice key)), ?_, ?_⟩
        · rw [updateAllStats_eq, HashTable.mem_upsert hd]
          exact Or.inl rfl
        · rw [newStat_key, ← he, hsk]
      · refine ⟨stat, ?_, hsk⟩
        rw [updateAllStats_eq, HashTable.mem_upsert hd, newStat_key]
        exact Or.inr ⟨hstat, he⟩

/-- The keys that a bulk put counts. -/
def newKeys (recs : List (BputRec K)) : List K :=
  (recs.filter fun r => ¬ r.exists_).map BputRec.key

/-- Counting the new keys of a bulk put keeps the table exact. -/
theorem Exact.bputStats {recs : List (BputRec K)} {dbStats : OrdMap ℕ (MdhimDbStat S)}
    (h : Exact κ stats ks) (hok : StatsOk dbStats stats) :
    Exact κ (bputStats κ stats recs) ((newKeys recs).reverse ++ ks) := by
  induction recs generalizing stats ks with
  | nil => exact h
  | cons r recs ih =>
    cases he : r.exists_ with
    | true =>
      have hs : MpiToShmem.bputStats κ stats (r :: recs) = MpiToShmem.bputStats κ stats recs := by
        simp [MpiToShmem.bputStats, he]
      have hn : newKeys (r :: recs) = newKeys recs := by simp [newKeys, he]
      rw [hs, hn]
      exact ih h hok
    | false =>
      have hs : MpiToShmem.bputStats κ stats (r :: recs) =
          MpiToShmem.bputStats κ (MpiToShmem.updateAllStats κ stats r.key) recs := by
        simp [MpiToShmem.bputStats, he]
      have hn : newKeys (r :: recs) = r.key :: newKeys recs := by simp [newKeys, he]
      rw [hs, hn, List.reverse_cons, List.append_assoc]
      exact ih (h.updateAllStats hok.distinct r.key) (hok.updateAllStats r.key)

end Table

/-! ## The server -/

/-- Every record whose key is stored is found, from record `i` on. -/
def Found (io : StoreIo) (db : OrdMap K Value) : ℕ → List (K × Value) → Prop
  | _, [] => True
  | i, r :: recs =>
    (r.1 ∈ db.keys → (leveldbGet (io.get i) db r.1).2.isSome) ∧ Found io db (i + 1) recs

/-- What the step must not do, for the count to stay right: put over a stored key that the get
before it does not find (its value is empty, or the get fails), repeat a new key in one bulk put,
or delete a stored key. -/
def Counted (s : RangeServer K S) : ServerLabel K → Prop
  | .put io key _ => key ∈ s.db.keys → (leveldbGet (io.get 0) s.db key).2.isSome
  | .bput io recs =>
    Found io s.db 0 recs ∧ ((recs.map Prod.fst).filter fun k => k ∉ s.db.keys).Nodup
  | .del _ key => key ∉ s.db.keys
  | .bdel _ keys => ∀ key ∈ keys.take maxBulkOps, key ∉ s.db.keys
  | .restart => True

instance foundDecidable (io : StoreIo) (db : OrdMap K Value) :
    ∀ (i : ℕ) (recs : List (K × Value)), Decidable (Found io db i recs)
  | _, [] => .isTrue trivial
  | i, _ :: recs =>
    have := foundDecidable io db (i + 1) recs
    instDecidableAnd

instance (s : RangeServer K S) (a : ServerLabel K) : Decidable (Counted s a) := by
  cases a <;> unfold Counted <;> infer_instance

/-- When every stored key is found, the records that exist are the ones whose key is stored. -/
theorem exists_iff_of_found {io : StoreIo} {db : OrdMap K Value} {recs : List (K × Value)} {i : ℕ}
    {brecs : List (BputRec K)} (h : bputRecs append io db i recs = some brecs)
    (hf : Found io db i recs) : ∀ r ∈ brecs, r.exists_ = true ↔ r.key ∈ db.keys := by
  induction recs generalizing i brecs with
  | nil =>
    cases h
    exact fun r hr => (List.not_mem_nil hr).elim
  | cons r recs ih =>
    obtain ⟨key, value⟩ := r
    have hkeys := (bputRecs_keys h).2
    unfold bputRecs at h
    obtain ⟨v, -, h⟩ := Option.bind_eq_some_iff.mp h
    obtain ⟨rest, hrest, h⟩ := Option.bind_eq_some_iff.mp h
    simp only [pure, Option.some.injEq] at h
    subst h
    intro r hr
    refine ⟨hkeys r hr, fun hk => ?_⟩
    rcases List.mem_cons.mp hr with rfl | hr
    · exact hf.1 hk
    · exact (ih hrest hf.2 r hr).mpr hk

theorem newKeys_eq {brecs : List (BputRec K)} {db : OrdMap K Value}
    (h : ∀ r ∈ brecs, r.exists_ = true ↔ r.key ∈ db.keys) :
    newKeys brecs = (brecs.map BputRec.key).filter fun k => k ∉ db.keys := by
  unfold newKeys
  rw [List.filter_map]
  congr 1
  apply List.filter_congr
  intro r hr
  simp [← h r hr]

/-- The keys after a batch: the new ones and those before. -/
theorem keys_putAll_perm {db : OrdMap K Value} {recs : List (K × Value)}
    (hn : ((recs.map Prod.fst).filter fun k => k ∉ db.keys).Nodup) :
    (putAll db recs).keys.Perm
      (((recs.map Prod.fst).filter fun k => k ∉ db.keys).reverse ++ db.keys) := by
  rw [List.perm_ext_iff_of_nodup (OrdMap.keys_nodup _)]
  · intro k
    rw [mem_keys_putAll, List.mem_append, List.mem_reverse, List.mem_filter]
    by_cases hk : k ∈ db.keys <;> simp [hk]
  · rw [List.nodup_append]
    refine ⟨List.nodup_reverse.mpr hn, OrdMap.keys_nodup db, ?_⟩
    rintro a ha b hb rfl
    rw [List.mem_reverse, List.mem_filter] at ha
    simp [hb] at ha

/-- The statistics are exact, and the table survives a restart. -/
structure ExactInv (κ : Keying K S) (s : RangeServer K S) : Prop where
  statsOk : StatsOk s.dbStats s.stats
  exact_ : Exact κ s.stats s.db.keys

variable {s s' : RangeServer K S}

theorem exactInv_init : ExactInv κ (RangeServer.init : RangeServer K S) where
  statsOk := serverInv_init.statsOk (κ := κ)
  exact_ := ⟨fun _ h => (List.not_mem_nil h).elim, fun _ h => (List.not_mem_nil h).elim⟩

theorem ExactInv.put {io : StoreIo} {key : K} {value : Value} {error : ℤ} (h : ExactInv κ s)
    (hc : key ∈ s.db.keys → (leveldbGet (io.get 0) s.db key).2.isSome)
    (hs : rangeServerPut κ append io s key value = some (s', error)) : ExactInv κ s' := by
  rcases rangeServerPut_cases hs with ⟨_, _, rfl⟩ | ⟨_, _, v, _, rfl⟩
  · exact h
  cases hold : (leveldbGet (io.get 0) s.db key).2 with
  | none =>
    have hk : key ∉ s.db.keys := fun hk => by
      have := hc hk
      rw [hold] at this
      cases this
    exact ⟨h.statsOk.updateAllStats key, (h.exact_.updateAllStats h.statsOk.distinct key).perm
      (OrdMap.keys_insert_perm_of_not_mem hk v).symm⟩
  | some old =>
    have hget := (leveldbGet_snd_eq_some.mp hold).2.1
    have hk : key ∈ s.db.keys := OrdMap.mem_keys.mpr (by rw [hget]; exact Option.some_ne_none old)
    exact ⟨h.statsOk, h.exact_.perm (OrdMap.keys_insert_perm_of_mem hk v).symm⟩

theorem ExactInv.bput {io : StoreIo} {recs : List (K × Value)} {error : ℤ} (h : ExactInv κ s)
    (hf : Found io s.db 0 recs)
    (hn : ((recs.map Prod.fst).filter fun k => k ∉ s.db.keys).Nodup)
    (hs : rangeServerBput κ append io s recs = some (s', error)) : ExactInv κ s' := by
  obtain ⟨_, brecs, hb, ⟨_, _, rfl⟩ | ⟨_, _, rfl⟩⟩ := rangeServerBput_cases hs
  · exact h
  have hkeys : (brecs.map fun r => (r.key, r.value)).map Prod.fst = recs.map Prod.fst := by
    rw [List.map_map]
    exact (bputRecs_keys hb).1
  refine ⟨(bputStats_covers κ _ h.statsOk).1, ?_⟩
  refine (h.exact_.bputStats h.statsOk).perm (List.Perm.symm ?_)
  rw [newKeys_eq (exists_iff_of_found hb hf), (bputRecs_keys hb).1, ← hkeys]
  exact keys_putAll_perm (by rw [hkeys]; exact hn)

/-- Deleting keys that are not stored changes nothing. -/
theorem bdelLoop_of_not_mem {io : StoreIo} {keys : List K} {i : ℕ} {db : OrdMap K Value} {error : ℤ}
    (h : ∀ key ∈ keys, key ∉ db.keys) : (bdelLoop io i keys db error).1 = db := by
  induction keys generalizing i error with
  | nil => rfl
  | cons key keys ih =>
    unfold bdelLoop
    simp only [leveldbDel_of_not_mem (h key List.mem_cons_self)]
    exact ih fun k hk => h k (List.mem_cons_of_mem _ hk)

theorem ExactInv.restart (h : ExactInv κ s) : ExactInv κ s.restart where
  statsOk := h.statsOk.restart
  exact_ :=
    ⟨fun stat hstat => h.exact_.entry stat ((mem_loadStats_writeStats h.statsOk).mp hstat),
      fun k hk => by
        obtain ⟨stat, hstat, hs⟩ := h.exact_.total k hk
        exact ⟨stat, (mem_loadStats_writeStats h.statsOk).mpr hstat, hs⟩⟩

theorem exactInv_step (s : RangeServer K S) (a : ServerLabel K) (s' : RangeServer K S)
    (h : ExactInv κ s) (hc : Counted s a) (hs : serverStep κ append s a = some s') :
    ExactInv κ s' := by
  cases a with
  | put io key value =>
    obtain ⟨⟨t, error⟩, ht, rfl⟩ := Option.map_eq_some_iff.mp hs
    exact h.put hc ht
  | bput io recs =>
    obtain ⟨⟨t, error⟩, ht, rfl⟩ := Option.map_eq_some_iff.mp hs
    exact h.bput hc.1 hc.2 ht
  | del io key =>
    cases hs
    have hs : (rangeServerDel io s key).1 = s := by
      show { s with db := (leveldbDel (io.del 0) s.db key).1 } = s
      rw [leveldbDel_of_not_mem hc]
    rwa [hs]
  | bdel io keys =>
    cases hs
    have hs : (rangeServerBdel io s keys).1 = s := by
      show { s with db := (bdelLoop io 0 (keys.take maxBulkOps) s.db mdhimSuccess).1 } = s
      rw [bdelLoop_of_not_mem hc]
    rwa [hs]
  | restart =>
    cases hs
    exact h.restart

/-- Along a history in which no step upsets the count, the statistics are exact. -/
theorem exact_of_counted (o : IntOptions) (append : Bool) {ls : List (ServerLabel (IntKey o))}
    {s : RangeServer (IntKey o) ℕ}
    (hc : Meets (serverStep (intKeying o) append) Counted RangeServer.init ls)
    (hrun : exec (serverStep (intKeying o) append) RangeServer.init ls = some s) :
    Exact (intKeying o) s.stats s.db.keys :=
  (exec_inv_meets exactInv_step exactInv_init hc hrun).exact_

/-- Puts of new and old keys, in one message and in several, are counted right. -/
theorem exact_of_counted_puts :
    let o : IntOptions := ⟨⟨.int, 1, 10, by decide, by decide, by decide⟩, Or.inl rfl⟩
    ∃ s : RangeServer (IntKey o) ℕ,
      exec (serverStep (intKeying o) false) RangeServer.init
        [.put .ok 5 [1], .bput .ok [(5, [2]), (12, [1]), (17, [1])], .put .ok 12 [3], .del .ok 6] =
          some s ∧
      Exact (intKeying o) s.stats s.db.keys := by
  intro o
  have hrun : (exec (serverStep (intKeying o) false) RangeServer.init
      [.put .ok 5 [1], .bput .ok [(5, [2]), (12, [1]), (17, [1])], .put .ok 12 [3],
        .del .ok 6]).isSome := by decide
  obtain ⟨s, hs⟩ := Option.isSome_iff_exists.mp hrun
  exact ⟨s, hs, exact_of_counted o false (by decide) hs⟩

/-- A message none of whose LevelDB calls fails. -/
def ServerLabel.Succeeds : ServerLabel K → Prop
  | .put io _ _ => io = .ok
  | .bput io _ => io = .ok
  | .del io _ => io = .ok
  | .bdel io _ => io = .ok
  | .restart => False

/-- A key put and deleted is still counted. -/
theorem not_exact_put_del :
    ¬ ∀ (o : IntOptions) (append : Bool) (ls : List (ServerLabel (IntKey o)))
      (s : RangeServer (IntKey o) ℕ), (∀ a ∈ ls, a.Succeeds) →
      exec (serverStep (intKeying o) append) RangeServer.init ls = some s →
        Exact (intKeying o) s.stats s.db.keys := by
  intro h
  let o : IntOptions := ⟨⟨.int, 1, 10, by decide, by decide, by decide⟩, Or.inl rfl⟩
  let ls : List (ServerLabel (IntKey o)) := [.put .ok 5 [1], .del .ok 5]
  have hrun : (exec (serverStep (intKeying o) false) RangeServer.init ls).any
      (fun s => s.stats = [⟨0, 5, 5, 1⟩] ∧ s.db.keys = []) = true := by decide
  obtain ⟨s, hs, hfinal⟩ := (Option.any_eq_true _ _).mp hrun
  obtain ⟨hstats, hkeys⟩ := of_decide_eq_true hfinal
  have hex := h o false ls s (by simp [ls, ServerLabel.Succeeds]) hs
  have hnum := (hex.entry ⟨0, 5, 5, 1⟩ (by rw [hstats]; exact List.mem_cons_self)).num
  rw [hkeys] at hnum
  cases hnum

end MpiToShmem
