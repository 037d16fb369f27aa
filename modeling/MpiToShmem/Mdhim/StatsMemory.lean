import MpiToShmem.Uthash.Runs
import MpiToShmem.Mdhim.StatsCover

/-!
# Slice statistics in memory

The entries of `mdhim_store_stats` are `mdhim_stat` structures that `malloc` gives out, in a hash of
`uthash.h`. An entry is freed when another takes its place, and all of them when the server stops.

1. `updateAllStatsAt`, `writeStatsAt` and `loadStatsAt` are the functions, over the hash in memory.
2. `InMemory`: the entries of the hash are a list of statistics.
3. `stats_in_memory`: over runs with restarts, they are those of `updateAllStats`, `writeStats` and
   `loadStats`.
-/

namespace MpiToShmem

open Kit Kit.Linked Uthash

variable {A K S : Type}

/-- The hash, and the entries by their addresses. -/
structure StatMemory (A S : Type) where
  hash : Hash A ℤ
  stat : A → MdhimStat S

/-- What is in the memory of an entry after `free`. -/
abbrev Junk (A S : Type) := A → Handle A ℤ × MdhimStat S

section Functions

variable [DecidableEq A]

/-- `malloc`, and the entry filled in. -/
def StatMemory.fill (m : StatMemory A S) (a : A) (stat : MdhimStat S) : StatMemory A S :=
  { m with stat := Function.update m.stat a stat }

/-- `free(stat)`. -/
def StatMemory.free (junk : Junk A S) (m : StatMemory A S) (a : A) : StatMemory A S :=
  ⟨{ m.hash with hh := setHandle m.hash.hh a fun _ => (junk a).1 },
    Function.update m.stat a (junk a).2⟩

variable [LinearOrder S] (hashFcn : ℤ → ℕ) (junk : Junk A S) (κ : Keying K S)

/-- `update_all_stats`, with the address of the new entry. -/
def updateAllStatsAt (m : StatMemory A S) (key : K) (a : A) : Option (StatMemory A S) := do
  let os ← hashFind hashFcn m.hash (κ.slice key)
  let m := m.fill a (newStat κ key (os.map m.stat))
  match os with
  | none =>
    let hash ← hashAddKeyptr hashFcn m.hash (m.stat a).key a
    some { m with hash := hash }
  | some _ =>
    let (os, hash) ← hashReplace hashFcn m.hash (m.stat a).key a
    let m := { m with hash := hash }
    some (os.elim m (m.free junk))

omit [LinearOrder S] in
/-- The body of the loop of `write_stats`. -/
def writeStat (s : StatMemory A S × OrdMap ℕ (MdhimDbStat S)) (a : A) :
    Option (StatMemory A S × OrdMap ℕ (MdhimDbStat S)) := do
  let stat := s.1.stat a
  let dbStats := (leveldbPut true s.2 (toUInt32 stat.key) stat.toDb).1
  let hash ← hashDelete s.1.hash a
  some (StatMemory.free junk { s.1 with hash := hash } a, dbStats)

omit [LinearOrder S] in
/-- `write_stats`. -/
def writeStatsAt (m : StatMemory A S) (dbStats : OrdMap ℕ (MdhimDbStat S)) :
    Option (StatMemory A S × OrdMap ℕ (MdhimDbStat S)) :=
  iterate (fun s a => (s.1.hash.hh.get a).next) (writeStat junk) (hashCnt m.hash) (m, dbStats)
    m.hash.head (m.hash.head.bind fun a => (m.hash.hh.get a).next)

omit [LinearOrder S] in
/-- The loop of `load_stats`, with the addresses that `malloc` gives. -/
def loadStatsFromAt (dbStats : OrdMap ℕ (MdhimDbStat S)) :
    ℕ → Option ℕ → List A → StatMemory A S → Option (StatMemory A S)
  | 0, _, _, m => some m
  | fuel + 1, slice, as, m =>
    match (leveldbGetNext dbStats slice).2 with
    | none => some m
    | some (slice, val) =>
      match as with
      | [] => none
      | a :: as => do
        let m := m.fill a (val.load slice)
        let hash ← hashAddKeyptr hashFcn m.hash (m.stat a).key a
        loadStatsFromAt dbStats fuel (some slice) as { m with hash := hash }

omit [LinearOrder S] in
/-- `load_stats`. -/
def loadStatsAt (dbStats : OrdMap ℕ (MdhimDbStat S)) (as : List A) (m : StatMemory A S) :
    Option (StatMemory A S) :=
  loadStatsFromAt hashFcn dbStats (dbStats.toList.length + 1) none as m

/-- What happens to the statistics of a range server, with the addresses that `malloc` gives. -/
inductive StatCall (A K : Type) where
  | update (key : K) (a : A)
  | restart (as : List A)

/-- The statistics in memory, and their database. -/
def statMemoryStep (s : StatMemory A S × OrdMap ℕ (MdhimDbStat S)) :
    StatCall A K → Option (StatMemory A S × OrdMap ℕ (MdhimDbStat S))
  | .update key a => (updateAllStatsAt hashFcn junk κ s.1 key a).map (·, s.2)
  | .restart as => do
    let (m, dbStats) ← writeStatsAt junk s.1 s.2
    let m ← loadStatsAt hashFcn dbStats as m
    some (m, dbStats)

omit [DecidableEq A] in
/-- The same on lists of statistics. -/
def statListStep (s : List (MdhimStat S) × OrdMap ℕ (MdhimDbStat S)) :
    StatCall A K → Option (List (MdhimStat S) × OrdMap ℕ (MdhimDbStat S))
  | .update key _ => some (updateAllStats κ s.1 key, s.2)
  | .restart _ => some (loadStats (writeStats s.2 s.1), writeStats s.2 s.1)

omit [DecidableEq A] [LinearOrder S] in
/-- `malloc` gives out no memory that is in use, and enough for the entries of a restart. -/
def StatCall.Fresh (s : StatMemory A S × OrdMap ℕ (MdhimDbStat S)) : StatCall A K → Prop
  | .update _ a => a ∉ (hashIter s.1.hash).getD []
  | .restart as => as.Nodup ∧ s.2.toList.length + hashCnt s.1.hash ≤ as.length

omit [LinearOrder S] in
instance StatCall.decidableFresh (s : StatMemory A S × OrdMap ℕ (MdhimDbStat S)) (c : StatCall A K) :
    Decidable (c.Fresh s) :=
  match c with
  | .update _ a => inferInstanceAs (Decidable (a ∉ (hashIter s.1.hash).getD []))
  | .restart as =>
    inferInstanceAs (Decidable (as.Nodup ∧ s.2.toList.length + hashCnt s.1.hash ≤ as.length))

end Functions

/-! ## The entries of the hash -/

/-- The entries `es` of the hash are the statistics `stats`. -/
structure InMemory (hashFcn : ℤ → ℕ) (m : StatMemory A S) (es : List (A × ℤ))
    (stats : List (MdhimStat S)) : Prop where
  represents : Represents hashFcn m.hash es
  entries : es.map (fun e => m.stat e.1) = stats
  keys : ∀ e ∈ es, (m.stat e.1).key = e.2

variable {hashFcn : ℤ → ℕ} {m : StatMemory A S} {es : List (A × ℤ)} {stats : List (MdhimStat S)} {a : A}

theorem inMemory_nil (m : StatMemory A S) (hhead : m.hash.head = none) : InMemory hashFcn m [] [] where
  represents := represents_nil _ hhead
  entries := rfl
  keys _ he := by cases he

theorem InMemory.find (h : InMemory hashFcn m es stats) (slice : ℤ) :
    (found es slice).map m.stat = HashTable.find MdhimStat.key stats slice := by
  rw [← h.entries, HashTable.find_map h.keys]
  unfold found
  rw [Option.map_map]
  rfl

variable [DecidableEq A]

/-- What is filled in at another address is not in the hash. -/
theorem InMemory.fill (h : InMemory hashFcn m es stats) (ha : a ∉ es.map Prod.fst) (stat : MdhimStat S) :
    InMemory hashFcn (m.fill a stat) es stats where
  represents := h.represents
  entries := by
    rw [← h.entries]
    refine List.map_congr_left fun e he => ?_
    have hne : e.1 ≠ a := fun hea => ha (hea ▸ List.mem_map_of_mem he)
    exact Function.update_of_ne hne _ _
  keys e he := by
    have hne : e.1 ≠ a := fun hea => ha (hea ▸ List.mem_map_of_mem he)
    rw [← h.keys e he]
    exact congrArg MdhimStat.key (Function.update_of_ne hne _ _)

theorem InMemory.free (h : InMemory hashFcn m es stats) (ha : a ∉ es.map Prod.fst) (junk : Junk A S) :
    InMemory hashFcn (m.free junk a) es stats where
  represents := h.represents.write ha _
  entries := (h.fill ha (junk a).2).entries
  keys := (h.fill ha (junk a).2).keys

/-- An entry that is filled in is added. -/
theorem InMemory.add (h : InMemory hashFcn m es stats) (ha : a ∉ es.map Prod.fst) (stat : MdhimStat S)
    (hnone : HashTable.find MdhimStat.key stats stat.key = none) :
    ∃ hash, hashAddKeyptr hashFcn m.hash stat.key a = some hash ∧
      InMemory hashFcn { m.fill a stat with hash := hash } (HashTable.add es (a, stat.key))
        (HashTable.add stats stat) := by
  have hfill := h.fill ha stat
  have hself : (m.fill a stat).stat a = stat := Function.update_self _ _ _
  have hfind : HashTable.find Prod.snd es stat.key = none := by
    have hf := h.find stat.key
    rw [hnone, Option.map_eq_none_iff] at hf
    exact Option.map_eq_none_iff.mp hf
  obtain ⟨hash, hadd, hr⟩ := h.represents.add ha hfind
  refine ⟨hash, hadd, hr, ?_, fun e he => ?_⟩
  · unfold HashTable.add
    rw [List.map_append, ← hfill.entries, List.map_singleton]
    exact congrArg (List.map _ es ++ [·]) hself
  · rcases List.mem_append.mp he with he | he
    · exact hfill.keys e he
    · rw [List.mem_singleton.mp he]
      exact congrArg MdhimStat.key hself

/-- An entry that is filled in takes the place of the one with its slice, which is freed. -/
theorem InMemory.replace (h : InMemory hashFcn m es stats) (ha : a ∉ es.map Prod.fst)
    (stat : MdhimStat S) (junk : Junk A S) {old : A} (hold : found es stat.key = some old) :
    ∃ hash, hashReplace hashFcn m.hash stat.key a = some (some old, hash) ∧
      InMemory hashFcn (StatMemory.free junk { m.fill a stat with hash := hash } old)
        (HashTable.replace Prod.snd es (a, stat.key))
        (HashTable.replace MdhimStat.key stats stat) := by
  have hfill := h.fill ha stat
  have hself : (m.fill a stat).stat a = stat := Function.update_self _ _ _
  obtain ⟨hash, hreplace, hr⟩ := h.represents.replace ha stat.key
  rw [hold] at hreplace
  refine ⟨hash, hreplace, InMemory.free ⟨hr, ?_, fun e he => ?_⟩ (fun hmem => ?_) junk⟩
  · unfold HashTable.replace HashTable.add
    rw [List.map_append, ← hfill.entries, HashTable.delete_map hfill.keys, List.map_singleton]
    exact congrArg (List.map _ (HashTable.delete Prod.snd es stat.key) ++ [·]) hself
  · rcases List.mem_append.mp he with he | he
    · exact hfill.keys e (List.eraseP_sublist.subset he)
    · rw [List.mem_singleton.mp he]
      exact congrArg MdhimStat.key hself
  · -- the old entry was the only one at its address
    obtain ⟨e, hf, rfl⟩ := Option.map_eq_some_iff.mp hold
    obtain ⟨he, hk⟩ := HashTable.find_some hf
    unfold HashTable.replace HashTable.add at hmem
    rw [List.map_append, ← hk, map_delete h.represents.holds.nodup h.represents.distinct he] at hmem
    rcases List.mem_append.mp hmem with hmem | hmem
    · exact (List.Nodup.mem_erase_iff h.represents.holds.nodup).mp hmem |>.1 rfl
    · have hea : e.1 = a := List.mem_singleton.mp hmem
      exact ha (hea ▸ List.mem_map_of_mem he)

variable [LinearOrder S]

theorem InMemory.update (h : InMemory hashFcn m es stats) (ha : a ∉ es.map Prod.fst)
    (junk : Junk A S) (κ : Keying K S) (key : K) :
    ∃ m' es', updateAllStatsAt hashFcn junk κ m key a = some m' ∧
      InMemory hashFcn m' es' (updateAllStats κ stats key) := by
  have hfind := h.find (κ.slice key)
  have hself : ∀ stat, (m.fill a stat).stat a = stat := fun stat => Function.update_self _ _ _
  unfold updateAllStatsAt updateAllStats
  rw [h.represents.find, Option.bind_eq_bind, Option.bind_some, ← hfind]
  cases hos : found es (κ.slice key) with
  | none =>
    rw [hos] at hfind
    obtain ⟨hash, hadd, h'⟩ := h.add ha (newStat κ key none) (by
      rw [newStat_key]
      exact hfind.symm)
    refine ⟨_, _, ?_, h'⟩
    show (hashAddKeyptr hashFcn m.hash ((m.fill a (newStat κ key none)).stat a).key a).bind _ = _
    rw [hself, hadd]
    rfl
  | some old =>
    obtain ⟨hash, hreplace, h'⟩ := h.replace ha (newStat κ key (some (m.stat old))) junk (by
      rw [newStat_key]
      exact hos)
    refine ⟨_, _, ?_, h'⟩
    show (hashReplace hashFcn m.hash
      ((m.fill a (newStat κ key (some (m.stat old)))).stat a).key a).bind _ = _
    rw [hself, hreplace]
    rfl

/-! ## Writing and loading -/

variable {dbStats : OrdMap ℕ (MdhimDbStat S)}

omit [LinearOrder S] in
/-- The first entry is deleted and freed. -/
theorem InMemory.tail {e : A × ℤ} (h : InMemory hashFcn m (e :: es) stats) (junk : Junk A S) :
    ∃ hash, hashDelete m.hash e.1 = some hash ∧ stats = m.stat e.1 :: es.map (fun e => m.stat e.1) ∧
      InMemory hashFcn (StatMemory.free junk { m with hash := hash } e.1) es
        (es.map fun e => m.stat e.1) := by
  obtain ⟨hash, hdel, hr⟩ := h.represents.delete List.mem_cons_self
  have htail : HashTable.delete Prod.snd (e :: es) e.2 = es := by simp [HashTable.delete]
  rw [htail] at hr
  refine ⟨hash, hdel, h.entries.symm, InMemory.free ⟨hr, rfl, fun e' he' => ?_⟩ ?_ junk⟩
  · exact h.keys e' (List.mem_cons_of_mem _ he')
  · exact (List.nodup_cons.mp h.represents.holds.nodup).1

/-- In the loop of `write_stats`: the entries that are left are the last of `stats`, and the others
are in the database. -/
def Writing (hashFcn : ℤ → ℕ) (written : OrdMap ℕ (MdhimDbStat S)) (rest : List A)
    (s : StatMemory A S × OrdMap ℕ (MdhimDbStat S)) : Prop :=
  ∃ es stats, InMemory hashFcn s.1 es stats ∧ es.map Prod.fst = rest ∧ writeStats s.2 stats = written

omit [LinearOrder S] in
theorem InMemory.written (h : InMemory hashFcn m es stats) (junk : Junk A S)
    (dbStats : OrdMap ℕ (MdhimDbStat S)) :
    ∃ m', writeStatsAt junk m dbStats = some (m', writeStats dbStats stats) ∧
      m'.hash.head = none := by
  have hnext : ∀ (a : A) rest s, Writing hashFcn (writeStats dbStats stats) (a :: rest) s →
      (s.1.hash.hh.get a).next = rest.head? := by
    rintro a rest s ⟨es', stats', hs, hmap, -⟩
    have horder := hs.represents.holds.order
    rw [hmap] at horder
    exact @Doubly.next_eq _ [] rest a _ _ _ _ horder
  have hbody : ∀ a rest s, Writing hashFcn (writeStats dbStats stats) (a :: rest) s →
      ∃ s', writeStat junk s a = some s' ∧ Writing hashFcn (writeStats dbStats stats) rest s' := by
    rintro a rest s ⟨es', stats', hs, hmap, hw⟩
    obtain ⟨e, es', rfl, rfl, rfl⟩ := List.map_eq_cons_iff.mp hmap
    obtain ⟨hash, hdel, rfl, htail⟩ := hs.tail junk
    refine ⟨(StatMemory.free junk { s.1 with hash := hash } e.1, _), ?_, _, _, htail, rfl, hw⟩
    show (hashDelete s.1.hash e.1).bind _ = _
    rw [hdel]
    rfl
  have hlen := cnt_spec h.represents.holds
  obtain ⟨⟨m', db⟩, hiter, -, es', stats', hs, hmap, hw⟩ := @iterate_eq _ _ _ _ (m, dbStats)
    (es.map Prod.fst) (hashCnt m.hash) (Writing hashFcn (writeStats dbStats stats)) hnext hbody
    ⟨es, stats, h, rfl, rfl⟩ hlen.ge
  obtain rfl : es' = [] := List.map_eq_nil_iff.mp hmap
  have hstats : stats' = [] := hs.entries.symm
  rw [hstats] at hw
  refine ⟨m', ?_, hs.represents.holds.head_eq⟩
  unfold writeStatsAt
  rw [h.represents.holds.head_eq]
  exact hiter.trans (congrArg (fun db => some (m', db)) hw)

omit [LinearOrder S] in
theorem prefix_loadStatsFrom {fuel : ℕ} {slice : Option ℕ} :
    stats <+: loadStatsFrom dbStats fuel slice stats := by
  induction fuel generalizing slice stats with
  | zero => exact List.prefix_rfl
  | succ fuel ih =>
    rw [loadStatsFrom]
    cases (leveldbGetNext dbStats slice).2 with
    | none => exact List.prefix_rfl
    | some p => exact (List.prefix_append _ _).trans ih

omit [LinearOrder S] in
theorem InMemory.loadFrom {fuel : ℕ} {slice : Option ℕ} {as : List A} (h : InMemory hashFcn m es stats)
    (has : (es.map Prod.fst ++ as).Nodup)
    (hd : HashTable.Distinct MdhimStat.key (loadStatsFrom dbStats fuel slice stats))
    (hlen : (loadStatsFrom dbStats fuel slice stats).length ≤ stats.length + as.length) :
    ∃ m' es', loadStatsFromAt hashFcn dbStats fuel slice as m = some m' ∧
      InMemory hashFcn m' es' (loadStatsFrom dbStats fuel slice stats) := by
  induction fuel generalizing slice as m es stats with
  | zero => exact ⟨m, es, rfl, h⟩
  | succ fuel ih =>
    rw [loadStatsFrom] at hd hlen ⊢
    unfold loadStatsFromAt
    cases hnext : (leveldbGetNext dbStats slice).2 with
    | none => exact ⟨m, es, rfl, h⟩
    | some p =>
      obtain ⟨slice', val⟩ := p
      rw [hnext] at hd hlen
      have hmore := (@prefix_loadStatsFrom _ (HashTable.add stats (val.load slice')) dbStats fuel
        (some slice')).length_le
      cases as with
      | nil =>
        rw [HashTable.add, List.length_append, List.length_singleton] at hmore
        exact absurd (hmore.trans hlen) (by simp)
      | cons a as =>
        have hself : (m.fill a (val.load slice')).stat a = val.load slice' :=
          Function.update_self _ _ _
        have hfresh : a ∉ es.map Prod.fst := fun hmem =>
          (List.nodup_append.mp has).2.2 a hmem a List.mem_cons_self rfl
        have hnone : HashTable.find MdhimStat.key stats (val.load slice').key = none := by
          have hadded := hd.sublist (prefix_loadStatsFrom.sublist.map MdhimStat.key)
          rw [HashTable.add, List.map_append] at hadded
          refine HashTable.find_eq_none.mpr fun stat hstat he => ?_
          exact (List.nodup_append.mp hadded).2.2 _ (List.mem_map_of_mem hstat) _
            (List.mem_singleton_self _) he
        obtain ⟨hash, hadd, h'⟩ := h.add hfresh (val.load slice') hnone
        have has' : ((HashTable.add es (a, (val.load slice').key)).map Prod.fst ++ as).Nodup := by
          simpa [HashTable.add] using has
        have hlen' : (loadStatsFrom dbStats fuel (some slice')
            (HashTable.add stats (val.load slice'))).length ≤
            (HashTable.add stats (val.load slice')).length + as.length := by
          rw [HashTable.add, List.length_append, List.length_singleton, add_right_comm, add_assoc]
          exact hlen
        obtain ⟨m', es', hload, hend⟩ := ih h' has' hd hlen'
        refine ⟨m', es', ?_, hend⟩
        show (hashAddKeyptr hashFcn m.hash ((m.fill a (val.load slice')).stat a).key a).bind _ = _
        rw [hself, hadd]
        exact hload

omit [LinearOrder S] in
theorem length_loadStats_writeStats :
    (loadStats (writeStats dbStats stats)).length ≤ dbStats.toList.length + stats.length := by
  rw [loadStats_eq, List.length_map]
  induction stats generalizing dbStats with
  | nil => exact le_rfl
  | cons stat stats ih =>
    have hins : (dbStats.insert (toUInt32 stat.key) stat.toDb).toList.length ≤
        dbStats.toList.length + 1 := by
      have hlen : ∀ db : OrdMap ℕ (MdhimDbStat S), db.toList.length = db.keys.length := fun db =>
        (List.length_map _).symm
      rw [hlen, hlen]
      by_cases hmem : toUInt32 stat.key ∈ dbStats.keys
      · rw [(OrdMap.keys_insert_perm_of_mem hmem _).length_eq]
        exact Nat.le_succ _
      · rw [(OrdMap.keys_insert_perm_of_not_mem hmem _).length_eq]
        exact le_rfl
    have hrec := @ih (dbStats.insert (toUInt32 stat.key) stat.toDb)
    have hstep : writeStats dbStats (stat :: stats) =
        writeStats (dbStats.insert (toUInt32 stat.key) stat.toDb) stats := rfl
    rw [hstep, List.length_cons]
    omega

/-! ## Runs -/

/-- The hash and its database are the list and its database. -/
def Refines (hashFcn : ℤ → ℕ) (s : StatMemory A S × OrdMap ℕ (MdhimDbStat S))
    (t : List (MdhimStat S) × OrdMap ℕ (MdhimDbStat S)) : Prop :=
  s.2 = t.2 ∧ StatsOk t.2 t.1 ∧ ∃ es, InMemory hashFcn s.1 es t.1

variable {junk : Junk A S} {κ : Keying K S}

theorem refines_step {s : StatMemory A S × OrdMap ℕ (MdhimDbStat S)}
    {t : List (MdhimStat S) × OrdMap ℕ (MdhimDbStat S)} {c : StatCall A K} (h : Refines hashFcn s t)
    (hc : c.Fresh s) : Option.Rel (Refines hashFcn) (statMemoryStep hashFcn junk κ s c)
      (statListStep κ t c) := by
  obtain ⟨m, db⟩ := s
  obtain ⟨stats, db'⟩ := t
  obtain ⟨hdb, hok, es, hm⟩ := h
  obtain rfl : db = db' := hdb
  cases c with
  | update key a =>
    have ha : a ∉ (hashIter m.hash).getD [] := hc
    rw [iter_spec hm.represents.holds] at ha
    obtain ⟨m', es', hupdate, hm'⟩ := hm.update ha junk κ key
    show Option.Rel _ ((updateAllStatsAt hashFcn junk κ m key a).map _) _
    rw [show updateAllStatsAt hashFcn junk κ m key a = some m' from hupdate]
    exact .some ⟨rfl, hok.updateAllStats key, es', hm'⟩
  | restart as =>
    obtain ⟨m₁, hwrite, hhead⟩ := hm.written junk db
    have hcnt : hashCnt m.hash = stats.length := by
      obtain rfl := hm.entries
      simp [cnt_spec hm.represents.holds]
    have hlen : (loadStats (writeStats db stats)).length ≤ as.length :=
      length_loadStats_writeStats.trans (hcnt ▸ hc.2)
    obtain ⟨m', es', hload, hm'⟩ := (inMemory_nil m₁ hhead).loadFrom hc.1 (distinct_loadStats hok)
      (hlen.trans (Nat.le_add_left _ _))
    show Option.Rel _ ((writeStatsAt junk m db).bind _) _
    rw [show writeStatsAt junk m db = _ from hwrite, Option.bind_some]
    show Option.Rel _ ((loadStatsAt hashFcn (writeStats db stats) as m₁).bind _) _
    rw [show loadStatsAt hashFcn (writeStats db stats) as m₁ = some m' from hload]
    exact .some ⟨rfl, hok.restart, es', hm'⟩

omit [DecidableEq A] in
/-- On lists every step is possible. -/
theorem exists_exec_statListStep (ls : List (StatCall A K))
    (s : List (MdhimStat S) × OrdMap ℕ (MdhimDbStat S)) :
    ∃ t, exec (statListStep κ) s ls = some t := by
  induction ls generalizing s with
  | nil => exact ⟨s, rfl⟩
  | cons c ls ih =>
    cases c with
    | update key a => exact ih _
    | restart as => exact ih _

/-- Statistics without entries. -/
def noStats : StatMemory ℕ ℕ :=
  ⟨⟨none, ⟨fun _ => ⟨none, none, none, none, 0, 0⟩⟩, hashMakeTable 0⟩, fun _ => ⟨0, 0, 0, 0⟩⟩

end MpiToShmem
