import MpiToShmem.Kit.OrdMap
import MpiToShmem.Mdhim.Partitioner

/-!
# The LevelDB store

The store functions over a LevelDB database, which is an ordered map under its comparator. A
LevelDB call that reports an error changes nothing; `ok` says whether it does not.

`leveldbGet` takes a value of length 0 for a missing one; the cursor functions do not.
-/

namespace MpiToShmem

open Kit

/-- The bytes of a value. -/
abbrev Value := List UInt8

variable {K V : Type*} [LinearOrder K]

/-- `mdhim_leveldb_put`. -/
def leveldbPut (ok : Bool) (db : OrdMap K V) (key : K) (data : V) : OrdMap K V × ℤ :=
  if ok then (db.insert key data, mdhimSuccess) else (db, mdhimDbError)

/-- All the records of a batch, in order. -/
def putAll (db : OrdMap K V) (recs : List (K × V)) : OrdMap K V :=
  recs.foldl (fun db r => db.insert r.1 r.2) db

/-- `mdhim_leveldb_batch_put`. -/
def leveldbBatchPut (ok : Bool) (db : OrdMap K V) (recs : List (K × V)) : OrdMap K V × ℤ :=
  if ok then (putAll db recs, mdhimSuccess) else (db, mdhimDbError)

/-- `mdhim_leveldb_get`. -/
def leveldbGet (ok : Bool) (db : OrdMap K Value) (key : K) : ℤ × Option Value :=
  if ok then
    match db.get key with
    | none => (mdhimDbError, none)
    | some v => if v.length = 0 then (mdhimDbError, none) else (mdhimSuccess, some v)
  else (mdhimDbError, none)

/-- `mdhim_leveldb_del`. -/
def leveldbDel (ok : Bool) (db : OrdMap K V) (key : K) : OrdMap K V × ℤ :=
  if ok then (db.erase key, mdhimSuccess) else (db, mdhimDbError)

/-- What the cursor functions return from where the cursor stands. -/
def cursorResult (iter : OrdMap.Cursor K V) : ℤ × Option (K × V) :=
  match iter.entry with
  | none => (mdhimDbError, none)
  | some p => (mdhimSuccess, some p)

/-- `mdhim_leveldb_get_next`. -/
def leveldbGetNext (db : OrdMap K V) : Option K → ℤ × Option (K × V)
  | none => cursorResult db.seekToFirst
  | some key =>
    if (db.seek key).entry.isNone then (mdhimDbError, none) else cursorResult (db.seek key).next

/-- `mdhim_leveldb_get_prev`. -/
def leveldbGetPrev (db : OrdMap K V) : Option K → ℤ × Option (K × V)
  | none => cursorResult db.seekToLast
  | some key =>
    if (db.seek key).entry.isNone then (mdhimDbError, none) else cursorResult (db.seek key).prev

/-! ## Get -/

theorem leveldbGet_snd_eq_some {ok : Bool} {db : OrdMap K Value} {key : K} {v : Value} :
    (leveldbGet ok db key).2 = some v ↔ ok = true ∧ db.get key = some v ∧ v ≠ [] := by
  unfold leveldbGet
  cases ok with
  | false => simp
  | true =>
    cases hg : db.get key with
    | none => simp
    | some u =>
      by_cases hu : u.length = 0
      · simp only [if_true, if_pos hu]
        rw [List.length_eq_zero_iff] at hu
        simp only [Option.some.injEq, true_and]
        constructor
        · intro h
          cases h
        · rintro ⟨rfl, hne⟩
          exact absurd hu hne
      · simp only [if_true, if_neg hu, Option.some.injEq, true_and]
        constructor
        · rintro rfl
          exact ⟨rfl, fun h => hu (by rw [h]; rfl)⟩
        · exact fun h => h.1

/-- Without failures, a get finds every value that is not empty. -/
theorem leveldbGet_true (db : OrdMap K Value) (key : K) :
    (leveldbGet true db key).2 = (db.get key).filter fun v => v ≠ [] := by
  apply Option.ext
  intro v
  rw [leveldbGet_snd_eq_some, Option.filter_eq_some_iff]
  simp

/-- A get is successful exactly when it finds a value. -/
theorem leveldbGet_fst {ok : Bool} {db : OrdMap K Value} {key : K} :
    (leveldbGet ok db key).1 = mdhimSuccess ↔ (leveldbGet ok db key).2.isSome := by
  unfold leveldbGet
  cases ok with
  | false => simp [mdhimDbError, mdhimSuccess]
  | true =>
    cases db.get key with
    | none => simp [mdhimDbError, mdhimSuccess]
    | some u => by_cases hu : u.length = 0 <;> simp [hu, mdhimDbError, mdhimSuccess]

/-! ## Writes -/

/-- A delete, failed or not, leaves no key that was not there. -/
theorem mem_keys_of_mem_leveldbDel {ok : Bool} {db : OrdMap K V} {key k : K}
    (h : k ∈ (leveldbDel ok db key).1.keys) : k ∈ db.keys := by
  cases ok with
  | false => exact h
  | true => exact (OrdMap.mem_keys_erase.mp h).2

/-- Deleting a key that is not stored changes nothing. -/
theorem leveldbDel_of_not_mem {ok : Bool} {db : OrdMap K V} {key : K} (h : key ∉ db.keys) :
    (leveldbDel ok db key).1 = db := by
  cases ok with
  | false => rfl
  | true => exact OrdMap.erase_of_get_none (OrdMap.get_eq_none.mpr h)

theorem mem_keys_putAll {db : OrdMap K V} {recs : List (K × V)} {k : K} :
    k ∈ (putAll db recs).keys ↔ k ∈ recs.map Prod.fst ∨ k ∈ db.keys := by
  induction recs generalizing db with
  | nil => simp [putAll]
  | cons r recs ih =>
    show k ∈ (putAll (db.insert r.1 r.2) recs).keys ↔ _
    rw [ih, OrdMap.mem_keys_insert, List.map_cons, List.mem_cons]
    tauto

/-! ## Cursors -/

omit [LinearOrder K] in
theorem cursorResult_snd (iter : OrdMap.Cursor K V) : (cursorResult iter).2 = iter.after.head? := by
  unfold cursorResult OrdMap.Cursor.entry
  cases iter.after.head? <;> rfl

omit [LinearOrder K] in
theorem cursorResult_fst (iter : OrdMap.Cursor K V) :
    (cursorResult iter).1 = mdhimSuccess ↔ (cursorResult iter).2.isSome := by
  unfold cursorResult
  cases iter.entry <;> simp [mdhimDbError, mdhimSuccess]

theorem leveldbGetNext_none (db : OrdMap K V) : (leveldbGetNext db none).2 = db.toList.head? :=
  cursorResult_snd _

/-- After a stored key comes the first key above it. -/
theorem leveldbGetNext_of_mem {db : OrdMap K V} {key : K} (h : key ∈ db.keys) :
    (leveldbGetNext db (some key)).2 = (db.toList.filter fun p => key < p.1).head? := by
  have hne : (db.seek key).entry.isNone = false := by
    obtain ⟨⟨k, v⟩, hp, rfl⟩ := List.mem_map.mp h
    rw [OrdMap.Cursor.entry, OrdMap.seek_after, OrdMap.filter_le_of_mem db.sorted hp]
    rfl
  rw [leveldbGetNext, if_neg (by rw [hne]; simp), cursorResult_snd, OrdMap.seek_next_of_mem h]

/-- After a key that is not stored comes the second key above it: the cursor steps over the
first. -/
theorem leveldbGetNext_of_not_mem {db : OrdMap K V} {key : K} (h : key ∉ db.keys) :
    (leveldbGetNext db (some key)).2 = (db.toList.filter fun p => key < p.1).tail.head? := by
  rw [leveldbGetNext]
  by_cases hn : (db.seek key).entry.isNone
  · rw [if_pos hn]
    have hnil : (db.seek key).after = [] := by
      rwa [OrdMap.Cursor.entry, Option.isNone_iff_eq_none, List.head?_eq_none_iff] at hn
    rw [← OrdMap.seek_next_of_not_mem h, OrdMap.next_after, hnil]
    rfl
  · rw [if_neg hn, cursorResult_snd, OrdMap.seek_next_of_not_mem h]

/-- The cursor at the first key. -/
theorem leveldbGetNext_first {db : OrdMap K V} {j : K} (h : IsLeast {i | i ∈ db.keys} j) :
    ∃ v, db.get j = some v ∧ (leveldbGetNext db none).2 = some (j, v) := by
  have hset : {i | i ∈ db.keys} = {i | i ∈ db.keys ∧ (fun _ : K => true) i} := by simp
  rw [hset] at h
  obtain ⟨v, hhead, hget⟩ := OrdMap.head?_filter_of_isLeast h
  rw [List.filter_true] at hhead
  exact ⟨v, hget, (leveldbGetNext_none db).trans hhead⟩

theorem isLeast_later {db : OrdMap K V} {key j : K} (h : IsLeast {i | i ∈ db.keys ∧ key < i} j) :
    ∃ v, (db.toList.filter fun p => key < p.1).head? = some (j, v) ∧ db.get j = some v := by
  have hset : {i | i ∈ db.keys ∧ key < i} = {i | i ∈ db.keys ∧ (fun i : K => decide (key < i)) i} := by
    simp
  rw [hset] at h
  exact OrdMap.head?_filter_of_isLeast h

/-- From a stored key the cursor gets to the next one. -/
theorem leveldbGetNext_of_isLeast {db : OrdMap K V} {key j : K} (hkey : key ∈ db.keys)
    (h : IsLeast {i | i ∈ db.keys ∧ key < i} j) :
    ∃ v, db.get j = some v ∧ (leveldbGetNext db (some key)).2 = some (j, v) := by
  obtain ⟨v, hhead, hget⟩ := isLeast_later h
  exact ⟨v, hget, (leveldbGetNext_of_mem hkey).trans hhead⟩

/-- From a key that is not stored the cursor never gets to the next one. -/
theorem leveldbGetNext_ne_of_isLeast {db : OrdMap K V} {key j : K} (hkey : key ∉ db.keys)
    (h : IsLeast {i | i ∈ db.keys ∧ key < i} j) {p : K × V}
    (hp : (leveldbGetNext db (some key)).2 = some p) : p.1 ≠ j := by
  obtain ⟨v, hhead, -⟩ := isLeast_later h
  have hs : (db.toList.filter fun p => key < p.1).Pairwise fun a b => a.1 < b.1 := db.sorted.filter _
  rw [leveldbGetNext_of_not_mem hkey] at hp
  cases hl : db.toList.filter fun p => key < p.1 with
  | nil =>
    rw [hl] at hhead
    cases hhead
  | cons q l =>
    rw [hl] at hhead hp hs
    obtain rfl := Option.some.inj hhead
    exact ((List.pairwise_cons.mp hs).1 p (List.mem_of_mem_head? hp)).ne'

/-- No key follows the last one. -/
theorem leveldbGetNext_eq_none {db : OrdMap K V} {key : K} (h : ∀ i ∈ db.keys, ¬ key < i) :
    (leveldbGetNext db (some key)).2 = none := by
  have hnil : db.toList.filter (fun p => key < p.1) = [] := by
    rw [OrdMap.filter_eq_nil (q := fun i => key < i)]
    simpa using h
  by_cases hkey : key ∈ db.keys
  · rw [leveldbGetNext_of_mem hkey, hnil]
    rfl
  · rw [leveldbGetNext_of_not_mem hkey, hnil]
    rfl

end MpiToShmem
