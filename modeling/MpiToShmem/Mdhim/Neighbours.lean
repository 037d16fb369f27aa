import MpiToShmem.Mdhim.Store

/-!
# The neighbours of a key

What `mdhim_leveldb_get_next` and `mdhim_leveldb_get_prev` return for a key, stored or not. The
iterator seeks to the first key at or above the given one. If that is another key, the step forward
passes over the next key; if there is none, the step back is never made (`getsNeighbours_iff`).
-/

namespace MpiToShmem

open Kit

variable {K V : Type*} [LinearOrder K] {db : OrdMap K V} {key j : K} {v : V}

/-- `mdhim_leveldb_get_next` finds the least key above the given one, with its value, and reports
an error exactly when there is none. -/
structure GetsNext (db : OrdMap K V) (key : K) : Prop where
  found (j : K) (v : V) : leveldbGetNext db (some key) = (mdhimSuccess, some (j, v)) ↔
    IsLeast {i | i ∈ db.keys ∧ key < i} j ∧ db.get j = some v
  error : (leveldbGetNext db (some key)).1 = mdhimDbError ↔ ∀ i ∈ db.keys, ¬ key < i

/-- `mdhim_leveldb_get_prev` finds the greatest key below the given one, with its value, and reports
an error exactly when there is none. -/
structure GetsPrev (db : OrdMap K V) (key : K) : Prop where
  found (j : K) (v : V) : leveldbGetPrev db (some key) = (mdhimSuccess, some (j, v)) ↔
    IsGreatest {i | i ∈ db.keys ∧ i < key} j ∧ db.get j = some v
  error : (leveldbGetPrev db (some key)).1 = mdhimDbError ↔ ∀ i ∈ db.keys, ¬ i < key

/-! ## Results of the cursor functions -/

omit [LinearOrder K] in
theorem cursorResult_eq_some {iter : OrdMap.Cursor K V} {p : K × V} :
    cursorResult iter = (mdhimSuccess, some p) ↔ iter.entry = some p := by
  unfold cursorResult
  cases iter.entry with
  | none => simp
  | some q => simp

omit [LinearOrder K] in
theorem cursorResult_fst_eq_error {iter : OrdMap.Cursor K V} :
    (cursorResult iter).1 = mdhimDbError ↔ iter.entry = none := by
  unfold cursorResult
  cases iter.entry with
  | none => simp
  | some q => simp [mdhimDbError, mdhimSuccess]

/-- The iterator is not valid after a seek above all keys. -/
theorem seek_entry_isNone : (db.seek key).entry.isNone ↔ ∀ i ∈ db.keys, i < key := by
  rw [OrdMap.Cursor.entry, OrdMap.seek_after, Option.isNone_iff_eq_none, List.head?_eq_none_iff,
    OrdMap.filter_eq_nil (q := fun i => key ≤ i)]
  simp

theorem leveldbGetNext_of_above (h : ∀ i ∈ db.keys, i < key) :
    leveldbGetNext db (some key) = (mdhimDbError, none) :=
  if_pos (seek_entry_isNone.mpr h)

theorem leveldbGetNext_of_le {i : K} (hi : i ∈ db.keys) (hle : key ≤ i) :
    leveldbGetNext db (some key) = cursorResult (db.seek key).next :=
  if_neg fun h => not_lt.mpr hle (seek_entry_isNone.mp h i hi)

theorem leveldbGetPrev_of_above (h : ∀ i ∈ db.keys, i < key) :
    leveldbGetPrev db (some key) = (mdhimDbError, none) :=
  if_pos (seek_entry_isNone.mpr h)

theorem leveldbGetPrev_of_le {i : K} (hi : i ∈ db.keys) (hle : key ≤ i) :
    leveldbGetPrev db (some key) = cursorResult (db.seek key).prev :=
  if_neg fun h => not_lt.mpr hle (seek_entry_isNone.mp h i hi)

/-! ## Next -/

/-- The first of the keys above a key. -/
theorem head?_above : (db.toList.filter fun p => key < p.1).head? = some (j, v) ↔
    IsLeast {i | i ∈ db.keys ∧ key < i} j ∧ db.get j = some v := by
  have h := OrdMap.head?_filter_eq_some (m := db) (q := fun i => key < i) (j := j) (v := v)
  simpa using h

theorem head?_above_eq_none :
    (db.toList.filter fun p => key < p.1).head? = none ↔ ∀ i ∈ db.keys, ¬ key < i := by
  rw [List.head?_eq_none_iff, OrdMap.filter_eq_nil (q := fun i => key < i)]
  simp

/-- From a stored key one step forward is right. -/
theorem getsNext_of_mem (h : key ∈ db.keys) : GetsNext db key := by
  have hentry : (db.seek key).next.entry = (db.toList.filter fun p => key < p.1).head? := by
    rw [OrdMap.Cursor.entry, OrdMap.seek_next_of_mem h]
  refine ⟨fun j v => ?_, ?_⟩
  · rw [leveldbGetNext_of_le h le_rfl, cursorResult_eq_some, hentry, head?_above]
  · rw [leveldbGetNext_of_le h le_rfl, cursorResult_fst_eq_error, hentry, head?_above_eq_none]

/-- Above all keys the invalid iterator is right. -/
theorem getsNext_of_above (h : ∀ i ∈ db.keys, i < key) : GetsNext db key := by
  refine ⟨fun j v => ?_, ?_⟩
  · rw [leveldbGetNext_of_above h]
    simp only [Prod.mk.injEq, reduceCtorEq, and_false, false_iff]
    rintro ⟨⟨⟨hj, hlt⟩, -⟩, -⟩
    exact lt_asymm hlt (h j hj)
  · rw [leveldbGetNext_of_above h]
    simp only [true_iff]
    exact fun i hi => lt_asymm (h i hi)

/-- A key that is not stored, with stored keys above it: the least of them is passed over. -/
theorem not_getsNext {i : K} (hkey : key ∉ db.keys) (hi : i ∈ db.keys) (hlt : key < i) :
    ¬ GetsNext db key := by
  intro h
  cases hhead : (db.toList.filter fun p => key < p.1).head? with
  | none => exact head?_above_eq_none.mp hhead i hi hlt
  | some p =>
    obtain ⟨j, v⟩ := p
    obtain ⟨hleast, hget⟩ := head?_above.mp hhead
    have hfound := (h.found j v).mpr ⟨hleast, hget⟩
    exact leveldbGetNext_ne_of_isLeast hkey hleast (congrArg Prod.snd hfound) rfl

theorem getsNext_iff : GetsNext db key ↔ key ∈ db.keys ∨ ∀ i ∈ db.keys, i < key := by
  constructor
  · intro h
    by_contra hcon
    rw [not_or] at hcon
    obtain ⟨hkey, habove⟩ := hcon
    push Not at habove
    obtain ⟨i, hi, hle⟩ := habove
    exact not_getsNext hkey hi (lt_of_le_of_ne hle fun e => hkey (e ▸ hi)) h
  · rintro (h | h)
    · exact getsNext_of_mem h
    · exact getsNext_of_above h

/-! ## Previous -/

/-- The last of the keys below a key. -/
theorem getLast?_below : (db.toList.filter fun p => p.1 < key).getLast? = some (j, v) ↔
    IsGreatest {i | i ∈ db.keys ∧ i < key} j ∧ db.get j = some v := by
  have h := OrdMap.getLast?_filter_eq_some (m := db) (q := fun i => i < key) (j := j) (v := v)
  simpa using h

theorem getLast?_below_eq_none :
    (db.toList.filter fun p => p.1 < key).getLast? = none ↔ ∀ i ∈ db.keys, ¬ i < key := by
  rw [List.getLast?_eq_none_iff, OrdMap.filter_eq_nil (q := fun i => i < key)]
  simp

/-- With a key at or above the given one, the step back is right, whether that is stored or not. -/
theorem getsPrev_of_le {i : K} (hi : i ∈ db.keys) (hle : key ≤ i) : GetsPrev db key := by
  refine ⟨fun j v => ?_, ?_⟩
  · rw [leveldbGetPrev_of_le hi hle, cursorResult_eq_some, OrdMap.seek_prev_entry, getLast?_below]
  · rw [leveldbGetPrev_of_le hi hle, cursorResult_fst_eq_error, OrdMap.seek_prev_entry,
      getLast?_below_eq_none]

/-- Above all keys it is never made, so no key must be there. -/
theorem getsPrev_of_above (h : ∀ i ∈ db.keys, i < key) : GetsPrev db key ↔ db.keys = [] := by
  have hres := leveldbGetPrev_of_above h
  constructor
  · intro hp
    have hnone := hp.error.mp (by rw [hres])
    rw [List.eq_nil_iff_forall_not_mem]
    exact fun i hi => hnone i hi (h i hi)
  · intro hnil
    refine ⟨fun j v => ?_, ?_⟩
    · rw [hres, hnil]
      simp only [Prod.mk.injEq, reduceCtorEq, and_false, false_iff]
      rintro ⟨⟨⟨hj, -⟩, -⟩, -⟩
      cases hj
    · rw [hres, hnil]
      simp

theorem getsPrev_iff : GetsPrev db key ↔ (∃ i ∈ db.keys, key ≤ i) ∨ db.keys = [] := by
  by_cases h : ∃ i ∈ db.keys, key ≤ i
  · obtain ⟨i, hi, hle⟩ := h
    simp only [getsPrev_of_le hi hle, true_iff]
    exact Or.inl ⟨i, hi, hle⟩
  · simp only [h, false_or]
    push Not at h
    exact getsPrev_of_above h

/-! ## Both -/

/-- Next is right for stored keys and above all keys, previous for every key that is not above all
of them, and both only for stored keys and on an empty database. -/
theorem getsNeighbours_iff (db : OrdMap K V) (key : K) :
    (GetsNext db key ↔ key ∈ db.keys ∨ ∀ i ∈ db.keys, i < key) ∧
      (GetsPrev db key ↔ (∃ i ∈ db.keys, key ≤ i) ∨ db.keys = []) ∧
      (GetsNext db key ∧ GetsPrev db key ↔ key ∈ db.keys ∨ db.keys = []) := by
  refine ⟨getsNext_iff, getsPrev_iff, ?_⟩
  rw [getsNext_iff, getsPrev_iff]
  constructor
  · rintro ⟨hkey | habove, ⟨i, hi, hle⟩ | hnil⟩
    · exact Or.inl hkey
    · exact Or.inl hkey
    · exact absurd (habove i hi) (not_lt.mpr hle)
    · exact Or.inr hnil
  · rintro (hkey | hnil)
    · exact ⟨Or.inl hkey, Or.inl ⟨key, hkey, le_rfl⟩⟩
    · exact ⟨Or.inr (by rw [hnil]; simp), Or.inr hnil⟩

/-- The keys 2 and 4: after 1 and before 5 comes nothing of what should come. -/
theorem not_getsNeighbours : ∃ db : OrdMap ℕ Value, ¬ GetsNext db 1 ∧ ¬ GetsPrev db 5 := by
  refine ⟨(OrdMap.empty.insert 2 [1]).insert 4 [1], ?_, ?_⟩
  · intro h
    have hfound := (h.found 2 [1]).mpr ⟨⟨by decide, ?_⟩, by decide⟩
    · revert hfound
      decide
    · rintro i ⟨-, hi⟩
      exact hi
  · intro h
    exact h.error.mp (by decide) 2 (by decide) (by decide)

end MpiToShmem
