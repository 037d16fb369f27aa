import MpiToShmem.Kit.Runs
import MpiToShmem.Mdhim.Stats

/-!
# A range server

The database, the statistics and the database of the statistics, and the handlers of the messages
that read and write them. A handler returns the state after it and the error code of its reply.

`serverStep` is one message or one clean restart; its labels carry the outcome of every LevelDB
call (`StoreIo`).
-/

namespace MpiToShmem

open Kit

/-- `MAX_BULK_OPS`. -/
def maxBulkOps : ℕ := 1000000

variable {K S : Type} [LinearOrder K] [LinearOrder S]

/-- `mdhim_rs_t`: what the handlers use of it. -/
structure RangeServer (K S : Type) [LinearOrder K] where
  db : OrdMap K Value
  stats : List (MdhimStat S)
  dbStats : OrdMap ℕ (MdhimDbStat S)

/-- A range server over new databases. -/
def RangeServer.init : RangeServer K S := ⟨.empty, [], .empty⟩

/-- The outcomes of the LevelDB calls that one message leads to: those about its `i`-th record,
and the write of a put or a batch. -/
structure StoreIo where
  get : ℕ → Bool
  put : Bool
  del : ℕ → Bool

/-- No call fails. -/
def StoreIo.ok : StoreIo := ⟨fun _ => true, true, fun _ => true⟩

variable (κ : Keying K S) (append : Bool)

/-! ## Puts -/

/-- The value that a put writes over an old one: in append mode their concatenation, whose length
is an `int`. -/
def newValue (old : Option Value) (value : Value) : Option Value :=
  match old with
  | none => some value
  | some v =>
    if append then
      if (v.length : ℤ) + value.length ≤ intMax then some (v ++ value) else none
    else some value

/-- `range_server_put`. -/
def rangeServerPut (io : StoreIo) (s : RangeServer K S) (key : K) (value : Value) :
    Option (RangeServer K S × ℤ) := do
  let old := (leveldbGet (io.get 0) s.db key).2
  let value ← newValue append old value
  let (db, error) := leveldbPut io.put s.db key value
  let stats :=
    if old.isNone ∧ error = mdhimSuccess then updateAllStats κ s.stats key else s.stats
  return ({ s with db := db, stats := stats }, error)

/-- A record of a bulk put, with the value to write and whether its key exists. -/
structure BputRec (K : Type) where
  key : K
  value : Value
  exists_ : Bool

/-- The first loop of `range_server_bput`, from record `i` on: every get comes before the write. -/
def bputRecs (io : StoreIo) (db : OrdMap K Value) : ℕ → List (K × Value) → Option (List (BputRec K))
  | _, [] => some []
  | i, (key, value) :: recs => do
    let old := (leveldbGet (io.get i) db key).2
    let value ← newValue append old value
    let rest ← bputRecs io db (i + 1) recs
    return ⟨key, value, old.isSome⟩ :: rest

/-- The second loop of `range_server_bput`, after a batch that was written. -/
def bputStats (stats : List (MdhimStat S)) (recs : List (BputRec K)) : List (MdhimStat S) :=
  recs.foldl (fun stats r => if r.exists_ then stats else updateAllStats κ stats r.key) stats

/-- `range_server_bput`. Past `MAX_BULK_OPS` records the batch would read values that the first
loop did not set. -/
def rangeServerBput (io : StoreIo) (s : RangeServer K S) (recs : List (K × Value)) :
    Option (RangeServer K S × ℤ) :=
  if maxBulkOps < recs.length then none
  else do
    let brecs ← bputRecs append io s.db 0 recs
    let (db, error) := leveldbBatchPut io.put s.db (brecs.map fun r => (r.key, r.value))
    let stats := if error = mdhimSuccess then bputStats κ s.stats brecs else s.stats
    return ({ s with db := db, stats := stats }, error)

/-! ## Deletes -/

/-- `range_server_del`. -/
def rangeServerDel (io : StoreIo) (s : RangeServer K S) (key : K) : RangeServer K S × ℤ :=
  let (db, error) := leveldbDel (io.del 0) s.db key
  ({ s with db := db }, error)

/-- The loop of `range_server_bdel`, from key `i` on; the last error is kept. -/
def bdelLoop (io : StoreIo) : ℕ → List K → OrdMap K Value → ℤ → OrdMap K Value × ℤ
  | _, [], db, error => (db, error)
  | i, key :: keys, db, error =>
    let (db, ret) := leveldbDel (io.del i) db key
    bdelLoop io (i + 1) keys db (if ret = mdhimSuccess then error else ret)

/-- `range_server_bdel`. -/
def rangeServerBdel (io : StoreIo) (s : RangeServer K S) (keys : List K) : RangeServer K S × ℤ :=
  let (db, error) := bdelLoop io 0 (keys.take maxBulkOps) s.db mdhimSuccess
  ({ s with db := db }, error)

/-! ## Gets -/

/-- The operation of a get, with the key of its message where it is used; `none` is a key of length
zero, which the cursor functions take for no key. -/
inductive GetOp (K : Type) where
  | eq (key : K)
  | next (key : Option K)
  | prev (key : Option K)
  | first
  | last
deriving DecidableEq

/-- `mdhim_getrm_t`: the reply to a get; `none` is a NULL pointer. -/
structure GetReply (K : Type) where
  error : ℤ
  key : Option K
  value : Option Value
deriving DecidableEq

/-- The reply with what a cursor function returned. -/
def GetReply.ofCursor (r : ℤ × Option (K × Value)) : GetReply K :=
  ⟨r.1, r.2.map Prod.fst, r.2.map Prod.snd⟩

/-- `range_server_get`. -/
def rangeServerGet (ok : Bool) (s : RangeServer K S) : GetOp K → GetReply K
  | .eq key =>
    let (error, value) := leveldbGet ok s.db key
    ⟨error, some key, value⟩
  | .next key => .ofCursor (leveldbGetNext s.db key)
  | .prev key => .ofCursor (leveldbGetPrev s.db key)
  | .first => .ofCursor (leveldbGetNext s.db none)
  | .last => .ofCursor (leveldbGetPrev s.db none)

/-! ## Steps -/

/-- `range_server_stop`, which writes the statistics, then `range_server_init`, which loads
them. -/
def RangeServer.restart (s : RangeServer K S) : RangeServer K S :=
  let dbStats := writeStats s.dbStats s.stats
  { s with stats := loadStats dbStats, dbStats := dbStats }

/-- What can happen to a range server that changes it. -/
inductive ServerLabel (K : Type) where
  | put (io : StoreIo) (key : K) (value : Value)
  | bput (io : StoreIo) (recs : List (K × Value))
  | del (io : StoreIo) (key : K)
  | bdel (io : StoreIo) (keys : List K)
  | restart

/-- One message or restart. -/
def serverStep (s : RangeServer K S) : ServerLabel K → Option (RangeServer K S)
  | .put io key value => (rangeServerPut κ append io s key value).map Prod.fst
  | .bput io recs => (rangeServerBput κ append io s recs).map Prod.fst
  | .del io key => some (rangeServerDel io s key).1
  | .bdel io keys => some (rangeServerBdel io s keys).1
  | .restart => some s.restart

/-! ## What the steps do -/

variable {κ append} {io : StoreIo} {s s' : RangeServer K S} {key : K} {value : Value}
  {recs : List (K × Value)} {error : ℤ}

/-- A put writes one value, and counts its key when it found no old value. -/
theorem rangeServerPut_cases (h : rangeServerPut κ append io s key value = some (s', error)) :
    (io.put = false ∧ error = mdhimDbError ∧ s' = s) ∨
      (io.put = true ∧ error = mdhimSuccess ∧ ∃ v,
        newValue append (leveldbGet (io.get 0) s.db key).2 value = some v ∧
        s' = { s with
          db := s.db.insert key v
          stats := if (leveldbGet (io.get 0) s.db key).2.isNone then updateAllStats κ s.stats key
            else s.stats }) := by
  unfold rangeServerPut at h
  obtain ⟨v, hv, h⟩ := Option.bind_eq_some_iff.mp h
  cases hp : io.put with
  | false =>
    left
    simp only [leveldbPut, hp, Bool.false_eq_true, if_false, pure, Option.some.injEq,
      Prod.mk.injEq] at h
    obtain ⟨rfl, rfl⟩ := h
    exact ⟨rfl, rfl, by simp [mdhimDbError, mdhimSuccess]⟩
  | true =>
    right
    simp only [leveldbPut, hp, if_true, pure, Option.some.injEq, Prod.mk.injEq, and_true] at h
    obtain ⟨rfl, rfl⟩ := h
    exact ⟨rfl, rfl, v, hv, rfl⟩

/-- A bulk put writes the prepared records in one batch, and then counts the new keys. -/
theorem rangeServerBput_cases (h : rangeServerBput κ append io s recs = some (s', error)) :
    recs.length ≤ maxBulkOps ∧ ∃ brecs, bputRecs append io s.db 0 recs = some brecs ∧
      ((io.put = false ∧ error = mdhimDbError ∧ s' = s) ∨
        (io.put = true ∧ error = mdhimSuccess ∧ s' = { s with
          db := putAll s.db (brecs.map fun r => (r.key, r.value))
          stats := bputStats κ s.stats brecs })) := by
  unfold rangeServerBput at h
  split_ifs at h with hlen
  obtain ⟨brecs, hb, h⟩ := Option.bind_eq_some_iff.mp h
  refine ⟨not_lt.mp hlen, brecs, hb, ?_⟩
  cases hp : io.put with
  | false =>
    left
    simp only [leveldbBatchPut, hp, Bool.false_eq_true, if_false, pure, Option.some.injEq,
      Prod.mk.injEq] at h
    obtain ⟨rfl, rfl⟩ := h
    exact ⟨rfl, rfl, by simp [mdhimDbError, mdhimSuccess]⟩
  | true =>
    right
    simp only [leveldbBatchPut, hp, if_true, pure, Option.some.injEq, Prod.mk.injEq] at h
    obtain ⟨rfl, rfl⟩ := h
    exact ⟨rfl, rfl, rfl⟩

/-- The prepared records have the keys of the message, and one that exists is stored. -/
theorem bputRecs_keys {db : OrdMap K Value} {i : ℕ} {brecs : List (BputRec K)}
    (h : bputRecs append io db i recs = some brecs) :
    brecs.map BputRec.key = recs.map Prod.fst ∧
      ∀ r ∈ brecs, r.exists_ = true → r.key ∈ db.keys := by
  induction recs generalizing i brecs with
  | nil =>
    cases h
    exact ⟨rfl, fun r hr => by cases hr⟩
  | cons r recs ih =>
    obtain ⟨key, value⟩ := r
    unfold bputRecs at h
    obtain ⟨v, -, h⟩ := Option.bind_eq_some_iff.mp h
    obtain ⟨rest, hrest, h⟩ := Option.bind_eq_some_iff.mp h
    simp only [pure, Option.some.injEq] at h
    subst h
    obtain ⟨hkeys, hex⟩ := ih hrest
    refine ⟨by rw [List.map_cons, List.map_cons, hkeys], fun r hr he => ?_⟩
    rcases List.mem_cons.mp hr with rfl | hr
    · obtain ⟨old, hold⟩ := Option.isSome_iff_exists.mp he
      have hget := (leveldbGet_snd_eq_some.mp hold).2.1
      exact OrdMap.mem_keys.mpr (by rw [hget]; exact Option.some_ne_none old)
    · exact hex r hr he

omit [LinearOrder S] in
/-- A bulk delete leaves no key that was not there. -/
theorem mem_keys_of_mem_bdelLoop {keys : List K} {i : ℕ} {db : OrdMap K Value} {k : K}
    (h : k ∈ (bdelLoop io i keys db error).1.keys) : k ∈ db.keys := by
  induction keys generalizing i db error with
  | nil => exact h
  | cons key keys ih => exact mem_keys_of_mem_leveldbDel (ih h)

end MpiToShmem
