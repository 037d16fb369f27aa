import MpiToShmem.Mdhim.Cursor
import MpiToShmem.Mdhim.Neighbours

/-!
# Bulk cursor reads

A get message with more than one record to get, as `mdhimBGetOp` sends it. The first record is got
by its key, and each other one by moving a cursor from the key before it; the first failure ends the
loop.

`BgetCall` is what the call is documented for: from a stored key upward or downward, or from the
first or the last key, without a key. Without a key there is nothing to get first, so the reply has
no records (`readsRecords_iff`).
-/

namespace MpiToShmem

open Kit

/-- `mdhim_getm_t`: what the handlers use of it. No operation is `MDHIM_GET_EQ`, and no key is one
of length zero. -/
structure GetMsg (K : Type) where
  op : Option CursorOp
  key : Option K
  numRecords : ℤ

/-- `mdhim_bgetrm_t`, with the records that its arrays hold. -/
structure BgetReply (K : Type) where
  error : ℤ
  records : List (K × Value)
  numRecords : ℕ
deriving DecidableEq

/-- The replies to a get message. -/
inductive GetAnswer (K : Type) where
  | getrm (grm : GetReply K)
  | bgetrm (bgrm : BgetReply K)
deriving DecidableEq

variable {K S : Type} [LinearOrder K] [LinearOrder S]

/-- The call to the store for record `i`, from the key got before it. -/
def bgetOpCall (ok : Bool) (db : OrdMap K Value) (op : Option CursorOp) (i : ℕ)
    (getKey : Option K) : ℤ × Option (K × Value) :=
  if i = 0 ∧ getKey = none ∧ (op = some .next ∨ op = some .prev) then (mdhimError, none)
  else
    match op with
    | none => (mdhimSuccess, none)
    | some op =>
      if i = 0 then
        match getKey with
        | none => (mdhimDbError, none)
        | some key => ((leveldbGet ok db key).1, (leveldbGet ok db key).2.map fun v => (key, v))
      else
        match op with
        | .first | .next => leveldbGetNext db getKey
        | .last | .prev => leveldbGetPrev db getKey

/-- The loop of `range_server_bget_op` from record `i` on, with `n` more to get. -/
def bgetOpLoop (ok : Bool) (db : OrdMap K Value) (op : Option CursorOp) :
    ℕ → ℕ → Option K → BgetReply K → BgetReply K
  | 0, _, _, bgrm => bgrm
  | n + 1, i, getKey, bgrm =>
    match bgetOpCall ok db op i getKey with
    | (ret, none) => { bgrm with error := ret }
    | (_, some (key, value)) =>
      bgetOpLoop ok db op n (i + 1) (some key)
        { bgrm with
          records := bgrm.records ++ [(key, value)]
          numRecords := bgrm.numRecords + 1 }

/-- `range_server_bget_op`. -/
def rangeServerBgetOp (ok : Bool) (s : RangeServer K S) (gm : GetMsg K) : BgetReply K :=
  bgetOpLoop ok s.db gm.op (min gm.numRecords.toNat maxBulkOps) 0 gm.key ⟨mdhimSuccess, [], 0⟩

/-- What `worker_thread` does with a get message. -/
def workGet (ok : Bool) (s : RangeServer K S) (gm : GetMsg K) : GetAnswer K :=
  if gm.numRecords > 1 then .bgetrm (rangeServerBgetOp ok s gm)
  else
    match gm.op, gm.key with
    | some op, key => .getrm (rangeServerGet ok s (op.message key))
    | none, some key => .getrm (rangeServerGet ok s (.eq key))
    | none, none => .getrm ⟨mdhimDbError, none, none⟩

/-! ## What is documented -/

/-- A bulk get as `mdhimBGetOp` documents it. -/
inductive BgetCall (db : OrdMap K Value) where
  | next (key : K) (stored : key ∈ db.keys)
  | prev (key : K) (stored : key ∈ db.keys)
  | first
  | last

variable {db : OrdMap K Value}

/-- Its message. -/
def BgetCall.message (numRecords : ℤ) : BgetCall db → GetMsg K
  | next key _ => ⟨some .next, some key, numRecords⟩
  | prev key _ => ⟨some .prev, some key, numRecords⟩
  | first => ⟨some .first, none, numRecords⟩
  | last => ⟨some .last, none, numRecords⟩

/-- The records of the server from where it starts, in its direction. -/
def BgetCall.available : BgetCall db → List (K × Value)
  | next key _ => db.toList.filter fun p => key ≤ p.1
  | prev key _ => (db.toList.filter fun p => p.1 ≤ key).reverse
  | first => db.toList
  | last => db.toList.reverse

/-- The reply is a bulk reply with the first `n` of the available records. -/
def ReadsRecords (s : RangeServer K S) (call : BgetCall s.db) (n : ℕ) : Prop :=
  ∃ bgrm, workGet true s (call.message n) = .bgetrm bgrm ∧
    bgrm.records = call.available.take n ∧ bgrm.numRecords = bgrm.records.length

/-- The first get finds a record, or there is none to be found. -/
def BgetCall.GetsFirst : BgetCall db → Prop
  | next key _ | prev key _ => db.get key ≠ some []
  | first | last => db.keys = []

/-! ## The loop -/

variable {ok : Bool} {op : Option CursorOp} {bgrm : BgetReply K} {n i : ℕ}

theorem bgetOpLoop_none {getKey : Option K} (h : (bgetOpCall ok db op i getKey).2 = none) :
    (bgetOpLoop ok db op (n + 1) i getKey bgrm).records = bgrm.records := by
  unfold bgetOpLoop
  cases hc : bgetOpCall ok db op i getKey with
  | mk ret rec =>
    rw [hc] at h
    dsimp only at h
    subst h
    rfl

theorem bgetOpLoop_some {getKey : Option K} {p : K × Value}
    (h : (bgetOpCall ok db op i getKey).2 = some p) :
    bgetOpLoop ok db op (n + 1) i getKey bgrm =
      bgetOpLoop ok db op n (i + 1) (some p.1)
        { bgrm with records := bgrm.records ++ [p], numRecords := bgrm.numRecords + 1 } := by
  rw [bgetOpLoop]
  cases hc : bgetOpCall ok db op i getKey with
  | mk ret rec =>
    rw [hc] at h
    dsimp only at h
    subst h
    rfl

/-- Every record that is kept is counted. -/
theorem bgetOpLoop_numRecords {getKey : Option K} (h : bgrm.numRecords = bgrm.records.length) :
    (bgetOpLoop ok db op n i getKey bgrm).numRecords =
      (bgetOpLoop ok db op n i getKey bgrm).records.length := by
  induction n generalizing i getKey bgrm with
  | zero => exact h
  | succ n ih =>
    unfold bgetOpLoop
    split
    · exact h
    · exact ih (by simp [h])

/-- Past the first record the loop walks: where `rest` is what lies ahead of a key, and each call
gets the head of it, the loop gets its first `n` records. -/
theorem bgetOpLoop_walk {rest : K → List (K × Value)}
    (hcall : ∀ i key, key ∈ db.keys → (bgetOpCall ok db op (i + 1) (some key)).2 = (rest key).head?)
    (hrest : ∀ {key p l}, rest key = p :: l → p.1 ∈ db.keys ∧ rest p.1 = l)
    {key : K} (hkey : key ∈ db.keys) :
    (bgetOpLoop ok db op n (i + 1) (some key) bgrm).records =
      bgrm.records ++ (rest key).take n := by
  induction n generalizing i key bgrm with
  | zero => simp [bgetOpLoop]
  | succ n ih =>
    have hhead := hcall i key hkey
    cases hl : rest key with
    | nil =>
      rw [hl] at hhead
      rw [bgetOpLoop_none hhead]
      simp
    | cons p l =>
      rw [hl] at hhead
      obtain ⟨hp, hnext⟩ := hrest hl
      rw [bgetOpLoop_some hhead, ih hp, hnext]
      simp

/-! ## The calls of the loop -/

theorem bgetOpCall_next (key : K) (h : key ∈ db.keys) :
    (bgetOpCall ok db (some .next) (i + 1) (some key)).2 =
      (db.toList.filter fun p => key < p.1).head? := by
  simpa [bgetOpCall] using leveldbGetNext_of_mem h

theorem bgetOpCall_prev (key : K) (h : key ∈ db.keys) :
    (bgetOpCall ok db (some .prev) (i + 1) (some key)).2 =
      (db.toList.filter fun p => p.1 < key).reverse.head? := by
  have hcall : bgetOpCall ok db (some .prev) (i + 1) (some key) = leveldbGetPrev db (some key) := by
    simp [bgetOpCall]
  rw [hcall, leveldbGetPrev_of_le h le_rfl, cursorResult_snd, ← List.getLast?_eq_head?_reverse,
    ← OrdMap.seek_prev_entry]
  rfl

/-- The first record is got by its key. -/
theorem bgetOpCall_zero {op : CursorOp} {key : K} :
    (bgetOpCall true db (some op) 0 (some key)).2 =
      ((db.get key).filter fun v => v ≠ []).map fun v => (key, v) := by
  rw [← leveldbGet_true]
  simp [bgetOpCall]

/-- Without a key nothing is got. -/
theorem bgetOpCall_zero_none (op : Option CursorOp) : (bgetOpCall ok db op 0 none).2 = none := by
  unfold bgetOpCall
  by_cases h : 0 = 0 ∧ (none : Option K) = none ∧ (op = some .next ∨ op = some .prev)
  · rw [if_pos h]
  · rw [if_neg h]
    cases op <;> rfl

/-! ## The replies -/

/-- From a stored key that `get` finds on, the loop gets what the direction `rest` has, the key
itself first. -/
theorem records_of_get (op : CursorOp) {rest : K → List (K × Value)}
    (hcall : ∀ i key, key ∈ db.keys →
      (bgetOpCall true db (some op) (i + 1) (some key)).2 = (rest key).head?)
    (hrest : ∀ {key p l}, rest key = p :: l → p.1 ∈ db.keys ∧ rest p.1 = l)
    {key : K} {v : Value} (hget : db.get key = some v) (hv : v ≠ []) :
    (bgetOpLoop true db (some op) (n + 1) 0 (some key) ⟨mdhimSuccess, [], 0⟩).records =
      ((key, v) :: rest key).take (n + 1) := by
  have hkey : key ∈ db.keys := OrdMap.mem_keys.mpr (by rw [hget]; exact Option.some_ne_none v)
  have hzero : (bgetOpCall true db (some op) 0 (some key)).2 = some (key, v) := by
    rw [bgetOpCall_zero, hget]
    simp [hv]
  rw [bgetOpLoop_some hzero, bgetOpLoop_walk hcall hrest hkey]
  rfl

/-- A start key with an empty value is not found. -/
theorem records_of_empty {op : CursorOp} {key : K} (hget : db.get key = some []) :
    (bgetOpLoop true db (some op) (n + 1) 0 (some key) ⟨mdhimSuccess, [], 0⟩).records = [] := by
  apply bgetOpLoop_none
  rw [bgetOpCall_zero, hget]
  rfl

/-- The records of the reply are the available ones exactly when the first get finds one, or there
is none. -/
theorem records_iff (call : BgetCall db) :
    (bgetOpLoop true db (call.message (n + 1)).op (n + 1) 0 (call.message (n + 1)).key
      ⟨mdhimSuccess, [], 0⟩).records = call.available.take (n + 1) ↔ call.GetsFirst := by
  cases call with
  | next key stored =>
    obtain ⟨⟨k, v⟩, hp, rfl⟩ := List.mem_map.mp stored
    have hget : db.get k = some v := OrdMap.get_eq_some.mpr hp
    have hsplit : (db.toList.filter fun p => k ≤ p.1) =
        (k, v) :: db.toList.filter fun p => k < p.1 := OrdMap.filter_le_of_mem db.sorted hp
    by_cases hv : v = []
    · subst hv
      simp [BgetCall.message, BgetCall.available, BgetCall.GetsFirst, records_of_empty hget, hget,
        hsplit]
    · simp [BgetCall.message, BgetCall.available, BgetCall.GetsFirst, hget, hv, hsplit,
        records_of_get .next (fun _ => bgetOpCall_next) OrdMap.filter_above_of_cons hget hv]
  | prev key stored =>
    obtain ⟨⟨k, v⟩, hp, rfl⟩ := List.mem_map.mp stored
    have hget : db.get k = some v := OrdMap.get_eq_some.mpr hp
    have hsplit : (db.toList.filter fun p => p.1 ≤ k).reverse =
        (k, v) :: (db.toList.filter fun p => p.1 < k).reverse := by
      rw [OrdMap.filter_ge_of_mem hget, List.reverse_append]
      rfl
    by_cases hv : v = []
    · subst hv
      simp [BgetCall.message, BgetCall.available, BgetCall.GetsFirst, records_of_empty hget, hget,
        hsplit]
    · simp [BgetCall.message, BgetCall.available, BgetCall.GetsFirst, hget, hv, hsplit,
        records_of_get .prev (fun _ => bgetOpCall_prev) OrdMap.filter_below_of_cons hget hv]
  | first =>
    have hnil : (bgetOpLoop true db (some .first) (n + 1) 0 none ⟨mdhimSuccess, [], 0⟩).records = [] :=
      bgetOpLoop_none (bgetOpCall_zero_none _)
    show (bgetOpLoop true db (some .first) (n + 1) 0 none _).records = db.toList.take (n + 1) ↔
      db.toList.map Prod.fst = []
    rw [hnil, List.map_eq_nil_iff, eq_comm]
    simp
  | last =>
    have hnil : (bgetOpLoop true db (some .last) (n + 1) 0 none ⟨mdhimSuccess, [], 0⟩).records = [] :=
      bgetOpLoop_none (bgetOpCall_zero_none _)
    show (bgetOpLoop true db (some .last) (n + 1) 0 none _).records = db.toList.reverse.take (n + 1) ↔
      db.toList.map Prod.fst = []
    rw [hnil, List.map_eq_nil_iff, eq_comm]
    simp

omit [LinearOrder S] in
/-- More than one record asked for, from a key with a value: that is when a bulk get reads what it
should. -/
theorem readsRecords_iff (s : RangeServer K S) (call : BgetCall s.db) (h1 : 1 ≤ n)
    (hmax : n ≤ maxBulkOps) : ReadsRecords s call n ↔ 1 < n ∧ call.GetsFirst := by
  obtain ⟨m, rfl⟩ : ∃ m, n = m + 1 := ⟨n - 1, by omega⟩
  have hnum : (call.message (m + 1 : ℕ)).numRecords = (m + 1 : ℕ) := by cases call <;> rfl
  by_cases hm : 1 < m + 1
  · have hwork : workGet true s (call.message (m + 1 : ℕ)) =
        .bgetrm (rangeServerBgetOp true s (call.message (m + 1 : ℕ))) := by
      rw [workGet, if_pos (by rw [hnum]; omega)]
    have hmin : min (call.message (m + 1 : ℕ)).numRecords.toNat maxBulkOps = m + 1 := by
      rw [hnum]
      omega
    have hloop := records_iff (n := m) call
    simp only [ReadsRecords, hwork, GetAnswer.bgetrm.injEq, exists_eq_left', hm, true_and]
    rw [rangeServerBgetOp, hmin, ← hloop]
    exact and_iff_left (bgetOpLoop_numRecords rfl)
  · simp only [hm, false_and, iff_false]
    rintro ⟨bgrm, hwork, -⟩
    rw [workGet, if_neg (by rw [hnum]; omega)] at hwork
    cases call <;> cases hwork

/-- Three records, two of them asked for from the second key on. -/
theorem readsRecords_two :
    let s : RangeServer ℕ ℕ :=
      ⟨((OrdMap.empty.insert 1 [1]).insert 2 [2]).insert 3 [3], [], .empty⟩
    ReadsRecords s (.next 2 (by decide)) 2 :=
  (readsRecords_iff _ _ (by decide) (by decide)).mpr ⟨by decide, by unfold BgetCall.GetsFirst; decide⟩

/-- From the first key, a server with a record returns none. -/
theorem not_readsRecords_first :
    ¬ ReadsRecords (⟨OrdMap.empty.insert 1 [1], [], .empty⟩ : RangeServer ℕ ℕ) .first 2 := by
  rintro ⟨bgrm, hwork, hrecs, -⟩
  injection hwork with hwork
  subst hwork
  revert hrecs
  decide

end MpiToShmem
