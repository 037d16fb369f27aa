import MpiToShmem.Mdhim.BputPuts
import MpiToShmem.Mdhim.Calls

/-!
# The messages of all calls, and the range servers that handle them

A range server handles a bulk message at once: nothing comes between its records.

1. `handleWork`: the handlers of the messages of `mdhimPut`, `mdhimGet`, `mdhimDelete`, `mdhimBPut`,
   `mdhimBGet` and `mdhimBDelete`.
2. `mapAll` and `answers`: what requests do to one map, one after the other.
3. `handleWork_spec`: a handler does to its database what the requests of its message do to a map, one
   after the other, and its reply has their answers.
-/

namespace MpiToShmem

open Kit

variable {K S : Type}

/-! ## Messages and replies -/

/-- A message for a range server. Its records have their numbers in the call, which no handler looks
at. -/
inductive ServerWork (K : Type) where
  | one (message : Request K)
  | bput (recs : List ((K × Value) × ℕ))
  | bget (keys : List (K × ℕ))
  | bdel (keys : List (K × ℕ))
deriving DecidableEq

/-- The records of a message as requests, with their numbers. -/
def ServerWork.requests : ServerWork K → List (Request K × ℕ)
  | one message => [(message, 0)]
  | bput recs => recs.map fun r => (.put r.1.1 r.1.2, r.2)
  | bget keys => keys.map fun k => (.get k.1, k.2)
  | bdel keys => keys.map fun k => (.del k.1, k.2)

/-- What a server answers; the keys of a bulk get come back with their values. -/
inductive WorkReply (K : Type) where
  | reply (reply : Reply K)
  | bgetrm (error : ℤ) (recs : List (K × Option Value))
deriving DecidableEq

/-- What a reply says about a record. -/
inductive RecordResult where
  | done (error : ℤ)
  | found (value : Option Value)
deriving DecidableEq

/-- What a reply says about the records of a message. -/
def WorkReply.results (w : ServerWork K) : WorkReply K → List RecordResult
  | reply (.rm error) => w.requests.map fun _ => .done error
  | reply (.getrm grm) => w.requests.map fun _ => .found grm.value
  | bgetrm _ recs => recs.map fun r => .found r.2

/-! ## Handlers -/

section Handlers

variable [LinearOrder K]

/-- The loop of `range_server_bget`, from key `i` on; the last error is kept. -/
def bgetLoop (io : StoreIo) (db : OrdMap K Value) : ℕ → List K → ℤ → List (Option Value) × ℤ
  | _, [], error => ([], error)
  | i, key :: keys, error =>
    let (ret, value) := leveldbGet (io.get i) db key
    let (values, error) := bgetLoop io db (i + 1) keys (if ret = mdhimSuccess then error else ret)
    (value :: values, error)

/-- `range_server_bget`. Past `MAX_BULK_OPS` records the reply would have values that the loop did not
set. -/
def rangeServerBget (io : StoreIo) (s : RangeServer K S) (keys : List K) : Option (WorkReply K) :=
  if maxBulkOps < keys.length then none
  else
    let (values, error) := bgetLoop io s.db 0 keys mdhimSuccess
    some (.bgetrm error (keys.zip values))

variable [LinearOrder S] (ks : Keyspace K S) (append : Bool)

/-- The handlers of the messages. -/
def handleWork (s : RangeServer K S) : ServerWork K → Option (RangeServer K S × WorkReply K)
  | .one message => (handle ks append s message).map fun r => (r.1, .reply r.2)
  | .bput recs =>
    (rangeServerBput ks.toKeying append .ok s (recs.map Prod.fst)).map fun r =>
      (r.1, .reply (.rm r.2))
  | .bget keys => (rangeServerBget .ok s (keys.map Prod.fst)).map fun reply => (s, reply)
  | .bdel keys =>
    let (s, error) := rangeServerBdel .ok s (keys.map Prod.fst)
    some (s, .reply (.rm error))

end Handlers

/-! ## One map -/

/-- A request on a map. -/
def requestCall [DecidableEq K] (append : Bool) (m : K → Option Value) (message : Request K) :
    (K → Option Value) × RecordResult :=
  (mapNext append m message,
    match message with
    | .put _ _ => .done mdhimSuccess
    | .del _ => .done mdhimSuccess
    | .get key => .found ((m key).filter fun v => v ≠ []))

/-- The map after some requests. -/
def mapAll [DecidableEq K] (append : Bool) (m : K → Option Value) (messages : List (Request K)) :
    K → Option Value := messages.foldl (mapNext append) m

/-- The answers to some requests. -/
def answers [DecidableEq K] (append : Bool) : (K → Option Value) → List (Request K) → List RecordResult
  | _, [] => []
  | m, message :: messages =>
    (requestCall append m message).2 :: answers append (mapNext append m message) messages

section Map

variable [DecidableEq K] {append : Bool} {m m' : K → Option Value} {message : Request K}
  {messages : List (Request K)} {key : K}

@[simp] theorem mapAll_nil : mapAll append m [] = m := rfl

@[simp] theorem mapAll_cons :
    mapAll append m (message :: messages) = mapAll append (mapNext append m message) messages := rfl

@[simp] theorem answers_nil : answers append m [] = [] := rfl

@[simp] theorem answers_cons : answers append m (message :: messages) =
    (requestCall append m message).2 :: answers append (mapNext append m message) messages := rfl

theorem mapAll_of_ne (h : ∀ message ∈ messages, key ≠ message.key) :
    mapAll append m messages key = m key := by
  induction messages generalizing m with
  | nil => rfl
  | cons message messages ih =>
    obtain ⟨hne, hrest⟩ := List.forall_mem_cons.mp h
    rw [mapAll_cons, ih hrest, mapNext_of_ne hne]

/-- Requests see the values of their own keys only. -/
theorem mapAll_congr (h : ∀ message ∈ messages, m message.key = m' message.key)
    (hkey : m key = m' key) : mapAll append m messages key = mapAll append m' messages key := by
  induction messages generalizing m m' with
  | nil => exact hkey
  | cons message messages ih =>
    obtain ⟨hm, hrest⟩ := List.forall_mem_cons.mp h
    exact ih (fun message' hmem => mapNext_congr hm (hrest message' hmem)) (mapNext_congr hm hkey)

theorem answers_congr (h : ∀ message ∈ messages, m message.key = m' message.key) :
    answers append m messages = answers append m' messages := by
  induction messages generalizing m m' with
  | nil => rfl
  | cons message messages ih =>
    obtain ⟨hm, hrest⟩ := List.forall_mem_cons.mp h
    have hhead : (requestCall append m message).2 = (requestCall append m' message).2 := by
      cases message with
      | put key value => rfl
      | del key => rfl
      | get key =>
        simp only [Request.key] at hm
        simp only [requestCall, hm]
    rw [answers_cons, answers_cons, hhead,
      ih fun message' hmem => mapNext_congr hm (hrest message' hmem)]

theorem answers_puts (recs : List (K × Value)) :
    answers append m (recs.map fun r => .put r.1 r.2) = recs.map fun _ => .done mdhimSuccess := by
  induction recs generalizing m with
  | nil => rfl
  | cons r recs ih =>
    simp only [List.map_cons, answers_cons, ih]
    rfl

theorem answers_dels (keys : List K) :
    answers append m (keys.map .del) = keys.map fun _ => .done mdhimSuccess := by
  induction keys generalizing m with
  | nil => rfl
  | cons key keys ih =>
    simp only [List.map_cons, answers_cons, ih]
    rfl

theorem answers_gets (keys : List K) :
    answers append m (keys.map .get) = keys.map fun key => .found ((m key).filter fun v => v ≠ []) := by
  induction keys with
  | nil => rfl
  | cons key keys ih =>
    simp only [List.map_cons, answers_cons]
    exact congrArg _ ih

theorem mapAll_gets (keys : List K) : mapAll append m (keys.map .get) = m := by
  induction keys with
  | nil => rfl
  | cons key keys ih => exact ih

end Map

/-! ## What the handlers do -/

section Spec

variable [LinearOrder K] [LinearOrder S] {ks : Keyspace K S} {append : Bool} {s s' : RangeServer K S}
  {w : ServerWork K} {reply : WorkReply K} {db : OrdMap K Value}

omit [LinearOrder S] in
theorem bgetLoop_ok (i : ℕ) (keys : List K) (error : ℤ) :
    (bgetLoop .ok db i keys error).1 = keys.map fun key => (db.get key).filter fun v => v ≠ [] := by
  induction keys generalizing i error with
  | nil => rfl
  | cons key keys ih =>
    unfold bgetLoop
    simp only [StoreIo.ok, List.map_cons, leveldbGet_true]
    exact congrArg _ (ih _ _)

omit [LinearOrder S] in
theorem bdelLoop_ok (i : ℕ) (keys : List K) (db : OrdMap K Value) :
    (bdelLoop .ok i keys db mdhimSuccess).2 = mdhimSuccess ∧
      (bdelLoop .ok i keys db mdhimSuccess).1.get = mapAll append db.get (keys.map .del) := by
  induction keys generalizing i db with
  | nil => exact ⟨rfl, rfl⟩
  | cons key keys ih =>
    have hstep : bdelLoop .ok i (key :: keys) db mdhimSuccess =
        bdelLoop .ok (i + 1) keys (db.erase key) mdhimSuccess := rfl
    have hget : (db.erase key).get = mapNext append db.get (.del key) := by
      funext k
      rw [OrdMap.get_erase, mapNext, Function.update_apply]
    rw [hstep, List.map_cons, mapAll_cons, ← hget]
    exact ih (i + 1) (db.erase key)

omit [LinearOrder K] in
theorem getReply_value (key : K) (value : Option Value) :
    (getReply key value).value = value.filter fun v => v ≠ [] := by
  cases value with
  | none => rfl
  | some v => by_cases hv : v = [] <;> simp [getReply, hv, Option.filter]

/-- Puts one after the other do to the database what they do to the map. -/
theorem putsOneByOne_get {recs : List (K × Value)} {t : RangeServer K S}
    (h : putsOneByOne ks.toKeying append s recs = some t) :
    t.db.get = mapAll append s.db.get (recs.map fun r => .put r.1 r.2) := by
  induction recs generalizing s with
  | nil =>
    obtain rfl := Option.some.inj h
    rfl
  | cons r recs ih =>
    obtain ⟨key, value⟩ := r
    obtain ⟨⟨s₁, error⟩, hput, hrest⟩ := Option.bind_eq_some_iff.mp h
    have hhandle : handle ks append s (.put key value) = some (s₁, .rm error) :=
      Option.map_eq_some_iff.mpr ⟨_, hput, rfl⟩
    rw [ih hrest, List.map_cons, mapAll_cons, handle_db hhandle]

/-- The records of a bulk put are put as one after the other, unless in append mode one is followed by
another with its key. -/
theorem rangeServerBput_get {recs : List (K × Value)} {error : ℤ}
    (hmild : append = true → RepeatsEmpty recs)
    (h : rangeServerBput ks.toKeying append .ok s recs = some (s', error)) :
    error = mdhimSuccess ∧ s'.db.get = mapAll append s.db.get (recs.map fun r => .put r.1 r.2) := by
  constructor
  · obtain ⟨-, brecs, -, ⟨hput, -⟩ | ⟨-, herror, -⟩⟩ := rangeServerBput_cases h
    · cases hput
    · exact herror
  obtain ⟨brecs, hb, rfl⟩ := rangeServerBput_ok h
  cases append with
  | false =>
    rw [bputRecs_false] at hb
    obtain rfl := Option.some.inj hb
    have hrecs : (recs.map fun r => (⟨r.1, r.2, !isNew s.db r.1⟩ : BputRec K)).map
        (fun r => (r.key, r.value)) = recs := by
      rw [List.map_map]
      exact List.map_id recs
    have hputs : putsOneByOne ks.toKeying false s recs = some _ := putsOneByOne_false
    rw [hrecs]
    exact (putsOneByOne_get hputs :)
  | true => exact putsOneByOne_get (putsOneByOne_true (hmild rfl) (fun _ _ => rfl) hb)

/-- In append mode no record of a bulk put is followed by another with its key, unless its value is
empty. -/
def ServerWork.Mild (append : Bool) : ServerWork K → Prop
  | bput recs => append = true → RepeatsEmpty (recs.map Prod.fst)
  | _ => True

theorem handleWork_spec (hmild : w.Mild append) (hlen : w.requests.length ≤ maxBulkOps)
    (h : handleWork ks append s w = some (s', reply)) :
    reply.results w = answers append s.db.get (w.requests.map Prod.fst) ∧
      s'.db.get = mapAll append s.db.get (w.requests.map Prod.fst) := by
  cases w with
  | one message =>
    obtain ⟨⟨s₁, r⟩, hh, he⟩ := Option.map_eq_some_iff.mp h
    obtain ⟨rfl, rfl⟩ := Prod.mk.inj he
    refine ⟨?_, handle_db hh⟩
    rw [handle_reply hh]
    cases message with
    | put key value => rfl
    | del key => rfl
    | get key =>
      simp only [mapReply, WorkReply.results, ServerWork.requests, List.map_cons, List.map_nil,
        answers_cons, answers_nil, requestCall, getReply_value]
  | bput recs =>
    obtain ⟨⟨s₁, error⟩, hput, he⟩ := Option.map_eq_some_iff.mp h
    obtain ⟨rfl, rfl⟩ := Prod.mk.inj he
    obtain ⟨rfl, hget⟩ := rangeServerBput_get hmild hput
    have hrequests : (ServerWork.bput recs).requests.map Prod.fst =
        (recs.map Prod.fst).map fun r => .put r.1 r.2 := by
      simp [ServerWork.requests]
    rw [hrequests, answers_puts]
    exact ⟨by simp [WorkReply.results, ServerWork.requests], hget⟩
  | bget keys =>
    obtain ⟨r, hr, he⟩ := Option.map_eq_some_iff.mp h
    obtain ⟨rfl, rfl⟩ := Prod.mk.inj he
    have hrequests : (ServerWork.bget keys).requests.map Prod.fst = (keys.map Prod.fst).map .get := by
      simp [ServerWork.requests]
    rw [hrequests, answers_gets, mapAll_gets]
    refine ⟨?_, rfl⟩
    unfold rangeServerBget at hr
    split_ifs at hr
    obtain rfl := Option.some.inj hr
    simp only [WorkReply.results, bgetLoop_ok]
    have hsnd : ∀ f : K → Option Value, (((keys.map Prod.fst).zip ((keys.map Prod.fst).map f)).map
        fun r => RecordResult.found r.2) = (keys.map Prod.fst).map fun key => .found (f key) := by
      intro f
      show List.map (RecordResult.found ∘ Prod.snd) _ = _
      rw [← List.map_map, List.map_snd_zip (by simp), List.map_map]
      rfl
    exact hsnd _
  | bdel keys =>
    obtain ⟨rfl, rfl⟩ := Prod.mk.inj (Option.some.inj h)
    have hrequests : (ServerWork.bdel keys).requests.map Prod.fst = (keys.map Prod.fst).map .del := by
      simp [ServerWork.requests]
    have htake : (keys.map Prod.fst).take maxBulkOps = keys.map Prod.fst :=
      List.take_of_length_le (by simpa [ServerWork.requests] using hlen)
    obtain ⟨herror, hget⟩ := @bdelLoop_ok _ _ append 0 (keys.map Prod.fst) s.db
    rw [hrequests, answers_dels, htake]
    refine ⟨?_, hget⟩
    simp [WorkReply.results, ServerWork.requests, herror]

end Spec

end MpiToShmem
