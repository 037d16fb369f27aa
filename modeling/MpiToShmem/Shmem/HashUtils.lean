import MpiToShmem.Shmem.SendRecv
import Mathlib.Data.List.Nodup

/-!
# The tag table of a communicator

`hashUtils.c`: receive buffers by tag, in a uthash table whose head is `comm->hashPtr`. Each call
copies the head into a local, which is what `HASH_ADD_INT` and `HASH_DEL` may change. The calls of
one thread come one after the other; `shmalloc` succeeds, and the barriers with the other PEs
return.

1. `addBufferEntry`, `getBufferPtrFromHash`, `findTagInHash` and `deleteHashEntry` are the calls.
2. `Table.Sound` is what a table has as long as no entry is deleted that `comm->hashPtr` points at.
3. `contents_write`, `contents_snoc` and `contents_deleted`: what a table has for each tag after an
   entry is written, added or deleted.
-/

namespace MpiToShmem.HashUtils

/-! ## State -/

/-- `requestType_t`. -/
inductive RequestType where
  | recv | irecv | send | isend
deriving DecidableEq

/-- What the calls return. -/
inductive ReturnCode where
  | mpiSuccess | hashErrIdNotFound | hashErrMismatchedCount | hashErrMismatchedRequestType
  | hashErrMismatchedDatatype
deriving DecidableEq

/-- The three arguments that must agree with those of the entry. -/
structure Request where
  count : ℤ
  requestType : RequestType
  datatype : MpiDatatype
deriving DecidableEq

/-- `struct MPID_Hash`, but for `time`; a buffer is its address. -/
structure MpidHash where
  id : ℤ
  tag : ℤ
  request : Request
  srcRank : ℤ
  destRank : ℤ
  isGrabbed : Bool
  bufPtr : ℕ
deriving DecidableEq

/-- The four mutexes, one for each call. -/
inductive Mutex where
  | lockAddBufferEntry | lockGetBufferPtrFromHash | lockFindTagInHash | lockDeleteHashEntry
deriving DecidableEq

/-- The table: `comm->hashPtr`, the addresses of the entries in the order they were added, and
the entries that are not freed. -/
structure Table where
  hashPtr : Option ℕ
  app : List ℕ
  entry : ℕ → Option MpidHash

/-- The table, the mutexes, and the next address that `shmalloc` gives out. -/
structure State where
  isMultiThreads : Bool
  held : Mutex → Bool
  table : Table
  next : ℕ

/-- After `MPI_Init_thread`. -/
def State.init : State := ⟨true, fun _ => false, ⟨none, [], fun _ => none⟩, 0⟩

/-- Why a call does not return. -/
inductive Halt where
  | deadlock | freedMemory
deriving DecidableEq

/-- What a call leaves to its caller: its return value, and what it stored in `*bufPtr`. -/
structure Reply where
  result : Option ReturnCode
  bufPtr : Option ℕ
deriving DecidableEq

/-! ## Mutexes and memory -/

/-- `pthread_mutex_lock`. -/
def lock (m : Mutex) (s : State) : Except Halt State :=
  if s.isMultiThreads then
    if s.held m then .error .deadlock
    else .ok { s with held := Function.update s.held m true }
  else .ok s

/-- `pthread_mutex_unlock`. -/
def unlock (m : Mutex) (s : State) : State :=
  if s.isMultiThreads then { s with held := Function.update s.held m false } else s

/-- `shmalloc`, of an entry or of a buffer. -/
def shmalloc (s : State) : ℕ × State := (s.next, { s with next := s.next + 1 })

/-- The entry at `a`, written. -/
def Table.write (t : Table) (a : ℕ) (e : MpidHash) : Table :=
  { t with entry := Function.update t.entry a (some e) }

/-- `shfree` of an entry. -/
def Table.shfree (t : Table) (a : ℕ) : Table :=
  { t with entry := Function.update t.entry a none }

/-! ## `uthash` -/

/-- The entry at `a`, if it has the tag. -/
def Table.at (t : Table) (tag : ℤ) (a : ℕ) : Option (ℕ × MpidHash) :=
  ((t.entry a).filter fun e => e.id = tag).map (a, ·)

/-- The entry with a tag. -/
def Table.find (t : Table) (tag : ℤ) : Option (ℕ × MpidHash) := t.app.findSome? (t.at tag)

/-- `HASH_FIND_INT`, which gets to the table through the entry at `head`. -/
def hashFindInt (t : Table) (head : Option ℕ) (tag : ℤ) :
    Except Halt (Option (ℕ × MpidHash)) :=
  match head with
  | none => .ok none
  | some a => if (t.entry a).isSome then .ok (t.find tag) else .error .freedMemory

/-- `HASH_ADD_INT`: the new head, and the table. -/
def hashAddInt (t : Table) (head : Option ℕ) (a : ℕ) : Option ℕ × Table :=
  match head with
  | none => (some a, { t with app := [a] })
  | some h => (some h, { t with app := t.app ++ [a] })

/-- `HASH_DEL`: the new head, and the table. -/
def hashDel (t : Table) (head : Option ℕ) (a : ℕ) : Option ℕ × Table :=
  (if t.app.head? = some a then t.app.tail.head? else head, { t with app := t.app.erase a })

/-! ## The calls -/

/-- The comparisons of `DeleteHashEntry` and `GetBufferPtrFromHash`, in their order. -/
def verify (q p : Request) : ReturnCode :=
  if q.count ≠ p.count then .hashErrMismatchedCount
  else if q.requestType ≠ p.requestType then .hashErrMismatchedRequestType
  else if q.datatype ≠ p.datatype then .hashErrMismatchedDatatype
  else .mpiSuccess

/-- The entry for a tag that `AddBufferEntry` fills in: the one that is there, or a new one. -/
def newEntry (s : State) (found : Option (ℕ × MpidHash)) : ℕ × State :=
  match found with
  | some (a, _) => (a, s)
  | none =>
    let (a, s) := shmalloc s
    let (bufHashTbl, t) := hashAddInt s.table s.table.hashPtr a
    (a, { s with table := { t with hashPtr := bufHashTbl } })

def addBufferEntry (s : State) (tag : ℤ) (q : Request) (srcRank destRank : ℤ) :
    Except Halt (Reply × State) := do
  let s ← lock .lockAddBufferEntry s
  let found ← hashFindInt s.table s.table.hashPtr tag
  let (a, s) := newEntry s found
  let (bufPtr, s) := shmalloc s
  let e : MpidHash := ⟨tag, tag, q, srcRank, destRank, false, bufPtr⟩
  let s := { s with table := s.table.write a e }
  return (⟨some .mpiSuccess, some bufPtr⟩, unlock .lockAddBufferEntry s)

def getBufferPtrFromHash (s : State) (tag : ℤ) (q : Request) : Except Halt (Reply × State) := do
  let s ← lock .lockGetBufferPtrFromHash s
  match ← hashFindInt s.table s.table.hashPtr tag with
  | none => return (⟨some .hashErrIdNotFound, none⟩, unlock .lockGetBufferPtrFromHash s)
  | some (a, e) =>
    let results := verify q e.request
    if results = .mpiSuccess then
      let s := { s with table := s.table.write a { e with isGrabbed := true } }
      return (⟨some results, some e.bufPtr⟩, unlock .lockGetBufferPtrFromHash s)
    else return (⟨some results, none⟩, unlock .lockGetBufferPtrFromHash s)

/-- `FindTagInHash`, which sets `results` and ends without returning it. -/
def findTagInHash (s : State) (tag : ℤ) : Except Halt (Reply × State) := do
  let s ← lock .lockFindTagInHash s
  match ← hashFindInt s.table s.table.hashPtr tag with
  | none => return (⟨none, none⟩, unlock .lockFindTagInHash s)
  | some (_, e) => return (⟨none, some e.bufPtr⟩, unlock .lockFindTagInHash s)

/-- `DeleteHashEntry`, which returns before its `pthread_mutex_unlock`. -/
def deleteHashEntry (s : State) (tag : ℤ) (q : Request) : Except Halt (Reply × State) := do
  let s ← lock .lockDeleteHashEntry s
  match ← hashFindInt s.table s.table.hashPtr tag with
  | none => return (⟨some .mpiSuccess, none⟩, s)
  | some (a, e) =>
    let results := verify q e.request
    if results = .mpiSuccess then
      -- the new head stays in the local, and `bufPtr` is a local of this block
      let (_, t) := hashDel s.table s.table.hashPtr a
      return (⟨some results, none⟩, { s with table := t.shfree a })
    else return (⟨some results, none⟩, s)

/-- A call on the communicator. -/
inductive Call where
  | addBufferEntry (tag : ℤ) (q : Request) (srcRank destRank : ℤ)
  | getBufferPtrFromHash (tag : ℤ) (q : Request)
  | findTagInHash (tag : ℤ)
  | deleteHashEntry (tag : ℤ) (q : Request)
deriving DecidableEq

def call (s : State) : Call → Except Halt (Reply × State)
  | .addBufferEntry tag q srcRank destRank => addBufferEntry s tag q srcRank destRank
  | .getBufferPtrFromHash tag q => getBufferPtrFromHash s tag q
  | .findTagInHash tag => findTagInHash s tag
  | .deleteHashEntry tag q => deleteHashEntry s tag q

/-- The mutex of a call. -/
def Call.mutex : Call → Mutex
  | .addBufferEntry .. => .lockAddBufferEntry
  | .getBufferPtrFromHash .. => .lockGetBufferPtrFromHash
  | .findTagInHash .. => .lockFindTagInHash
  | .deleteHashEntry .. => .lockDeleteHashEntry

/-! ## Entries -/

/-- What was added for a tag: the arguments and the buffer. -/
structure Added where
  request : Request
  bufPtr : ℕ
deriving DecidableEq

def MpidHash.added (e : MpidHash) : Added := ⟨e.request, e.bufPtr⟩

variable {t : Table} {a b : ℕ} {e e' : MpidHash} {tag tag' : ℤ}

/-- What the table has for a tag. -/
def Table.contents (t : Table) (tag : ℤ) : Option Added := (t.find tag).map fun p => p.2.added

@[simp] theorem write_hashPtr : (t.write a e).hashPtr = t.hashPtr := rfl

@[simp] theorem write_app : (t.write a e).app = t.app := rfl

@[simp] theorem write_entry_self : (t.write a e).entry a = some e := Function.update_self ..

theorem write_entry_of_ne (h : b ≠ a) : (t.write a e).entry b = t.entry b :=
  Function.update_of_ne h ..

theorem at_eq_some {p : ℕ × MpidHash} :
    t.at tag a = some p ↔ p.1 = a ∧ t.entry a = some p.2 ∧ p.2.id = tag := by
  obtain ⟨b, e⟩ := p
  unfold Table.at
  rw [Option.map_eq_some_iff]
  simp only [Option.filter_eq_some_iff, decide_eq_true_eq, Prod.mk.injEq]
  constructor
  · rintro ⟨e, ⟨he, hid⟩, rfl, rfl⟩
    exact ⟨rfl, he, hid⟩
  · rintro ⟨rfl, he, hid⟩
    exact ⟨e, ⟨he, hid⟩, rfl, rfl⟩

theorem find_some (h : t.find tag = some (a, e)) : a ∈ t.app ∧ t.entry a = some e ∧ e.id = tag := by
  obtain ⟨b, hb, hat⟩ := List.exists_of_findSome?_eq_some h
  obtain ⟨rfl, he, hid⟩ := at_eq_some.mp hat
  exact ⟨hb, he, hid⟩

theorem at_write (h : t.entry a = some e) (hid : e'.id = e.id) :
    (t.write a e').at tag b = (t.at tag b).map fun p => if p.1 = a then (a, e') else p := by
  by_cases hb : b = a
  · subst hb
    unfold Table.at
    rw [write_entry_self, h]
    by_cases htag : e.id = tag
    · simp [Option.filter, hid, htag]
    · simp [Option.filter, hid, htag]
  · unfold Table.at
    rw [write_entry_of_ne hb, Option.map_map]
    congr 1
    funext x
    simp [hb]

/-- Writing an entry keeps what every tag finds, but for the entry itself. -/
theorem find_write (h : t.entry a = some e) (hid : e'.id = e.id) :
    (t.write a e').find tag = (t.find tag).map fun p => if p.1 = a then (a, e') else p := by
  unfold Table.find
  rw [List.map_findSome?]
  congr 1
  funext b
  exact at_write h hid

theorem contents_write (hf : t.find tag = some (a, e)) (hid : e'.id = e.id) :
    (t.write a e').contents tag' =
      if tag' = tag then some e'.added else t.contents tag' := by
  obtain ⟨_, he, htag⟩ := find_some hf
  unfold Table.contents
  rw [find_write he hid, Option.map_map]
  by_cases h : tag' = tag
  · rw [h, hf, if_pos rfl]
    simp
  · rw [if_neg h]
    cases hf' : t.find tag' with
    | none => rfl
    | some p =>
      obtain ⟨b, e₁⟩ := p
      obtain ⟨_, hb, htag'⟩ := find_some hf'
      have hne : b ≠ a := by
        rintro rfl
        rw [he] at hb
        cases hb
        exact h (htag'.symm.trans htag)
      simp [hne]

/-- The mark of `GetBufferPtrFromHash` is not part of what the table has. -/
theorem contents_grab (hf : t.find tag = some (a, e)) :
    (t.write a { e with isGrabbed := true }).contents tag' = t.contents tag' := by
  have hid : ({ e with isGrabbed := true } : MpidHash).id = e.id := rfl
  rw [contents_write hf hid]
  split_ifs with h
  · rw [h, Table.contents, hf]
    rfl
  · rfl

theorem at_write_of_ne (h : b ≠ a) : (t.write a e).at tag b = t.at tag b := by
  unfold Table.at
  rw [write_entry_of_ne h]

/-! ## Sound tables -/

/-- A table that is reached through its first entry, with no entry freed and no tag twice. -/
structure Table.Sound (t : Table) (next : ℕ) : Prop where
  head : t.hashPtr = t.app.head?
  live : ∀ a ∈ t.app, (t.entry a).isSome
  fresh : ∀ a ∈ t.app, a < next
  distinct : (t.app.map fun a => (t.entry a).map MpidHash.id).Nodup

variable {n : ℕ}

theorem Table.Sound.hashFindInt (h : t.Sound n) :
    hashFindInt t t.hashPtr tag = .ok (t.find tag) := by
  unfold HashUtils.hashFindInt Table.find
  rw [h.head]
  cases happ : t.app with
  | nil => rfl
  | cons a as => exact if_pos (h.live a (happ ▸ List.mem_cons_self))

theorem Table.Sound.mono {k : ℕ} (h : t.Sound n) (hn : n ≤ k) : t.Sound k :=
  ⟨h.head, h.live, fun a ha => (h.fresh a ha).trans_le hn, h.distinct⟩

theorem Table.Sound.write (h : t.Sound n) (he : t.entry a = some e) (hid : e'.id = e.id) :
    (t.write a e').Sound n := by
  refine ⟨h.head, ?_, h.fresh, ?_⟩
  · intro b hb
    by_cases hab : b = a
    · rw [hab, write_entry_self]
      rfl
    · rw [write_entry_of_ne hab]
      exact h.live b hb
  · have hsame : ∀ b ∈ t.app, ((t.write a e').entry b).map MpidHash.id =
        (t.entry b).map MpidHash.id := by
      intro b _
      by_cases hab : b = a
      · rw [hab, write_entry_self, he, Option.map_some, Option.map_some, hid]
      · rw [write_entry_of_ne hab]
    rw [write_app, List.map_congr_left hsame]
    exact h.distinct

/-! ## A new entry -/

/-- The table with an address added at the end. -/
def Table.snoc (t : Table) (a : ℕ) : Table :=
  { t with hashPtr := (t.app ++ [a]).head?, app := t.app ++ [a] }

theorem hashAddInt_eq (h : t.Sound n) :
    hashAddInt t t.hashPtr a = ((t.snoc a).hashPtr, { t with app := t.app ++ [a] }) := by
  unfold hashAddInt Table.snoc
  rw [h.head]
  cases happ : t.app with
  | nil => rfl
  | cons b as => rfl

theorem find_eq_none : t.find tag = none ↔ ∀ a ∈ t.app, ∀ e, t.entry a = some e → e.id ≠ tag := by
  unfold Table.find
  rw [List.findSome?_eq_none_iff]
  refine forall₂_congr fun a _ => ?_
  rw [Option.eq_none_iff_forall_ne_some]
  constructor
  · exact fun h e he hid => h (a, e) (at_eq_some.mpr ⟨rfl, he, hid⟩)
  · rintro h ⟨b, e⟩ hat
    obtain ⟨-, he, hid⟩ := at_eq_some.mp hat
    exact h e he hid

theorem contents_snoc (hfresh : a ∉ t.app) (hnone : t.find e.id = none) :
    ((t.snoc a).write a e).contents tag =
      if tag = e.id then some e.added else t.contents tag := by
  have hold : t.app.findSome? (((t.snoc a).write a e).at tag) = t.app.findSome? (t.at tag) := by
    have hmap : t.app.map (((t.snoc a).write a e).at tag) = t.app.map (t.at tag) :=
      List.map_congr_left fun b hb => at_write_of_ne (ne_of_mem_of_not_mem hb hfresh)
    simpa only [List.findSome?_map, Function.id_comp] using congrArg (List.findSome? id) hmap
  have hfind : ((t.snoc a).write a e).find tag =
      (t.find tag).or (((t.snoc a).write a e).at tag a) := by
    unfold Table.find
    rw [write_app, ← hold]
    exact List.findSome?_append.trans (by rw [List.findSome?_singleton])
  unfold Table.contents
  rw [hfind]
  by_cases h : tag = e.id
  · have hat : ((t.snoc a).write a e).at e.id a = some (a, e) :=
      at_eq_some.mpr ⟨rfl, write_entry_self, rfl⟩
    rw [h, hnone, if_pos rfl, Option.none_or, hat]
    rfl
  · have hat : ((t.snoc a).write a e).at tag a = none := by
      rw [Option.eq_none_iff_forall_ne_some]
      intro p hp
      obtain ⟨-, he, hid⟩ := at_eq_some.mp hp
      rw [write_entry_self] at he
      cases he
      exact h hid.symm
    rw [if_neg h, hat, Option.or_none]

theorem Table.Sound.snoc (h : t.Sound n) (hnone : t.find e.id = none) :
    ((t.snoc n).write n e).Sound (n + 1) := by
  have hne : ∀ b ∈ t.app, b ≠ n := fun b hb => (h.fresh b hb).ne
  have hids : (t.app.map fun b => (((t.snoc n).write n e).entry b).map MpidHash.id) =
      t.app.map fun b => (t.entry b).map MpidHash.id :=
    List.map_congr_left fun b hb => by rw [write_entry_of_ne (hne b hb)]; rfl
  refine ⟨rfl, ?_, ?_, ?_⟩
  · intro b hb
    rcases List.mem_append.mp hb with hb | hb
    · rw [write_entry_of_ne (hne b hb)]
      exact h.live b hb
    · rw [List.mem_singleton.mp hb, write_entry_self]
      rfl
  · intro b hb
    rcases List.mem_append.mp hb with hb | hb
    · exact Nat.lt_succ_of_lt (h.fresh b hb)
    · exact List.mem_singleton.mp hb ▸ Nat.lt_succ_self _
  · have happ : ((t.snoc n).write n e).app = t.app ++ [n] := rfl
    rw [happ, List.map_append, hids, List.map_singleton, write_entry_self, List.nodup_append]
    refine ⟨h.distinct, List.nodup_singleton _, ?_⟩
    intro x hx y hy hxy
    obtain ⟨b, hb, rfl⟩ := List.mem_map.mp hx
    rw [List.mem_singleton.mp hy, Option.map_some, Option.map_eq_some_iff] at hxy
    obtain ⟨e₁, he₁, hid⟩ := hxy
    exact find_eq_none.mp hnone b hb e₁ he₁ hid

/-! ## A deleted entry -/

theorem Table.Sound.find_eq_some (h : t.Sound n) :
    t.find tag = some (a, e) ↔ a ∈ t.app ∧ t.entry a = some e ∧ e.id = tag := by
  refine ⟨find_some, fun ⟨ha, he, hid⟩ => ?_⟩
  cases hf : t.find tag with
  | none => exact absurd hid (find_eq_none.mp hf a ha e he)
  | some p =>
    obtain ⟨b, e'⟩ := p
    obtain ⟨hb, he', hid'⟩ := find_some hf
    have hab : a = b := List.inj_on_of_nodup_map h.distinct ha hb
      (by rw [he, he', Option.map_some, Option.map_some, hid, hid'])
    subst hab
    rw [he] at he'
    cases he'
    rfl

/-- The table that a delete leaves: the head is not updated. -/
def Table.deleted (t : Table) (a : ℕ) : Table := (hashDel t t.hashPtr a).2.shfree a

theorem deleted_entry_self : (t.deleted a).entry a = none := Function.update_self ..

theorem deleted_entry_of_ne (h : b ≠ a) : (t.deleted a).entry b = t.entry b :=
  Function.update_of_ne h ..

theorem Table.Sound.deleted (h : t.Sound n) (ha : t.app.head? ≠ some a) :
    (t.deleted a).Sound n := by
  have hnodup : t.app.Nodup := h.distinct.of_map
  have hne : ∀ b ∈ t.app.erase a, b ≠ a := fun b hb => (hnodup.mem_erase_iff.mp hb).1
  have hmem : ∀ b ∈ t.app.erase a, b ∈ t.app := fun b => List.mem_of_mem_erase
  refine ⟨?_, ?_, fun b hb => h.fresh b (hmem b hb), ?_⟩
  · have happ : (t.deleted a).app = t.app.erase a := rfl
    have hptr : (t.deleted a).hashPtr = t.hashPtr := rfl
    rw [happ, hptr, h.head]
    cases hcs : t.app with
    | nil => rfl
    | cons b as =>
      have hb : b ≠ a := fun hba => ha (by rw [hcs, hba]; rfl)
      rw [List.erase_cons_tail (by simpa using hb)]
      rfl
  · intro b hb
    rw [deleted_entry_of_ne (hne b hb)]
    exact h.live b (hmem b hb)
  · have hids : ((t.app.erase a).map fun b => ((t.deleted a).entry b).map MpidHash.id) =
        (t.app.erase a).map fun b => (t.entry b).map MpidHash.id :=
      List.map_congr_left fun b hb => by rw [deleted_entry_of_ne (hne b hb)]
    exact hids ▸ h.distinct.sublist (List.erase_sublist.map _)

theorem contents_deleted (h : t.Sound n) (ha : t.app.head? ≠ some a)
    (hf : t.find tag = some (a, e)) :
    (t.deleted a).contents tag' = if tag' = tag then none else t.contents tag' := by
  obtain ⟨_, he, hid⟩ := find_some hf
  have hfind : ∀ b e', (t.deleted a).find tag' = some (b, e') ↔
      b ≠ a ∧ t.find tag' = some (b, e') := by
    intro b e'
    have hmem : b ∈ (t.deleted a).app ↔ b ≠ a ∧ b ∈ t.app := h.distinct.of_map.mem_erase_iff
    rw [(h.deleted ha).find_eq_some, h.find_eq_some, hmem, and_assoc]
    refine and_congr_right fun hb => ?_
    rw [deleted_entry_of_ne hb]
  unfold Table.contents
  split_ifs with htag
  · rw [Option.map_eq_none_iff, Option.eq_none_iff_forall_ne_some]
    rintro ⟨b, e'⟩ hb
    obtain ⟨hne, hb⟩ := (hfind b e').mp hb
    rw [htag, hf] at hb
    cases hb
    exact hne rfl
  · congr 1
    refine Option.ext fun ⟨b, e'⟩ => (hfind b e').trans (and_iff_right_of_imp ?_)
    rintro hb rfl
    obtain ⟨_, hb, hid'⟩ := find_some hb
    rw [he] at hb
    cases hb
    exact htag (hid'.symm.trans hid)

end MpiToShmem.HashUtils
