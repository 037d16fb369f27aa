import MpiToShmem.Kit.Follow
import Mathlib.Logic.Function.Basic
import Mathlib.Data.Nat.Bitwise

/-!
# The macros of `uthash.h`

The elements of a hash carry a handle each. The handles are linked in the order in which the elements
were added, and once more bucket by bucket. An element and its handle are one address here, and a key
is its bytes with their length. `uthash_malloc` always has memory. A macro is `none` where it goes
through a null pointer, gets past the end of the buckets, divides by 0 or does not come to its end.

1. `hashAddKeyptr`, `hashFind`, `hashDelete`, `hashReplace` and `hashCnt` are the operations.
2. `hashExpandBuckets` doubles the number of buckets.
3. `hashIterDel` is the loop that deletes all elements.
4. `hashFsck` is the integrity check of the debug build.
-/

namespace MpiToShmem.Uthash

open Kit.Linked

/-! ## State -/

/-- `UT_hash_handle`, but for `tbl`. -/
structure Handle (A κ : Type) where
  prev : Option A
  next : Option A
  hhPrev : Option A
  hhNext : Option A
  key : κ
  hashv : ℕ
deriving DecidableEq

/-- `UT_hash_bucket`. -/
structure Bucket (A : Type) where
  hhHead : Option A
  count : ℕ
  expandMult : ℕ
deriving DecidableEq

/-- A bucket after `memset`. -/
def Bucket.zero {A : Type} : Bucket A := ⟨none, 0, 0⟩

/-- `UT_hash_table`, but for the offset of the handles and the signature. -/
structure Table (A : Type) where
  buckets : ℕ → Bucket A
  numBuckets : ℕ
  log2NumBuckets : ℕ
  numItems : ℕ
  tail : A
  idealChainMaxlen : ℕ
  nonidealItems : ℕ
  ineffExpands : ℕ
  noexpand : Bool

/-- The handles in memory. -/
structure Handles (A κ : Type) where
  get : A → Handle A κ

/-- The head of a hash, the handles, and the table that the handle of the head points at. -/
structure Hash (A κ : Type) where
  head : Option A
  hh : Handles A κ
  tbl : Table A

variable {A κ : Type}

/-- `HASH_INITIAL_NUM_BUCKETS_LOG2`. -/
abbrev hashInitialNumBucketsLog2 : ℕ := 5

/-- `HASH_INITIAL_NUM_BUCKETS`. -/
abbrev hashInitialNumBuckets : ℕ := 32

/-- `HASH_BKT_CAPACITY_THRESH`. -/
abbrev hashBktCapacityThresh : ℕ := 10

/-- `HASH_TO_BKT`. -/
def hashToBkt (hashv numBkts : ℕ) : ℕ := hashv &&& (numBkts - 1)

/-- `HASH_MAKE_TABLE`. -/
def hashMakeTable (head : A) : Table A :=
  ⟨fun _ => Bucket.zero, hashInitialNumBuckets, hashInitialNumBucketsLog2, 0, head, 0, 0, 0, false⟩

/-- `tbl->buckets[i]`. -/
def Table.bucket (t : Table A) (i : ℕ) : Option (Bucket A) :=
  if i < t.numBuckets then some (t.buckets i) else none

@[simp] theorem Table.bucket_of_lt {t : Table A} {i : ℕ} (hi : i < t.numBuckets) :
    t.bucket i = some (t.buckets i) := if_pos hi

def Table.setBucket (t : Table A) (i : ℕ) (b : Bucket A) : Table A :=
  { t with buckets := Function.update t.buckets i b }

section Memory

variable [DecidableEq A]

/-- A handle, written. -/
def setHandle (hh : Handles A κ) (a : A) (f : Handle A κ → Handle A κ) : Handles A κ :=
  ⟨Function.update hh.get a (f (hh.get a))⟩

/-- `if (p) …`, a handle written through a pointer. -/
def setIf (hh : Handles A κ) (p : Option A) (f : Handle A κ → Handle A κ) : Handles A κ :=
  match p with
  | none => hh
  | some a => setHandle hh a f

/-- The element becomes the first of a bucket, as in `HASH_ADD_TO_BKT` and `HASH_EXPAND_BUCKETS`. -/
def linkFront (hh : Handles A κ) (hhHead : Option A) (a : A) : Handles A κ :=
  let hh := setHandle hh a fun e => { e with hhNext := hhHead, hhPrev := none }
  setIf hh hhHead fun e => { e with hhPrev := some a }

/-! ## Bucket expansion -/

/-- The handles, the new buckets and `tbl->nonideal_items` in the loops of `HASH_EXPAND_BUCKETS`. -/
structure Expansion (A κ : Type) where
  hh : Handles A κ
  buckets : ℕ → Bucket A
  nonidealItems : ℕ

/-- The body of the inner loop. -/
def expandItem (idealChainMaxlen numBkts : ℕ) (s : Expansion A κ) (thh : A) :
    Option (Expansion A κ) :=
  let bkt := hashToBkt (s.hh.get thh).hashv numBkts
  let newbkt := s.buckets bkt
  let count := newbkt.count + 1
  let nonideal := idealChainMaxlen < count
  if bkt < numBkts ∧ (nonideal → idealChainMaxlen ≠ 0) then
    some
      { hh := linkFront s.hh newbkt.hhHead thh
        buckets := Function.update s.buckets bkt
          ⟨some thh, count, if nonideal then count / idealChainMaxlen else newbkt.expandMult⟩
        nonidealItems := if nonideal then s.nonidealItems + 1 else s.nonidealItems }
  else none

/-- The two loops. -/
def expandLoop (h : Hash A κ) (idealChainMaxlen : ℕ) : Option (Expansion A κ) :=
  (List.range h.tbl.numBuckets).foldlM (fun s i => do
    let b ← h.tbl.bucket i
    follow (fun s a => (s.hh.get a).hhNext) (expandItem idealChainMaxlen (h.tbl.numBuckets * 2))
      h.tbl.numItems s b.hhHead) ⟨h.hh, fun _ => Bucket.zero, 0⟩

/-- The new `tbl->ideal_chain_maxlen`. -/
def newIdealChainMaxlen (t : Table A) : ℕ :=
  t.numItems >>> (t.log2NumBuckets + 1) + if t.numItems &&& (t.numBuckets * 2 - 1) ≠ 0 then 1 else 0

/-- `HASH_EXPAND_BUCKETS`. -/
def hashExpandBuckets (h : Hash A κ) : Option (Hash A κ) := do
  let t := h.tbl
  let idealChainMaxlen := newIdealChainMaxlen t
  let s ← expandLoop h idealChainMaxlen
  let ineffExpands := if s.nonidealItems > t.numItems >>> 1 then t.ineffExpands + 1 else 0
  some { h with
    hh := s.hh
    tbl := { t with
      buckets := s.buckets
      numBuckets := t.numBuckets * 2
      log2NumBuckets := t.log2NumBuckets + 1
      idealChainMaxlen := idealChainMaxlen
      nonidealItems := s.nonidealItems
      ineffExpands := ineffExpands
      noexpand := if ineffExpands > 1 then true else t.noexpand } }

/-! ## Adding and deleting -/

/-- `HASH_ADD_TO_BKT`. -/
def hashAddToBkt (h : Hash A κ) (bkt : ℕ) (addhh : A) : Option (Hash A κ) := do
  let b ← h.tbl.bucket bkt
  let count := b.count + 1
  let h := { h with
    hh := linkFront h.hh b.hhHead addhh
    tbl := h.tbl.setBucket bkt ⟨some addhh, count, b.expandMult⟩ }
  if (b.expandMult + 1) * hashBktCapacityThresh ≤ count ∧ h.tbl.noexpand = false then
    hashExpandBuckets h
  else some h

/-- The element comes after the one that was last in the order of adding. -/
def linkLast (hh : Handles A κ) (tail a : A) : Handles A κ :=
  let hh := setHandle hh tail fun e => { e with next := some a }
  setHandle hh a fun e => { e with prev := some tail }

/-- The first half of `HASH_ADD_KEYPTR`: the element becomes the last in the order of adding. -/
def hashAppend (h : Hash A κ) (add : A) : Hash A κ :=
  match h.head with
  | none => ⟨some add, setHandle h.hh add fun e => { e with prev := none }, hashMakeTable add⟩
  | some head => ⟨some head, linkLast h.hh h.tbl.tail add, { h.tbl with tail := add }⟩

/-- `HASH_ADD_KEYPTR`. -/
def hashAddKeyptr (hashFcn : κ → ℕ) (h : Hash A κ) (key : κ) (add : A) : Option (Hash A κ) :=
  let h := { h with hh := setHandle h.hh add fun e => { e with next := none, key := key } }
  let h := hashAppend h add
  let hashv := hashFcn key
  let h := { h with
    hh := setHandle h.hh add fun e => { e with hashv := hashv }
    tbl := { h.tbl with numItems := h.tbl.numItems + 1 } }
  hashAddToBkt h (hashToBkt hashv h.tbl.numBuckets) add

/-- `HASH_DEL_IN_BKT`: the bucket, and the handles. -/
def hashDelInBkt (hh : Handles A κ) (b : Bucket A) (del : A) : Bucket A × Handles A κ :=
  let b := { b with
    count := b.count - 1
    hhHead := if b.hhHead = some del then (hh.get del).hhNext else b.hhHead }
  let hh := setIf hh (hh.get del).hhPrev fun e => { e with hhNext := (hh.get del).hhNext }
  (b, setIf hh (hh.get del).hhNext fun e => { e with hhPrev := (hh.get del).hhPrev })

/-- The patch-up of the order of adding in `HASH_DELETE`. -/
def delInOrder (hh : Handles A κ) (del : A) : Handles A κ :=
  let hh := setIf hh (hh.get del).prev fun e => { e with next := (hh.get del).next }
  setIf hh (hh.get del).next fun e => { e with prev := (hh.get del).prev }

/-- `tbl->tail` without the element. -/
def tailWithout (h : Hash A κ) (del : A) : Option A :=
  if del = h.tbl.tail then (h.hh.get del).prev else some h.tbl.tail

/-- The head without the element. -/
def headWithout (h : Hash A κ) (del : A) : Option A :=
  match (h.hh.get del).prev with
  | none => (h.hh.get del).next
  | some _ => h.head

/-- `HASH_DELETE`. -/
def hashDelete (h : Hash A κ) (del : A) : Option (Hash A κ) :=
  if (h.hh.get del).prev = none ∧ (h.hh.get del).next = none then some { h with head := none }
  else do
    let tail ← tailWithout h del
    let hh := delInOrder h.hh del
    let bkt := hashToBkt (hh.get del).hashv h.tbl.numBuckets
    let b ← h.tbl.bucket bkt
    let t := h.tbl.setBucket bkt (hashDelInBkt hh b del).1
    some ⟨headWithout h del, (hashDelInBkt hh b del).2,
      { t with tail := tail, numItems := t.numItems - 1 }⟩

/-! ## Finding and replacing -/

variable [DecidableEq κ]

/-- `HASH_FIND`. -/
def hashFind (hashFcn : κ → ℕ) (h : Hash A κ) (key : κ) : Option (Option A) :=
  match h.head with
  | none => some none
  | some _ => do
    let b ← h.tbl.bucket (hashToBkt (hashFcn key) h.tbl.numBuckets)
    search (fun a => (h.hh.get a).hhNext) (fun a => (h.hh.get a).key = key) h.tbl.numItems b.hhHead

/-- `HASH_REPLACE`, with the element that is replaced. -/
def hashReplace (hashFcn : κ → ℕ) (h : Hash A κ) (key : κ) (add : A) :
    Option (Option A × Hash A κ) := do
  let replaced ← hashFind hashFcn h key
  let h ← match replaced with
    | none => some h
    | some del => hashDelete h del
  let h ← hashAddKeyptr hashFcn h key add
  some (replaced, h)

end Memory

/-- `HASH_CNT`. -/
def hashCnt (h : Hash A κ) : ℕ := if h.head.isSome then h.tbl.numItems else 0

/-- The elements that `HASH_ITER` goes through. -/
def hashIter (h : Hash A κ) : Option (List A) :=
  iterate (fun _ a => (h.hh.get a).next) (fun l a => some (l ++ [a])) (hashCnt h) [] h.head
    (h.head.bind fun a => (h.hh.get a).next)

/-- `HASH_ITER(hh, head, el, tmp) { HASH_DEL(head, el); free(el); }`, with the elements in their order;
what is in the memory of an element after `free` is `junk`. -/
def hashIterDel [DecidableEq A] (junk : A → Handle A κ) (h : Hash A κ) :
    Option (Hash A κ × List A) :=
  iterate (fun s a => (s.1.hh.get a).next) (fun s el => do
      let h ← hashDelete s.1 el
      some ({ h with hh := setHandle h.hh el fun _ => junk el }, s.2 ++ [el]))
    (hashCnt h) (h, []) h.head (h.head.bind fun a => (h.hh.get a).next)

/-! ## The integrity check -/

/-- A walk along a list of `HASH_FSCK`, which counts the nodes and compares the pointers back. -/
def fsckList [DecidableEq A] (next prev : A → Option A) (fuel : ℕ) (p : Option A) : Option ℕ :=
  (follow (fun _ a => next a)
    (fun s a => if s.1 = prev a then some (some a, s.2 + 1) else none) fuel (none, 0) p).map Prod.snd

/-- `HASH_FSCK`, which ends the program where this is `false`. -/
def hashFsck [DecidableEq A] (h : Hash A κ) : Bool :=
  match h.head with
  | none => true
  | some head => Option.isSome do
    let fuel := h.tbl.numItems
    let count ← (List.range h.tbl.numBuckets).foldlM (fun n i => do
      let b ← h.tbl.bucket i
      let bktCount ← fsckList (fun a => (h.hh.get a).hhNext) (fun a => (h.hh.get a).hhPrev) fuel b.hhHead
      if b.count = bktCount then some (n + bktCount) else none) 0
    if count ≠ h.tbl.numItems then none
    let count ← fsckList (fun a => (h.hh.get a).next) (fun a => (h.hh.get a).prev) fuel (some head)
    if count ≠ h.tbl.numItems then none else some ()

end MpiToShmem.Uthash
