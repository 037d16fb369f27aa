import MpiToShmem.Uthash.Expand
import MpiToShmem.Kit.HashTable

/-!
# The operations on a hash

1. `Holds`: what is in memory when the elements of a hash are `l`, in the order of adding.
2. `addKeyptr_spec`, `delete_spec`, `find_spec`: the operations, each on its own.
3. `fsck_of_holds`: the integrity check finds nothing.
4. `iter_spec`, `iterDel_spec`: the loops over all elements.
-/

namespace MpiToShmem.Uthash

open Kit Kit.Linked

variable {A κ : Type} {hashFcn : κ → ℕ} {h : Hash A κ} {l : List A} {a : A}

/-- The elements of the hash are `l`. -/
structure Holds (hashFcn : κ → ℕ) (h : Hash A κ) (l : List A) : Prop where
  order : Doubly (fun a => (h.hh.get a).next) (fun a => (h.hh.get a).prev) h.head l.getLast? l
  tail : ∀ a, l.getLast? = some a → h.tbl.tail = a
  table : l ≠ [] → TableHolds hashFcn h l

theorem holds_nil (h : Hash A κ) (hhead : h.head = none) : Holds hashFcn h [] where
  order := hhead ▸ doubly_nil
  tail _ ha := by cases ha
  table hne := absurd rfl hne

theorem Holds.nodup (hl : Holds hashFcn h l) : l.Nodup := hl.order.forward.nodup

theorem Holds.head_eq (hl : Holds hashFcn h l) : h.head = l.head? := hl.order.forward.head?_eq

theorem TableHolds.congr {h' : Hash A κ} (ht : TableHolds hashFcn h l)
    (hnum : h'.tbl.numBuckets = h.tbl.numBuckets) (hlog : h'.tbl.log2NumBuckets = h.tbl.log2NumBuckets)
    (hitems : h'.tbl.numItems = h.tbl.numItems) (hbuckets : h'.tbl.buckets = h.tbl.buckets)
    (hsame : ∀ a ∈ l, (h'.hh.get a).key = (h.hh.get a).key ∧ (h'.hh.get a).hashv = (h.hh.get a).hashv ∧
      (h'.hh.get a).hhNext = (h.hh.get a).hhNext ∧ (h'.hh.get a).hhPrev = (h.hh.get a).hhPrev) :
    TableHolds hashFcn h' l := by
  refine ⟨by rw [hnum, hlog, ht.numBuckets], hitems.trans ht.numItems, fun a ha => ?_, ?_⟩
  · obtain ⟨hkey, hhashv, -⟩ := hsame a ha
    rw [hhashv, hkey]
    exact ht.hashed a ha
  · rw [hnum, hbuckets]
    exact ht.chained.congr fun a ha => (hsame a ha).2

/-- Only the handles of the elements matter. -/
theorem Holds.congr {h' : Hash A κ} (hl : Holds hashFcn h l) (hhead : h'.head = h.head)
    (htbl : h'.tbl = h.tbl) (hsame : ∀ a ∈ l, h'.hh.get a = h.hh.get a) : Holds hashFcn h' l where
  order := by
    rw [hhead]
    exact hl.order.congr (fun a ha => by rw [hsame a ha]) fun a ha => by rw [hsame a ha]
  tail a ha := by rw [htbl, hl.tail a ha]
  table hne := (hl.table hne).congr (by rw [htbl]) (by rw [htbl]) (by rw [htbl]) (by rw [htbl])
    fun a ha => by simp [hsame a ha]

variable [DecidableEq A]

theorem expand_spec (hl : Holds hashFcn h l) (hne : l ≠ []) :
    ∃ h', hashExpandBuckets h = some h' ∧ Holds hashFcn h' l ∧ Expanded h h' := by
  obtain ⟨h', hexpand, ht, hexpanded⟩ := expandBuckets_spec (hl.table hne) hl.nodup hne
  refine ⟨h', hexpand, ⟨?_, fun a ha => ?_, fun _ => ht⟩, hexpanded⟩
  · rw [hexpanded.head]
    exact hl.order.congr (fun a _ => (hexpanded.app a).1) fun a _ => (hexpanded.app a).2.1
  · rw [hexpanded.tail]
    exact hl.tail a ha

/-! ## Adding -/

theorem addToBkt_spec (hnum : h.tbl.numBuckets = 2 ^ h.tbl.log2NumBuckets)
    (hitems : h.tbl.numItems = l.length + 1)
    (hashed : ∀ b ∈ a :: l, (h.hh.get b).hashv = hashFcn (h.hh.get b).key)
    (hc : Chained h.hh h.tbl.buckets h.tbl.numBuckets l) (ha : a ∉ l) (hnd : l.Nodup) :
    ∃ h', hashAddToBkt h (hashToBkt (h.hh.get a).hashv h.tbl.numBuckets) a = some h' ∧
      TableHolds hashFcn h' (l ++ [a]) ∧ SameApp h'.hh h.hh ∧ h'.head = h.head ∧
      h'.tbl.tail = h.tbl.tail := by
  have hlt := hashToBkt_lt (h.hh.get a).hashv hnum
  unfold hashAddToBkt
  rw [Table.bucket_of_lt hlt, Option.bind_eq_bind, Option.bind_some]
  generalize hi : hashToBkt (h.hh.get a).hashv h.tbl.numBuckets = i at hlt
  generalize hb : h.tbl.buckets i = b
  have hperm : (a :: l).Perm (l ++ [a]) := (List.perm_append_singleton a l).symm
  have hlinked := hc.linkFront ha hi b.expandMult
  rw [hb] at hlinked
  have ht : TableHolds hashFcn { h with
      hh := linkFront h.hh b.hhHead a
      tbl := h.tbl.setBucket i ⟨some a, b.count + 1, b.expandMult⟩ } (l ++ [a]) := by
    refine ⟨hnum, by simpa [Table.setBucket] using hitems, fun c hc => ?_, hlinked.perm hperm⟩
    simpa using hashed c (hperm.symm.subset hc)
  dsimp only
  split_ifs with hexpand
  · have hne : l ++ [a] ≠ [] := List.append_ne_nil_of_right_ne_nil _ (List.cons_ne_nil _ _)
    obtain ⟨h', hs', ht', hex⟩ := expandBuckets_spec ht (hperm.nodup (List.nodup_cons.mpr ⟨ha, hnd⟩)) hne
    exact ⟨h', hs', ht', hex.app.trans sameApp_linkFront, hex.head, hex.tail⟩
  · exact ⟨_, rfl, ht, sameApp_linkFront, rfl, rfl⟩

section LinkLast

variable {hh : Handles A κ} {t b : A}

@[simp] theorem linkLast_next : ((linkLast hh t a).get b).next =
    if b = t then some a else (hh.get b).next := by
  simp [linkLast, apply_ite Handle.next]

@[simp] theorem linkLast_prev : ((linkLast hh t a).get b).prev =
    if b = a then some t else (hh.get b).prev := by
  simp [linkLast, apply_ite Handle.prev]

theorem linkLast_rest : ((linkLast hh t a).get b).key = (hh.get b).key ∧
    ((linkLast hh t a).get b).hashv = (hh.get b).hashv ∧
    ((linkLast hh t a).get b).hhNext = (hh.get b).hhNext ∧
    ((linkLast hh t a).get b).hhPrev = (hh.get b).hhPrev := by
  simp [linkLast, apply_ite Handle.key, apply_ite Handle.hashv, apply_ite Handle.hhNext,
    apply_ite Handle.hhPrev]

end LinkLast

/-- The element is the last one in the order of adding, and in no bucket yet. -/
theorem append_spec (hl : Holds hashFcn h l) (ha : a ∉ l) (hnext : (h.hh.get a).next = none) :
    Doubly (fun b => ((hashAppend h a).hh.get b).next) (fun b => ((hashAppend h a).hh.get b).prev)
        (hashAppend h a).head (some a) (l ++ [a]) ∧
      (hashAppend h a).tbl.tail = a ∧ TableHolds hashFcn (hashAppend h a) l ∧
      ∀ b, ((hashAppend h a).hh.get b).key = (h.hh.get b).key := by
  have hhead := hl.head_eq
  rcases List.eq_nil_or_concat l with rfl | ⟨l', t, rfl⟩
  · have happ : hashAppend h a =
        ⟨some a, setHandle h.hh a fun e => { e with prev := none }, hashMakeTable a⟩ := by
      unfold hashAppend
      rw [show h.head = none from hhead]
    rw [happ]
    refine ⟨⟨⟨rfl, ?_⟩, ⟨rfl, ?_⟩⟩, rfl, ⟨rfl, rfl, fun b hb => ?_, chained_nil⟩, fun b => ?_⟩
    · simpa [seg_nil] using hnext
    · simp [seg_nil]
    · cases hb
    · simp [apply_ite Handle.key]
  · rw [List.concat_eq_append] at hl ha hhead ⊢
    have hlast : (l' ++ [t]).getLast? = some t := List.getLast?_concat
    have hmem := List.mem_of_getLast? hlast
    have hne : ∀ b ∈ l' ++ [t], b ≠ a := fun b hb he => ha (he ▸ hb)
    have htail := hl.tail t hlast
    obtain ⟨head, hsome⟩ : ∃ head, h.head = some head := by
      rw [hhead]
      cases l' <;> simp
    have happ : hashAppend h a = ⟨some head, linkLast h.hh t a, { h.tbl with tail := a }⟩ := by
      unfold hashAppend
      rw [hsome, htail]
    rw [happ]
    refine ⟨?_, rfl, (hl.table (List.ne_nil_of_mem hmem)).congr rfl rfl rfl rfl fun b _ => linkLast_rest,
      fun b => linkLast_rest.1⟩
    have horder := hl.order
    rw [hlast, hsome] at horder
    refine horder.pushBack ?_ ?_ (fun b hb => ?_) (fun b hb => ?_) fun b hb hbt => ?_
    · simp [(hne t hmem).symm, hnext]
    · simp
    · simp [hne b hb]
    · simp [Option.some.inj hb]
    · simp [show b ≠ t from fun he => hbt (congrArg some he.symm)]

theorem addKeyptr_spec (hl : Holds hashFcn h l) (ha : a ∉ l) (key : κ) :
    ∃ h', hashAddKeyptr hashFcn h key a = some h' ∧ Holds hashFcn h' (l ++ [a]) ∧
      ∀ b, (h'.hh.get b).key = if b = a then key else (h.hh.get b).key := by
  have hne : ∀ b ∈ l, b ≠ a := fun b hb he => ha (he ▸ hb)
  let h₁ : Hash A κ := { h with hh := setHandle h.hh a fun e => { e with next := none, key := key } }
  have hl₁ : Holds hashFcn h₁ l := hl.congr rfl rfl fun b hb => by simp [h₁, hne b hb]
  obtain ⟨horder, htail, ht, hkey⟩ := append_spec hl₁ ha (by simp [h₁])
  have hkey₁ : ∀ b, ((hashAppend h₁ a).hh.get b).key = if b = a then key else (h.hh.get b).key := by
    intro b
    rw [hkey]
    simp [h₁, apply_ite Handle.key]
  let h₂ : Hash A κ := { hashAppend h₁ a with
    hh := setHandle (hashAppend h₁ a).hh a fun e => { e with hashv := hashFcn key }
    tbl := { (hashAppend h₁ a).tbl with numItems := (hashAppend h₁ a).tbl.numItems + 1 } }
  have hhashv : (h₂.hh.get a).hashv = hashFcn key := by simp [h₂]
  have hchained : Chained h₂.hh h₂.tbl.buckets h₂.tbl.numBuckets l :=
    ht.chained.congr fun b hb => by simp [h₂, hne b hb]
  have hashed : ∀ b ∈ a :: l, (h₂.hh.get b).hashv = hashFcn (h₂.hh.get b).key := by
    intro b hb
    rcases List.mem_cons.mp hb with rfl | hb
    · rw [hhashv]
      simp [h₂, hkey₁]
    · simpa [h₂, hne b hb] using ht.hashed b hb
  obtain ⟨h', hs', ht', happ, hhead', htail'⟩ := addToBkt_spec (h := h₂) ht.numBuckets
    (congrArg (· + 1) ht.numItems) hashed hchained ha hl.nodup
  refine ⟨h', ?_, ⟨?_, fun b hb => ?_, fun _ => ht'⟩, fun b => ?_⟩
  · rw [hhashv] at hs'
    exact hs'
  · rw [hhead', List.getLast?_concat]
    refine horder.congr (fun b hb => ?_) fun b hb => ?_
    · rw [(happ b).1]
      simp [h₂, apply_ite Handle.next]
    · rw [(happ b).2.1]
      simp [h₂, apply_ite Handle.prev]
  · rw [List.getLast?_concat] at hb
    rw [htail', ← Option.some.inj hb]
    exact htail
  · rw [(happ b).2.2.1, ← hkey₁]
    simp [h₂, apply_ite Handle.key]

/-! ## Deleting -/

section Order

variable {hh : Handles A κ} {b : A} (hp : (hh.get a).prev ≠ some a)

include hp

theorem delInOrder_next : ((delInOrder hh a).get b).next =
    if (hh.get a).prev = some b then (hh.get a).next else (hh.get b).next := by
  simp [delInOrder, hp, apply_ite Handle.next]

theorem delInOrder_prev : ((delInOrder hh a).get b).prev =
    if (hh.get a).next = some b then (hh.get a).prev else (hh.get b).prev := by
  simp [delInOrder, hp, apply_ite Handle.prev]

omit hp in
theorem delInOrder_rest : ((delInOrder hh a).get b).key = (hh.get b).key ∧
    ((delInOrder hh a).get b).hashv = (hh.get b).hashv ∧
    ((delInOrder hh a).get b).hhNext = (hh.get b).hhNext ∧
    ((delInOrder hh a).get b).hhPrev = (hh.get b).hhPrev := by
  simp [delInOrder, apply_ite Handle.key, apply_ite Handle.hashv, apply_ite Handle.hhNext,
    apply_ite Handle.hhPrev]

end Order

section Split

variable {l₁ l₂ : List A} (hl : Holds hashFcn h (l₁ ++ a :: l₂))

include hl

theorem tailWithout_eq : tailWithout h a = (l₁ ++ l₂).getLast? := by
  have hprev : (h.hh.get a).prev = l₁.getLast? := hl.order.prev_eq
  unfold tailWithout
  rcases List.eq_nil_or_concat l₂ with rfl | ⟨l₂, t, rfl⟩
  · rw [hl.tail a (by simp), if_pos rfl, hprev, List.append_nil]
  · have hlast : (l₁ ++ a :: l₂.concat t).getLast? = some t := by
      rw [List.concat_eq_append, ← List.cons_append, ← List.append_assoc, List.getLast?_concat]
    have hta : a ≠ t := fun he => (List.nodup_middle.mp hl.nodup).notMem (by simp [he])
    rw [hl.tail t hlast, if_neg hta, List.concat_eq_append, ← List.append_assoc,
      List.getLast?_concat]

/-- The hash has other elements, and is the one with them. -/
theorem delete_other (hne : l₁ ++ l₂ ≠ []) :
    ∃ h', hashDelete h a = some h' ∧ Holds hashFcn h' (l₁ ++ l₂) ∧
      ∀ b, (h'.hh.get b).key = (h.hh.get b).key := by
  have hmem : a ∈ l₁ ++ a :: l₂ := by simp
  have ht := hl.table (List.ne_nil_of_mem hmem)
  have hprev : (h.hh.get a).prev = l₁.getLast? := hl.order.prev_eq
  have hnext : (h.hh.get a).next = l₂.head? := hl.order.next_eq
  have hnot : a ∉ l₁ ++ l₂ := (List.nodup_middle.mp hl.nodup).notMem
  have hp : (h.hh.get a).prev ≠ some a := fun he =>
    hnot (List.mem_append_left _ (List.mem_of_getLast? (hprev.symm.trans he)))
  have hnot' : ¬((h.hh.get a).prev = none ∧ (h.hh.get a).next = none) := by
    rw [hprev, hnext, List.getLast?_eq_none_iff, List.head?_eq_none_iff]
    rintro ⟨rfl, rfl⟩
    exact hne rfl
  have hhead : headWithout h a = if (h.hh.get a).prev = none then (h.hh.get a).next else h.head := by
    unfold headWithout
    cases (h.hh.get a).prev <;> rfl
  have herase : (l₁ ++ a :: l₂).erase a = l₁ ++ l₂ := by
    rw [List.erase_append_right _ fun he => hnot (List.mem_append_left _ he), List.erase_cons_head]
  have hlt := hashToBkt_lt ((delInOrder h.hh a).get a).hashv ht.numBuckets
  have hchained : Chained (delInOrder h.hh a) h.tbl.buckets h.tbl.numBuckets (l₁ ++ a :: l₂) :=
    ht.chained.congr fun b _ => delInOrder_rest.2
  have hdel := hchained.delInBkt hmem rfl hlt
  rw [herase] at hdel
  obtain ⟨t, hlast⟩ := Option.ne_none_iff_exists'.mp (mt List.getLast?_eq_none_iff.mp hne)
  unfold hashDelete
  rw [if_neg hnot', tailWithout_eq hl, hlast, Option.bind_eq_bind, Option.bind_some]
  dsimp only
  rw [Table.bucket_of_lt hlt, Option.bind_eq_bind, Option.bind_some]
  generalize hashToBkt ((delInOrder h.hh a).get a).hashv h.tbl.numBuckets = i at hdel
  have happ := @sameApp_delInBkt _ _ (delInOrder h.hh a) a (h.tbl.buckets i) _
  generalize (hashDelInBkt (delInOrder h.hh a) (h.tbl.buckets i) a).2 = hh at hdel happ
  have horder : Doubly (fun b => (hh.get b).next) (fun b => (hh.get b).prev)
      (if (h.hh.get a).prev = none then (h.hh.get a).next else h.head)
      (if (h.hh.get a).next = none then (h.hh.get a).prev else (l₁ ++ a :: l₂).getLast?) (l₁ ++ l₂) :=
    hl.order.unlink (fun b _ => (happ b).1.trans (delInOrder_next hp))
      fun b _ => (happ b).2.1.trans (delInOrder_prev hp)
  refine ⟨_, rfl, ⟨?_, fun b hb => ?_, fun _ => ⟨ht.numBuckets, ?_, fun b hb => ?_, hdel⟩⟩,
    fun b => (happ b).2.2.1.trans delInOrder_rest.1⟩
  · rw [← horder.tail_eq, hhead]
    exact horder
  · rw [hlast] at hb
    exact Option.some.inj hb
  · show h.tbl.numItems - 1 = _
    rw [ht.numItems]
    simp
  · rw [(happ b).2.2.2, (happ b).2.2.1, delInOrder_rest.1, delInOrder_rest.2.1]
    exact ht.hashed b ((List.sublist_cons_self a l₂).append_left l₁ |>.subset hb)

end Split

theorem delete_spec (hl : Holds hashFcn h l) (ha : a ∈ l) :
    ∃ h', hashDelete h a = some h' ∧ Holds hashFcn h' (l.erase a) ∧
      ∀ b, (h'.hh.get b).key = (h.hh.get b).key := by
  obtain ⟨l₁, l₂, rfl⟩ := List.append_of_mem ha
  have hnot : a ∉ l₁ ++ l₂ := (List.nodup_middle.mp hl.nodup).notMem
  rw [List.erase_append_right _ fun he => hnot (List.mem_append_left _ he), List.erase_cons_head]
  by_cases hne : l₁ ++ l₂ = []
  · obtain ⟨rfl, rfl⟩ := List.append_eq_nil_iff.mp hne
    refine ⟨_, if_pos ⟨?_, ?_⟩, holds_nil _ rfl, fun _ => rfl⟩
    · exact hl.order.prev_eq
    · exact hl.order.next_eq
  · exact delete_other hl hne

/-! ## Finding and counting -/

omit [DecidableEq A] in
theorem cnt_spec (hl : Holds hashFcn h l) : hashCnt h = l.length := by
  unfold hashCnt
  rw [hl.head_eq]
  cases l with
  | nil => rfl
  | cons a l => exact (hl.table (List.cons_ne_nil a l)).numItems

omit [DecidableEq A] in
theorem find_spec [DecidableEq κ] (hl : Holds hashFcn h l)
    (hd : HashTable.Distinct (fun a => (h.hh.get a).key) l) (k : κ) :
    hashFind hashFcn h k = some (HashTable.find (fun a => (h.hh.get a).key) l k) := by
  have hhead := hl.head_eq
  unfold hashFind
  cases l with
  | nil =>
    rw [show h.head = none from hhead]
    rfl
  | cons b l =>
    rw [show h.head = some b from hhead]
    have ht := hl.table (List.cons_ne_nil b l)
    have hlt := hashToBkt_lt (hashFcn k) ht.numBuckets
    obtain ⟨c, ⟨⟨tail, hlinks⟩, -⟩, hperm⟩ := ht.chained _ hlt
    have hlen : c.length ≤ h.tbl.numItems := by
      rw [ht.numItems, hperm.length_eq]
      exact List.length_filter_le _ _
    dsimp only
    rw [Table.bucket_of_lt hlt, Option.bind_eq_bind, Option.bind_some, search_eq hlinks.forward hlen]
    refine congrArg some (?_ : HashTable.find (fun a => (h.hh.get a).key) c k = _)
    have hdc : HashTable.Distinct (fun a => (h.hh.get a).key) c :=
      (hd.sublist (List.filter_sublist.map _)).perm (hperm.symm.map _)
    ext a
    rw [HashTable.find_eq_some hdc, HashTable.find_eq_some hd, hperm.mem_iff, List.mem_filter]
    constructor
    · exact fun ⟨⟨ha, _⟩, hk⟩ => ⟨ha, hk⟩
    · -- the elements with the key are in the bucket that is searched
      rintro ⟨ha, hk⟩
      refine ⟨⟨ha, ?_⟩, hk⟩
      simp [ht.hashed a ha, hk]

/-! ## The integrity check -/

omit [DecidableEq A] in
theorem foldlM_fsck [DecidableEq A] {next prev : A → Option A} {p t : Option A} {l₁ l₂ : List A}
    (hlinks : Doubly next prev p t (l₁ ++ l₂)) :
    l₂.foldlM (fun (s : Option A × ℕ) a => if s.1 = prev a then some (some a, s.2 + 1) else none)
      (l₁.getLast?, l₁.length) = some ((l₁ ++ l₂).getLast?, (l₁ ++ l₂).length) := by
  induction l₂ generalizing l₁ with
  | nil => simp
  | cons a l₂ ih =>
    have hsplit : l₁ ++ a :: l₂ = (l₁ ++ [a]) ++ l₂ := by simp
    rw [List.foldlM_cons, if_pos hlinks.prev_eq.symm, Option.bind_eq_bind, Option.bind_some]
    rw [hsplit] at hlinks ⊢
    rw [← ih hlinks]
    simp

theorem fsckList_eq {next prev : A → Option A} {p t : Option A} {n : ℕ}
    (hlinks : Doubly next prev p t l) (hn : l.length ≤ n) : fsckList next prev n p = some l.length := by
  unfold fsckList
  rw [follow_eq (fun _ _ _ _ _ _ => rfl) hlinks.forward hn]
  have hfold := @foldlM_fsck _ _ next prev p t [] l hlinks
  rw [List.getLast?_nil, List.length_nil] at hfold
  rw [hfold]
  rfl

theorem fsck_of_holds (hl : Holds hashFcn h l) : hashFsck h = true := by
  have hhead := hl.head_eq
  unfold hashFsck
  cases l with
  | nil => rw [show h.head = none from hhead]
  | cons a l =>
    have ht := hl.table (List.cons_ne_nil a l)
    choose! c hc using ht.chained
    have hcount : ∀ n ≤ h.tbl.numBuckets, (List.range n).foldlM (fun n i => do
        let b ← h.tbl.bucket i
        let bktCount ← fsckList (fun a => (h.hh.get a).hhNext) (fun a => (h.hh.get a).hhPrev)
          h.tbl.numItems b.hhHead
        if b.count = bktCount then some (n + bktCount) else none) 0 =
          some ((List.range n).flatMap c).length := by
      intro n hn
      induction n with
      | zero => rfl
      | succ n ih =>
        obtain ⟨⟨⟨tail, hlinks⟩, hcount⟩, hperm⟩ := hc n hn
        have hlen : (c n).length ≤ h.tbl.numItems := by
          rw [ht.numItems, hperm.length_eq]
          exact List.length_filter_le _ _
        rw [List.range_succ, List.foldlM_append, ih (Nat.le_of_succ_le hn), Option.bind_eq_bind,
          Option.bind_some, List.foldlM_cons, Table.bucket_of_lt hn]
        simp [fsckList_eq hlinks hlen, hcount, List.flatMap_append]
    have htotal := (chains_perm ht hl.nodup hc).length_eq
    have horder := hl.order
    rw [show h.head = some a from hhead] at horder ⊢
    dsimp only
    rw [hcount _ le_rfl, fsckList_eq horder ht.numItems.ge, htotal, ht.numItems]
    simp

/-! ## The loops over all elements -/

omit [DecidableEq A] in
theorem iter_spec (hl : Holds hashFcn h l) : hashIter h = some l := by
  have hnext : ∀ a rest, ∀ acc : List A, acc ++ a :: rest = l → (h.hh.get a).next = rest.head? := by
    rintro a rest acc rfl
    exact hl.order.next_eq
  have hbody : ∀ a rest, ∀ acc : List A, acc ++ a :: rest = l →
      ∃ acc', some (acc ++ [a]) = some acc' ∧ acc' ++ rest = l := by
    rintro a rest acc rfl
    exact ⟨_, rfl, by simp⟩
  obtain ⟨acc, hiter, -, hdone⟩ := @iterate_eq _ _ _ _ [] l (hashCnt h)
    (fun rest acc => acc ++ rest = l) hnext hbody (List.nil_append l) (cnt_spec hl).ge
  rw [List.append_nil] at hdone
  unfold hashIter
  rw [hl.head_eq, hiter, hdone]

/-- The elements are deleted in the order in which they were added, whatever comes to be in the memory
that is freed, and none is left. -/
theorem iterDel_spec (hl : Holds hashFcn h l) (junk : A → Handle A κ) :
    ∃ h', hashIterDel junk h = some (h', l) ∧ h'.head = none := by
  have hnext : ∀ a rest, ∀ s : Hash A κ × List A, Holds hashFcn s.1 (a :: rest) ∧ s.2 ++ a :: rest = l →
      (s.1.hh.get a).next = rest.head? :=
    fun a rest s hI => @Doubly.next_eq _ [] rest a _ _ _ _ hI.1.order
  have hbody : ∀ a rest, ∀ s : Hash A κ × List A, Holds hashFcn s.1 (a :: rest) ∧ s.2 ++ a :: rest = l →
      ∃ s', (do
        let h ← hashDelete s.1 a
        some ({ h with hh := setHandle h.hh a fun _ => junk a }, s.2 ++ [a])) = some s' ∧
        Holds hashFcn s'.1 rest ∧ s'.2 ++ rest = l := by
    rintro a rest s ⟨hs, hacc⟩
    obtain ⟨h₁, hdel, hl₁, -⟩ := delete_spec hs List.mem_cons_self
    rw [List.erase_cons_head] at hl₁
    have hne : ∀ b ∈ rest, b ≠ a := fun b hb he => (List.nodup_cons.mp hs.nodup).1 (he ▸ hb)
    refine ⟨_, by rw [hdel]; rfl, hl₁.congr rfl rfl fun b hb => ?_, by simpa using hacc⟩
    simp [hne b hb]
  obtain ⟨⟨h', acc⟩, hiter, -, hend, hacc⟩ :=
    @iterate_eq _ _ _ _ (h, []) l (hashCnt h) (fun rest s => Holds hashFcn s.1 rest ∧ s.2 ++ rest = l)
      hnext hbody ⟨hl, List.nil_append l⟩ (cnt_spec hl).ge
  rw [List.append_nil] at hacc
  refine ⟨h', ?_, hend.head_eq⟩
  unfold hashIterDel
  rw [hl.head_eq]
  exact hiter.trans (by rw [show acc = l from hacc])

end MpiToShmem.Uthash
