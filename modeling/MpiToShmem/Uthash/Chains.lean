import MpiToShmem.Uthash.Table
import Mathlib.Data.List.Perm.Basic

/-!
# The lists of a hash

1. `Chain`, `Chained`: the elements of one bucket, and of all buckets.
2. `Chained.linkFront`, `Chained.unlink`: an element is linked into its bucket and taken out of it.
3. `Holds`: what a hash is in memory when its elements are `l`, in the order of adding.
-/

namespace MpiToShmem.Uthash

open Kit.Linked

variable {A κ : Type} {hh hh' hh'' : Handles A κ} {a b : A} {bkt : Bucket A} {c : List A}

/-! ## The elements of the buckets -/

/-- The elements of a bucket. -/
structure Chain (hh : Handles A κ) (b : Bucket A) (c : List A) : Prop where
  links : ∃ tail, Doubly (fun a => (hh.get a).hhNext) (fun a => (hh.get a).hhPrev) b.hhHead tail c
  count : b.count = c.length

theorem chain_zero : Chain hh Bucket.zero [] := ⟨⟨none, doubly_nil⟩, rfl⟩

theorem Chain.congr (h : Chain hh bkt c) (hnext : ∀ a ∈ c, (hh'.get a).hhNext = (hh.get a).hhNext)
    (hprev : ∀ a ∈ c, (hh'.get a).hhPrev = (hh.get a).hhPrev) : Chain hh' bkt c := by
  obtain ⟨⟨tail, hlinks⟩, hcount⟩ := h
  exact ⟨⟨tail, hlinks.congr hnext hprev⟩, hcount⟩

theorem Chain.head_mem (h : Chain hh bkt c) (hb : bkt.hhHead = some b) : b ∈ c := by
  obtain ⟨⟨tail, hlinks⟩, -⟩ := h
  rw [hlinks.forward.head?_eq] at hb
  exact List.mem_of_head? hb

theorem Chain.nodup (h : Chain hh bkt c) : c.Nodup := by
  obtain ⟨⟨tail, hlinks⟩, -⟩ := h
  exact hlinks.forward.nodup

theorem Chain.mem_of_hhNext (h : Chain hh bkt c) (ha : a ∈ c) (hb : (hh.get a).hhNext = some b) :
    b ∈ c := by
  obtain ⟨⟨tail, hlinks⟩, -⟩ := h
  obtain ⟨c₁, c₂, rfl⟩ := List.append_of_mem ha
  have hnext : (hh.get a).hhNext = c₂.head? := hlinks.next_eq
  have hmem := List.mem_of_head? (hnext.symm.trans hb)
  exact List.mem_append_right _ (List.mem_cons_of_mem _ hmem)

theorem Chain.mem_of_hhPrev (h : Chain hh bkt c) (ha : a ∈ c) (hb : (hh.get a).hhPrev = some b) :
    b ∈ c := by
  obtain ⟨⟨tail, hlinks⟩, -⟩ := h
  obtain ⟨c₁, c₂, rfl⟩ := List.append_of_mem ha
  have hprev : (hh.get a).hhPrev = c₁.getLast? := hlinks.prev_eq
  exact List.mem_append_left _ (List.mem_of_getLast? (hprev.symm.trans hb))

theorem Chain.hhPrev_ne (h : Chain hh bkt c) (ha : a ∈ c) : (hh.get a).hhPrev ≠ some a := by
  obtain ⟨⟨tail, hlinks⟩, -⟩ := id h
  obtain ⟨c₁, c₂, rfl⟩ := List.append_of_mem ha
  have hprev : (hh.get a).hhPrev = c₁.getLast? := hlinks.prev_eq
  intro he
  have hmem := List.mem_of_getLast? (hprev.symm.trans he)
  exact (List.nodup_append.mp h.nodup).2.2 a hmem a List.mem_cons_self rfl

/-- Nothing but the links in the buckets has changed. -/
def SameApp (hh' hh : Handles A κ) : Prop :=
  ∀ a, (hh'.get a).next = (hh.get a).next ∧ (hh'.get a).prev = (hh.get a).prev ∧
    (hh'.get a).key = (hh.get a).key ∧ (hh'.get a).hashv = (hh.get a).hashv

theorem SameApp.trans (h : SameApp hh'' hh') (h' : SameApp hh' hh) : SameApp hh'' hh := fun a =>
  ⟨(h a).1.trans (h' a).1, (h a).2.1.trans (h' a).2.1, (h a).2.2.1.trans (h' a).2.2.1,
    (h a).2.2.2.trans (h' a).2.2.2⟩

/-- The elements are in the buckets of their hash values. -/
def Chained (hh : Handles A κ) (buckets : ℕ → Bucket A) (num : ℕ) (items : List A) : Prop :=
  ∀ i < num, ∃ c, Chain hh (buckets i) c ∧
    c.Perm (items.filter fun a => hashToBkt (hh.get a).hashv num = i)

variable {buckets : ℕ → Bucket A} {num : ℕ} {items items' : List A}

theorem chained_nil : Chained hh (fun _ => Bucket.zero) num [] := fun _ _ => ⟨[], chain_zero, .nil⟩

theorem Chained.perm (h : Chained hh buckets num items) (hp : items.Perm items') :
    Chained hh buckets num items' := fun i hi => by
  obtain ⟨c, hc, hperm⟩ := h i hi
  exact ⟨c, hc, hperm.trans (hp.filter _)⟩

theorem Chained.congr (h : Chained hh buckets num items)
    (hsame : ∀ a ∈ items, (hh'.get a).hashv = (hh.get a).hashv ∧
      (hh'.get a).hhNext = (hh.get a).hhNext ∧ (hh'.get a).hhPrev = (hh.get a).hhPrev) :
    Chained hh' buckets num items := fun i hi => by
  obtain ⟨c, hc, hperm⟩ := h i hi
  have hmem : ∀ a ∈ c, a ∈ items := fun a ha => List.mem_of_mem_filter (hperm.subset ha)
  refine ⟨c, hc.congr (fun a ha => (hsame a (hmem a ha)).2.1) fun a ha => (hsame a (hmem a ha)).2.2,
    hperm.trans (List.Perm.of_eq (List.filter_congr fun a ha => ?_))⟩
  rw [(hsame a ha).1]

/-- The table of a hash whose elements are `l`. -/
structure TableHolds (hashFcn : κ → ℕ) (h : Hash A κ) (l : List A) : Prop where
  numBuckets : h.tbl.numBuckets = 2 ^ h.tbl.log2NumBuckets
  numItems : h.tbl.numItems = l.length
  hashed : ∀ a ∈ l, (h.hh.get a).hashv = hashFcn (h.hh.get a).key
  chained : Chained h.hh h.tbl.buckets h.tbl.numBuckets l

variable [DecidableEq A] {p : Option A} {f : Handle A κ → Handle A κ}

/-! ## Writing -/

@[simp] theorem setHandle_get :
    (setHandle hh a f).get b = if b = a then f (hh.get b) else hh.get b := by
  unfold setHandle
  by_cases h : b = a
  · simp [h]
  · simp [h]

@[simp] theorem setIf_get : (setIf hh p f).get b = if p = some b then f (hh.get b) else hh.get b := by
  cases p with
  | none => rfl
  | some a => simp [setIf, eq_comm]

@[simp] theorem linkFront_next : ((linkFront hh p a).get b).next = (hh.get b).next := by
  simp [linkFront, apply_ite Handle.next]

@[simp] theorem linkFront_prev : ((linkFront hh p a).get b).prev = (hh.get b).prev := by
  simp [linkFront, apply_ite Handle.prev]

@[simp] theorem linkFront_key : ((linkFront hh p a).get b).key = (hh.get b).key := by
  simp [linkFront, apply_ite Handle.key]

@[simp] theorem linkFront_hashv : ((linkFront hh p a).get b).hashv = (hh.get b).hashv := by
  simp [linkFront, apply_ite Handle.hashv]

@[simp] theorem linkFront_hhNext :
    ((linkFront hh p a).get b).hhNext = if b = a then p else (hh.get b).hhNext := by
  simp [linkFront, apply_ite Handle.hhNext]

@[simp] theorem linkFront_hhPrev : ((linkFront hh p a).get b).hhPrev =
    if p = some b then some a else if b = a then none else (hh.get b).hhPrev := by
  simp [linkFront, apply_ite Handle.hhPrev]

/-! ## Linking and unlinking -/

theorem Chain.linkFront (h : Chain hh bkt c) (ha : a ∉ c) (m : ℕ) :
    Chain (linkFront hh bkt.hhHead a) ⟨some a, bkt.count + 1, m⟩ (a :: c) := by
  obtain ⟨⟨tail, hlinks⟩, hcount⟩ := id h
  have hne : ∀ b ∈ c, b ≠ a := fun b hb he => ha (he ▸ hb)
  have hself : bkt.hhHead ≠ some a := fun he => ha (h.head_mem he)
  refine ⟨⟨_, hlinks.pushFront ?_ ?_ ?_ ?_ ?_⟩, ?_⟩
  · simp
  · simp [hself]
  · intro b hb
    simp [hne b hb]
  · intro b hb
    simp [hb]
  · intro b hb hnot
    simp [hne b hb, hnot]
  · simp [hcount]

/-- `HASH_DEL_IN_BKT` takes the element out of its chain. -/
theorem Chain.delInBkt (h : Chain hh bkt c) (ha : a ∈ c) :
    Chain (hashDelInBkt hh bkt a).2 (hashDelInBkt hh bkt a).1 (c.erase a) := by
  obtain ⟨c₁, c₂, rfl⟩ := List.append_of_mem ha
  have hself := h.hhPrev_ne ha
  have hnot : a ∉ c₁ ++ c₂ := (List.nodup_middle.mp h.nodup).notMem
  have herase : (c₁ ++ a :: c₂).erase a = c₁ ++ c₂ := by
    rw [List.erase_append_right _ fun he => hnot (List.mem_append_left _ he), List.erase_cons_head]
  obtain ⟨⟨tail, hlinks⟩, hcount⟩ := h
  have hprev : (hh.get a).hhPrev = c₁.getLast? := hlinks.prev_eq
  have hhead : (hashDelInBkt hh bkt a).1.hhHead =
      if (hh.get a).hhPrev = none then (hh.get a).hhNext else bkt.hhHead := by
    have hfirst : bkt.hhHead = some a ↔ (hh.get a).hhPrev = none := by
      rw [hlinks.forward.head?_eq, hprev]
      cases c₁ with
      | nil => simp
      | cons b c₁ =>
        have hba : b ≠ a := fun he => hnot (by simp [he])
        simp [hba]
    simp [hashDelInBkt, hfirst]
  have hdel : ∃ t, Doubly (fun b => ((hashDelInBkt hh bkt a).2.get b).hhNext)
      (fun b => ((hashDelInBkt hh bkt a).2.get b).hhPrev)
      (if (hh.get a).hhPrev = none then (hh.get a).hhNext else bkt.hhHead) t (c₁ ++ c₂) :=
    ⟨_, hlinks.unlink (fun b _ => by simp [hashDelInBkt, hself, apply_ite Handle.hhNext])
      fun b _ => by simp [hashDelInBkt, hself, apply_ite Handle.hhPrev]⟩
  rw [herase]
  refine ⟨hhead ▸ hdel, ?_⟩
  show bkt.count - 1 = _
  rw [hcount]
  simp

theorem sameApp_linkFront : SameApp (linkFront hh p a) hh := fun b => by simp

theorem sameApp_delInBkt : SameApp (hashDelInBkt hh bkt a).2 hh := fun b => by
  simp [hashDelInBkt, apply_ite Handle.next, apply_ite Handle.prev, apply_ite Handle.key,
    apply_ite Handle.hashv]

/-! ## An element of a bucket -/

/-- An element is put into the bucket of its hash value. -/
theorem Chained.linkFront (h : Chained hh buckets num items) (ha : a ∉ items) {i : ℕ}
    (hi : hashToBkt (hh.get a).hashv num = i) (m : ℕ) :
    Chained (linkFront hh (buckets i).hhHead a)
      (Function.update buckets i ⟨some a, (buckets i).count + 1, m⟩) num (a :: items) := by
  intro j hj
  obtain ⟨c, hc, hperm⟩ := h j hj
  have hmem : ∀ b ∈ c, b ∈ items ∧ hashToBkt (hh.get b).hashv num = j := fun b hb => by
    simpa using hperm.subset hb
  have hne : ∀ b ∈ c, b ≠ a := fun b hb he => ha (he ▸ (hmem b hb).1)
  simp only [linkFront_hashv]
  by_cases hij : j = i
  · subst hij
    refine ⟨a :: c, ?_, ?_⟩
    · rw [Function.update_self]
      exact hc.linkFront (fun hac => hne a hac rfl) m
    · rw [List.filter_cons_of_pos (by simpa using hi)]
      exact hperm.cons a
  · -- the first element of the other bucket has another hash value
    have hother : ∀ b ∈ c, (buckets i).hhHead ≠ some b := by
      intro b hb he
      obtain ⟨c', hc', hperm'⟩ := h i (hi ▸ Nat.lt_of_le_of_lt (Nat.and_le_right) (by omega))
      have hb' : b ∈ items ∧ hashToBkt (hh.get b).hashv num = i := by
        simpa using hperm'.subset (hc'.head_mem he)
      exact hij ((hmem b hb).2.symm.trans hb'.2)
    refine ⟨c, ?_, ?_⟩
    · rw [Function.update_of_ne hij]
      refine hc.congr (fun b hb => ?_) fun b hb => ?_
      · simp [hne b hb]
      · simp [hne b hb, hother b hb]
    · rw [List.filter_cons_of_neg (by simpa [hi] using fun he => hij he.symm)]
      exact hperm

/-- An element is taken out of its bucket. -/
theorem Chained.delInBkt (h : Chained hh buckets num items) (ha : a ∈ items)
    {i : ℕ} (hi : hashToBkt (hh.get a).hashv num = i) (hin : i < num) :
    Chained (hashDelInBkt hh (buckets i) a).2
      (Function.update buckets i (hashDelInBkt hh (buckets i) a).1) num (items.erase a) := by
  obtain ⟨c, hc, hperm⟩ := h i hin
  have hac : a ∈ c := hperm.symm.subset (by simpa using ⟨ha, hi⟩)
  intro j hj
  have hhashv : ∀ b, ((hashDelInBkt hh (buckets i) a).2.get b).hashv = (hh.get b).hashv :=
    fun b => (sameApp_delInBkt b).2.2.2
  simp only [hhashv]
  by_cases hij : j = i
  · subst hij
    refine ⟨c.erase a, ?_, ?_⟩
    · rw [Function.update_self]
      exact hc.delInBkt hac
    · exact (hperm.erase a).trans (List.Perm.of_eq List.erase_filter)
  · obtain ⟨c', hc', hperm'⟩ := h j hj
    have hnot : ∀ b ∈ c', b ∉ c := by
      intro b hb hbc
      have hbj := List.of_mem_filter (hperm'.subset hb)
      have hbi := List.of_mem_filter (hperm.subset hbc)
      simp only [decide_eq_true_eq] at hbj hbi
      exact hij (hbj.symm.trans hbi)
    refine ⟨c', ?_, hperm'.trans (List.Perm.of_eq ?_)⟩
    · rw [Function.update_of_ne hij]
      have hnext : ∀ b ∈ c', (hh.get a).hhNext ≠ some b := fun b hb he =>
        hnot b hb (hc.mem_of_hhNext hac he)
      have hprev : ∀ b ∈ c', (hh.get a).hhPrev ≠ some b := fun b hb he =>
        hnot b hb (hc.mem_of_hhPrev hac he)
      refine hc'.congr (fun b hb => ?_) fun b hb => ?_
      · simp [hashDelInBkt, hprev b hb, apply_ite Handle.hhNext]
      · simp [hashDelInBkt, hc.hhPrev_ne, hac, hnext b hb, apply_ite Handle.hhPrev]
    · rw [← List.erase_filter, List.erase_of_not_mem]
      simpa [hi] using fun _ he => hij he.symm

end MpiToShmem.Uthash
