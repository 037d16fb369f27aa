import Mathlib.Data.Int.Notation
import MpiToShmem.Kit.Linked
import MpiToShmem.Pwt.Scheduler

/-!
# Work queues in memory

A work queue is a linked list of allocated entries with pointers to its first and last entry, a count
and a limit. All queues of a scheduler have their entries in one memory.

1. `workqAdd`, `workqRemove`: the accesses to memory; `none` is an access to an entry that is not
   there.
2. `WorkQ.Holds`: the items of a queue, from its first entry on.
3. `workqAdd_spec`, `workqRemove_spec`: an item joins at the end, and leaves from the front.
-/

namespace MpiToShmem.Pwt

open Kit Linked

variable {W : Type}

abbrev Addr := ℕ

/-- `WorkQEntry`. -/
structure WorkQEntry (W : Type) where
  item : W
  next : Option Addr

/-- `WorkQ`. -/
structure WorkQ where
  count : ℤ
  max : ℤ
  head : Option Addr
  tail : Option Addr
deriving DecidableEq

/-- The allocated entries. -/
abbrev Heap (W : Type) := Addr → Option (WorkQEntry W)

def Heap.next (heap : Heap W) (a : Addr) : Option Addr := (heap a).bind WorkQEntry.next

/-- `workq_new`, which has no limit. -/
def workqNew : WorkQ := ⟨0, -1, none, none⟩

/-- `workq_add`, with the address that `malloc` gives for the entry. -/
def workqAdd (heap : Heap W) (q : WorkQ) (nentry : Addr) (item : W) : Option (Heap W × WorkQ) := do
  let heap : Heap W := Function.update heap nentry (some ⟨item, none⟩)
  let heap ← match q.tail with
    | some tail => do
      let entry ← heap tail
      pure (Function.update heap tail (some { entry with next := some nentry }))
    | none => pure heap
  let q := { q with tail := some nentry }
  let q := if q.count = 0 then { q with head := some nentry } else q
  return (heap, { q with count := q.count + 1 })

/-- `workq_remove`; an empty queue gives no item. -/
def workqRemove (heap : Heap W) (q : WorkQ) : Option (Option W × Heap W × WorkQ) :=
  match q.head with
  | none => some (none, heap, q)
  | some a => do
    let entry ← heap a
    let q := { q with head := entry.next, count := q.count - 1 }
    let q := if q.count ≤ 0 then { q with tail := q.head, count := 0 } else q
    return (some entry.item, Function.update heap a none, q)

def workqEmpty (q : WorkQ) : Bool := q.count = 0 && q.head.isNone

def workqFull (q : WorkQ) : Bool := 0 ≤ q.max && q.max ≤ q.count

/-! ## Contents -/

/-- The entries of a queue are at `addrs` and hold `items`. -/
structure WorkQ.Holds (heap : Heap W) (q : WorkQ) (addrs : List Addr) (items : List W) : Prop where
  entries : Seg heap.next q.head addrs none
  tail : q.tail = addrs.getLast?
  count : q.count = addrs.length
  items : addrs.map (fun a => (heap a).map WorkQEntry.item) = items.map some

variable {heap : Heap W} {q : WorkQ} {addrs : List Addr} {items : List W} {nentry : Addr} {item : W}

theorem holds_workqNew (heap : Heap W) : workqNew.Holds heap [] [] := ⟨rfl, rfl, rfl, rfl⟩

namespace WorkQ.Holds

theorem length_eq (h : q.Holds heap addrs items) : addrs.length = items.length := by
  have hlen := congrArg List.length h.items
  rwa [List.length_map, List.length_map] at hlen

theorem eq_nil_iff (h : q.Holds heap addrs items) : addrs = [] ↔ items = [] := by
  rw [← List.length_eq_zero_iff, h.length_eq, List.length_eq_zero_iff]

/-- An entry of a queue is allocated. -/
theorem alloc (h : q.Holds heap addrs items) {a : Addr} (ha : a ∈ addrs) : (heap a).isSome := by
  have hmem : (heap a).map WorkQEntry.item ∈ items.map some := by
    rw [← h.items]
    exact List.mem_map_of_mem ha
  obtain ⟨item, -, hitem⟩ := List.mem_map.mp hmem
  rw [← Option.isSome_map (f := WorkQEntry.item), ← hitem]
  rfl

/-- Other entries do not matter. -/
theorem congr {heap' : Heap W} (h : q.Holds heap addrs items)
    (hheap : ∀ a ∈ addrs, heap' a = heap a) : q.Holds heap' addrs items where
  entries := h.entries.congr fun a ha => by rw [Heap.next, Heap.next, hheap a ha]
  tail := h.tail
  count := h.count
  items := by
    rw [← h.items]
    exact List.map_congr_left fun a ha => by rw [hheap a ha]

theorem workqEmpty_eq (h : q.Holds heap addrs items) : workqEmpty q = items.isEmpty := by
  unfold workqEmpty
  rw [h.count, Bool.eq_iff_iff, Bool.and_eq_true, decide_eq_true_iff, Option.isNone_iff_eq_none,
    List.isEmpty_iff, ← h.eq_nil_iff, ← h.entries.eq_nil_iff]
  constructor
  · exact fun he => he.2
  · rintro rfl
    exact ⟨rfl, rfl⟩

end WorkQ.Holds

/-- The first and the last entry of a queue are there together. -/
theorem WorkQ.Holds.head_tail (h : q.Holds heap addrs items) :
    q.count = 0 ∧ q.head = none ∧ q.tail = none ∨
      q.count ≠ 0 ∧ q.head.isSome ∧ ∃ tail ∈ addrs, q.tail = some tail := by
  rcases List.eq_nil_or_concat addrs with rfl | ⟨l, tail, rfl⟩
  · exact Or.inl ⟨h.count, seg_nil.mp h.entries, h.tail⟩
  · refine Or.inr ⟨?_, ?_, tail, by simp, by simpa using h.tail⟩
    · rw [h.count]
      simp
      omega
    · rw [Option.isSome_iff_ne_none, Ne, ← h.entries.eq_nil_iff]
      simp

/-! ## Calls -/

/-- What the entries are after an item was added. -/
theorem workqAdd_heap (h : q.Holds heap addrs items) (hnew : heap nentry = none) (item : W) :
    ∃ heap', workqAdd heap q nentry item =
        some (heap', ⟨q.count + 1, q.max, q.head.or (some nentry), some nentry⟩) ∧
      heap' nentry = some ⟨item, none⟩ ∧
      (∀ a, q.tail = some a → heap'.next a = some nentry) ∧
      (∀ a, a ≠ nentry → q.tail ≠ some a → heap' a = heap a) ∧
      ∀ a, a ≠ nentry → (heap' a).map WorkQEntry.item = (heap a).map WorkQEntry.item := by
  unfold workqAdd
  rcases h.head_tail with ⟨hcount, hhead, htail⟩ | ⟨hcount, hhead, tail, hmem, htail⟩
  · refine ⟨Function.update heap nentry (some ⟨item, none⟩), ?_, Function.update_self _ _ _, ?_, ?_,
      ?_⟩
    · simp [htail, hcount, hhead]
    · intro a ha
      rw [htail] at ha
      cases ha
    · exact fun a ha _ => Function.update_of_ne ha _ _
    · exact fun a ha => by rw [Function.update_of_ne ha]
  · obtain ⟨entry, hentry⟩ := Option.isSome_iff_exists.mp (h.alloc hmem)
    have hne : tail ≠ nentry := by
      rintro rfl
      rw [hnew] at hentry
      cases hentry
    refine ⟨Function.update (Function.update heap nentry (some ⟨item, none⟩)) tail
      (some { entry with next := some nentry }), ?_, ?_, ?_, ?_, ?_⟩
    · simp [htail, hcount, hentry, Function.update_of_ne hne, Option.or_of_isSome hhead]
    · rw [Function.update_of_ne hne.symm, Function.update_self]
    · intro a ha
      obtain rfl := Option.some.inj (htail.symm.trans ha)
      rw [Heap.next, Function.update_self]
      rfl
    · intro a ha hta
      have hat : a ≠ tail := fun he => hta (htail.trans (congrArg some he.symm))
      rw [Function.update_of_ne hat, Function.update_of_ne ha]
    · intro a ha
      by_cases hat : a = tail
      · rw [hat, Function.update_self, hentry]
        rfl
      · rw [Function.update_of_ne hat, Function.update_of_ne ha]

/-- An item joins a queue at its end. -/
theorem workqAdd_spec (h : q.Holds heap addrs items) (hnew : heap nentry = none) (item : W) :
    ∃ heap' q', workqAdd heap q nentry item = some (heap', q') ∧ q'.max = q.max ∧
      q'.Holds heap' (addrs ++ [nentry]) (items ++ [item]) ∧
      ∀ a ∉ addrs, a ≠ nentry → heap' a = heap a := by
  obtain ⟨heap', hadd, hself, hlast, hrest, hitems⟩ := workqAdd_heap h hnew item
  have hne : ∀ a ∈ addrs, a ≠ nentry := by
    rintro a ha rfl
    have halloc := h.alloc ha
    rw [hnew] at halloc
    cases halloc
  refine ⟨heap', _, hadd, rfl, ⟨?_, ?_, ?_, ?_⟩, fun a ha hat => hrest a hat fun ht => ?_⟩
  · rw [h.tail] at hlast hrest
    refine h.entries.snoc (by rw [Heap.next, hself]; rfl) hlast fun a ha ht => ?_
    rw [Heap.next, Heap.next, hrest a (hne a ha) ht]
  · simp
  · simp [h.count]
  · rw [List.map_append, List.map_append, ← h.items, List.map_singleton, hself]
    refine congrArg₂ _ (List.map_congr_left fun a ha => ?_) rfl
    exact hitems a (hne a ha)
  · rw [h.tail] at ht
    exact ha (List.mem_of_getLast? ht)

/-- The first item of a queue leaves it, and its entry is freed. -/
theorem workqRemove_spec {a : Addr} (h : q.Holds heap (a :: addrs) (item :: items)) :
    ∃ q', workqRemove heap q = some (some item, Function.update heap a none, q') ∧
      q'.max = q.max ∧ q'.Holds (Function.update heap a none) addrs items := by
  obtain ⟨hhead, hentries⟩ := h.entries
  obtain ⟨hitem, hlist⟩ := List.cons.inj h.items
  obtain ⟨entry, hentry, rfl⟩ := Option.map_eq_some_iff.mp hitem
  have hnext : heap.next a = entry.next := by
    rw [Heap.next, hentry]
    rfl
  have hcount : q.count - 1 = addrs.length := by
    rw [h.count, List.length_cons]
    omega
  have hne : ∀ b ∈ addrs, b ≠ a := by
    rintro b hb rfl
    exact (List.nodup_cons.mp h.entries.nodup).1 hb
  have hrest : ∀ b ∈ addrs, Function.update heap a none b = heap b := fun b hb =>
    Function.update_of_ne (hne b hb) _ _
  have hseg : Seg (Heap.next (Function.update heap a none)) entry.next addrs none := by
    rw [← hnext]
    exact hentries.congr fun b hb => by rw [Heap.next, Heap.next, hrest b hb]
  have hitems : addrs.map (fun b => (Function.update heap a none b).map WorkQEntry.item) =
      items.map some := by
    rw [← hlist]
    exact List.map_congr_left fun b hb => by rw [hrest b hb]
  unfold workqRemove
  rw [hhead]
  dsimp only
  rw [hentry, Option.bind_eq_bind, Option.bind_some, hcount]
  cases addrs with
  | nil =>
    refine ⟨⟨0, q.max, entry.next, entry.next⟩, rfl, rfl, hseg, ?_, rfl, hitems⟩
    rw [seg_nil.mp hseg]
    rfl
  | cons b l =>
    refine ⟨⟨(b :: l).length, q.max, entry.next, q.tail⟩, ?_, rfl, hseg, ?_, rfl, hitems⟩
    · rw [if_neg]
      · rfl
      · simp
    · rw [h.tail]
      simp

end MpiToShmem.Pwt
