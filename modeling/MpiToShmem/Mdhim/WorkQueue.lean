import Mathlib.Data.Int.Notation
import MpiToShmem.Kit.Linked
import MpiToShmem.Kit.Runs

/-!
# The work queue of a range server

A doubly linked list of work items. Work is added at the head and taken from the tail, each with
`work_queue_mutex` locked. An item is allocated by the thread that adds it, and freed by the worker
thread after its work.

1. `rangeServerAddWork` and `getWork` are written with each of their accesses to memory; `none` is an
   access to an item that is not there.
2. `rangeServerAddWork_spec`, `getWork_spec`: what they do to the list.
3. `workQueue_fifo`: the queue of any run.
-/

namespace MpiToShmem.WorkQueue

open Kit Linked

variable {M : Type}

/-! ## Memory -/

abbrev Addr := ℕ

/-- `work_item`. -/
structure WorkItem (M : Type) where
  next : Option Addr
  prev : Option Addr
  message : M
  source : ℤ
deriving DecidableEq

/-- The allocated items, and `work_queue`. -/
structure Memory (M : Type) where
  items : Addr → Option (WorkItem M)
  head : Option Addr
  tail : Option Addr

namespace Memory

/-- The memory with `item` at `a`. -/
def write (mem : Memory M) (a : Addr) (item : WorkItem M) : Memory M :=
  { mem with items := Function.update mem.items a (some item) }

/-- A write to fields of the item at `a`. -/
def modify (mem : Memory M) (a : Addr) (f : WorkItem M → WorkItem M) : Option (Memory M) :=
  (mem.items a).map fun item => mem.write a (f item)

/-- The links of the items. -/
def next (mem : Memory M) (a : Addr) : Option Addr := (mem.items a).bind WorkItem.next

def prev (mem : Memory M) (a : Addr) : Option Addr := (mem.items a).bind WorkItem.prev

/-- What an item is for. -/
def work (mem : Memory M) (a : Addr) : Option (M × ℤ) :=
  (mem.items a).map fun item => (item.message, item.source)

end Memory

/-- `range_server_add_work`. -/
def rangeServerAddWork (mem : Memory M) (item : Addr) : Option (Memory M) := do
  let mem ← mem.modify item fun it => { it with next := none }
  let mem ← mem.modify item fun it => { it with prev := none }
  match mem.head with
  | some head =>
    let mem ← mem.modify head fun it => { it with prev := some item }
    let mem ← mem.modify item fun it => { it with next := some head }
    return { mem with head := some item }
  | none => return { mem with head := some item, tail := some item }

/-- `get_work`, with the item it returns. -/
def getWork (mem : Memory M) : Option (Option Addr × Memory M) :=
  match mem.tail with
  | none => some (none, mem)
  | some item => do
    let it ← mem.items item
    let mem ← match it.prev with
      | some before => do
        let mem ← mem.modify before fun it => { it with next := none }
        pure { mem with tail := some before }
      | none => pure { mem with tail := none, head := none }
    let mem ← mem.modify item fun it => { it with next := none }
    let mem ← mem.modify item fun it => { it with prev := none }
    return (some item, mem)

/-! ## Accesses -/

variable {mem mem' : Memory M} {a b item : Addr} {it : WorkItem M} {l : List Addr}

namespace Memory

theorem modify_of_some {f : WorkItem M → WorkItem M} (h : mem.items a = some it) :
    mem.modify a f = some (mem.write a (f it)) := by
  rw [modify, h]
  rfl

theorem write_write (it' : WorkItem M) : (mem.write a it).write a it' = mem.write a it' := by
  unfold write
  rw [Function.update_idem]

theorem write_comm (hne : a ≠ b) (it' : WorkItem M) :
    (mem.write a it).write b it' = (mem.write b it').write a it := by
  unfold write
  rw [Function.update_comm hne]

theorem items_write_self : (mem.write a it).items a = some it := Function.update_self _ _ _

theorem items_write_of_ne (hne : b ≠ a) : (mem.write a it).items b = mem.items b :=
  Function.update_of_ne hne _ _

theorem items_write : (mem.write a it).items b = if b = a then some it else mem.items b :=
  Function.update_apply _ _ _ _

theorem next_write : (mem.write a it).next b = if b = a then it.next else mem.next b := by
  unfold next
  rw [items_write]
  split_ifs <;> rfl

theorem prev_write : (mem.write a it).prev b = if b = a then it.prev else mem.prev b := by
  unfold prev
  rw [items_write]
  split_ifs <;> rfl

theorem work_write :
    (mem.write a it).work b = if b = a then some (it.message, it.source) else mem.work b := by
  unfold work
  rw [items_write]
  split_ifs <;> rfl

theorem next_of_some (h : mem.items a = some it) : mem.next a = it.next := by
  rw [next, h]
  rfl

theorem prev_of_some (h : mem.items a = some it) : mem.prev a = it.prev := by
  rw [prev, h]
  rfl

theorem work_of_some (h : mem.items a = some it) : mem.work a = some (it.message, it.source) := by
  rw [work, h]
  rfl

/-- A write that leaves alone what the item is for. -/
theorem work_write_of_some {it' : WorkItem M} (h : mem.items a = some it)
    (hm : it'.message = it.message) (hs : it'.source = it.source) :
    (mem.write a it').work = mem.work := by
  funext b
  rw [work_write, hm, hs]
  split_ifs with hb
  · rw [hb, work_of_some h]
  · rfl

theorem isSome_work : (mem.work a).isSome = (mem.items a).isSome := Option.isSome_map

theorem isSome_of_work (h : mem'.work = mem.work) (ha : (mem.items a).isSome) :
    (mem'.items a).isSome := by
  rwa [← isSome_work, h, isSome_work]

/-- The list of the queue, from its head to its tail, with all of its items allocated. -/
structure IsQueue (mem : Memory M) (l : List Addr) : Prop where
  linked : Doubly mem.next mem.prev mem.head mem.tail l
  alloc : ∀ a ∈ l, (mem.items a).isSome

/-- The rest of the memory does not matter. -/
theorem IsQueue.congr (h : mem.IsQueue l) (hitems : ∀ a ∈ l, mem'.items a = mem.items a)
    (hhead : mem'.head = mem.head) (htail : mem'.tail = mem.tail) : mem'.IsQueue l where
  linked := by
    rw [hhead, htail]
    refine h.linked.congr (fun a ha => ?_) fun a ha => ?_
    · rw [next, next, hitems a ha]
    · rw [prev, prev, hitems a ha]
  alloc a ha := by
    rw [hitems a ha]
    exact h.alloc a ha

theorem IsQueue.head_mem (h : mem.IsQueue l) (hh : mem.head = some a) :
    a ∈ l ∧ ∃ item, mem.items a = some item := by
  cases l with
  | nil => exact absurd ((seg_nil.mp h.linked.forward).symm.trans hh) (by simp)
  | cons b l =>
    obtain rfl := Option.some.inj (hh.symm.trans h.linked.forward.1)
    exact ⟨List.mem_cons_self, Option.isSome_iff_exists.mp (h.alloc a List.mem_cons_self)⟩

theorem IsQueue.isSome_tail (h : mem.IsQueue l) (hh : mem.head = some a) : mem.tail.isSome := by
  rw [Option.isSome_iff_ne_none]
  intro ht
  have hl := List.reverse_eq_nil_iff.mp (h.linked.backward.eq_nil_iff.mpr ht)
  rw [h.linked.forward.eq_nil_iff.mp hl] at hh
  cases hh

theorem IsQueue.prev_mem (h : mem.IsQueue (l ++ [a])) (hp : mem.prev a = some b) :
    b ∈ l ∧ ∃ item, mem.items b = some item := by
  have hback := h.linked.backward
  rw [List.reverse_append, List.reverse_singleton, List.singleton_append] at hback
  have hmem : b ∈ l := by
    rw [← List.mem_reverse]
    cases hrev : l.reverse with
    | nil =>
      rw [hrev] at hback
      exact absurd ((seg_nil.mp hback.2).symm.trans hp) (by simp)
    | cons c r =>
      rw [hrev] at hback
      obtain rfl := Option.some.inj (hp.symm.trans hback.2.1)
      exact List.mem_cons_self
  exact ⟨hmem, Option.isSome_iff_exists.mp (h.alloc b (List.mem_append_left _ hmem))⟩

end Memory

/-! ## Calls -/

theorem rangeServerAddWork_of_empty (hit : mem.items item = some it) (hh : mem.head = none) :
    rangeServerAddWork mem item = some
      { mem.write item { it with next := none, prev := none } with
        head := some item, tail := some item } := by
  unfold rangeServerAddWork
  rw [Memory.modify_of_some hit, Option.bind_eq_bind, Option.bind_some,
    Memory.modify_of_some Memory.items_write_self, Option.bind_some, Memory.write_write]
  dsimp only [Memory.write]
  rw [hh]
  rfl

theorem rangeServerAddWork_of_head {head : Addr} {first : WorkItem M}
    (hit : mem.items item = some it) (hh : mem.head = some head) (hne : head ≠ item)
    (hfirst : mem.items head = some first) :
    rangeServerAddWork mem item = some
      { (mem.write head { first with prev := some item }).write item
          { it with next := some head, prev := none } with head := some item } := by
  unfold rangeServerAddWork
  rw [Memory.modify_of_some hit, Option.bind_eq_bind, Option.bind_some,
    Memory.modify_of_some Memory.items_write_self, Option.bind_some, Memory.write_write]
  have hhead : (mem.write item { it with next := none, prev := none }).head = some head := hh
  rw [hhead]
  dsimp only
  rw [Memory.modify_of_some ((Memory.items_write_of_ne hne).trans hfirst), Option.bind_some,
    Memory.write_comm hne.symm, Memory.modify_of_some Memory.items_write_self, Option.bind_some,
    Memory.write_write]
  rfl

/-- The item becomes the head of the list. -/
theorem rangeServerAddWork_spec (h : mem.IsQueue l) (hit : mem.items item = some it)
    (hnot : item ∉ l) :
    ∃ mem', rangeServerAddWork mem item = some mem' ∧ mem'.IsQueue (item :: l) ∧
      mem'.work = mem.work := by
  have hne : ∀ b ∈ l, b ≠ item := fun b hb he => hnot (he ▸ hb)
  have halloc : ∀ mem' : Memory M, mem'.work = mem.work →
      ∀ a ∈ item :: l, (mem'.items a).isSome := by
    intro mem' hwork a ha
    refine Memory.isSome_of_work hwork ?_
    rcases List.mem_cons.mp ha with rfl | ha
    · rw [hit]
      rfl
    · exact h.alloc a ha
  cases hh : mem.head with
  | none =>
    obtain ⟨mem₁, hmem₁⟩ : ∃ mem₁, mem.write item { it with next := none, prev := none } = mem₁ :=
      ⟨_, rfl⟩
    have hwork : mem₁.work = mem.work := hmem₁ ▸ Memory.work_write_of_some hit rfl rfl
    have hnext : mem₁.next item = mem.head := by rw [← hmem₁, Memory.next_write, if_pos rfl, hh]
    have hprev : mem₁.prev item = none := by rw [← hmem₁, Memory.prev_write, if_pos rfl]
    refine ⟨_, rangeServerAddWork_of_empty hit hh, ?_⟩
    rw [hmem₁]
    refine ⟨⟨?_, halloc mem₁ hwork⟩, hwork⟩
    obtain rfl := h.linked.forward.eq_nil_iff.mpr hh
    have htail : mem.tail = none := seg_nil.mp h.linked.backward
    have hpush := h.linked.pushFront hnext hprev (List.forall_mem_nil _)
      (fun b hb => by rw [hh] at hb; cases hb) (List.forall_mem_nil _)
    rwa [htail] at hpush
  | some head =>
    obtain ⟨hmem, first, hfirst⟩ := h.head_mem hh
    have hhead := hne head hmem
    have hit' : (mem.write head { first with prev := some item }).items item = some it :=
      (Memory.items_write_of_ne hhead.symm).trans hit
    obtain ⟨mem₁, hmem₁⟩ : ∃ mem₁, (mem.write head { first with prev := some item }).write item
        { it with next := some head, prev := none } = mem₁ := ⟨_, rfl⟩
    have hwork : mem₁.work = mem.work := by
      rw [← hmem₁]
      exact Eq.trans (Memory.work_write_of_some hit' rfl rfl)
        (Memory.work_write_of_some hfirst rfl rfl)
    have hnext : mem₁.next item = mem.head := by rw [← hmem₁, Memory.next_write, if_pos rfl, hh]
    have hprev : mem₁.prev item = none := by rw [← hmem₁, Memory.prev_write, if_pos rfl]
    refine ⟨_, rangeServerAddWork_of_head hit hh hhead hfirst, ?_⟩
    rw [hmem₁]
    refine ⟨⟨?_, halloc mem₁ hwork⟩, hwork⟩
    have hpush := h.linked.pushFront hnext hprev (fun b hb => ?_) (fun b hb => ?_)
      (fun b hb hbne => ?_)
    · rw [Option.or_of_isSome (h.isSome_tail hh)] at hpush
      subst hmem₁
      exact hpush
    · rw [← hmem₁, Memory.next_write, if_neg (hne b hb), Memory.next_write]
      split_ifs with he
      · rw [he, Memory.next_of_some hfirst]
      · rfl
    · obtain rfl := Option.some.inj (hh.symm.trans hb)
      rw [← hmem₁, Memory.prev_write, if_neg hhead, Memory.prev_write, if_pos rfl]
    · have hb' : b ≠ head := fun he => hbne (hh.trans (congrArg some he.symm))
      rw [← hmem₁, Memory.prev_write, if_neg (hne b hb), Memory.prev_write, if_neg hb']

theorem getWork_of_first (htail : mem.tail = some item) (hit : mem.items item = some it)
    (hprev : it.prev = none) :
    getWork mem = some (some item,
      { mem.write item { it with next := none, prev := none } with head := none, tail := none }) := by
  simp [getWork, htail, hit, hprev, Memory.modify, Memory.write]

theorem getWork_of_prev {before : Addr} {last : WorkItem M} (htail : mem.tail = some item)
    (hit : mem.items item = some it) (hprev : it.prev = some before) (hne : before ≠ item)
    (hlast : mem.items before = some last) :
    getWork mem = some (some item,
      { (mem.write before { last with next := none }).write item
          { it with next := none, prev := none } with tail := some before }) := by
  have hit' : Function.update mem.items before (some { last with next := none }) item = some it := by
    rw [Function.update_of_ne hne.symm, hit]
  simp [getWork, htail, hit, hprev, hlast, hit', Memory.modify, Memory.write]

/-- The last item of the list is returned. -/
theorem getWork_spec (h : mem.IsQueue (l ++ [item])) :
    ∃ mem', getWork mem = some (some item, mem') ∧ mem'.IsQueue l ∧ mem'.work = mem.work := by
  obtain ⟨it, hit⟩ := Option.isSome_iff_exists.mp
    (h.alloc item (List.mem_append_right _ (List.mem_singleton_self item)))
  have hne : ∀ b ∈ l, b ≠ item := fun b hb => h.linked.forward.getLast_ne hb
  have halloc : ∀ mem' : Memory M, mem'.work = mem.work → ∀ a ∈ l, (mem'.items a).isSome :=
    fun mem' hwork a ha => Memory.isSome_of_work hwork (h.alloc a (List.mem_append_left _ ha))
  have hprev : mem.prev item = it.prev := Memory.prev_of_some hit
  cases hp : it.prev with
  | none =>
    obtain ⟨mem₁, hmem₁⟩ : ∃ mem₁, mem.write item { it with next := none, prev := none } = mem₁ :=
      ⟨_, rfl⟩
    have hwork : mem₁.work = mem.work := hmem₁ ▸ Memory.work_write_of_some hit rfl rfl
    have hnext' : ∀ b ∈ l, mem.prev item ≠ some b → mem₁.next b = mem.next b := fun b hb _ => by
      rw [← hmem₁, Memory.next_write, if_neg (hne b hb)]
    have hprev' : ∀ b ∈ l, mem₁.prev b = mem.prev b := fun b hb => by
      rw [← hmem₁, Memory.prev_write, if_neg (hne b hb)]
    obtain ⟨htail, hpop⟩ :=
      h.linked.popBack (fun b hb => by rw [hprev, hp] at hb; cases hb) hnext' hprev'
    refine ⟨_, getWork_of_first htail hit hp, ?_⟩
    rw [hmem₁]
    refine ⟨⟨?_, halloc mem₁ hwork⟩, hwork⟩
    rw [hprev, hp] at hpop
    have hl : l = [] := List.reverse_eq_nil_iff.mp (hpop.backward.eq_nil_iff.mpr rfl)
    rwa [if_pos hl] at hpop
  | some before =>
    obtain ⟨hmem, last, hlast⟩ := h.prev_mem (hprev.trans hp)
    have hbefore := hne before hmem
    have hit' : (mem.write before { last with next := none }).items item = some it :=
      (Memory.items_write_of_ne hbefore.symm).trans hit
    obtain ⟨mem₁, hmem₁⟩ : ∃ mem₁, (mem.write before { last with next := none }).write item
        { it with next := none, prev := none } = mem₁ := ⟨_, rfl⟩
    have hwork : mem₁.work = mem.work := by
      rw [← hmem₁]
      exact Eq.trans (Memory.work_write_of_some hit' rfl rfl)
        (Memory.work_write_of_some hlast rfl rfl)
    have hcut : ∀ b, mem.prev item = some b → mem₁.next b = none := by
      intro b hb
      obtain rfl := Option.some.inj ((hprev.trans hp).symm.trans hb)
      rw [← hmem₁, Memory.next_write, if_neg hbefore, Memory.next_write, if_pos rfl]
    have hnext' : ∀ b ∈ l, mem.prev item ≠ some b → mem₁.next b = mem.next b := by
      intro b hb hbne
      have hb' : b ≠ before := fun he => hbne (hprev.trans (hp.trans (congrArg some he.symm)))
      rw [← hmem₁, Memory.next_write, if_neg (hne b hb), Memory.next_write, if_neg hb']
    have hprev' : ∀ b ∈ l, mem₁.prev b = mem.prev b := by
      intro b hb
      rw [← hmem₁, Memory.prev_write, if_neg (hne b hb), Memory.prev_write]
      split_ifs with he
      · rw [he, Memory.prev_of_some hlast]
      · rfl
    obtain ⟨htail, hpop⟩ := h.linked.popBack hcut hnext' hprev'
    refine ⟨_, getWork_of_prev htail hit hp hbefore hlast, ?_⟩
    rw [hmem₁]
    refine ⟨⟨?_, halloc mem₁ hwork⟩, hwork⟩
    rw [if_neg (List.ne_nil_of_mem hmem), hprev, hp] at hpop
    subst hmem₁
    exact hpop

theorem getWork_of_nil (h : mem.IsQueue []) : getWork mem = some (none, mem) := by
  unfold getWork
  rw [seg_nil.mp h.linked.backward]

/-! ## Runs -/

/-- A piece of work, with the item it is in. -/
structure Work (M : Type) where
  item : Addr
  message : M
  source : ℤ
deriving DecidableEq

/-- A range server: its memory, the items the worker thread has and has not yet freed, and the record
of what was added and what `get_work` has returned. -/
structure Server (M : Type) where
  mem : Memory M
  held : List Addr
  added : List (Work M)
  returned : List (Work M)

/-- A thread adds work in an item it has allocated, or the worker thread calls `get_work`, or it
frees an item. -/
inductive Call (M : Type) where
  | addWork (item : Addr) (it : WorkItem M)
  | getWork
  | free (item : Addr)

namespace Server

def init : Server M := ⟨⟨fun _ => none, none, none⟩, [], [], []⟩

variable (s : Server M)

/-- `malloc` gives an address that no item has. -/
def addWork (item : Addr) (it : WorkItem M) : Option (Server M) :=
  if (s.mem.items item).isSome then none
  else (rangeServerAddWork (s.mem.write item it) item).map fun mem =>
    { s with mem := mem, added := s.added ++ [⟨item, it.message, it.source⟩] }

def getWork : Option (Server M) := do
  let (item, mem) ← WorkQueue.getWork s.mem
  match item with
  | none => return { s with mem := mem }
  | some item => do
    let it ← mem.items item
    return { s with
      mem := mem
      held := s.held ++ [item]
      returned := s.returned ++ [⟨item, it.message, it.source⟩] }

/-- `free`, for an item that the worker thread has. -/
def free (item : Addr) : Option (Server M) :=
  if item ∈ s.held then
    some { s with
      mem := { s.mem with items := Function.update s.mem.items item none }
      held := s.held.filter fun a => a ≠ item }
  else none

end Server

def serverStep (s : Server M) : Call M → Option (Server M)
  | .addWork item it => s.addWork item it
  | .getWork => s.getWork
  | .free item => s.free item

/-- The work `pending` has been added and not returned, and is in the list, from its tail on. -/
structure QueueInv (s : Server M) (pending : List (Work M)) : Prop where
  log : s.added = s.returned ++ pending
  queue : s.mem.IsQueue (pending.map Work.item).reverse
  work : ∀ w ∈ pending, s.mem.work w.item = some (w.message, w.source)
  held : ∀ a ∈ s.held, (s.mem.items a).isSome ∧ a ∉ pending.map Work.item

variable {s s' : Server M} {pending : List (Work M)}

theorem queueInv_init : QueueInv (Server.init : Server M) [] where
  log := rfl
  queue := ⟨doubly_nil, List.forall_mem_nil _⟩
  work := List.forall_mem_nil _
  held := List.forall_mem_nil _

theorem QueueInv.isSome (h : QueueInv s pending) (ha : a ∈ pending.map Work.item) :
    (s.mem.items a).isSome := h.queue.alloc a (List.mem_reverse.mpr ha)

/-- Work can be added in any new item. -/
theorem QueueInv.addWork (h : QueueInv s pending) (hnew : s.mem.items item = none)
    (it : WorkItem M) :
    ∃ s', s.addWork item it = some s' ∧
      QueueInv s' (pending ++ [⟨item, it.message, it.source⟩]) := by
  have hne : ∀ a, (s.mem.items a).isSome → a ≠ item := by
    rintro a ha rfl
    rw [hnew] at ha
    cases ha
  have hnot : item ∉ pending.map Work.item := fun hmem => hne item (h.isSome hmem) rfl
  have hq : (s.mem.write item it).IsQueue (pending.map Work.item).reverse :=
    h.queue.congr (fun a ha => Memory.items_write_of_ne (hne a (h.queue.alloc a ha))) rfl rfl
  obtain ⟨mem, hadd, hqueue, hwork⟩ := rangeServerAddWork_spec hq Memory.items_write_self
    fun hmem => hnot (List.mem_reverse.mp hmem)
  refine ⟨{ s with mem := mem, added := s.added ++ [⟨item, it.message, it.source⟩] }, ?_, ?_⟩
  · rw [Server.addWork, hnew, hadd]
    rfl
  have hsame : ∀ a, a ≠ item → mem.work a = s.mem.work a := fun a ha => by
    rw [hwork, Memory.work_write, if_neg ha]
  constructor
  · dsimp only
    rw [h.log, List.append_assoc]
  · rw [List.map_append, List.reverse_append]
    exact hqueue
  · intro w hw
    rcases List.mem_append.mp hw with hw | hw
    · rw [hsame w.item (hne w.item (h.isSome (List.mem_map_of_mem hw)))]
      exact h.work w hw
    · rw [List.mem_singleton.mp hw, hwork, Memory.work_write, if_pos rfl]
  · intro a ha
    obtain ⟨halloc, hpend⟩ := h.held a ha
    refine ⟨?_, ?_⟩
    · rw [← Memory.isSome_work, hsame a (hne a halloc), Memory.isSome_work]
      exact halloc
    · rw [List.map_append, List.mem_append]
      rintro (hmem | hmem)
      · exact hpend hmem
      · exact hne a halloc (List.mem_singleton.mp hmem)

/-- Without pending work `get_work` returns the null pointer and changes nothing. -/
theorem QueueInv.getWork_nil (h : QueueInv s []) :
    WorkQueue.getWork s.mem = some (none, s.mem) ∧ s.getWork = some s := by
  have hget : WorkQueue.getWork s.mem = some (none, s.mem) := getWork_of_nil h.queue
  refine ⟨hget, ?_⟩
  rw [Server.getWork, hget]
  rfl

/-- The oldest pending work is returned. -/
theorem QueueInv.getWork_cons {w : Work M} (h : QueueInv s (w :: pending)) :
    ∃ mem s', WorkQueue.getWork s.mem = some (some w.item, mem) ∧
      mem.work w.item = some (w.message, w.source) ∧ s.getWork = some s' ∧
      QueueInv s' pending := by
  have hqueue := h.queue
  rw [List.map_cons, List.reverse_cons] at hqueue
  obtain ⟨mem, hget, hq, hwork⟩ := getWork_spec hqueue
  have hw : mem.work w.item = some (w.message, w.source) := by
    rw [hwork]
    exact h.work w List.mem_cons_self
  obtain ⟨it, hit, hdata⟩ := Option.map_eq_some_iff.mp hw
  obtain ⟨hm, hs⟩ := Prod.mk.inj hdata
  have hnodup := hqueue.linked.forward.nodup
  refine ⟨mem, { s with
    mem := mem, held := s.held ++ [w.item], returned := s.returned ++ [w] }, hget, hw, ?_, ?_⟩
  · rw [Server.getWork, hget, Option.bind_eq_bind, Option.bind_some]
    dsimp only
    rw [hit, Option.bind_eq_bind, Option.bind_some, hm, hs]
    rfl
  constructor
  · dsimp only
    rw [h.log, List.append_assoc]
    rfl
  · exact hq
  · intro w' hw'
    dsimp only
    rw [hwork]
    exact h.work w' (List.mem_cons_of_mem _ hw')
  · intro a ha
    dsimp only at ha ⊢
    rcases List.mem_append.mp ha with ha | ha
    · obtain ⟨halloc, hpend⟩ := h.held a ha
      exact ⟨Memory.isSome_of_work hwork halloc, fun hmem => hpend (List.mem_cons_of_mem _ hmem)⟩
    · rw [List.mem_singleton.mp ha]
      refine ⟨by rw [hit]; rfl, fun hmem => ?_⟩
      exact (List.nodup_append.mp hnodup).2.2 w.item (List.mem_reverse.mpr hmem) w.item
        (List.mem_singleton_self _) rfl

/-- Freeing an item of the worker thread leaves the queue alone. -/
theorem QueueInv.free (h : QueueInv s pending) (hs : s.free item = some s') :
    QueueInv s' pending := by
  unfold Server.free at hs
  split_ifs at hs with hheld
  obtain rfl := Option.some.inj hs
  have hne : ∀ a ∈ pending.map Work.item, a ≠ item := by
    rintro a ha rfl
    exact (h.held a hheld).2 ha
  have hitems : ∀ a, a ≠ item → Function.update s.mem.items item none a = s.mem.items a :=
    fun a ha => Function.update_of_ne ha _ _
  constructor
  · exact h.log
  · exact h.queue.congr (fun a ha => hitems a (hne a (List.mem_reverse.mp ha))) rfl rfl
  · intro w hw
    rw [← h.work w hw, Memory.work, Memory.work]
    exact congrArg _ (hitems _ (hne _ (List.mem_map_of_mem hw)))
  · intro a ha
    obtain ⟨hmem, hai⟩ := List.mem_filter.mp ha
    obtain ⟨halloc, hpend⟩ := h.held a hmem
    refine ⟨?_, hpend⟩
    dsimp only
    rwa [hitems a (of_decide_eq_true hai)]

theorem queueInv_step (c : Call M) (hinv : ∃ pending, QueueInv s pending)
    (h : serverStep s c = some s') : ∃ pending, QueueInv s' pending := by
  obtain ⟨pending, hinv⟩ := hinv
  cases c with
  | addWork item it =>
    cases hitem : s.mem.items item with
    | none =>
      obtain ⟨s₁, hs₁, hinv₁⟩ := hinv.addWork hitem it
      obtain rfl := Option.some.inj (hs₁.symm.trans h)
      exact ⟨_, hinv₁⟩
    | some _ =>
      rw [serverStep, Server.addWork, hitem] at h
      cases h
  | getWork =>
    cases pending with
    | nil =>
      obtain rfl := Option.some.inj (hinv.getWork_nil.2.symm.trans h)
      exact ⟨[], hinv⟩
    | cons w pending =>
      obtain ⟨_, s₁, -, -, hs₁, hinv₁⟩ := hinv.getWork_cons
      obtain rfl := Option.some.inj (hs₁.symm.trans h)
      exact ⟨pending, hinv₁⟩
  | free item => exact ⟨pending, hinv.free h⟩

theorem queueInv_run {calls : List (Call M)} (h : exec serverStep .init calls = some s) :
    ∃ pending, QueueInv s pending :=
  exec_inv (I := fun s => ∃ pending, QueueInv s pending)
    (fun _ c _ hinv hs => queueInv_step c hinv hs) ⟨[], queueInv_init⟩ h

/-- The queue is first in, first out: after any calls the work returned is the oldest of the work
added, the list has the rest in both directions, the next item returned is the oldest of the rest, the
null pointer if and only if there is none, and work can be added in any new item. -/
theorem workQueue_fifo {calls : List (Call M)} (h : exec serverStep .init calls = some s) :
    s.returned <+: s.added ∧
    (∃ l, Doubly s.mem.next s.mem.prev s.mem.head s.mem.tail l ∧
      s.added.map Work.item = s.returned.map Work.item ++ l.reverse) ∧
    (∃ r mem, getWork s.mem = some (r, mem) ∧ (r = none ↔ s.returned = s.added) ∧
      ∀ item, r = some item → ∃ w, s.returned ++ [w] <+: s.added ∧ w.item = item ∧
        mem.work item = some (w.message, w.source)) ∧
    ∀ item it, s.mem.items item = none → (serverStep s (.addWork item it)).isSome := by
  obtain ⟨pending, hinv⟩ := queueInv_run h
  refine ⟨⟨pending, hinv.log.symm⟩, ⟨_, hinv.queue.linked, ?_⟩, ?_, ?_⟩
  · rw [hinv.log, List.map_append, List.reverse_reverse]
  · cases pending with
    | nil =>
      refine ⟨none, s.mem, hinv.getWork_nil.1, ⟨fun _ => ?_, fun _ => rfl⟩, fun item hi => by cases hi⟩
      rw [hinv.log, List.append_nil]
    | cons w pending =>
      obtain ⟨mem, _, hget, hwork, -⟩ := hinv.getWork_cons
      refine ⟨some w.item, mem, hget, ⟨(fun hi => by cases hi), fun he => ?_⟩, fun item hi => ?_⟩
      · rw [hinv.log] at he
        exact absurd (List.self_eq_append_right.mp he) (List.cons_ne_nil _ _)
      · obtain rfl := Option.some.inj hi
        refine ⟨w, ⟨pending, ?_⟩, rfl, hwork⟩
        rw [hinv.log, List.append_assoc]
        rfl
  · intro item it hitem
    obtain ⟨s', hs', -⟩ := hinv.addWork hitem it
    exact Option.isSome_iff_exists.mpr ⟨s', hs'⟩

/-- Three pieces of work, of which the first is done before the third, which gets its item. -/
theorem workQueue_fifo_three :
    ∃ s : Server ℕ, exec serverStep .init
      [.addWork 7 ⟨none, none, 1, 0⟩, .addWork 4 ⟨none, none, 2, 1⟩, .getWork, .free 7,
        .addWork 7 ⟨some 9, none, 3, 0⟩] = some s ∧ s.returned <+: s.added := by
  have hrun : (exec serverStep (.init : Server ℕ)
      [.addWork 7 ⟨none, none, 1, 0⟩, .addWork 4 ⟨none, none, 2, 1⟩, .getWork, .free 7,
        .addWork 7 ⟨some 9, none, 3, 0⟩]).isSome := by decide
  obtain ⟨s, hs⟩ := Option.isSome_iff_exists.mp hrun
  exact ⟨s, hs, (workQueue_fifo hs).1⟩

end MpiToShmem.WorkQueue
