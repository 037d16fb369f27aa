import MpiToShmem.Kit.Runs
import MpiToShmem.Pwt.WorkQ

/-!
# Runs of the scheduler

The scheduler with its work queues in memory, under any calls of its three operations.

1. `SchedulerMem.addwork`, `SchedulerMem.getwork`: the functions of the scheduler.
2. `Represents`: a scheduler in memory and the lists of its queues; `addwork_spec` and `getwork_spec'`
   relate each call to the call on lists.
3. `assigned_in_order`: what any run has assigned, and what it assigns next.
-/

namespace MpiToShmem.Pwt

open Kit Fifo Linked

variable {W : Type}

/-! ## Calls -/

/-- `Scheduler`: the flags of the active processes, the queues, and the memory of their entries. -/
structure SchedulerMem (W : Type) where
  processes : ℕ → Bool
  workq : ℕ → WorkQ
  heap : Heap W

/-- An item for a queue. A request has the item that the worker sends when the request is accepted. -/
structure Incoming (W : Type) where
  qidx : ℕ
  item : W
  request : Bool

namespace SchedulerMem

/-- `scheduler_new`. -/
def new : SchedulerMem W :=
  ⟨Function.update (fun _ => false) managerProc true, fun _ => workqNew, fun _ => none⟩

/-- The loop of `scheduler_getwork` over the queues below an index, from the highest down: the queue
and the item that is removed from it. -/
def takeWork : ℕ → SchedulerMem W → Option (Option (ℕ × W) × SchedulerMem W)
  | 0, s => some (none, s)
  | i + 1, s =>
    if workqEmpty (s.workq i) then takeWork i s
    else do
      let (item, heap, q) ← workqRemove s.heap (s.workq i)
      let s := { s with heap := heap, workq := Function.update s.workq i q }
      match item with
      | some item => return (some (i, item), s)
      | none => takeWork i s

variable (o : Options) (s : SchedulerMem W)

/-- `workq_add` for one of the queues. -/
def addTo (idx : ℕ) (item : W) (nentry : Addr) : Option (SchedulerMem W) :=
  (workqAdd s.heap (s.workq idx) nentry item).map fun r =>
    { s with heap := r.1, workq := Function.update s.workq idx r.2 }

/-- `scheduler_ackwork`: whether the request is accepted; the item is added if it is. -/
def ackwork (w : Incoming W) (nentry : Addr) : Option (Bool × SchedulerMem W) :=
  if workqFull (s.workq (o.queue w.qidx)) then some (false, s)
  else (s.addTo (o.queue w.qidx) w.item nentry).map (Prod.mk true)

/-- `scheduler_addwork`. -/
def addwork (w : Incoming W) (nentry : Addr) : Option (Bool × SchedulerMem W) :=
  if w.request then s.ackwork o w nentry
  else (s.addTo (o.queue w.qidx) w.item nentry).map (Prod.mk true)

/-- `scheduler_getwork`, with the queue that the item was in. -/
def getwork : Option (Option (Assignment W) × SchedulerMem W) :=
  match processingGetIdle o s.processes with
  | none => some (none, s)
  | some rank => do
    let (work, s') ← takeWork o.workqCount s
    match work with
    | some (queue, item) =>
      return (some ⟨queue, rank, item⟩,
        { s' with processes := Function.update s'.processes rank true })
    | none => return (none, s')

/-- `scheduler_set_processidle`. -/
def setProcessidle (rank : ℕ) : SchedulerMem W :=
  { s with processes := Function.update s.processes rank false }

end SchedulerMem

/-! ## The lists of the queues -/

/-- The queues hold these lists, without a limit; no entry is in two of them. -/
structure Represents (s : SchedulerMem W) (t : Scheduler W) (addrs : ℕ → List Addr) : Prop where
  processes : s.processes = t.processes
  holds : ∀ i, (s.workq i).Holds s.heap (addrs i) (t.workq i)
  disjoint : ∀ i j a, a ∈ addrs i → a ∈ addrs j → i = j
  noLimit : ∀ i, (s.workq i).max = -1

variable {o : Options} {s s' : SchedulerMem W} {t t' : Scheduler W} {addrs : ℕ → List Addr}
  {nentry : Addr} {n i : ℕ} {item : W}

theorem represents_new : Represents (SchedulerMem.new : SchedulerMem W) schedulerNew fun _ => [] where
  processes := rfl
  holds _ := holds_workqNew _
  disjoint _ _ _ ha := absurd ha List.not_mem_nil
  noLimit _ := rfl

theorem Represents.noLimit_update {q : WorkQ} (h : Represents s t addrs)
    (hmax : q.max = (s.workq i).max) (j : ℕ) : (Function.update s.workq i q j).max = -1 := by
  by_cases hj : j = i
  · rw [hj, Function.update_self, hmax, h.noLimit]
  · rw [Function.update_of_ne hj, h.noLimit]

theorem Represents.addTo_spec (h : Represents s t addrs) (hnew : s.heap nentry = none) (i : ℕ)
    (item : W) :
    ∃ s', s.addTo i item nentry = some s' ∧
      Represents s' { t with workq := push t.workq i item } (push addrs i nentry) := by
  obtain ⟨heap, q, hadd, hmax, hq, hheap⟩ := workqAdd_spec (h.holds i) hnew item
  have hnot : ∀ j, nentry ∉ addrs j := by
    intro j hj
    have halloc := (h.holds j).alloc hj
    rw [hnew] at halloc
    cases halloc
  refine ⟨{ s with heap := heap, workq := Function.update s.workq i q }, ?_, h.processes, ?_, ?_, ?_⟩
  · rw [SchedulerMem.addTo, hadd]
    rfl
  · intro j
    dsimp only
    by_cases hj : j = i
    · subst hj
      rw [Function.update_self, push, Function.update_self, push, Function.update_self]
      exact hq
    · rw [Function.update_of_ne hj, push, Function.update_of_ne hj, push, Function.update_of_ne hj]
      refine (h.holds j).congr fun a ha => hheap a (fun hai => hj (h.disjoint j i a ha hai)) ?_
      rintro rfl
      exact hnot j ha
  · intro j k a hj hk
    rw [push_apply, List.mem_append] at hj hk
    rcases hj with hj | hj <;> rcases hk with hk | hk
    · exact h.disjoint j k a hj hk
    · split_ifs at hk with hki
      · exact absurd (List.mem_singleton.mp hk ▸ hj) (hnot j)
      · cases hk
    · split_ifs at hj with hji
      · exact absurd (List.mem_singleton.mp hj ▸ hk) (hnot k)
      · cases hj
    · split_ifs at hj hk with hji hki
      · exact hji.symm.trans hki
      · cases hk
      · cases hj
      · cases hj
  · exact h.noLimit_update hmax

/-- No queue has a limit, so an item is added, with or without a request. -/
theorem Represents.addwork_spec (h : Represents s t addrs) (hnew : s.heap nentry = none)
    (w : Incoming W) :
    ∃ s', s.addwork o w nentry = some (true, s') ∧
      Represents s' (schedulerAddwork o t w.qidx w.item) (push addrs (o.queue w.qidx) nentry) := by
  obtain ⟨s', hadd, hrep⟩ := h.addTo_spec hnew (o.queue w.qidx) w.item
  refine ⟨s', ?_, hrep⟩
  have hfull : workqFull (s.workq (o.queue w.qidx)) = false := by
    rw [workqFull, h.noLimit]
    rfl
  unfold SchedulerMem.addwork SchedulerMem.ackwork
  rw [hfull, hadd, if_neg Bool.false_ne_true, ite_self]
  rfl

/-- Removing the first entry of a queue. -/
theorem Represents.remove_spec {a : Addr} {l : List Addr} {items : List W}
    (h : Represents s t addrs) (haddrs : addrs i = a :: l) (hitems : t.workq i = item :: items) :
    ∃ q heap, workqRemove s.heap (s.workq i) = some (some item, heap, q) ∧
      Represents { s with heap := heap, workq := Function.update s.workq i q }
        { t with workq := Function.update t.workq i items } (Function.update addrs i l) := by
  have hi := h.holds i
  rw [haddrs, hitems] at hi
  obtain ⟨q, hremove, hmax, hq⟩ := workqRemove_spec hi
  refine ⟨q, _, hremove, h.processes, ?_, ?_, ?_⟩
  · intro j
    dsimp only
    by_cases hj : j = i
    · subst hj
      rw [Function.update_self, Function.update_self, Function.update_self]
      exact hq
    · rw [Function.update_of_ne hj, Function.update_of_ne hj, Function.update_of_ne hj]
      refine (h.holds j).congr fun b hb => Function.update_of_ne ?_ _ _
      rintro rfl
      exact hj (h.disjoint j i b hb (haddrs ▸ List.mem_cons_self))
  · have hsub : ∀ j b, b ∈ Function.update addrs i l j → b ∈ addrs j := by
      intro j b hb
      by_cases hj : j = i
      · subst hj
        rw [Function.update_self] at hb
        rw [haddrs]
        exact List.mem_cons_of_mem _ hb
      · rwa [Function.update_of_ne hj] at hb
    exact fun j k b hj hk => h.disjoint j k b (hsub j b hj) (hsub k b hk)
  · exact h.noLimit_update hmax

/-- The last number below `n` with a property. -/
theorem find?_reverse_range {p : ℕ → Bool} (n : ℕ) :
    match (List.range n).reverse.find? p with
    | none => ∀ j < n, p j = false
    | some i => i < n ∧ p i = true ∧ ∀ j, i < j → j < n → p j = false := by
  induction n with
  | zero => exact fun j hj => absurd hj (Nat.not_lt_zero j)
  | succ n ih =>
    rw [List.range_succ, List.reverse_append, List.reverse_singleton, List.singleton_append]
    cases hp : p n with
    | true =>
      rw [List.find?_cons_of_pos hp]
      exact ⟨Nat.lt_succ_self n, hp, fun j hj hj' => absurd hj' (by omega)⟩
    | false =>
      rw [List.find?_cons_of_neg (by rw [hp]; exact Bool.false_ne_true)]
      have hlast : ∀ j, j < n + 1 → j = n ∨ j < n := by omega
      cases hf : (List.range n).reverse.find? p with
      | none =>
        rw [hf] at ih
        intro j hj
        rcases hlast j hj with rfl | hj
        · exact hp
        · exact ih j hj
      | some i =>
        rw [hf] at ih
        obtain ⟨hi, hpi, hrest⟩ := ih
        refine ⟨Nat.lt_succ_of_lt hi, hpi, fun j hij hj => ?_⟩
        rcases hlast j hj with rfl | hj
        · exact hp
        · exact hrest j hij hj

/-- The queue that an item is taken from. -/
def highest (t : Scheduler W) (n : ℕ) : Option ℕ :=
  (List.range n).reverse.find? fun i => !(t.workq i).isEmpty

theorem highest_succ (t : Scheduler W) (n : ℕ) :
    highest t (n + 1) = if (t.workq n).isEmpty then highest t n else some n := by
  unfold highest
  rw [List.range_succ, List.reverse_append, List.reverse_singleton, List.singleton_append]
  cases hn : (t.workq n).isEmpty <;> simp [hn]

/-- The loop takes the first item of the highest queue that has one. -/
theorem Represents.takeWork_spec (h : Represents s t addrs) (n : ℕ) :
    match highest t n with
    | none => SchedulerMem.takeWork n s = some (none, s)
    | some i => ∃ item items s' addrs', t.workq i = item :: items ∧
        SchedulerMem.takeWork n s = some (some (i, item), s') ∧
        Represents s' { t with workq := Function.update t.workq i items } addrs' := by
  induction n with
  | zero => rfl
  | succ n ih =>
    have hempty : workqEmpty (s.workq n) = (t.workq n).isEmpty := (h.holds n).workqEmpty_eq
    rw [highest_succ]
    unfold SchedulerMem.takeWork
    rw [hempty]
    cases hitems : t.workq n with
    | nil => exact ih
    | cons item items =>
      rw [if_neg (by simp), if_neg (by simp)]
      cases haddrs : addrs n with
      | nil => exact absurd ((h.holds n).eq_nil_iff.mp haddrs) (by rw [hitems]; simp)
      | cons a l =>
        obtain ⟨q, heap, hremove, hrep⟩ := h.remove_spec haddrs hitems
        refine ⟨item, items, _, _, hitems, ?_, hrep⟩
        rw [hremove]
        rfl

/-- A call on the memory does what the call on the lists does. -/
theorem Represents.getwork_spec (h : Represents s t addrs) :
    match schedulerGetwork o t with
    | none => s.getwork o = some (none, s)
    | some (a, t') => ∃ s' addrs', s.getwork o = some (some a, s') ∧ Represents s' t' addrs' := by
  have htake := h.takeWork_spec o.workqCount
  unfold highest at htake
  unfold schedulerGetwork SchedulerMem.getwork
  rw [h.processes]
  cases hidle : processingGetIdle o t.processes with
  | none => rfl
  | some rank =>
    rw [Option.bind_eq_bind, Option.bind_some]
    cases hhigh : (List.range o.workqCount).reverse.find? fun i => !(t.workq i).isEmpty with
    | none =>
      rw [hhigh] at htake
      dsimp only at htake ⊢
      rw [htake]
      rfl
    | some i =>
      rw [hhigh] at htake
      obtain ⟨item, items, s', addrs', hitems, htake, hrep⟩ := htake
      have hpop : pop t.workq i = some (item, Function.update t.workq i items) := by
        rw [pop, hitems]
      rw [Option.bind_eq_bind, Option.bind_some, hpop]
      refine ⟨{ s' with processes := Function.update s'.processes rank true }, addrs', ?_, ?_,
        hrep.holds, hrep.disjoint, hrep.noLimit⟩
      · dsimp only
        rw [htake]
        rfl
      · dsimp only
        rw [hrep.processes]

/-! ## What is taken -/

theorem getwork_eq_none_iff :
    schedulerGetwork o t = none ↔
      (∀ i < o.workqCount, t.workq i = []) ∨ ∀ p < o.nproc, t.processes p = true := by
  have hidle : processingGetIdle o t.processes = none ↔ ∀ p < o.nproc, t.processes p = true := by
    unfold processingGetIdle
    rw [List.find?_eq_none]
    simp
  have hhigh := find?_reverse_range (p := fun i => !(t.workq i).isEmpty) o.workqCount
  unfold schedulerGetwork
  cases hi : processingGetIdle o t.processes with
  | none => exact ⟨fun _ => Or.inr (hidle.mp hi), fun _ => rfl⟩
  | some rank =>
    have hnot : ¬ ∀ p < o.nproc, t.processes p = true := fun hall => by
      rw [hidle.mpr hall] at hi
      cases hi
    rw [Option.bind_eq_bind, Option.bind_some]
    cases hf : (List.range o.workqCount).reverse.find? fun i => !(t.workq i).isEmpty with
    | none =>
      rw [hf] at hhigh
      exact ⟨fun _ => Or.inl fun i hlt => by simpa using hhigh i hlt, fun _ => rfl⟩
    | some i =>
      rw [hf] at hhigh
      obtain ⟨hlt, hne, -⟩ := hhigh
      constructor
      · intro h
        rw [Option.bind_eq_bind, Option.bind_some, pop] at h
        cases hitems : t.workq i with
        | nil => simp [hitems] at hne
        | cons item items =>
          rw [hitems] at h
          cases h
      · rintro (hall | hall)
        · simp [hall i hlt] at hne
        · exact absurd hall hnot

/-- The item is the first of its queue, and the queues above are empty. -/
theorem getwork_highest {a : Assignment W} (h : schedulerGetwork o t = some (a, t')) :
    a.queue < o.workqCount ∧ t.workq a.queue = a.item :: t'.workq a.queue ∧
      ∀ j, a.queue < j → j < o.workqCount → t.workq j = [] := by
  have hhigh := find?_reverse_range (p := fun i => !(t.workq i).isEmpty) o.workqCount
  have hspec := (getwork_spec h).2.2.2 a.queue
  rw [if_pos rfl] at hspec
  unfold schedulerGetwork at h
  obtain ⟨rank, -, h⟩ := Option.bind_eq_some_iff.mp h
  obtain ⟨queue, hqueue, h⟩ := Option.bind_eq_some_iff.mp h
  obtain ⟨⟨item, workq⟩, -, h⟩ := Option.bind_eq_some_iff.mp h
  obtain ⟨rfl, rfl⟩ := Prod.mk.inj (Option.some.inj h)
  rw [hqueue] at hhigh
  obtain ⟨hlt, -, habove⟩ := hhigh
  exact ⟨hlt, hspec, fun j hj hlt' => by simpa using habove j hj hlt'⟩

/-! ## Runs -/

/-- The scheduler of a manager, with the record of the items added to each queue and of what was
assigned. -/
structure Dispatch (W : Type) where
  sched : SchedulerMem W
  added : List (ℕ × W)
  assigned : List (Assignment W)

/-- Calls of the manager, which sets only the processes of workers idle. -/
inductive SchedulerCall (W : Type) where
  | addwork (w : Incoming W) (nentry : Addr)
  | getwork
  | setProcessidle (rank : ℕ)

namespace Dispatch

def init : Dispatch W := ⟨.new, [], []⟩

/-- Items were taken from the queues. -/
def taken (d : Dispatch W) : List (ℕ × W) := d.assigned.map fun a => (a.queue, a.item)

end Dispatch

/-- One call; `malloc` gives an address that no entry has. -/
def dispatchStep (o : Options) (d : Dispatch W) : SchedulerCall W → Option (Dispatch W)
  | .addwork w nentry =>
    if (d.sched.heap nentry).isSome then none
    else (d.sched.addwork o w nentry).map fun r =>
      { d with
        sched := r.2
        added := if r.1 then d.added ++ [(o.queue w.qidx, w.item)] else d.added }
  | .getwork =>
    (d.sched.getwork o).map fun r => { d with sched := r.2, assigned := d.assigned ++ r.1.toList }
  | .setProcessidle rank =>
    if rank ≠ managerProc ∧ rank < o.nproc then some { d with sched := d.sched.setProcessidle rank }
    else none

/-- The manager is active, and each queue has what was added to it and not taken. -/
structure DispatchInv (d : Dispatch W) (t : Scheduler W) (addrs : ℕ → List Addr) : Prop where
  represents : Represents d.sched t addrs
  manager : t.processes managerProc = true
  queues : ∀ i, forPeer i d.added = forPeer i d.taken ++ t.workq i

variable {d d' : Dispatch W} {w : Incoming W}

theorem dispatchInv_init : DispatchInv (Dispatch.init : Dispatch W) schedulerNew fun _ => [] where
  represents := represents_new
  manager := by simp [schedulerNew]
  queues _ := rfl

theorem DispatchInv.addwork (h : DispatchInv d t addrs) (hnew : d.sched.heap nentry = none)
    (w : Incoming W) :
    ∃ d', dispatchStep o d (.addwork w nentry) = some d' ∧
      d'.added = d.added ++ [(o.queue w.qidx, w.item)] ∧
      ∃ t' addrs', DispatchInv d' t' addrs' := by
  obtain ⟨s', hadd, hrep⟩ := h.represents.addwork_spec (o := o) hnew w
  refine ⟨{ d with sched := s', added := d.added ++ [(o.queue w.qidx, w.item)] }, ?_, rfl, _, _, hrep,
    h.manager, fun i => ?_⟩
  · rw [dispatchStep, hnew, hadd]
    rfl
  · dsimp only [schedulerAddwork]
    rw [forPeer_concat, h.queues, List.append_assoc, push_apply]
    rfl

theorem DispatchInv.getwork (h : DispatchInv d t addrs)
    (hs : dispatchStep o d .getwork = some d') : ∃ t' addrs', DispatchInv d' t' addrs' := by
  have hget := h.represents.getwork_spec (o := o)
  obtain ⟨r, hr, rfl⟩ := Option.map_eq_some_iff.mp hs
  cases hlist : schedulerGetwork o t with
  | none =>
    rw [hlist] at hget
    obtain rfl := Option.some.inj (hget.symm.trans hr)
    refine ⟨t, addrs, h.represents, h.manager, fun i => ?_⟩
    have hq := h.queues i
    unfold Dispatch.taken at hq ⊢
    rw [Option.toList_none, List.append_nil]
    exact hq
  | some at' =>
    obtain ⟨a, t'⟩ := at'
    rw [hlist] at hget
    obtain ⟨s', addrs', hget, hrep⟩ := hget
    obtain rfl := Option.some.inj (hget.symm.trans hr)
    obtain ⟨-, hidle, hprocs, hqueues⟩ := getwork_spec hlist
    refine ⟨t', addrs', hrep, ?_, fun i => ?_⟩
    · rw [hprocs, Function.update_of_ne, h.manager]
      intro he
      rw [← he, h.manager] at hidle
      cases hidle
    · have hq := h.queues i
      unfold Dispatch.taken at hq ⊢
      rw [Option.toList_some, List.map_append, List.map_singleton, forPeer_concat, List.append_assoc,
        ← hqueues i]
      exact hq

theorem DispatchInv.setProcessidle {rank : ℕ} (h : DispatchInv d t addrs)
    (hs : dispatchStep o d (.setProcessidle rank) = some d') :
    ∃ t' addrs', DispatchInv d' t' addrs' := by
  unfold dispatchStep at hs
  dsimp only at hs
  split_ifs at hs with hrank
  obtain rfl := Option.some.inj hs
  have hrep := h.represents
  refine ⟨scheduleIdle t rank, addrs, ⟨?_, hrep.holds, hrep.disjoint, hrep.noLimit⟩, ?_, h.queues⟩
  · dsimp only [SchedulerMem.setProcessidle, scheduleIdle]
    rw [hrep.processes]
  · exact (Function.update_of_ne hrank.1.symm _ _).trans h.manager

theorem dispatchInv_step (c : SchedulerCall W) (hinv : ∃ t addrs, DispatchInv d t addrs)
    (hs : dispatchStep o d c = some d') : ∃ t addrs, DispatchInv d' t addrs := by
  obtain ⟨t, addrs, h⟩ := hinv
  cases c with
  | addwork w nentry =>
    cases hentry : d.sched.heap nentry with
    | none =>
      obtain ⟨d₁, hd₁, -, hinv⟩ := h.addwork (o := o) hentry w
      obtain rfl := Option.some.inj (hd₁.symm.trans hs)
      exact hinv
    | some _ =>
      rw [dispatchStep, hentry] at hs
      cases hs
  | getwork => exact h.getwork hs
  | setProcessidle rank => exact h.setProcessidle hs

theorem dispatchInv_run {calls : List (SchedulerCall W)}
    (h : exec (dispatchStep o) .init calls = some d) : ∃ t addrs, DispatchInv d t addrs :=
  exec_inv (I := fun d => ∃ t addrs, DispatchInv d t addrs)
    (fun _ c _ hinv hs => dispatchInv_step c hinv hs) ⟨_, _, dispatchInv_init⟩ h

/-- After any calls, what was taken from each queue is the oldest of what was added to it, in order, and
`queues` has the rest. The next call of `scheduler_getwork` gives the oldest item of the highest queue
that has one to a process that is not active and not the manager; it gives none exactly if all queues
are empty or all processes are active, and then leaves everything as it is. An item can be added
whenever there is room for its entry. -/
theorem assigned_in_order {calls : List (SchedulerCall W)}
    (h : exec (dispatchStep o) .init calls = some d) :
    ∃ queues : ℕ → List W,
      (∀ i, ∃ addrs, (d.sched.workq i).Holds d.sched.heap addrs (queues i)) ∧
      (∀ i, forPeer i d.added = forPeer i d.taken ++ queues i) ∧
      (∃ r sched', d.sched.getwork o = some (r, sched') ∧
        (r = none ↔ (∀ i < o.workqCount, queues i = []) ∨
          ∀ p < o.nproc, d.sched.processes p = true) ∧
        (r = none → sched' = d.sched) ∧
        ∀ a, r = some a →
          (a.rank < o.nproc ∧ a.rank ≠ managerProc ∧ d.sched.processes a.rank = false) ∧
          a.queue < o.workqCount ∧ (∃ rest, queues a.queue = a.item :: rest) ∧
          ∀ j, a.queue < j → j < o.workqCount → queues j = []) ∧
      ∀ w nentry, d.sched.heap nentry = none →
        ∃ d', dispatchStep o d (.addwork w nentry) = some d' ∧
          d'.added = d.added ++ [(o.queue w.qidx, w.item)] := by
  obtain ⟨t, addrs, hinv⟩ := dispatchInv_run h
  have hrep := hinv.represents
  refine ⟨t.workq, fun i => ⟨addrs i, hrep.holds i⟩, hinv.queues, ?_, ?_⟩
  · have hget := hrep.getwork_spec (o := o)
    rw [hrep.processes]
    cases hlist : schedulerGetwork o t with
    | none =>
      rw [hlist] at hget
      exact ⟨none, d.sched, hget, ⟨fun _ => getwork_eq_none_iff.mp hlist, fun _ => rfl⟩,
        fun _ => rfl, fun a ha => by cases ha⟩
    | some at' =>
      obtain ⟨a, t'⟩ := at'
      rw [hlist] at hget
      obtain ⟨s', _, hget, -⟩ := hget
      refine ⟨some a, s', hget, ⟨(fun ha => by cases ha), fun hno => ?_⟩, (fun ha => by cases ha),
        fun b hb => ?_⟩
      · rw [getwork_eq_none_iff.mpr hno] at hlist
        cases hlist
      · obtain rfl := Option.some.inj hb
        obtain ⟨hlt, hidle, -, -⟩ := getwork_spec hlist
        obtain ⟨hqueue, hfirst, habove⟩ := getwork_highest hlist
        refine ⟨⟨hlt, fun hm => ?_, hidle⟩, hqueue, ⟨_, hfirst⟩, habove⟩
        rw [hm, hinv.manager] at hidle
        cases hidle
  · intro w nentry hnew
    obtain ⟨d', hd', hadded, -⟩ := hinv.addwork (o := o) hnew w
    exact ⟨d', hd', hadded⟩

/-- Two workers, two queues, and an item for the fifth queue, which is taken first. -/
theorem assigned_in_order_two_queues :
    ∃ d : Dispatch ℕ, exec (dispatchStep ⟨3, 2⟩) .init
        [.addwork ⟨0, 10, false⟩ 1, .addwork ⟨5, 11, true⟩ 2, .getwork, .getwork, .getwork,
          .setProcessidle 1, .addwork ⟨1, 12, false⟩ 2, .getwork] = some d ∧
      d.assigned = [⟨1, 1, 11⟩, ⟨0, 2, 10⟩, ⟨1, 1, 12⟩] ∧
      ∃ queues : ℕ → List ℕ, ∀ i, forPeer i d.added = forPeer i d.taken ++ queues i := by
  have hrun : (exec (dispatchStep ⟨3, 2⟩) (.init : Dispatch ℕ)
      [.addwork ⟨0, 10, false⟩ 1, .addwork ⟨5, 11, true⟩ 2, .getwork, .getwork, .getwork,
        .setProcessidle 1, .addwork ⟨1, 12, false⟩ 2, .getwork]).any (fun d =>
          d.assigned = [⟨1, 1, 11⟩, ⟨0, 2, 10⟩, ⟨1, 1, 12⟩]) = true := by decide
  obtain ⟨d, hd, hassigned⟩ := (Option.any_eq_true _ _).mp hrun
  obtain ⟨queues, -, hqueues, -⟩ := assigned_in_order hd
  exact ⟨d, hd, of_decide_eq_true hassigned, queues, hqueues⟩

end MpiToShmem.Pwt
