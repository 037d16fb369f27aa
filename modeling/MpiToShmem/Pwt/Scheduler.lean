import Mathlib.Data.List.Nodup
import Mathlib.Data.List.Perm.Subperm
import MpiToShmem.Kit.Fifo

/-!
# The scheduler of the manager

An array of process flags and an array of work queues. A flag is set when a process is given an item
and cleared when it reports that it is done; the manager's own flag is set from the start.

1. `schedulerAddwork` and `schedulerGetwork` put items into the queues and take them out.
2. `getwork_spec`: an idle process gets the first item of a queue.
3. `idle_of_workDone`: when the work is done, no process but the manager is active.
-/

namespace MpiToShmem.Pwt

open Kit Fifo

/-- `options`: how many processes and work queues there are. -/
structure Options where
  nproc : ℕ
  nqueues : ℕ

def managerProc : ℕ := 0

/-- `workq_count`: there is always at least one queue. -/
def Options.workqCount (o : Options) : ℕ := if o.nqueues = 0 then 1 else o.nqueues

/-- The queue for an index; those past the end go to the highest queue. -/
def Options.queue (o : Options) (qidx : ℕ) : ℕ :=
  if o.workqCount ≤ qidx then o.workqCount - 1 else qidx

/-- `Scheduler`: the flags of the active processes, and the queues. -/
structure Scheduler (W : Type) where
  processes : ℕ → Bool
  workq : ℕ → List W

variable {W : Type} (o : Options)

def schedulerNew : Scheduler W :=
  ⟨Function.update (fun _ => false) managerProc true, fun _ => []⟩

/-! ## Process flags -/

def processingGetIdle (processes : ℕ → Bool) : Option ℕ :=
  (List.range o.nproc).find? fun i => !processes i

/-- At most one active process, which is taken to be the manager. -/
def processingComplete (processes : ℕ → Bool) : Bool :=
  (List.range o.nproc).countP processes ≤ 1

/-! ## Work queues -/

/-- All queues are empty. -/
def workqAllEmpty (s : Scheduler W) : Bool :=
  (List.range o.workqCount).all fun i => (s.workq i).isEmpty

def schedulerCanAssignWork (s : Scheduler W) : Bool :=
  !workqAllEmpty o s && (processingGetIdle o s.processes).isSome

def schedulerWorkDone (s : Scheduler W) : Bool :=
  workqAllEmpty o s && processingComplete o s.processes

/-- `scheduler_addwork`, for an item without a request. -/
def schedulerAddwork (s : Scheduler W) (qidx : ℕ) (item : W) : Scheduler W :=
  { s with workq := push s.workq (o.queue qidx) item }

/-- An assignment: the queue of the item, the rank it goes to, and the item. -/
structure Assignment (W : Type) where
  queue : ℕ
  rank : ℕ
  item : W
deriving DecidableEq

/-- `scheduler_getwork`: the first item of the highest queue that has one, for the first idle
process. -/
def schedulerGetwork (s : Scheduler W) : Option (Assignment W × Scheduler W) := do
  let rank ← processingGetIdle o s.processes
  let queue ← (List.range o.workqCount).reverse.find? fun i => !(s.workq i).isEmpty
  let (item, workq) ← pop s.workq queue
  return (⟨queue, rank, item⟩, ⟨Function.update s.processes rank true, workq⟩)

def scheduleIdle (s : Scheduler W) (rank : ℕ) : Scheduler W :=
  { s with processes := Function.update s.processes rank false }

variable {o} {s s' : Scheduler W} {a : Assignment W}

theorem Options.queue_lt (qidx : ℕ) : o.queue qidx < o.workqCount := by
  have hpos : 0 < o.workqCount := by
    unfold workqCount
    split_ifs <;> omega
  unfold queue
  split_ifs <;> omega

theorem getwork_spec (h : schedulerGetwork o s = some (a, s')) :
    a.rank < o.nproc ∧ s.processes a.rank = false ∧
      s'.processes = Function.update s.processes a.rank true ∧
      ∀ i, s.workq i = (if a.queue = i then [a.item] else []) ++ s'.workq i := by
  unfold schedulerGetwork at h
  obtain ⟨rank, hrank, h⟩ := Option.bind_eq_some_iff.mp h
  obtain ⟨queue, -, h⟩ := Option.bind_eq_some_iff.mp h
  obtain ⟨⟨item, workq⟩, hpop, h⟩ := Option.bind_eq_some_iff.mp h
  obtain ⟨rfl, rfl⟩ := Prod.mk.inj (Option.some.inj h)
  unfold processingGetIdle at hrank
  have hidle := List.find?_some hrank
  refine ⟨?_, by simpa using hidle, rfl, pop_eq_some hpop⟩
  exact List.mem_range.mp (List.mem_of_find?_eq_some hrank)

theorem workq_eq_nil (h : workqAllEmpty o s) {i : ℕ} (hi : i < o.workqCount) : s.workq i = [] := by
  unfold workqAllEmpty at h
  exact List.isEmpty_iff.mp (List.all_eq_true.mp h i (List.mem_range.mpr hi))

/-- With the manager active and the work done, every other process is idle. -/
theorem idle_of_workDone (h : schedulerWorkDone o s) (hm : s.processes managerProc = true) {r : ℕ}
    (hr : r ≠ managerProc) (hlt : r < o.nproc) : s.processes r = false := by
  unfold schedulerWorkDone at h
  have hcount := (Bool.and_eq_true_iff.mp h).2
  unfold processingComplete at hcount
  have hle := of_decide_eq_true hcount
  by_contra hact
  rw [Bool.not_eq_false] at hact
  -- the manager and the process are two
  have hsub : [managerProc, r].Subperm ((List.range o.nproc).filter s.processes) := by
    apply List.subperm_of_subset
    · exact List.nodup_cons.mpr ⟨by simpa using hr.symm, List.nodup_singleton r⟩
    · intro i hi
      rcases List.mem_cons.mp hi with rfl | hi
      · exact List.mem_filter.mpr ⟨List.mem_range.mpr (Nat.lt_of_le_of_lt (Nat.zero_le r) hlt), hm⟩
      · rw [List.mem_singleton.mp hi]
        exact List.mem_filter.mpr ⟨List.mem_range.mpr hlt, hact⟩
  have htwo := hsub.length_le
  rw [← List.countP_eq_length_filter, List.length_cons, List.length_singleton] at htwo
  omega

end MpiToShmem.Pwt
