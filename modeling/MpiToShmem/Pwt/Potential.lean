import MpiToShmem.Kit.Inevitable
import MpiToShmem.Pwt.Phases

/-!
# How much work is left

Every item that is somewhere in the processes counts as a piece of work, and every message and action
as the steps it still takes. A step of a process either replaces an item by those that the work for it
sends, or leaves the items alone and takes one of the steps that are left.
-/

namespace MpiToShmem.Pwt

open Kit Fifo

variable {W : Type}

/-! ## Parts -/

def Action.spent : Action W → Spent W
  | request _ item => ({item}, 6)
  | send _ item => ({item}, 4)
  | task => (0, 2)

def ToManager.spent : ToManager W → Spent W
  | request _ => (0, 2)
  | work _ item => ({item}, 3)
  | task => (0, 1)
  | workdone _ => (0, 1)

def ToWorker.spent : ToWorker W → Spent W
  | work item => ({item}, 1)
  | ack => (0, 1)
  | exit => (0, 1)

/-- A worker has its actions left, and the report at their end. -/
def Worker.spent : Worker W → Spent W
  | working _ rest => (rest.map Action.spent).sum + (0, 2)
  | awaiting _ _ item rest => (rest.map Action.spent).sum + (0, 2) + ({item}, 3)
  | _ => 0

/-- The manager has its items left before the start, and one exit message for each rank. -/
def Manager.spent (o : Options) (items : List (ℕ × W)) : Manager → Spent W
  | start => (items.map fun p => (({p.2}, 3) : Spent W)).sum + (0, o.nproc + 3)
  | running => (0, o.nproc + 2)
  | awaiting _ _ => (0, o.nproc + 2)
  | left => (0, o.nproc + 1)
  | stopped => 0
  | failed => 0

namespace Processes

/-- The items in a queue. -/
def queueSpent (s : Processes W) (i : ℕ) : Spent W :=
  ((s.sched.workq i).map fun item => (({item}, 2) : Spent W)).sum

/-- A worker and the messages to and from it. -/
def rankSpent (s : Processes W) (r : ℕ) : Spent W :=
  ((s.toManager r).map ToManager.spent).sum + ((s.toWorker r).map ToWorker.spent).sum +
    (s.worker r).spent

def spent (o : Options) (items : List (ℕ × W)) (s : Processes W) : Spent W :=
  s.manager.spent o items + ∑ i ∈ Finset.range o.workqCount, s.queueSpent i +
    ∑ r ∈ Finset.range o.nproc, s.rankSpent r

variable {o : Options} {items : List (ℕ × W)} {s s' : Processes W}

/-! ## Changes -/

/-- A step at one rank. -/
theorem spent_of_rank {rank : ℕ} (hr : rank < o.nproc) (hm : s'.manager = s.manager)
    (hq : s'.sched.workq = s.sched.workq) (hother : ∀ r, r ≠ rank → s'.rankSpent r = s.rankSpent r) :
    s'.spent o items + s.rankSpent rank = s.spent o items + s'.rankSpent rank := by
  unfold spent queueSpent
  rw [hm, hq, add_assoc, sum_add_of_eq (Finset.mem_range.mpr hr) fun r _ => hother r, ← add_assoc]

/-- A message of a rank is dealt with by the manager. -/
theorem spent_of_manager {rank : ℕ} {m : ToManager W} {toManager : ℕ → List (ToManager W)}
    (hr : rank < o.nproc) (hp : pop s.toManager rank = some (m, toManager)) :
    { s with toManager := toManager }.spent o items + m.spent = s.spent o items := by
  obtain ⟨hhead, hrest⟩ := pop_spec hp
  have hrank := @spent_of_rank W o items s { s with toManager := toManager } rank hr rfl rfl
    fun r hne => by
      unfold rankSpent
      dsimp only
      rw [hrest r hne]
  have hpart : s.rankSpent rank = { s with toManager := toManager }.rankSpent rank + m.spent := by
    unfold rankSpent
    dsimp only
    rw [hhead, List.map_cons, List.sum_cons, add_comm m.spent, add_right_comm _ m.spent,
      add_right_comm _ m.spent]
  rw [hpart, add_comm (rankSpent _ rank), ← add_assoc] at hrank
  exact add_right_cancel hrank

/-- An item joins a queue. -/
theorem spent_schedule (source qidx : ℕ) (item : W) :
    (s.schedule o source qidx item).spent o items = s.spent o items + ({item}, 2) := by
  have hqueues : ∑ i ∈ Finset.range o.workqCount, (s.schedule o source qidx item).queueSpent i =
      ∑ i ∈ Finset.range o.workqCount, s.queueSpent i + ({item}, 2) := by
    refine sum_eq_add (Finset.mem_range.mpr (Options.queue_lt qidx)) ?_ fun i _ hi => ?_
    · show ((push s.sched.workq (o.queue qidx) item (o.queue qidx)).map _).sum = _
      rw [push_apply, if_pos rfl, List.map_append, List.sum_append, List.map_singleton,
        List.sum_singleton]
      rfl
    · show ((push s.sched.workq (o.queue qidx) item i).map _).sum = _
      rw [push_apply, if_neg (Ne.symm hi), List.append_nil]
      rfl
  unfold spent
  rw [hqueues]
  show s.manager.spent o items + (_ + ({item}, 2)) + ∑ r ∈ Finset.range o.nproc, s.rankSpent r = _
  abel

theorem spent_schedule_items (l : List (ℕ × W)) (s : Processes W) :
    (l.foldl (fun s p => s.schedule o managerProc p.1 p.2) s).spent o items =
      s.spent o items + (l.map fun p => (({p.2}, 2) : Spent W)).sum := by
  induction l generalizing s with
  | nil => exact (add_zero _).symm
  | cons p l ih =>
    rw [List.foldl_cons, ih, spent_schedule, List.map_cons, List.sum_cons, add_assoc]

theorem queue_lt_of_getwork {a : Assignment W} {sched : Scheduler W}
    (h : schedulerGetwork o s.sched = some (a, sched)) : a.queue < o.workqCount := by
  unfold schedulerGetwork at h
  obtain ⟨_, -, h⟩ := Option.bind_eq_some_iff.mp h
  obtain ⟨queue, hqueue, h⟩ := Option.bind_eq_some_iff.mp h
  obtain ⟨_, -, h⟩ := Option.bind_eq_some_iff.mp h
  obtain ⟨rfl, -⟩ := Prod.mk.inj (Option.some.inj h)
  exact List.mem_range.mp (List.mem_reverse.mp (List.mem_of_find?_eq_some hqueue))

/-- The next item goes from its queue to a worker. -/
theorem spent_assign (h : s.assign o = some s') : s'.manager = s.manager ∧
    ∃ item : W, s'.spent o items + ({item}, 2) = s.spent o items + ({item}, 1) := by
  unfold assign at h
  obtain ⟨⟨a, sched⟩, hget, rfl⟩ := Option.map_eq_some_iff.mp h
  obtain ⟨hlt, -, -, hworkq⟩ := getwork_spec hget
  refine ⟨rfl, a.item, ?_⟩
  have hqueues : ∑ i ∈ Finset.range o.workqCount, s.queueSpent i =
      ∑ i ∈ Finset.range o.workqCount,
        ((sched.workq i).map fun item => (({item}, 2) : Spent W)).sum + ({a.item}, 2) := by
    refine sum_eq_add (Finset.mem_range.mpr (queue_lt_of_getwork hget)) ?_ fun i _ hi => ?_
    · unfold queueSpent
      rw [hworkq a.queue, if_pos rfl, List.singleton_append, List.map_cons, List.sum_cons, add_comm]
    · unfold queueSpent
      rw [hworkq i, if_neg (Ne.symm hi), List.nil_append]
  have hranks : ∑ r ∈ Finset.range o.nproc, (((s.toManager r).map ToManager.spent).sum +
      ((push s.toWorker a.rank (.work a.item) r).map ToWorker.spent).sum + (s.worker r).spent) =
      ∑ r ∈ Finset.range o.nproc, s.rankSpent r + ({a.item}, 1) := by
    refine sum_eq_add (Finset.mem_range.mpr hlt) ?_ fun r _ hr => ?_
    · rw [push_apply, if_pos rfl, List.map_append, List.sum_append, List.map_singleton,
        List.sum_singleton, ← add_assoc, add_right_comm]
      rfl
    · rw [push_apply, if_neg (Ne.symm hr), List.append_nil]
      rfl
  show s.manager.spent o items + _ + _ + _ = s.spent o items + _
  unfold spent
  rw [hqueues]
  refine Eq.trans (congrArg (fun x => _ + _ + x + _) hranks) ?_
  show _ + ∑ i ∈ Finset.range o.workqCount,
    ((sched.workq i).map fun item => (({item}, 2) : Spent W)).sum + _ + _ = _
  abel

/-! ## Messages and phases -/

theorem spent_setManager (m : Manager) : { s with manager := m }.spent o items +
    s.manager.spent o items = s.spent o items + m.spent o items := by
  unfold spent
  show m.spent o items + ∑ i ∈ Finset.range o.workqCount, s.queueSpent i +
    ∑ r ∈ Finset.range o.nproc, s.rankSpent r + _ = _
  abel

theorem spent_push_toManager {rank : ℕ} (hr : rank < o.nproc) (m : ToManager W) :
    { s with toManager := push s.toManager rank m }.spent o items = s.spent o items + m.spent := by
  unfold spent
  rw [@sum_eq_add _ _ _ _ _ s.rankSpent (rankSpent { s with toManager := push s.toManager rank m })
    rank m.spent (Finset.mem_range.mpr hr) ?_ fun r _ hne => ?_]
  · exact (add_assoc _ _ _).symm
  · unfold rankSpent
    dsimp only
    rw [push_apply, if_pos rfl, List.map_append, List.sum_append, List.map_singleton,
      List.sum_singleton]
    abel
  · unfold rankSpent
    dsimp only
    rw [push_apply, if_neg (Ne.symm hne), List.append_nil]

theorem spent_push_toWorker {rank : ℕ} (hr : rank < o.nproc) (m : ToWorker W) :
    { s with toWorker := push s.toWorker rank m }.spent o items = s.spent o items + m.spent := by
  unfold spent
  rw [@sum_eq_add _ _ _ _ _ s.rankSpent (rankSpent { s with toWorker := push s.toWorker rank m })
    rank m.spent (Finset.mem_range.mpr hr) ?_ fun r _ hne => ?_]
  · exact (add_assoc _ _ _).symm
  · unfold rankSpent
    dsimp only
    rw [push_apply, if_pos rfl, List.map_append, List.sum_append, List.map_singleton,
      List.sum_singleton]
    abel
  · unfold rankSpent
    dsimp only
    rw [push_apply, if_neg (Ne.symm hne), List.append_nil]

/-- A worker takes a message. -/
theorem spent_pop_toWorker {rank : ℕ} {m : ToWorker W} {toWorker : ℕ → List (ToWorker W)}
    (hr : rank < o.nproc) (hp : pop s.toWorker rank = some (m, toWorker)) :
    { s with toWorker := toWorker }.spent o items + m.spent = s.spent o items := by
  obtain ⟨hhead, hrest⟩ := pop_spec hp
  unfold spent
  rw [@sum_eq_add _ _ _ _ _ (rankSpent { s with toWorker := toWorker }) s.rankSpent rank m.spent
    (Finset.mem_range.mpr hr) ?_ fun r _ hne => ?_]
  · exact add_assoc _ _ _
  · unfold rankSpent
    dsimp only
    rw [hhead, List.map_cons, List.sum_cons]
    abel
  · unfold rankSpent
    dsimp only
    rw [hrest r hne]

theorem spent_setWorker {rank : ℕ} (hr : rank < o.nproc) (w : Worker W) :
    (s.setWorker rank w).spent o items + (s.worker rank).spent = s.spent o items + w.spent := by
  have hrank := @spent_of_rank W o items s (s.setWorker rank w) rank hr rfl rfl fun r hne => by
    unfold rankSpent setWorker
    dsimp only
    rw [Function.update_of_ne hne]
  have hself : (s.setWorker rank w).rankSpent rank =
      ((s.toManager rank).map ToManager.spent).sum + ((s.toWorker rank).map ToWorker.spent).sum +
        w.spent := by
    unfold rankSpent setWorker
    dsimp only
    rw [Function.update_self]
  rw [hself] at hrank
  unfold rankSpent at hrank
  generalize ((s.toManager rank).map ToManager.spent).sum +
    ((s.toWorker rank).map ToWorker.spent).sum = x at hrank
  rw [add_comm x, add_comm x, ← add_assoc, ← add_assoc] at hrank
  exact add_right_cancel hrank

/-- The exit messages are no more than there are processes. -/
theorem spent_stop (hs : s' = { s with
      toWorker := fun r => if isWorker o r then s.toWorker r ++ [.exit] else s.toWorker r }) :
    ∃ k ≤ o.nproc, s'.spent o items = s.spent o items + (0, k) := by
  have hrank : ∀ r, s'.rankSpent r = s.rankSpent r + if isWorker o r then (0, 1) else 0 := by
    intro r
    subst hs
    unfold rankSpent
    dsimp only
    split_ifs
    · rw [List.map_append, List.sum_append, List.map_singleton, List.sum_singleton]
      show _ + (_ + (0, 1)) + _ = _
      abel
    · exact (add_zero _).symm
  refine ⟨(∑ r ∈ Finset.range o.nproc, if isWorker o r then ((0, 1) : Spent W) else 0).2, ?_, ?_⟩
  · rw [Prod.snd_sum]
    calc ∑ r ∈ Finset.range o.nproc, (if isWorker o r then ((0, 1) : Spent W) else 0).2
        ≤ ∑ _r ∈ Finset.range o.nproc, 1 := Finset.sum_le_sum fun r _ => by split_ifs <;> simp
      _ = o.nproc := by simp
  · unfold spent
    rw [Finset.sum_congr rfl fun r _ => hrank r, Finset.sum_add_distrib]
    have hfst : ∑ r ∈ Finset.range o.nproc, (if isWorker o r then ((0, 1) : Spent W) else 0) =
        (0, (∑ r ∈ Finset.range o.nproc, if isWorker o r then ((0, 1) : Spent W) else 0).2) := by
      refine Prod.ext ?_ rfl
      rw [Prod.fst_sum]
      exact Finset.sum_eq_zero fun r _ => by split_ifs <;> rfl
    rw [← hfst]
    subst hs
    exact (add_assoc _ _ _).symm

end Processes

/-- Pieces that all count the same. -/
theorem sum_items (items : List (ℕ × W)) (c : ℕ) :
    (items.map fun p => (({p.2}, c) : Spent W)).sum =
      ((items.map Prod.snd : Multiset W), c * items.length) := by
  induction items with
  | nil => rfl
  | cons p l ih =>
    rw [List.map_cons, List.sum_cons, ih, List.map_cons, List.length_cons]
    refine Prod.ext ?_ ?_
    · exact Multiset.singleton_add _ _
    · show c + c * l.length = c * (l.length + 1)
      rw [Nat.mul_add, Nat.mul_one, Nat.add_comm]

/-- The pieces among the actions are what the job sends. -/
theorem sum_acts (acts : List (Action W)) :
    ((acts.map Action.spent).sum).1 = (acts.flatMap Action.items : Multiset W) := by
  induction acts with
  | nil => rfl
  | cons a l ih =>
    rw [List.map_cons, List.sum_cons, Prod.fst_add, ih, List.flatMap_cons, ← Multiset.coe_add]
    cases a <;> rfl

end MpiToShmem.Pwt
