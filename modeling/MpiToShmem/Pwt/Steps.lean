import MpiToShmem.Pwt.Processes

/-!
# What the steps change

The steps of the manager leave the workers alone; those of the workers leave the manager and its
records alone. Either a step assigns nothing, or what it schedules is from the start; at its end the
manager assigns nothing.
-/

namespace MpiToShmem.Pwt

open Kit Fifo

variable {W : Type} {o : Options} {items : List (ℕ × W)} {s s' : Processes W}

/-- The manager gives out no more work. -/
def Manager.over : Manager → Bool
  | left | stopped | failed => true
  | _ => false

namespace Processes

/-! ## The manager -/

theorem assign_frame (h : s.assign o = some s') :
    s'.worker = s.worker ∧ s'.scheduled = s.scheduled := by
  unfold assign at h
  obtain ⟨_, -, rfl⟩ := Option.map_eq_some_iff.mp h
  exact ⟨rfl, rfl⟩

theorem schedule_items_frame (l : List (ℕ × W)) (s : Processes W) :
    let s' := l.foldl (fun s p => s.schedule o managerProc p.1 p.2) s
    s'.worker = s.worker ∧
      ∀ e ∈ s'.scheduled, e ∈ s.scheduled ∨ ∃ p ∈ l, e.item = p.2 := by
  induction l generalizing s with
  | nil => exact ⟨rfl, fun e he => Or.inl he⟩
  | cons p l ih =>
    obtain ⟨hw, hsch⟩ := ih (s.schedule o managerProc p.1 p.2)
    refine ⟨hw, fun e he => ?_⟩
    rcases hsch e he with he | ⟨q, hq, he⟩
    · rcases List.mem_append.mp he with he | he
      · exact Or.inl he
      · rw [List.mem_singleton.mp he]
        exact Or.inr ⟨p, List.mem_cons_self, rfl⟩
    · exact Or.inr ⟨q, List.mem_cons_of_mem _ hq, he⟩

theorem startWork_frame (h : s.startWork o items = some s') : s'.worker = s.worker ∧
    ∀ e ∈ s'.scheduled, e ∈ s.scheduled ∨ ∃ p ∈ items, e.item = p.2 := by
  unfold startWork at h
  split at h
  · dsimp only at h
    obtain ⟨hw, hsch⟩ := @schedule_items_frame W o items s
    split at h
    · rename_i t ha
      obtain rfl := Option.some.inj h
      obtain ⟨haw, has⟩ := assign_frame ha
      exact ⟨haw.trans hw, fun e he => hsch e (has ▸ he)⟩
    · obtain rfl := Option.some.inj h
      exact ⟨hw, hsch⟩
  · cases h

theorem poll_frame (h : s.poll o = some s') :
    s'.worker = s.worker ∧ s'.scheduled = s.scheduled := by
  unfold poll at h
  split at h
  · dsimp only at h
    have hnext : (if schedulerCanAssignWork o s.sched then (s.assign o).getD s else s).worker =
        s.worker ∧ (if schedulerCanAssignWork o s.sched then (s.assign o).getD s else s).scheduled =
        s.scheduled := by
      split_ifs
      · cases ha : s.assign o with
        | none => exact ⟨rfl, rfl⟩
        | some t => exact assign_frame ha
      · exact ⟨rfl, rfl⟩
    generalize (if schedulerCanAssignWork o s.sched then (s.assign o).getD s else s) = t at *
    obtain rfl := Option.some.inj h
    split_ifs <;> exact hnext
  · cases h

theorem receive_frame {rank : ℕ} (h : s.receive o rank = some s') :
    s'.worker = s.worker ∧ s'.assigned = s.assigned := by
  unfold receive at h
  split at h
  · obtain ⟨⟨m, toManager⟩, -, h⟩ := Option.bind_eq_some_iff.mp h
    cases m <;>
    · obtain rfl := Option.some.inj h
      exact ⟨rfl, rfl⟩
  · cases h

theorem getNewWork_frame (h : s.getNewWork o = some s') :
    s'.worker = s.worker ∧ s'.assigned = s.assigned := by
  unfold getNewWork at h
  split at h
  · obtain ⟨⟨m, toManager⟩, -, h⟩ := Option.bind_eq_some_iff.mp h
    cases m with
    | work qidx item =>
      obtain rfl := Option.some.inj h
      exact ⟨rfl, rfl⟩
    | _ => cases h
  · cases h

theorem stop_frame (h : s.stop o = some s') : s'.worker = s.worker ∧ s'.assigned = s.assigned := by
  unfold stop at h
  split at h
  · obtain rfl := Option.some.inj h
    exact ⟨rfl, rfl⟩
  · cases h

/-! ## The workers -/

theorem workerPoll_spec {rank : ℕ} (h : s.workerPoll o rank = some s') :
    s'.manager = s.manager ∧ s'.assigned = s.assigned ∧
      ∀ r, s'.worker r = .returned → s.worker r = .returned ∨ maxProbes ≤ s.probecount rank + 1 := by
  unfold workerPoll at h
  split at h
  · split_ifs at h
    obtain rfl := Option.some.inj h
    split_ifs with hmax
    · exact ⟨rfl, rfl, fun _ _ => Or.inr hmax⟩
    · exact ⟨rfl, rfl, fun _ hr => Or.inl hr⟩
  · cases h

/-- The worker of a rank changes, to a state that is not that after its last poll. -/
theorem returned_of_setWorker {rank r : ℕ} {w : Worker W} (hw : w ≠ .returned)
    (hr : (s.setWorker rank w).worker r = .returned) : s.worker r = .returned := by
  unfold setWorker at hr
  dsimp only at hr
  by_cases he : r = rank
  · subst he
    rw [Function.update_self] at hr
    exact absurd hr hw
  · rwa [Function.update_of_ne he] at hr

theorem workerReceive_spec {rank : ℕ} {acts : List (Action W)}
    (h : s.workerReceive rank acts = some s') :
    s'.manager = s.manager ∧ s'.assigned = s.assigned ∧
      ∀ r, s'.worker r = .returned → s.worker r = .returned := by
  unfold workerReceive at h
  split at h
  · obtain ⟨⟨m, toWorker⟩, -, h⟩ := Option.bind_eq_some_iff.mp h
    cases m with
    | work item =>
      obtain rfl := Option.some.inj h
      exact ⟨rfl, rfl, fun r hr => @returned_of_setWorker _ s _ _ _ (fun he => by cases he) hr⟩
    | exit =>
      obtain rfl := Option.some.inj h
      exact ⟨rfl, rfl, fun r hr => @returned_of_setWorker _ s _ _ _ (fun he => by cases he) hr⟩
    | ack => cases h
  · cases h

theorem workerAct_spec {rank : ℕ} (h : s.workerAct rank = some s') :
    s'.manager = s.manager ∧ s'.assigned = s.assigned ∧
      ∀ r, s'.worker r = .returned → s.worker r = .returned := by
  have hsend : ∀ {w : Worker W} {m : ToManager W}, w ≠ .returned →
      some { s.setWorker rank w with toManager := push s.toManager rank m } = some s' →
      s'.manager = s.manager ∧ s'.assigned = s.assigned ∧
        ∀ r, s'.worker r = .returned → s.worker r = .returned := by
    intro w m hw h
    obtain rfl := Option.some.inj h
    exact ⟨rfl, rfl, fun r hr => @returned_of_setWorker _ s _ _ _ hw hr⟩
  unfold workerAct at h
  split at h
  · exact hsend (fun he => by cases he) h
  · exact hsend (fun he => by cases he) h
  · exact hsend (fun he => by cases he) h
  · exact hsend (fun he => by cases he) h
  · cases h

theorem workerAck_spec {rank : ℕ} (h : s.workerAck rank = some s') :
    s'.manager = s.manager ∧ s'.assigned = s.assigned ∧
      ∀ r, s'.worker r = .returned → s.worker r = .returned := by
  unfold workerAck at h
  split at h
  · obtain ⟨⟨m, toWorker⟩, -, h⟩ := Option.bind_eq_some_iff.mp h
    obtain rfl := Option.some.inj h
    exact ⟨rfl, rfl, fun r hr => @returned_of_setWorker _ s _ _ _ (fun he => by cases he) hr⟩
  · cases h

/-- At its end the manager assigns nothing, and the end is where it stops. -/
theorem step_over (hover : s.manager.over) {a : Label W} (hs : pwtStep o items s a = some s') :
    (s'.manager = s.manager ∨ s'.manager = .stopped) ∧ s'.manager.over ∧
      s'.assigned = s.assigned := by
  have hstart : s.manager ≠ .start := fun he => by rw [he] at hover; cases hover
  have hrun : s.manager ≠ .running := fun he => by rw [he] at hover; cases hover
  have hwait : ∀ r q, s.manager ≠ .awaiting r q := fun r q he => by rw [he] at hover; cases hover
  cases a with
  | startWork =>
    dsimp only [pwtStep, startWork] at hs
    split at hs
    · rename_i he
      exact absurd he hstart
    · cases hs
  | poll =>
    dsimp only [pwtStep, poll] at hs
    split at hs
    · rename_i he
      exact absurd he hrun
    · cases hs
  | receive rank =>
    dsimp only [pwtStep, receive] at hs
    split at hs
    · rename_i he
      exact absurd he hrun
    · cases hs
  | getNewWork =>
    dsimp only [pwtStep, getNewWork] at hs
    split at hs
    · rename_i he
      exact absurd he (hwait _ _)
    · cases hs
  | stop =>
    dsimp only [pwtStep, stop] at hs
    split at hs
    · obtain rfl := Option.some.inj hs
      exact ⟨Or.inr rfl, rfl, rfl⟩
    · cases hs
  | workerPoll rank =>
    obtain ⟨hm, ha, -⟩ := workerPoll_spec hs
    exact ⟨Or.inl hm, hm ▸ hover, ha⟩
  | workerReceive rank acts =>
    obtain ⟨hm, ha, -⟩ := workerReceive_spec hs
    exact ⟨Or.inl hm, hm ▸ hover, ha⟩
  | workerAct rank =>
    obtain ⟨hm, ha, -⟩ := workerAct_spec hs
    exact ⟨Or.inl hm, hm ▸ hover, ha⟩
  | workerAck rank =>
    obtain ⟨hm, ha, -⟩ := workerAck_spec hs
    exact ⟨Or.inl hm, hm ▸ hover, ha⟩

/-- A step assigns nothing, or schedules nothing but the items of the start. -/
theorem step_assigned {a : Label W} (hs : pwtStep o items s a = some s') :
    s'.assigned = s.assigned ∨
      ∀ e ∈ s'.scheduled, e ∈ s.scheduled ∨ ∃ p ∈ items, e.item = p.2 := by
  cases a with
  | startWork => exact Or.inr (startWork_frame hs).2
  | poll => exact Or.inr fun e he => Or.inl ((poll_frame hs).2 ▸ he)
  | receive rank => exact Or.inl (receive_frame hs).2
  | getNewWork => exact Or.inl (getNewWork_frame hs).2
  | stop => exact Or.inl (stop_frame hs).2
  | workerPoll rank => exact Or.inl (workerPoll_spec hs).2.1
  | workerReceive rank acts => exact Or.inl (workerReceive_spec hs).2.1
  | workerAct rank => exact Or.inl (workerAct_spec hs).2.1
  | workerAck rank => exact Or.inl (workerAck_spec hs).2.1

end Processes

end MpiToShmem.Pwt
