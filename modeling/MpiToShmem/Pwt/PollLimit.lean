import MpiToShmem.Pwt.Steps

/-!
# Workers that give up polling

`worker_run` returns after a number of empty polls, counted from its start, and the manager does not
know of it: the flag of such a worker is that of an idle one.
-/

namespace MpiToShmem.Pwt

open Kit Fifo

variable {W : Type} {o : Options} {items : List (ℕ × W)} {s s' : Processes W}

/-- The step does not assign an item to a worker that has returned from `worker_run`. -/
def NotToReturned (o : Options) (items : List (ℕ × W)) (s : Processes W) (a : Label W) : Prop :=
  ∀ s' w, pwtStep o items s a = some s' → s'.assigned = s.assigned ++ [w] →
    s.worker w.rank ≠ .returned

/-- The step is not the last empty poll of a worker before the manager is at its end. -/
def BelowLimit (s : Processes W) : Label W → Prop
  | .workerPoll rank => s.manager.over ∨ s.probecount rank + 1 < Processes.maxProbes
  | _ => True

instance (s : Processes W) : (a : Label W) → Decidable (BelowLimit s a)
  | .workerPoll _ => inferInstanceAs (Decidable (_ ∨ _))
  | .startWork | .poll | .receive _ | .getNewWork | .stop | .workerReceive _ _ | .workerAct _
  | .workerAck _ => isTrue trivial

namespace Processes

/-! ## Runs -/

/-- As long as the manager gives out work, no worker has returned. -/
def PollInv (s : Processes W) : Prop := s.manager.over ∨ ∀ r, s.worker r ≠ .returned

theorem pollInv_step (s : Processes W) (a : Label W) (s' : Processes W) (h : s.PollInv)
    (ha : BelowLimit s a) (hs : pwtStep o items s a = some s') : s'.PollInv := by
  rcases h with hover | hw
  · exact Or.inl (step_over hover hs).2.1
  · have hkeep : s'.worker = s.worker → s'.PollInv := fun he => Or.inr (he ▸ hw)
    have hspec : (∀ r, s'.worker r = .returned → s.worker r = .returned) → s'.PollInv :=
      fun hspec => Or.inr fun r hr => hw r (hspec r hr)
    cases a with
    | startWork => exact hkeep (startWork_frame hs).1
    | poll => exact hkeep (poll_frame hs).1
    | receive rank => exact hkeep (receive_frame hs).1
    | getNewWork => exact hkeep (getNewWork_frame hs).1
    | stop => exact hkeep (stop_frame hs).1
    | workerPoll rank =>
      obtain ⟨hm, -, hret⟩ := workerPoll_spec hs
      rcases ha with hover | hlt
      · exact Or.inl (hm ▸ hover)
      · refine hspec fun r hr => (hret r hr).resolve_right ?_
        omega
    | workerReceive rank acts => exact hspec (workerReceive_spec hs).2.2
    | workerAct rank => exact hspec (workerAct_spec hs).2.2
    | workerAck rank => exact hspec (workerAck_spec hs).2.2

/-- In a run without a last empty poll of a worker before the manager is at its end, no step from any
state reached assigns an item to a worker that has returned. -/
theorem not_to_returned {ls : List (Label W)} (h : exec (pwtStep o items) init ls = some s)
    (hls : Meets (pwtStep o items) BelowLimit init ls) (a : Label W) :
    NotToReturned o items s a := by
  have hinv : s.PollInv :=
    exec_inv_meets pollInv_step (Or.inr fun _ hr => by cases hr) hls h
  intro s' w hs hw
  rcases hinv with hover | hret
  · have hsame := (step_over hover hs).2.2
    rw [hw] at hsame
    cases List.append_right_eq_self.mp hsame
  · exact hret w.rank

/-- A worker that polls 99 times before its only item arrives still does the item. -/
theorem not_to_returned_late_item : ∃ s,
    exec (pwtStep ⟨2, 1⟩ [(0, 10)]) init (.startWork :: List.replicate 99 (.workerPoll 1) ++
        [.workerReceive 1 [], .workerAct 1, .receive 1, .poll, .workerPoll 1]) = some s ∧
      ∀ a, NotToReturned ⟨2, 1⟩ [(0, 10)] s a := by
  have hrun : (exec (pwtStep ⟨2, 1⟩ [(0, 10)]) init
      (.startWork :: List.replicate 99 (.workerPoll 1) ++
        [.workerReceive 1 [], .workerAct 1, .receive 1, .poll, .workerPoll 1])).isSome := by
    decide +kernel
  obtain ⟨s, hs⟩ := Option.isSome_iff_exists.mp hrun
  exact ⟨s, hs, not_to_returned hs (by decide +kernel)⟩

/-- The worker polls 99 times before its item arrives and once after it, which is its last poll; the
item that the work has sent is then assigned to it. -/
theorem to_returned_after_last_poll : ∃ s,
    exec (pwtStep ⟨2, 1⟩ [(0, 10)]) init (.startWork :: List.replicate 99 (.workerPoll 1) ++
        [.workerReceive 1 [.request 0 20], .workerAct 1, .receive 1, .workerAck 1, .getNewWork,
          .workerAct 1, .workerPoll 1, .receive 1]) = some s ∧
      ¬ NotToReturned ⟨2, 1⟩ [(0, 10)] s .poll := by
  have hrun : ((exec (pwtStep ⟨2, 1⟩ [(0, 10)]) init
      (.startWork :: List.replicate 99 (.workerPoll 1) ++
        [.workerReceive 1 [.request 0 20], .workerAct 1, .receive 1, .workerAck 1, .getNewWork,
          .workerAct 1, .workerPoll 1, .receive 1])).any fun s => s.worker 1 = .returned ∧
      (s.poll ⟨2, 1⟩).any fun s' => s'.assigned = s.assigned ++ [⟨0, 1, 20⟩]) = true := by
    decide +kernel
  obtain ⟨s, hs, hp⟩ := (Option.any_eq_true _ _).mp hrun
  obtain ⟨hret, hpoll⟩ := of_decide_eq_true hp
  obtain ⟨s', hs', hassigned⟩ := (Option.any_eq_true _ _).mp hpoll
  exact ⟨s, hs, fun h => h s' ⟨0, 1, 20⟩ hs' (of_decide_eq_true hassigned) hret⟩

end Processes

end MpiToShmem.Pwt
