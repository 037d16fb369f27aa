import MpiToShmem.Pwt.Accounting
import MpiToShmem.Pwt.Potential

/-!
# The job comes to its end

As long as no worker has given up polling, some process has a step to take until the workers have
their exit messages, and only finitely many such steps can be taken when the work for an item sends
smaller items only.

1. `Live`: the phases of the workers, with what holds before the start and after the end.
2. `Live.exists_step`: a step that is possible.
3. `spent_step`: every step leaves less to do.
4. `finishes`: the end of the job is inevitable.
-/

namespace MpiToShmem.Pwt

open Kit Fifo

variable {W : Type} {o : Options} {items : List (ℕ × W)} {does : W → List (Action W) → Prop}
  {P : W → Prop} {s s' : Processes W}

namespace Processes

/-! ## Before the start and after the end -/

/-- After `stop` a worker has its exit message or has left; the others have nothing to do. -/
def AtEnd (o : Options) (s : Processes W) (r : ℕ) : Prop :=
  s.toManager r = [] ∧
    ((isWorker o r ∧ s.toWorker r = [.exit] ∧
        (s.worker r = .polling ∨ s.worker r = .returned)) ∨
      (s.toWorker r = [] ∧ (s.worker r).toSend = [] ∧ (isWorker o r → s.worker r = .exited)))

structure Live (o : Options) (items : List (ℕ × W)) (does : W → List (Action W) → Prop)
    (P : W → Prop) (s : Processes W) : Prop extends PwtInv o items does s where
  passed : s.Passed P
  start : s.manager = .start →
    s.sched = schedulerNew ∧ ∀ r, s.toWorker r = [] ∧ s.toManager r = [] ∧ (s.worker r).toSend = []
  notFailed : s.manager ≠ .failed
  exited : s.manager ≠ .stopped → ∀ r, s.worker r ≠ .exited
  stopped : s.manager = .stopped → ∀ r, s.AtEnd o r

theorem live_init : Live o items does P (init : Processes W) where
  toPwtInv := pwtInv_init
  passed _ _ he := absurd he List.not_mem_nil
  start _ := ⟨rfl, fun _ => ⟨rfl, rfl, rfl⟩⟩
  notFailed he := by cases he
  exited _ _ he := by cases he
  stopped he := by cases he

theorem workq_schedule_items (l : List (ℕ × W)) (s : Processes W) (i : ℕ) :
    (l.foldl (fun s p => s.schedule o managerProc p.1 p.2) s).sched.workq i =
      s.sched.workq i ++ (l.filter fun p => o.queue p.1 = i).map Prod.snd := by
  induction l generalizing s with
  | nil => exact (List.append_nil _).symm
  | cons p l ih =>
    rw [List.foldl_cons, ih]
    show push s.sched.workq (o.queue p.1) p.2 i ++ _ = _
    rw [push_apply, List.append_assoc]
    by_cases hi : o.queue p.1 = i <;> simp [hi]

theorem workqAllEmpty_eq_false {sched : Scheduler W} {i : ℕ} (hi : i < o.workqCount)
    (hne : sched.workq i ≠ []) : workqAllEmpty o sched = false := by
  by_contra h
  exact hne (workq_eq_nil (Bool.not_eq_false _ ▸ h) hi)

theorem isSome_getIdle {processes : ℕ → Bool} {r : ℕ} (hr : r < o.nproc)
    (hidle : processes r = false) : (processingGetIdle o processes).isSome := by
  unfold processingGetIdle
  rw [List.find?_isSome]
  exact ⟨r, List.mem_range.mpr hr, by rw [hidle]; rfl⟩

theorem isSome_assign (h : schedulerCanAssignWork o s.sched = true) : (s.assign o).isSome := by
  unfold schedulerCanAssignWork at h
  obtain ⟨hwork, hidle⟩ := Bool.and_eq_true_iff.mp h
  obtain ⟨rank, hrank⟩ := Option.isSome_iff_exists.mp hidle
  have hqueue : ((List.range o.workqCount).reverse.find? fun i => !(s.sched.workq i).isEmpty).isSome := by
    rw [List.find?_isSome]
    unfold workqAllEmpty at hwork
    rw [Bool.not_eq_true', List.all_eq_false] at hwork
    obtain ⟨i, hi, hne⟩ := hwork
    exact ⟨i, List.mem_reverse.mpr hi, by simpa using hne⟩
  obtain ⟨queue, hqueue⟩ := Option.isSome_iff_exists.mp hqueue
  have hne := List.find?_some hqueue
  unfold assign schedulerGetwork
  rw [hrank, hqueue]
  cases hw : s.sched.workq queue with
  | nil => rw [hw] at hne; cases hne
  | cons item l =>
    simp only [Option.bind_eq_bind, Option.bind_some, pop, hw]
    rfl

/-- The first item is sent out. -/
theorem startWork_running (hn : 2 ≤ o.nproc) (hitems : items ≠ []) (hnew : s.sched = schedulerNew)
    (hs : s.startWork o items = some s') : s'.manager = .running := by
  unfold startWork at hs
  split at hs
  · dsimp only at hs
    have hcan : schedulerCanAssignWork o
        (items.foldl (fun s p => s.schedule o managerProc p.1 p.2) s).sched = true := by
      obtain ⟨p, l, rfl⟩ := List.exists_cons_of_ne_nil hitems
      unfold schedulerCanAssignWork
      rw [Bool.and_eq_true, Bool.not_eq_true']
      constructor
      · refine workqAllEmpty_eq_false (Options.queue_lt p.1) ?_
        rw [workq_schedule_items, List.filter_cons_of_pos (by simp)]
        simp
      · refine @isSome_getIdle o _ 1 (by omega) ?_
        rw [(@schedule_items W o (p :: l) s).2.2.1, hnew]
        rfl
    obtain ⟨t, ht⟩ := Option.isSome_iff_exists.mp (isSome_assign hcan)
    rw [ht] at hs
    obtain rfl := Option.some.inj hs
    rfl
  · cases hs

/-! ## What the steps do -/

/-- More work is sent out, and the loop is left if all is done then. -/
theorem poll_cases (hs : s.poll o = some s') : s.manager = .running ∧ ∃ t, t.manager = .running ∧
    (s.assign o = some t ∨ schedulerCanAssignWork o s.sched = false ∧ t = s) ∧
    (s' = t ∧ schedulerWorkDone o t.sched = false ∨
      s' = { t with manager := .left } ∧ schedulerWorkDone o t.sched = true) := by
  unfold poll at hs
  split at hs
  · rename_i hm
    refine ⟨hm, ?_⟩
    have hnext : ∃ t, (if schedulerCanAssignWork o s.sched then (s.assign o).getD s else s) = t ∧
        t.manager = .running ∧
          (s.assign o = some t ∨ schedulerCanAssignWork o s.sched = false ∧ t = s) := by
      refine ⟨_, rfl, ?_⟩
      split_ifs with hcan
      · obtain ⟨t, ht⟩ := Option.isSome_iff_exists.mp (isSome_assign hcan)
        rw [ht]
        exact ⟨(@spent_assign W o [] s t ht).1.trans hm, Or.inl rfl⟩
      · exact ⟨hm, Or.inr ⟨Bool.eq_false_iff.mpr hcan, rfl⟩⟩
    obtain ⟨t, ht, htm, hassign⟩ := hnext
    dsimp only at hs
    rw [ht] at hs
    refine ⟨t, htm, hassign, ?_⟩
    by_cases hdone : schedulerWorkDone o t.sched = true
    · rw [if_pos hdone] at hs
      exact Or.inr ⟨(Option.some.inj hs).symm, hdone⟩
    · rw [if_neg hdone] at hs
      exact Or.inl ⟨(Option.some.inj hs).symm, Bool.eq_false_iff.mpr hdone⟩
  · cases hs

/-- What the manager does with a message. -/
def Takes (o : Options) (t : Processes W) (rank : ℕ) (s' : Processes W) : ToManager W → Prop
  | .request qidx =>
    s' = { t with manager := .awaiting rank qidx, toWorker := push t.toWorker rank .ack }
  | .work qidx item => s' = t.schedule o rank qidx item
  | .task => s' = t
  | .workdone job =>
    s' = { t with sched := scheduleIdle t.sched rank, finished := t.finished ++ [(rank, job)] }

theorem receive_cases {rank : ℕ} (hs : s.receive o rank = some s') : s.manager = .running ∧
    ∃ m toManager, pop s.toManager rank = some (m, toManager) ∧
      Takes o { s with toManager := toManager } rank s' m := by
  unfold receive at hs
  split at hs
  · rename_i hm
    obtain ⟨⟨m, toManager⟩, hp, hs⟩ := Option.bind_eq_some_iff.mp hs
    refine ⟨hm, m, toManager, hp, ?_⟩
    cases m <;> exact (Option.some.inj hs).symm
  · cases hs

theorem getNewWork_cases (hs : s.getNewWork o = some s') : ∃ rank qidx q item toManager,
    s.manager = .awaiting rank qidx ∧ pop s.toManager rank = some (.work q item, toManager) ∧
      s' = { { s with toManager := toManager }.schedule o rank qidx item with
        manager := .running } := by
  unfold getNewWork at hs
  split at hs
  · rename_i rank qidx hm
    obtain ⟨⟨m, toManager⟩, hp, hs⟩ := Option.bind_eq_some_iff.mp hs
    cases m with
    | work q item => exact ⟨rank, qidx, q, item, toManager, hm, hp, (Option.some.inj hs).symm⟩
    | _ => cases hs
  · cases hs

theorem stop_cases (hs : s.stop o = some s') : s.manager = .left ∧
    s' = { s with
      manager := .stopped
      toWorker := fun r => if isWorker o r then s.toWorker r ++ [.exit] else s.toWorker r } := by
  unfold stop at hs
  split at hs
  · rename_i hm
    exact ⟨hm, (Option.some.inj hs).symm⟩
  · cases hs

theorem workerPoll_cases {rank : ℕ} (hs : s.workerPoll o rank = some s') :
    s.worker rank = .polling ∧ ∃ n, s' = { s with probecount := n } ∨
      s' = { s with probecount := n }.setWorker rank .returned := by
  unfold workerPoll at hs
  split at hs
  · rename_i hw
    split_ifs at hs
    obtain rfl := Option.some.inj hs
    refine ⟨hw, Function.update s.probecount rank (s.probecount rank + 1), ?_⟩
    split_ifs
    · exact Or.inr rfl
    · exact Or.inl rfl
  · cases hs

theorem workerReceive_cases {rank : ℕ} {acts : List (Action W)}
    (hs : s.workerReceive rank acts = some s') : s.worker rank = .polling ∧
    ∃ m toWorker, pop s.toWorker rank = some (m, toWorker) ∧
      ((∃ item, m = .work item ∧ s' =
        { s with toWorker := toWorker }.setWorker rank (.working ⟨item, acts⟩ acts)) ∨
      m = .exit ∧ s' = { s with toWorker := toWorker }.setWorker rank .exited) := by
  unfold workerReceive at hs
  split at hs
  · rename_i hw
    obtain ⟨⟨m, toWorker⟩, hp, hs⟩ := Option.bind_eq_some_iff.mp hs
    refine ⟨hw, m, toWorker, hp, ?_⟩
    cases m with
    | work item => exact Or.inl ⟨item, rfl, (Option.some.inj hs).symm⟩
    | exit => exact Or.inr ⟨rfl, (Option.some.inj hs).symm⟩
    | ack => cases hs
  · cases hs

/-- The next message of the work is sent, and there is less to send. -/
theorem workerAct_cases {rank : ℕ} (hs : s.workerAct rank = some s') : ∃ job rest m w,
    s.worker rank = .working job rest ∧
      s' = { s.setWorker rank w with toManager := push s.toManager rank m } ∧
      (w ≠ .returned ∧ w ≠ .exited) ∧ remaining rest job = m :: w.toSend ∧
      (Worker.working job rest).spent = m.spent + w.spent + (0, 1) := by
  unfold workerAct at hs
  split at hs
  · rename_i job qidx item rest hw
    refine ⟨job, _, _, _, hw, (Option.some.inj hs).symm,
      ⟨(fun he => by cases he), (fun he => by cases he)⟩, rfl, ?_⟩
    show ({item}, 6) + (rest.map Action.spent).sum + (0, 2) =
      (0, 2) + ((rest.map Action.spent).sum + (0, 2) + ({item}, 3)) + (0, 1)
    obtain ⟨u, k⟩ := (rest.map Action.spent).sum
    refine Prod.ext ?_ ?_
    · show {item} + u + 0 = 0 + (u + 0 + {item}) + 0
      abel
    · show 6 + k + 2 = 2 + (k + 2 + 3) + 1
      omega
  · rename_i job qidx item rest hw
    refine ⟨job, _, _, _, hw, (Option.some.inj hs).symm,
      ⟨(fun he => by cases he), (fun he => by cases he)⟩, rfl, ?_⟩
    show ({item}, 3) + (0, 1) + (rest.map Action.spent).sum + (0, 2) =
      ({item}, 3) + ((rest.map Action.spent).sum + (0, 2)) + (0, 1)
    abel
  · rename_i job rest hw
    refine ⟨job, _, _, _, hw, (Option.some.inj hs).symm,
      ⟨(fun he => by cases he), (fun he => by cases he)⟩, rfl, ?_⟩
    show (0, 1) + (0, 1) + (rest.map Action.spent).sum + (0, 2) =
      (0, 1) + ((rest.map Action.spent).sum + (0, 2)) + (0, 1)
    abel
  · rename_i job hw
    exact ⟨job, _, _, _, hw, (Option.some.inj hs).symm,
      ⟨(fun he => by cases he), (fun he => by cases he)⟩, rfl, rfl⟩
  · cases hs

theorem workerAck_cases {rank : ℕ} (hs : s.workerAck rank = some s') :
    ∃ job qidx item rest m toWorker, s.worker rank = .awaiting job qidx item rest ∧
      pop s.toWorker rank = some (m, toWorker) ∧
      s' = { s.setWorker rank (.working job rest) with
        toWorker := toWorker
        toManager := push s.toManager rank (.work qidx item) } := by
  unfold workerAck at hs
  split at hs
  · rename_i job qidx item rest hw
    obtain ⟨⟨m, toWorker⟩, hp, hs⟩ := Option.bind_eq_some_iff.mp hs
    exact ⟨job, qidx, item, rest, m, toWorker, hw, hp, (Option.some.inj hs).symm⟩
  · cases hs

/-! ## The invariant -/

theorem toSend_eq_nil {w : Worker W} (h : w.toSend = []) :
    w = .polling ∨ w = .returned ∨ w = .exited := by
  cases w with
  | polling => exact Or.inl rfl
  | returned => exact Or.inr (Or.inl rfl)
  | exited => exact Or.inr (Or.inr rfl)
  | working job rest => exact absurd h (remaining_ne_nil rest job)
  | awaiting job qidx item rest => cases h

/-- A message to a worker is an item, its acknowledgement or, after `stop`, its exit message. -/
theorem Live.isWorker_of_toWorker (h : Live o items does P s) {rank : ℕ}
    (hne : s.toWorker rank ≠ []) : isWorker o rank := by
  by_cases hns : s.manager = .stopped
  · rcases (h.stopped hns rank).2 with ⟨hw, -⟩ | ⟨htw, -⟩
    · exact hw
    · exact absurd htw hne
  · cases h.fits hns rank with
    | rest hr => exact absurd hr.toWorker hne
    | given _ worker => exact worker
    | busy _ _ _ hb => exact hb.worker

theorem Live.isWorker_of_toSend (h : Live o items does P s) {rank : ℕ}
    (hne : (s.worker rank).toSend ≠ []) : isWorker o rank ∧ s.manager ≠ .start ∧
      s.manager ≠ .stopped := by
  have hstart : s.manager ≠ .start := fun hm => hne ((h.start hm).2 rank).2.2
  have hstop : s.manager ≠ .stopped := by
    intro hm
    rcases (h.stopped hm rank).2 with ⟨-, -, hw | hw⟩ | ⟨-, hsend, -⟩
    · rw [hw] at hne
      exact hne rfl
    · rw [hw] at hne
      exact hne rfl
    · exact hne hsend
  obtain ⟨_, _, _, hb⟩ := (h.fits hstop rank).busy_of_toSend hne
  exact ⟨hb.worker, hstart, hstop⟩

/-- The steps of the manager before `stop`. -/
theorem Live.manager (h : Live o items does P s) (hinv : PwtInv o items does s' ∧ s'.Passed P)
    (hns : s.manager ≠ .stopped) (hw : s'.worker = s.worker)
    (hm : s'.manager = .running ∨ s'.manager = .left ∨ ∃ rank qidx, s'.manager = .awaiting rank qidx) :
    Live o items does P s' := by
  refine ⟨hinv.1, hinv.2, fun hstart => ?_, fun hfailed => ?_, fun _ => ?_, fun hstop => ?_⟩
  · rcases hm with hm | hm | ⟨_, _, hm⟩ <;>
    · rw [hm] at hstart
      cases hstart
  · rcases hm with hm | hm | ⟨_, _, hm⟩ <;>
    · rw [hm] at hfailed
      cases hfailed
  · rw [hw]
    exact h.exited hns
  · rcases hm with hm | hm | ⟨_, _, hm⟩ <;>
    · rw [hm] at hstop
      cases hstop

theorem Live.stop (h : Live o items does P s) (hinv : PwtInv o items does s' ∧ s'.Passed P)
    (hs : s.stop o = some s') : Live o items does P s' := by
  obtain ⟨hl, rfl⟩ := stop_cases hs
  refine ⟨hinv.1, hinv.2, fun hm => (by cases hm), fun hm => (by cases hm),
    fun hns => absurd rfl hns, fun _ r => ?_⟩
  have hrest := h.rest hl r
  have htw : s.toWorker r = [] := hrest.toWorker
  refine ⟨hrest.toManager, ?_⟩
  dsimp only
  by_cases hr : isWorker o r
  · rw [if_pos hr, htw]
    refine Or.inl ⟨hr, rfl, ?_⟩
    rcases toSend_eq_nil hrest.toSend with hw | hw | hw
    · exact Or.inl hw
    · exact Or.inr hw
    · exact absurd hw (h.exited (by rw [hl]; exact fun he => by cases he) r)
  · rw [if_neg hr]
    exact Or.inr ⟨htw, hrest.toSend, fun hw => absurd hw hr⟩

/-- A worker that polls or gives up polling. -/
theorem Live.workerPoll {rank : ℕ} (h : Live o items does P s)
    (hinv : PwtInv o items does s' ∧ s'.Passed P) (hs : s.workerPoll o rank = some s') :
    Live o items does P s' := by
  obtain ⟨hw, n, rfl | rfl⟩ := workerPoll_cases hs
  · exact ⟨hinv.1, hinv.2, h.start, h.notFailed, h.exited, h.stopped⟩
  · have hsend : ∀ r, (s.worker r).toSend = [] →
        (Function.update s.worker rank .returned r).toSend = [] := by
      intro r hr
      by_cases he : r = rank
      · rw [he, Function.update_self]
        rfl
      · rwa [Function.update_of_ne he]
    refine ⟨hinv.1, hinv.2, fun hm => ?_, h.notFailed, fun hns r => ?_, fun hm r => ?_⟩
    · obtain ⟨hsched, hall⟩ := h.start hm
      exact ⟨hsched, fun r => ⟨(hall r).1, (hall r).2.1, hsend r (hall r).2.2⟩⟩
    · show Function.update s.worker rank .returned r ≠ .exited
      by_cases he : r = rank
      · rw [he, Function.update_self]
        exact fun hx => by cases hx
      · rw [Function.update_of_ne he]
        exact h.exited hns r
    · obtain ⟨htm, hr⟩ := h.stopped hm r
      refine ⟨htm, ?_⟩
      show isWorker o r ∧ s.toWorker r = [.exit] ∧
          (Function.update s.worker rank .returned r = .polling ∨
            Function.update s.worker rank .returned r = .returned) ∨
        s.toWorker r = [] ∧ (Function.update s.worker rank .returned r).toSend = [] ∧
          (isWorker o r → Function.update s.worker rank .returned r = .exited)
      rcases hr with ⟨hwk, hex, hst⟩ | ⟨hno, hnil, hex⟩
      · refine Or.inl ⟨hwk, hex, ?_⟩
        by_cases he : r = rank
        · rw [he, Function.update_self]
          exact Or.inr rfl
        · rwa [Function.update_of_ne he]
      · refine Or.inr ⟨hno, hsend r hnil, fun hwk => ?_⟩
        by_cases he : r = rank
        · have hx := hex hwk
          rw [he, hw] at hx
          cases hx
        · rw [Function.update_of_ne he]
          exact hex hwk

/-- Before `stop` a worker does not leave; after it, it does nothing else. -/
theorem Live.workerReceive {rank : ℕ} {acts : List (Action W)} (h : Live o items does P s)
    (hinv : PwtInv o items does s' ∧ s'.Passed P) (hs : s.workerReceive rank acts = some s') :
    Live o items does P s' := by
  obtain ⟨hw, m, toWorker, hpop, hcases⟩ := workerReceive_cases hs
  obtain ⟨hhead, hother⟩ := pop_spec hpop
  have hstart : s.manager ≠ .start := by
    intro hm
    rw [((h.start hm).2 rank).1] at hhead
    cases hhead
  by_cases hns : s.manager = .stopped
  · rcases (h.stopped hns rank).2 with ⟨hwk, hex, -⟩ | ⟨htw, -⟩
    · rw [hhead] at hex
      obtain ⟨rfl, hnil⟩ := List.cons.inj hex
      obtain ⟨_, he, -⟩ | ⟨-, rfl⟩ := hcases
      · cases he
      · refine ⟨hinv.1, hinv.2, fun hm => absurd hm hstart, h.notFailed, fun hx => absurd hns hx,
          fun _ r => ?_⟩
        by_cases he : r = rank
        · subst he
          refine ⟨(h.stopped hns r).1, Or.inr ⟨hnil, ?_, fun _ => Function.update_self _ _ _⟩⟩
          show (Function.update s.worker r .exited r).toSend = []
          rw [Function.update_self]
          rfl
        · obtain ⟨htm, hr⟩ := h.stopped hns r
          refine ⟨htm, ?_⟩
          unfold setWorker
          dsimp only
          rw [hother r he, Function.update_of_ne he]
          exact hr
    · rw [hhead] at htw
      cases htw
  · obtain ⟨item, rfl, -⟩ := (h.fits hns rank).take hw hhead
    obtain ⟨_, -, rfl⟩ | ⟨he, -⟩ := hcases
    · refine ⟨hinv.1, hinv.2, fun hm => absurd hm hstart, h.notFailed, fun _ r => ?_,
        fun hm => absurd hm hns⟩
      show Function.update s.worker rank _ r ≠ .exited
      by_cases he : r = rank
      · rw [he, Function.update_self]
        exact fun hx => by cases hx
      · rw [Function.update_of_ne he]
        exact h.exited hns r
    · cases he

/-- A worker that is at its work goes on with it. -/
theorem Live.working {rank : ℕ} {w : Worker W} {toManager : ℕ → List (ToManager W)}
    {toWorker : ℕ → List (ToWorker W)} (h : Live o items does P s)
    (hsend : (s.worker rank).toSend ≠ []) (hw : w ≠ .exited)
    (hs : s' = { s.setWorker rank w with toManager := toManager, toWorker := toWorker })
    (hinv : PwtInv o items does s' ∧ s'.Passed P) : Live o items does P s' := by
  obtain ⟨-, hstart, hstop⟩ := h.isWorker_of_toSend hsend
  subst hs
  refine ⟨hinv.1, hinv.2, fun hm => absurd hm hstart, h.notFailed, fun hns r => ?_,
    fun hm => absurd hm hstop⟩
  show Function.update s.worker rank w r ≠ .exited
  by_cases he : r = rank
  · rw [he, Function.update_self]
    exact hw
  · rw [Function.update_of_ne he]
    exact h.exited hns r

theorem live_step (hn : 2 ≤ o.nproc) (hne : items ≠ []) (hitems : ∀ p ∈ items, P p.2)
    (hwork : ∀ job : Job W, does job.item job.acts → P job.item → ∀ item ∈ job.sends, P item)
    (s : Processes W) (a : Label W) (s' : Processes W) (h : Live o items does P s)
    (ha : a.Does does s) (hs : pwtStep o items s a = some s') : Live o items does P s' := by
  have hinv := passed_step hitems hwork s a s' ⟨h.toPwtInv, h.passed⟩ ha hs
  have hnot : ∀ {m : Manager}, s.manager = m → m ≠ .stopped → s.manager ≠ .stopped :=
    fun hm hne => hm ▸ hne
  cases a with
  | startWork =>
    have hstart : s.manager = .start := by
      dsimp only [pwtStep, startWork] at hs
      split at hs
      · assumption
      · cases hs
    exact h.manager hinv (hnot hstart fun he => by cases he) (startWork_frame hs).1
      (Or.inl (startWork_running hn hne (h.start hstart).1 hs))
  | poll =>
    obtain ⟨hrun, t, ht, -, ⟨rfl, -⟩ | ⟨rfl, -⟩⟩ := poll_cases hs
    · exact h.manager hinv (hnot hrun fun he => by cases he) (poll_frame hs).1 (Or.inl ht)
    · exact h.manager hinv (hnot hrun fun he => by cases he) (poll_frame hs).1 (Or.inr (Or.inl rfl))
  | receive rank =>
    obtain ⟨hrun, m, toManager, -, htakes⟩ := receive_cases hs
    refine h.manager hinv (hnot hrun fun he => by cases he) (receive_frame hs).1 ?_
    cases m with
    | request qidx =>
      obtain rfl := htakes
      exact Or.inr (Or.inr ⟨rank, qidx, rfl⟩)
    | work qidx item =>
      obtain rfl := htakes
      exact Or.inl hrun
    | task =>
      obtain rfl := htakes
      exact Or.inl hrun
    | workdone job =>
      obtain rfl := htakes
      exact Or.inl hrun
  | getNewWork =>
    obtain ⟨_, _, _, _, _, hm, -, rfl⟩ := getNewWork_cases hs
    exact h.manager hinv (hnot hm fun he => by cases he) (getNewWork_frame hs).1 (Or.inl rfl)
  | stop => exact h.stop hinv hs
  | workerPoll rank => exact h.workerPoll hinv hs
  | workerReceive rank acts => exact h.workerReceive hinv hs
  | workerAct rank =>
    obtain ⟨job, rest, m, w, hw, hs', hwne, -, -⟩ := workerAct_cases hs
    refine h.working ?_ hwne.2 hs' hinv
    rw [hw]
    exact remaining_ne_nil rest job
  | workerAck rank =>
    obtain ⟨job, qidx, item, rest, m, toWorker, hw, -, hs'⟩ := workerAck_cases hs
    refine h.working ?_ (fun he => by cases he) hs' hinv
    rw [hw]
    exact List.cons_ne_nil _ _

/-! ## Every step leaves less to do -/

/-- An item that the work for another can send. -/
def Sends (does : W → List (Action W) → Prop) (P : W → Prop) (item' item : W) : Prop :=
  P item ∧ ∃ acts, does item acts ∧ item' ∈ acts.flatMap Action.items

/-- A process polls, and finds nothing to do. -/
def Waits (o : Options) (s s' : Processes W) : Prop :=
  s.poll o = some s' ∧ s' = s ∨
    ∃ rank, s.workerPoll o rank = some s' ∧ ∃ n, s' = { s with probecount := n }

variable {r : W → W → Prop}

theorem spent_startWork (hs : s.startWork o items = some s') (hrun : s'.manager = .running) :
    Less r (s'.spent o items) (s.spent o items) := by
  unfold startWork at hs
  split at hs
  · rename_i hstart
    dsimp only at hs
    have hsch := @spent_schedule_items W o items items s
    have hman := (@schedule_items W o items s).2.1
    generalize items.foldl (fun s p => s.schedule o managerProc p.1 p.2) s = t at hs hsch hman
    cases ha : t.assign o with
    | none =>
      rw [ha] at hs
      obtain rfl := Option.some.inj hs
      cases hrun
    | some u =>
      rw [ha] at hs
      obtain rfl := Option.some.inj hs
      obtain ⟨hum, item, hu⟩ := @spent_assign W o items t u ha
      have hset := @spent_setManager W o items u .running
      rw [hum, hman, hstart] at hset
      have htotal : { u with manager := .running }.spent o items +
          (Manager.start.spent o items + ({item}, 2)) = s.spent o items +
            (Manager.running.spent o items + ((items.map Prod.snd : Multiset W), 2 * items.length) +
              ({item}, 1)) := by
        rw [sum_items] at hsch
        rw [← add_assoc, hset, add_right_comm, hu, hsch]
        abel
      refine less_of_steps htotal ?_ ?_
      · show (items.map fun p => (({p.2}, 3) : Spent W)).sum.1 + 0 + {item} =
          0 + (items.map Prod.snd : Multiset W) + {item}
        rw [sum_items, add_zero, zero_add]
      · show o.nproc + 2 + 2 * items.length + 1 <
          (items.map fun p => (({p.2}, 3) : Spent W)).sum.2 + (o.nproc + 3) + 2
        rw [sum_items]
        show _ < 3 * items.length + _ + _
        omega
  · cases hs

/-- A poll changes nothing only if no item can be sent out and the work is not done. -/
theorem spent_poll (hs : s.poll o = some s') :
    Less r (s'.spent o items) (s.spent o items) ∨
      schedulerCanAssignWork o s.sched = false ∧ schedulerWorkDone o s.sched = false ∧ s' = s := by
  obtain ⟨hrun, t, htm, hassign, hcases⟩ := poll_cases hs
  have hleft := @spent_setManager W o items t .left
  rw [htm] at hleft
  rcases hassign with ha | ⟨hcan, rfl⟩
  · obtain ⟨-, item, ht⟩ := @spent_assign W o items s t ha
    refine Or.inl ?_
    rcases hcases with ⟨rfl, -⟩ | ⟨rfl, -⟩
    · exact less_of_steps ht rfl (Nat.lt_succ_self 1)
    · refine less_of_steps (x := Manager.running.spent o items + ({item}, 2))
        (y := Manager.left.spent o items + ({item}, 1)) ?_ rfl ?_
      · rw [← add_assoc, hleft, add_right_comm, ht]
        abel
      · show o.nproc + 1 + 1 < o.nproc + 2 + 2
        omega
  · rcases hcases with ⟨rfl, hdone⟩ | ⟨rfl, -⟩
    · exact Or.inr ⟨hcan, hdone, rfl⟩
    · exact Or.inl (less_of_steps hleft rfl (Nat.lt_succ_self _))

theorem spent_receive {rank : ℕ} (hr : rank < o.nproc) (hs : s.receive o rank = some s') :
    Less r (s'.spent o items) (s.spent o items) := by
  obtain ⟨hrun, m, toManager, hpop, htakes⟩ := receive_cases hs
  have htaken := @spent_of_manager W o items s rank m toManager hr hpop
  cases m with
  | request qidx =>
    obtain rfl := htakes
    refine less_of_steps (x := (0, 2)) (y := (0, 1)) ?_ rfl (Nat.lt_succ_self 1)
    have hack := @spent_push_toWorker W o items { s with toManager := toManager } rank hr .ack
    have hset := @spent_setManager W o items
      { s with toManager := toManager, toWorker := push s.toWorker rank .ack } (.awaiting rank qidx)
    have hsame : s.manager.spent o items = (Manager.awaiting rank qidx).spent o items := by
      rw [hrun]
      rfl
    rw [hack] at hset
    change _ + s.manager.spent o items = _ at hset
    rw [hsame] at hset
    rw [← htaken]
    refine (congrArg (· + ((0, 2) : Spent W)) (add_right_cancel hset)).trans ?_
    exact @add_right_comm (Spent W) _ _ _ _
  | work qidx item =>
    obtain rfl := htakes
    refine less_of_steps (x := ({item}, 3)) (y := ({item}, 2)) ?_ rfl (Nat.lt_succ_self 2)
    rw [spent_schedule, ← htaken]
    exact add_right_comm _ _ _
  | task =>
    obtain rfl := htakes
    exact less_of_steps (y := 0) (htaken.trans (add_zero _).symm) rfl Nat.one_pos
  | workdone job =>
    obtain rfl := htakes
    exact less_of_steps (y := 0) (htaken.trans (add_zero _).symm) rfl Nat.one_pos

theorem spent_getNewWork (hrank : ∀ rank, s.toManager rank ≠ [] → rank < o.nproc)
    (hs : s.getNewWork o = some s') : Less r (s'.spent o items) (s.spent o items) := by
  obtain ⟨rank, qidx, q, item, toManager, hm, hpop, rfl⟩ := getNewWork_cases hs
  have hr : rank < o.nproc := hrank rank (by rw [(pop_spec hpop).1]; exact List.cons_ne_nil _ _)
  have htaken := @spent_of_manager W o items s rank _ toManager hr hpop
  have hset := @spent_setManager W o items
    ({ s with toManager := toManager }.schedule o rank qidx item) .running
  rw [spent_schedule] at hset
  change _ + s.manager.spent o items = _ at hset
  have hsame : s.manager.spent o items = Manager.running.spent o items := by
    rw [hm]
    rfl
  rw [hsame] at hset
  refine less_of_steps (x := ({item}, 3)) (y := ({item}, 2)) ?_ rfl (Nat.lt_succ_self 2)
  rw [← htaken]
  refine (congrArg (· + (({item}, 3) : Spent W)) (add_right_cancel hset)).trans ?_
  exact @add_right_comm (Spent W) _ _ _ _

theorem spent_stopStep (hs : s.stop o = some s') :
    Less r (s'.spent o items) (s.spent o items) := by
  obtain ⟨hl, rfl⟩ := stop_cases hs
  obtain ⟨k, hk, hexit⟩ := @spent_stop W o items s _ rfl
  have hset := @spent_setManager W o items { s with
    toWorker := fun r => if isWorker o r then s.toWorker r ++ [.exit] else s.toWorker r } .stopped
  rw [hexit] at hset
  dsimp only at hset
  rw [hl] at hset
  refine less_of_steps (y := (0, k)) (hset.trans (add_zero _)) rfl ?_
  exact Nat.lt_succ_of_le hk

theorem spent_workerReceive {rank : ℕ} {acts : List (Action W)} (hr : rank < o.nproc)
    (hsends : ∀ item l, s.toWorker rank = .work item :: l → ∀ b ∈ acts.flatMap Action.items, r b item)
    (hs : s.workerReceive rank acts = some s') : Less r (s'.spent o items) (s.spent o items) := by
  obtain ⟨hw, m, toWorker, hpop, hcases⟩ := workerReceive_cases hs
  have htaken := @spent_pop_toWorker W o items s rank m toWorker hr hpop
  rcases hcases with ⟨item, rfl, rfl⟩ | ⟨rfl, rfl⟩
  · have hset := @spent_setWorker W o items { s with toWorker := toWorker } rank hr
      (.working ⟨item, acts⟩ acts)
    dsimp only at hset
    rw [hw] at hset
    refine less_of_piece (x := ({item}, 1)) (y := (acts.map Action.spent).sum + (0, 2)) ?_ rfl ?_
    · rw [← htaken]
      refine (congrArg (· + ({item}, 1)) ((add_zero _).symm.trans hset)).trans ?_
      exact add_right_comm _ _ _
    · intro b hb
      rw [Prod.fst_add, sum_acts] at hb
      have hb' : b ∈ (acts.flatMap Action.items : Multiset W) := by simpa using hb
      exact hsends item _ (pop_spec hpop).1 b (Multiset.mem_coe.mp hb')
  · have hset := @spent_setWorker W o items { s with toWorker := toWorker } rank hr .exited
    dsimp only at hset
    rw [hw] at hset
    refine less_of_steps (x := (0, 1)) (y := 0) ?_ rfl Nat.one_pos
    rw [← htaken]
    refine (congrArg (· + ((0, 1) : Spent W)) ((add_zero _).symm.trans hset)).trans ?_
    exact add_right_comm _ _ _

theorem spent_workerAct {rank : ℕ} (hr : rank < o.nproc) (hs : s.workerAct rank = some s') :
    Less r (s'.spent o items) (s.spent o items) := by
  obtain ⟨job, rest, m, w, hw, rfl, -, -, hspent⟩ := workerAct_cases hs
  have hset := @spent_setWorker W o items s rank hr w
  have hpush := @spent_push_toManager W o items (s.setWorker rank w) rank hr m
  rw [hw, hspent] at hset
  refine less_of_steps (x := w.spent + (0, 1)) (y := w.spent) ?_ (add_zero _) (Nat.lt_succ_self _)
  refine (congrArg (· + (w.spent + ((0, 1) : Spent W))) hpush).trans ?_
  rw [← hset]
  abel

theorem spent_workerAck {rank : ℕ} (hr : rank < o.nproc)
    (hack : ∀ m l, s.toWorker rank = m :: l → m = .ack) (hs : s.workerAck rank = some s') :
    Less r (s'.spent o items) (s.spent o items) := by
  obtain ⟨job, qidx, item, rest, m, toWorker, hw, hpop, rfl⟩ := workerAck_cases hs
  obtain rfl := hack m _ (pop_spec hpop).1
  have htaken := @spent_pop_toWorker W o items s rank _ toWorker hr hpop
  have hset := @spent_setWorker W o items { s with toWorker := toWorker } rank hr (.working job rest)
  have hpush := @spent_push_toManager W o items
    ({ s with toWorker := toWorker }.setWorker rank (.working job rest)) rank hr (.work qidx item)
  dsimp only at hset
  rw [hw] at hset
  refine less_of_steps (x := (Worker.awaiting job qidx item rest).spent + (0, 1))
    (y := (Worker.working job rest).spent + ({item}, 3)) ?_ (add_zero _) (Nat.lt_succ_self _)
  refine (congrArg (· + ((Worker.awaiting job qidx item rest).spent + ((0, 1) : Spent W)))
    hpush).trans ?_
  rw [← htaken]
  have hmsg : (ToManager.work qidx item).spent = (({item}, 3) : Spent W) := rfl
  have hans : (ToWorker.ack : ToWorker W).spent = (0, 1) := rfl
  rw [hmsg, hans, add_add_add_comm, hset]
  abel

/-- An item on its way to a worker has what the work passes on. -/
theorem Live.received (h : Live o items does P s) {rank : ℕ} {item : W} {l : List (ToWorker W)}
    (hhead : s.toWorker rank = .work item :: l) : P item := by
  have hns : s.manager ≠ .stopped := by
    intro hm
    rcases (h.stopped hm rank).2 with ⟨-, hex, -⟩ | ⟨htw, -⟩
    · rw [hhead] at hex
      cases hex
    · rw [hhead] at htw
      cases htw
  have hassigned : item ∈ s.assignedTo rank := by
    cases h.fits hns rank with
    | rest hr =>
      have htw : s.toWorker rank = [] := hr.toWorker
      rw [hhead] at htw
      cases htw
    | busy job next acts hb =>
      have hh := hb.handshake
      have htw : (s.view rank).toWorker = .work item :: l := hhead
      unfold View.Handshake at hh
      cases hw : (s.view rank).worker with
      | awaiting _ _ _ _ =>
        rw [hw, htw] at hh
        rcases hh with ⟨he, -⟩ | ⟨he, -⟩ <;> cases he
      | _ =>
        rw [hw, htw] at hh
        cases hh.1
    | given item' _ _ _ _ htw _ hassigned =>
      have he : s.toWorker rank = [.work item'] := htw
      rw [hhead] at he
      obtain rfl := ToWorker.work.inj (List.cons.inj he).1
      have hmem : item ∈ (s.view rank).assigned := by
        rw [hassigned]
        exact List.mem_append_right _ (List.mem_singleton_self item)
      exact hmem
  obtain ⟨a, ha, hae⟩ := List.mem_map.mp (mem_forPeer.mp hassigned)
  obtain ⟨e, he, hea⟩ := h.assigned_scheduled ha
  rw [← (Prod.mk.inj hae).2, ← hea]
  exact h.passed hns e he

/-- A worker in `worker_sendrequest` receives nothing but the answer. -/
theorem Live.ack (h : Live o items does P s) {rank : ℕ} {job : Job W} {qidx : ℕ} {item : W}
    {rest : List (Action W)} (hw : s.worker rank = .awaiting job qidx item rest) :
    s.toWorker rank = [.ack] ∧ s.toManager rank = [] ∨
      s.toWorker rank = [] ∧ s.toManager rank ≠ [] := by
  have hsend : (s.worker rank).toSend ≠ [] := by
    rw [hw]
    exact List.cons_ne_nil _ _
  obtain ⟨-, -, hns⟩ := h.isWorker_of_toSend hsend
  obtain ⟨_, _, _, hb⟩ := (h.fits hns rank).busy_of_toSend hsend
  have hh := hb.handshake
  have hview : (s.view rank).worker = .awaiting job qidx item rest := hw
  unfold View.Handshake at hh
  rw [hview] at hh
  rcases hh with ⟨htw, l, q, htm, -⟩ | hack
  · refine Or.inr ⟨htw, ?_⟩
    have hlast : s.toManager rank = l ++ [.request q] := htm
    rw [hlast]
    exact List.append_ne_nil_of_right_ne_nil _ (List.cons_ne_nil _ _)
  · exact Or.inl hack

theorem spent_step (h : Live o items does P s) {a : Label W} (ha : a.Does does s)
    (hs : pwtStep o items s a = some s') (hlive : Live o items does P s')
    (hret : ∀ rank, s'.worker rank ≠ .returned) :
    Waits o s s' ∨ Less (Sends does P) (s'.spent o items) (s.spent o items) := by
  have hlt : s.manager ≠ .stopped → ∀ rank, s.toManager rank ≠ [] → rank < o.nproc := by
    intro hns rank hne
    obtain ⟨_, _, _, hb⟩ := (h.fits hns rank).busy_of_toManager hne
    exact hb.worker.2
  cases a with
  | startWork =>
    refine Or.inr (spent_startWork hs ?_)
    have hfailed := hlive.notFailed
    dsimp only [pwtStep, startWork] at hs
    split at hs
    · split at hs
      · obtain rfl := Option.some.inj hs
        rfl
      · obtain rfl := Option.some.inj hs
        exact absurd rfl hfailed
    · cases hs
  | poll =>
    rcases @spent_poll W o items _ _ (Sends does P) hs with hless | ⟨-, -, rfl⟩
    · exact Or.inr hless
    · exact Or.inl (Or.inl ⟨hs, rfl⟩)
  | receive rank =>
    obtain ⟨hrun, _, _, hpop, -⟩ := receive_cases hs
    refine Or.inr (spent_receive (hlt ?_ rank ?_) hs)
    · rw [hrun]
      exact fun he => by cases he
    · rw [(pop_spec hpop).1]
      exact List.cons_ne_nil _ _
  | getNewWork =>
    obtain ⟨_, _, _, _, _, hm, -⟩ := getNewWork_cases hs
    refine Or.inr (spent_getNewWork (hlt ?_) hs)
    rw [hm]
    exact fun he => by cases he
  | stop => exact Or.inr (spent_stopStep hs)
  | workerPoll rank =>
    obtain ⟨-, n, he | he⟩ := workerPoll_cases hs
    · exact Or.inl (Or.inr ⟨rank, hs, n, he⟩)
    · refine absurd ?_ (hret rank)
      rw [he]
      exact Function.update_self _ _ _
  | workerReceive rank acts =>
    obtain ⟨-, m, _, hpop, -⟩ := workerReceive_cases hs
    have hhead := (pop_spec hpop).1
    have hw := h.isWorker_of_toWorker (by rw [hhead]; exact List.cons_ne_nil _ _)
    refine Or.inr (spent_workerReceive hw.2 (fun item l he b hb => ?_) hs)
    exact ⟨h.received he, acts, ha item l he, hb⟩
  | workerAct rank =>
    obtain ⟨job, rest, _, _, hw, -⟩ := workerAct_cases hs
    refine Or.inr (spent_workerAct (h.isWorker_of_toSend ?_).1.2 hs)
    rw [hw]
    exact remaining_ne_nil rest job
  | workerAck rank =>
    obtain ⟨job, qidx, item, rest, _, _, hw, -⟩ := workerAck_cases hs
    refine Or.inr (spent_workerAck (h.isWorker_of_toSend ?_).1.2 (fun m l he => ?_) hs)
    · rw [hw]
      exact List.cons_ne_nil _ _
    · rcases h.ack hw with ⟨hack, -⟩ | ⟨hnil, -⟩
      · rw [he] at hack
        exact (List.cons.inj hack).1
      · rw [he] at hnil
        cases hnil

/-! ## Some process has a step to take -/

/-- The manager has stopped, and every worker has left at its exit message. -/
def Final (o : Options) (s : Processes W) : Prop :=
  s.manager = .stopped ∧ ∀ rank, isWorker o rank → s.worker rank = .exited

/-- A step that takes away some of the work that is left. -/
def Works (o : Options) (items : List (ℕ × W)) (does : W → List (Action W) → Prop) (r : W → W → Prop)
    (s s' : Processes W) : Prop :=
  (∃ a : Label W, a.Does does s ∧ pwtStep o items s a = some s') ∧
    Less r (s'.spent o items) (s.spent o items) ∧ ∀ rank, s'.worker rank ≠ .returned

section

variable (hret : ∀ rank, s.worker rank ≠ .returned)

include hret

/-- A worker at its work can go on, unless it waits for the manager to see its request. -/
theorem Live.worker_works (h : Live o items does P s) {rank : ℕ}
    (hsend : (s.worker rank).toSend ≠ []) (htm : s.toManager rank = []) :
    ∃ s', Works o items does r s s' := by
  have hlt := (h.isWorker_of_toSend hsend).1.2
  cases hw : s.worker rank with
  | working job rest =>
    have hsome : (s.workerAct rank).isSome := by
      unfold workerAct
      rw [hw]
      cases rest with
      | nil => rfl
      | cons a rest => cases a <;> rfl
    obtain ⟨s', hs⟩ := Option.isSome_iff_exists.mp hsome
    refine ⟨s', ⟨.workerAct rank, trivial, hs⟩, spent_workerAct hlt hs, fun r' hr' => ?_⟩
    exact hret r' ((workerAct_spec hs).2.2 r' hr')
  | awaiting job qidx item rest =>
    rcases h.ack hw with ⟨hack, -⟩ | ⟨-, hne⟩
    · have hpop : pop s.toWorker rank = some (.ack, Function.update s.toWorker rank []) := by
        rw [pop, hack]
      have hs : s.workerAck rank = some { s.setWorker rank (.working job rest) with
          toWorker := Function.update s.toWorker rank []
          toManager := push s.toManager rank (.work qidx item) } := by
        unfold workerAck
        rw [hw]
        dsimp only
        rw [hpop]
        rfl
      refine ⟨_, ⟨.workerAck rank, trivial, hs⟩, spent_workerAck hlt (fun m l he => ?_) hs,
        fun r' hr' => hret r' ((workerAck_spec hs).2.2 r' hr')⟩
      rw [hack] at he
      exact (List.cons.inj he).1.symm
    · exact absurd htm hne
  | polling => exact absurd (by rw [hw]; rfl) hsend
  | returned => exact absurd (by rw [hw]; rfl) hsend
  | exited => exact absurd (by rw [hw]; rfl) hsend

/-- A worker takes the item on its way to it. -/
theorem Live.worker_takes (h : Live o items does P s)
    (htotal : ∀ item, P item → ∃ acts, does item acts) {rank : ℕ} {item : W}
    (hns : s.manager ≠ .stopped) (hsend : (s.worker rank).toSend = [])
    (htw : s.toWorker rank = [.work item]) : ∃ s', Works o items does (Sends does P) s s' := by
  have hp := h.received htw
  obtain ⟨acts, hdoes⟩ := htotal item hp
  have hlt := (h.isWorker_of_toWorker (by rw [htw]; exact List.cons_ne_nil _ _)).2
  have hw : s.worker rank = .polling := by
    rcases toSend_eq_nil hsend with hw | hw | hw
    · exact hw
    · exact absurd hw (hret rank)
    · exact absurd hw (h.exited hns rank)
  have hone : ∀ item' l, s.toWorker rank = .work item' :: l → item' = item := by
    intro item' l he
    rw [htw] at he
    exact (ToWorker.work.inj (List.cons.inj he).1).symm
  have hpop : pop s.toWorker rank = some (.work item, Function.update s.toWorker rank []) := by
    rw [pop, htw]
  have hs : s.workerReceive rank acts = some
      ({ s with toWorker := Function.update s.toWorker rank [] }.setWorker rank
        (.working ⟨item, acts⟩ acts)) := by
    unfold Processes.workerReceive
    rw [hw]
    dsimp only
    rw [hpop]
    rfl
  refine ⟨_, ⟨.workerReceive rank acts, fun item' l he => ?_, hs⟩,
    spent_workerReceive hlt (fun item' l he b hb => ?_) hs,
    fun r' hr' => hret r' ((workerReceive_spec hs).2.2 r' hr')⟩
  · rw [hone item' l he]
    exact hdoes
  · rw [hone item' l he]
    exact ⟨hp, acts, hdoes, hb⟩

/-- A manager in its loop receives whatever is there. -/
theorem Live.manager_receives (h : Live o items does P s) (hrun : s.manager = .running) {rank : ℕ}
    (htm : s.toManager rank ≠ []) : ∃ s', Works o items does r s s' := by
  obtain ⟨hns, -, -⟩ := of_running hrun rank
  obtain ⟨_, _, _, hb⟩ := (h.fits hns rank).busy_of_toManager htm
  obtain ⟨m, l, hml⟩ := List.exists_cons_of_ne_nil htm
  have hpop : pop s.toManager rank = some (m, Function.update s.toManager rank l) := by
    rw [pop, hml]
  have hsome : (s.receive o rank).isSome := by
    unfold receive
    rw [hrun]
    dsimp only
    rw [hpop]
    cases m <;> rfl
  obtain ⟨s', hs⟩ := Option.isSome_iff_exists.mp hsome
  refine ⟨s', ⟨.receive rank, trivial, hs⟩, spent_receive hb.worker.2 hs, fun r' => ?_⟩
  rw [(receive_frame hs).1]
  exact hret r'

/-- With all workers idle the manager sends an item out, or leaves its loop. -/
theorem Live.manager_polls (hn : 2 ≤ o.nproc) (hrun : s.manager = .running)
    (hidle : ∀ rank, isWorker o rank → s.sched.processes rank = false) :
    ∃ s', Works o items does r s s' := by
  have hsome : (s.poll o).isSome := by
    unfold poll
    rw [hrun]
    rfl
  obtain ⟨s', hs⟩ := Option.isSome_iff_exists.mp hsome
  refine ⟨s', ⟨.poll, trivial, hs⟩, ?_, fun r' => ?_⟩
  · rcases @spent_poll W o items _ _ r hs with hless | ⟨hcan, hdone, -⟩
    · exact hless
    · have hfirst : isWorker o 1 := ⟨Nat.one_ne_zero, by omega⟩
      have hempty : workqAllEmpty o s.sched = true := by
        have hone := isSome_getIdle hfirst.2 (hidle 1 hfirst)
        unfold schedulerCanAssignWork at hcan
        rw [hone, Bool.and_true] at hcan
        simpa using hcan
      -- only the manager is active
      have hcomplete : processingComplete o s.sched.processes = true := by
        have hsub : (List.range o.nproc).filter s.sched.processes ⊆ [managerProc] := by
          intro i hi
          obtain ⟨hlt, hact⟩ := List.mem_filter.mp hi
          by_contra hne
          rw [hidle i ⟨fun he => hne (by rw [he]; exact List.mem_singleton_self _),
            List.mem_range.mp hlt⟩] at hact
          cases hact
        have hle := (List.subperm_of_subset (List.nodup_range.filter _) hsub).length_le
        unfold processingComplete
        rw [List.countP_eq_length_filter]
        exact decide_eq_true hle
      unfold schedulerWorkDone at hdone
      rw [hempty, hcomplete] at hdone
      cases hdone
  · rw [(poll_frame hs).1]
    exact hret r'

/-- After an acknowledgement the manager receives the item that follows, and its worker comes to send
it. -/
theorem Live.awaiting_works (h : Live o items does P s) {rank qidx : ℕ}
    (hm : s.manager = .awaiting rank qidx) : ∃ s', Works o items does r s s' := by
  have hns : s.manager ≠ .stopped := by
    rw [hm]
    exact fun he => by cases he
  have haw : (s.view rank).awaited = true := by
    show s.manager.awaits rank = true
    rw [hm]
    exact decide_eq_true rfl
  cases htm : s.toManager rank with
  | nil =>
    refine h.worker_works hret ?_ htm
    cases h.fits hns rank with
    | rest hr =>
      rw [hr.awaited] at haw
      cases haw
    | given _ _ _ awaited =>
      rw [awaited] at haw
      cases haw
    | busy job next acts hb =>
      have hmsg : s.toManager rank ++ (s.worker rank).toSend = _ := hb.messages
      rw [htm, List.nil_append] at hmsg
      rw [hmsg]
      exact List.append_ne_nil_of_right_ne_nil _ (remaining_ne_nil acts job)
  | cons m l =>
    obtain ⟨q, item, rfl, -⟩ := (h.fits hns rank).newWork haw htm
    have hpop : pop s.toManager rank = some (.work q item, Function.update s.toManager rank l) := by
      rw [pop, htm]
    have hs : s.getNewWork o = some
        { { s with toManager := Function.update s.toManager rank l }.schedule o rank qidx item with
          manager := .running } := by
      unfold getNewWork
      rw [hm]
      dsimp only
      rw [hpop]
      rfl
    refine ⟨_, ⟨.getNewWork, trivial, hs⟩, spent_getNewWork (fun r' hne => ?_) hs, hret⟩
    obtain ⟨_, _, _, hb⟩ := (h.fits hns r').busy_of_toManager hne
    exact hb.worker.2

/-- After `stop` a worker that is still there has its exit message. -/
theorem Live.worker_exits (h : Live o items does P s) (hm : s.manager = .stopped) :
    Final o s ∨ ∃ s', Works o items does r s s' := by
  by_cases hfinal : ∀ rank, isWorker o rank → s.worker rank = .exited
  · exact Or.inl ⟨hm, hfinal⟩
  · obtain ⟨rank, hrank⟩ := not_forall.mp hfinal
    obtain ⟨hw, hne⟩ := Classical.not_imp.mp hrank
    rcases (h.stopped hm rank).2 with ⟨-, hex, hpoll | hr⟩ | ⟨-, -, hex⟩
    · have hpop : pop s.toWorker rank = some (.exit, Function.update s.toWorker rank []) := by
        rw [pop, hex]
      have hs : s.workerReceive rank [] = some
          ({ s with toWorker := Function.update s.toWorker rank [] }.setWorker rank .exited) := by
        unfold Processes.workerReceive
        rw [hpoll]
        dsimp only
        rw [hpop]
        rfl
      refine Or.inr ⟨_, ⟨.workerReceive rank [], fun item l he => ?_, hs⟩,
        spent_workerReceive hw.2 (fun item l he => ?_) hs,
        fun r' hr' => hret r' ((workerReceive_spec hs).2.2 r' hr')⟩
      · rw [hex] at he
        cases (List.cons.inj he).1
      · rw [hex] at he
        cases (List.cons.inj he).1
    · exact absurd hr (hret rank)
    · exact absurd (hex hw) hne

theorem Live.exists_step (hn : 2 ≤ o.nproc) (hne : items ≠ [])
    (htotal : ∀ item, P item → ∃ acts, does item acts) (h : Live o items does P s) :
    Final o s ∨ ∃ s', Works o items does (Sends does P) s s' := by
  cases hm : s.manager with
  | start =>
    have hsome : (s.startWork o items).isSome := by
      unfold startWork
      rw [hm]
      dsimp only
      cases assign o (items.foldl (fun s p => s.schedule o managerProc p.1 p.2) s) <;> rfl
    obtain ⟨s', hs⟩ := Option.isSome_iff_exists.mp hsome
    refine Or.inr ⟨s', ⟨.startWork, trivial, hs⟩,
      spent_startWork hs (startWork_running hn hne (h.start hm).1 hs), fun r' => ?_⟩
    rw [(startWork_frame hs).1]
    exact hret r'
  | running =>
    have hns := (of_running hm 0).1
    by_cases htm : ∃ rank, s.toManager rank ≠ []
    · obtain ⟨rank, hrank⟩ := htm
      exact Or.inr (h.manager_receives hret hm hrank)
    by_cases hsend : ∃ rank, (s.worker rank).toSend ≠ []
    · obtain ⟨rank, hrank⟩ := hsend
      exact Or.inr (h.worker_works hret hrank (not_not.mp fun hx => htm ⟨rank, hx⟩))
    by_cases hgiven : ∃ rank item, s.toWorker rank = [.work item]
    · obtain ⟨rank, item, hrank⟩ := hgiven
      exact Or.inr (h.worker_takes hret htotal hns (not_not.mp fun hx => hsend ⟨rank, hx⟩) hrank)
    refine Or.inr (Live.manager_polls hret hn hm fun rank hw => ?_)
    -- nothing is on its way, so every worker is between two items
    cases h.fits hns rank with
    | rest hr => exact hr.active hw
    | given item _ _ _ _ htw => exact absurd ⟨rank, item, htw⟩ hgiven
    | busy job next acts hb =>
      have hmsg : s.toManager rank ++ (s.worker rank).toSend = _ := hb.messages
      rw [not_not.mp fun hx => htm ⟨rank, hx⟩, not_not.mp fun hx => hsend ⟨rank, hx⟩] at hmsg
      exact absurd hmsg.symm (List.append_ne_nil_of_right_ne_nil _ (remaining_ne_nil acts job))
  | awaiting rank qidx => exact Or.inr (h.awaiting_works hret hm)
  | left =>
    have hs : s.stop o = some { s with
        manager := .stopped
        toWorker := fun r => if isWorker o r then s.toWorker r ++ [.exit] else s.toWorker r } := by
      unfold Processes.stop
      rw [hm]
    exact Or.inr ⟨_, ⟨.stop, trivial, hs⟩, spent_stopStep hs, hret⟩
  | stopped => exact h.worker_exits hret hm
  | failed => exact absurd hm h.notFailed

end

/-! ## Runs -/

/-- Every item of the start and every item that the work sent has been done, once each. -/
def Complete (items : List (ℕ × W)) (does : W → List (Action W) → Prop) (P : W → Prop)
    (s : Processes W) : Prop :=
  (s.finished.map fun f => f.2.item).Perm
      (items.map Prod.snd ++ s.finished.flatMap fun f => f.2.sends) ∧
    ∀ f ∈ s.finished, P f.2.item ∧ does f.2.item f.2.acts

/-- The work is complete when the manager stops, and the workers do nothing after it. -/
theorem complete_step (h : Live o items does P s) (hc : s.manager = .stopped → Complete items does P s)
    {a : Label W} (hs : pwtStep o items s a = some s') (hm : s'.manager = .stopped) :
    Complete items does P s' := by
  have hworker : s'.manager = s.manager → s'.finished = s.finished → Complete items does P s' := by
    intro hman hfin
    have hcomplete := hc (hman ▸ hm)
    unfold Complete at hcomplete ⊢
    rwa [hfin]
  cases a with
  | startWork =>
    dsimp only [pwtStep, startWork] at hs
    split at hs
    · split at hs <;>
      · obtain rfl := Option.some.inj hs
        cases hm
    · cases hs
  | poll =>
    obtain ⟨-, t, ht, -, ⟨rfl, -⟩ | ⟨rfl, -⟩⟩ := poll_cases hs
    · rw [ht] at hm
      cases hm
    · cases hm
  | receive rank =>
    obtain ⟨hrun, m, toManager, -, htakes⟩ := receive_cases hs
    cases m with
    | request qidx =>
      obtain rfl := htakes
      cases hm
    | work qidx item =>
      obtain rfl := htakes
      cases hrun.symm.trans hm
    | task =>
      obtain rfl := htakes
      cases hrun.symm.trans hm
    | workdone job =>
      obtain rfl := htakes
      cases hrun.symm.trans hm
  | getNewWork =>
    obtain ⟨_, _, _, _, _, -, -, rfl⟩ := getNewWork_cases hs
    cases hm
  | stop =>
    obtain ⟨hl, rfl⟩ := stop_cases hs
    exact ⟨h.finished_perm hl, fun f hf =>
      ⟨finished_passed ⟨h.toPwtInv, h.passed⟩ hl hf, h.finished_does hl hf⟩⟩
  | workerPoll rank =>
    obtain ⟨-, n, rfl | rfl⟩ := workerPoll_cases hs <;> exact hworker rfl rfl
  | workerReceive rank acts =>
    obtain ⟨-, _, _, -, ⟨_, -, rfl⟩ | ⟨-, rfl⟩⟩ := workerReceive_cases hs <;> exact hworker rfl rfl
  | workerAct rank =>
    obtain ⟨_, _, _, _, -, rfl, -⟩ := workerAct_cases hs
    exact hworker rfl rfl
  | workerAck rank =>
    obtain ⟨_, _, _, _, _, _, -, -, rfl⟩ := workerAck_cases hs
    exact hworker rfl rfl

/-- Processes poll and find nothing to do, and then one does something; no worker gives up. -/
def Advances (o : Options) (items : List (ℕ × W)) (does : W → List (Action W) → Prop)
    (s s' : Processes W) : Prop :=
  ∃ t, Relation.ReflTransGen (Waits o) s t ∧ (∃ a : Label W, a.Does does t ∧
    pwtStep o items t a = some s') ∧ ¬ Waits o t s' ∧ ∀ rank, s'.worker rank ≠ .returned

theorem waits_probecount (h : Relation.ReflTransGen (Waits o) s s') :
    ∃ n, s' = { s with probecount := n } := by
  induction h with
  | refl => exact ⟨s.probecount, rfl⟩
  | tail _ hw ih =>
    obtain ⟨n, rfl⟩ := ih
    rcases hw with ⟨-, rfl⟩ | ⟨_, -, k, rfl⟩
    · exact ⟨n, rfl⟩
    · exact ⟨k, rfl⟩

/-- In a job of at least one item, in which the work for an item can always be done and sends only
smaller items, any run can go on until the manager has stopped and all workers have left, and cannot
go on for ever without it, as long as no worker gives up polling. Every item has then been done, and
done once. -/
theorem finishes (hn : 2 ≤ o.nproc) (hne : items ≠ []) (hitems : ∀ p ∈ items, P p.2)
    (hwork : ∀ job : Job W, does job.item job.acts → P job.item → ∀ item ∈ job.sends, P item)
    (htotal : ∀ item, P item → ∃ acts, does item acts) (hwf : WellFounded (Sends does P))
    {ls : List (Label W)} (hdoes : Meets (pwtStep o items) (fun s a => a.Does does s) init ls)
    (h : exec (pwtStep o items) init ls = some s) (hret : ∀ rank, s.worker rank ≠ .returned) :
    Inevitable (Advances o items does) (fun s => Final o s ∧ Complete items does P s) s := by
  have hstep : ∀ (s : Processes W) a s',
      Live o items does P s ∧ (s.manager = .stopped → Complete items does P s) → a.Does does s →
      pwtStep o items s a = some s' →
      Live o items does P s' ∧ (s'.manager = .stopped → Complete items does P s') :=
    fun s a s' hI ha hs =>
      ⟨live_step hn hne hitems hwork s a s' hI.1 ha hs, complete_step hI.1 hI.2 hs⟩
  have hlive := exec_inv_meets (I := fun s => Live o items does P s ∧
    (s.manager = .stopped → Complete items does P s)) hstep
    ⟨live_init, fun hm => by cases hm⟩ hdoes h
  have hless := wellFounded_less hwf
  refine inevitable_of_wellFounded (I := fun s => (Live o items does P s ∧
    (s.manager = .stopped → Complete items does P s)) ∧ ∀ rank, s.worker rank ≠ .returned)
    hless (spent o items) ?_ ?_ ⟨hlive, hret⟩
  · rintro s s' ⟨⟨hl, hc⟩, hret⟩ ⟨t, hwaits, ⟨a, ha, hs⟩, hnot, hret'⟩
    obtain ⟨n, rfl⟩ := waits_probecount hwaits
    have hl' : Live o items does P { s with probecount := n } :=
      ⟨⟨⟨hl.queues, hl.queuesEnd⟩, hl.active, hl.first, hl.left, hl.fits⟩, hl.passed, hl.start,
        hl.notFailed, hl.exited, hl.stopped⟩
    obtain ⟨hlive', hcomplete'⟩ := hstep _ a s' ⟨hl', hc⟩ ha hs
    refine ⟨⟨⟨hlive', hcomplete'⟩, hret'⟩, ?_⟩
    rcases spent_step hl' ha hs hlive' hret' with hw | hsmaller
    · exact absurd hw hnot
    · exact hsmaller
  · rintro s ⟨⟨hl, hc⟩, hret⟩
    rcases hl.exists_step hret hn hne htotal with hfinal | ⟨s', ⟨a, ha, hs⟩, hsmaller, hret'⟩
    · exact Or.inl ⟨hfinal, hc hfinal.1⟩
    · refine Or.inr ⟨s', s, .refl, ⟨a, ha, hs⟩, fun hw => ?_, hret'⟩
      -- waiting does not take away any work
      obtain ⟨n, rfl⟩ := waits_probecount (.single hw)
      exact hless.irrefl.irrefl _ hsmaller

/-- An item that sends the next smaller one after a request. -/
def countdown (n : ℕ) (acts : List (Action ℕ)) : Prop :=
  acts = if n = 0 then [] else [.request 0 (n - 1)]

theorem finishes_countdown : Inevitable (Advances ⟨2, 1⟩ [(0, 3)] countdown)
    (fun s => Final ⟨2, 1⟩ s ∧ Complete [(0, 3)] countdown (fun _ => True) s) init := by
  refine finishes (by decide) (List.cons_ne_nil _ _) (fun _ _ => trivial) (fun _ _ _ _ _ => trivial)
    (fun item _ => ⟨_, rfl⟩) ?_ (show Meets _ _ _ [] from trivial) rfl fun _ he => by cases he
  refine Subrelation.wf ?_ Nat.lt_wfRel.wf
  rintro n m ⟨-, acts, rfl, hn⟩
  show n < m
  split_ifs at hn with hm
  · cases hn
  · have he : n = m - 1 := by simpa [Action.items] using hn
    omega

end Processes

end MpiToShmem.Pwt
