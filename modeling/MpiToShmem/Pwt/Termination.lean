import MpiToShmem.Pwt.Phases

/-!
# The end of the manager's loop

The manager leaves its loop when its queues are empty and no flag but its own is set. Then nothing
is left to do anywhere.

1. `QueueInv`: what was scheduled for a queue is what was assigned from it and what it holds.
2. `PwtInv`: every rank is in one of its phases.
3. `manager_left`: at the end of the loop every item that was scheduled has been assigned and
   reported as done, and no message is in flight.
-/

namespace MpiToShmem.Pwt

open Kit Fifo

variable {W : Type}

namespace Processes

/-! ## What happened -/

/-- The items put into a queue. -/
def scheduledIn (s : Processes W) (queue : ℕ) : List W :=
  forPeer queue (s.scheduled.map fun e => (e.queue, e.item))

/-- The items that came from a process. -/
def scheduledFrom (s : Processes W) (source : ℕ) : List W :=
  forPeer source (s.scheduled.map fun e => (e.source, e.item))

/-- The items assigned from a queue. -/
def assignedFrom (s : Processes W) (queue : ℕ) : List W :=
  forPeer queue (s.assigned.map fun a => (a.queue, a.item))

/-- The items assigned to a worker. -/
def assignedTo (s : Processes W) (rank : ℕ) : List W :=
  forPeer rank (s.assigned.map fun a => (a.rank, a.item))

/-- What the processes have to do with a rank. -/
def view (s : Processes W) (r : ℕ) : View W where
  active := s.sched.processes r
  awaited := s.manager.awaits r
  worker := s.worker r
  toWorker := s.toWorker r
  toManager := s.toManager r
  assigned := s.assignedTo r
  finished := forPeer r s.finished
  scheduled := if r = managerProc then [] else s.scheduledFrom r

variable {o : Options} {items : List (ℕ × W)} {does : W → List (Action W) → Prop}
  {s s' : Processes W}

theorem scheduledFrom_schedule (source qidx : ℕ) (item : W) (r : ℕ) :
    (s.schedule o source qidx item).scheduledFrom r =
      s.scheduledFrom r ++ if source = r then [item] else [] := by
  unfold schedule scheduledFrom
  rw [List.map_append, List.map_singleton, forPeer_concat]

theorem scheduledIn_schedule (source qidx : ℕ) (item : W) (i : ℕ) :
    (s.schedule o source qidx item).scheduledIn i =
      s.scheduledIn i ++ if o.queue qidx = i then [item] else [] := by
  unfold schedule scheduledIn
  rw [List.map_append, List.map_singleton, forPeer_concat]

theorem view_schedule {source qidx : ℕ} {item : W} (hs : source ≠ managerProc) :
    (s.schedule o source qidx item).view source =
      { s.view source with scheduled := (s.view source).scheduled ++ [item] } := by
  unfold view
  rw [scheduledFrom_schedule, if_pos rfl]
  dsimp only
  rw [if_neg hs, if_neg hs]
  rfl

theorem view_schedule_of_ne {source qidx : ℕ} {item : W} {r : ℕ}
    (hr : source = managerProc ∨ r ≠ source) :
    (s.schedule o source qidx item).view r = s.view r := by
  unfold view
  rw [scheduledFrom_schedule]
  have hsch : (if r = managerProc then [] else
      s.scheduledFrom r ++ if source = r then [item] else []) =
      if r = managerProc then [] else s.scheduledFrom r := by
    by_cases hm : r = managerProc
    · rw [if_pos hm, if_pos hm]
    · rw [if_neg hm, if_neg hm, if_neg, List.append_nil]
      rintro rfl
      rcases hr with hr | hr
      · exact hm hr
      · exact hr rfl
  rw [hsch]
  rfl

/-! ## Queues -/

/-- A queue holds what was scheduled for it and not assigned, in order. -/
structure QueueInv (o : Options) (s : Processes W) : Prop where
  queues : ∀ i, s.scheduledIn i = s.assignedFrom i ++ s.sched.workq i
  queuesEnd : ∀ i, o.workqCount ≤ i → s.sched.workq i = []

theorem QueueInv.schedule (h : QueueInv o s) (source qidx : ℕ) (item : W) :
    QueueInv o (s.schedule o source qidx item) where
  queues i := by
    rw [scheduledIn_schedule, h.queues i, List.append_assoc]
    congr 1
    exact (push_apply i).symm
  queuesEnd i hi := by
    have hlt := @Options.queue_lt o qidx
    show push s.sched.workq (o.queue qidx) item i = []
    rw [push_apply, h.queuesEnd i hi, if_neg (by omega)]
    rfl

theorem QueueInv.assign (h : QueueInv o s) (ha : s.assign o = some s') : QueueInv o s' := by
  unfold Processes.assign at ha
  obtain ⟨⟨a, sched⟩, hget, ha⟩ := Option.map_eq_some_iff.mp ha
  subst ha
  obtain ⟨-, -, -, hq⟩ := getwork_spec hget
  refine ⟨fun i => ?_, fun i hi => ?_⟩
  · have hi := h.queues i
    rw [hq i, ← List.append_assoc] at hi
    refine hi.trans ?_
    congr 1
    unfold assignedFrom
    rw [List.map_append, List.map_singleton, forPeer_concat]
  · have hi' := h.queuesEnd i hi
    rw [hq i] at hi'
    exact (List.append_eq_nil_iff.mp hi').2

/-! ## Phases -/

/-- Before `stop`, every rank is in a phase; the manager's flag is set, what it has scheduled itself
are the items of its start, and it has not left its loop before the work was done. -/
structure PwtInv (o : Options) (items : List (ℕ × W)) (does : W → List (Action W) → Prop)
    (s : Processes W) : Prop extends QueueInv o s where
  active : s.sched.processes managerProc = true
  first : s.scheduledFrom managerProc = if s.manager = .start then [] else items.map Prod.snd
  left : s.manager = .left → schedulerWorkDone o s.sched
  fits : s.manager ≠ .stopped → ∀ r, Fits (isWorker o r) does (s.view r)

theorem pwtInv_init : PwtInv o items does (init : Processes W) where
  queues _ := rfl
  queuesEnd _ _ := rfl
  active := rfl
  first := rfl
  left hm := by cases hm
  fits _ r := by
    refine .rest ⟨fun hr => ?_, rfl, rfl, rfl, rfl, rfl, ?_, fun _ hj => absurd hj List.not_mem_nil,
      fun _ => rfl⟩
    · show Function.update (fun _ => false) managerProc true r = false
      rw [Function.update_of_ne hr.1]
    · show (if r = managerProc then [] else []) = []
      exact ite_self _

/-- A rank that has sent something is a worker, so it is not the manager. -/
theorem PwtInv.isWorker_of_pop (h : PwtInv o items does s) (hm : s.manager ≠ .stopped) {rank : ℕ}
    {m : ToManager W} {l : List (ToManager W)} (hp : s.toManager rank = m :: l) :
    isWorker o rank := by
  obtain ⟨_, _, _, hb⟩ := (h.fits hm rank).busy_of_toManager (by
    show s.toManager rank ≠ []
    rw [hp]
    exact List.cons_ne_nil _ _)
  exact hb.worker

/-- One rank changes its phase, and nothing else changes. -/
theorem fits_update {rank : ℕ} (hfits : ∀ r, Fits (isWorker o r) does (s.view r))
    (hrank : Fits (isWorker o rank) does (s'.view rank))
    (hother : ∀ r, r ≠ rank → s'.view r = s.view r) (r : ℕ) :
    Fits (isWorker o r) does (s'.view r) := by
  by_cases hr : r = rank
  · exact hr ▸ hrank
  · rw [hother r hr]
    exact hfits r

theorem assign_spec (ha : s.assign o = some s') (hact : s.sched.processes managerProc = true) :
    s'.sched.processes managerProc = true ∧ s'.manager = s.manager ∧ s'.scheduled = s.scheduled ∧
      ((∀ r, Fits (isWorker o r) does (s.view r)) →
        ∀ r, Fits (isWorker o r) does (s'.view r)) := by
  unfold Processes.assign at ha
  obtain ⟨⟨a, sched⟩, hget, ha⟩ := Option.map_eq_some_iff.mp ha
  subst ha
  obtain ⟨hlt, hidle, hproc, -⟩ := getwork_spec hget
  have hne : a.rank ≠ managerProc := by
    intro he
    rw [he, hact] at hidle
    cases hidle
  refine ⟨?_, rfl, rfl, fun hfits => ?_⟩
  · show sched.processes managerProc = true
    rw [hproc, Function.update_of_ne hne.symm]
    exact hact
  · have hassigned : ∀ r, forPeer r ((s.assigned ++ [a]).map fun a => (a.rank, a.item)) =
        s.assignedTo r ++ if a.rank = r then [a.item] else [] := by
      intro r
      rw [List.map_append, List.map_singleton, forPeer_concat]
      rfl
    refine @fits_update _ o does s _ a.rank hfits ?_ fun r hr => ?_
    · have hgive := (hfits a.rank).give ⟨hne, hlt⟩ hidle a.item
      convert hgive using 1
      unfold view assignedTo
      dsimp only
      rw [hproc, Function.update_self, push_apply, if_pos rfl, hassigned, if_pos rfl]
      rfl
    · unfold view assignedTo
      dsimp only
      rw [hproc, Function.update_of_ne hr, push_apply, if_neg hr.symm, List.append_nil, hassigned,
        if_neg hr.symm, List.append_nil]
      rfl

/-! ## Steps of the manager -/

theorem view_manager {m : Manager} {r : ℕ} (hm : m.awaits r = s.manager.awaits r) :
    { s with manager := m }.view r = s.view r := by
  unfold view
  rw [hm]
  rfl

/-- The items of the start, all scheduled by the manager. -/
theorem schedule_items (l : List (ℕ × W)) (s : Processes W) :
    let s' := l.foldl (fun s p => s.schedule o managerProc p.1 p.2) s
    (QueueInv o s → QueueInv o s') ∧ s'.manager = s.manager ∧
      s'.sched.processes = s.sched.processes ∧ (∀ r, s'.view r = s.view r) ∧
      s'.scheduledFrom managerProc = s.scheduledFrom managerProc ++ l.map Prod.snd := by
  induction l generalizing s with
  | nil => exact ⟨id, rfl, rfl, fun _ => rfl, (List.append_nil _).symm⟩
  | cons p l ih =>
    obtain ⟨hq, hm, hp, hv, hf⟩ := ih (s.schedule o managerProc p.1 p.2)
    refine ⟨fun h => hq (h.schedule _ _ _), hm, hp, fun r => ?_, ?_⟩
    · exact (hv r).trans (view_schedule_of_ne (Or.inl rfl))
    · refine hf.trans ?_
      rw [scheduledFrom_schedule, if_pos rfl, List.append_assoc]
      rfl

theorem PwtInv.startWork (h : PwtInv o items does s) (hs : s.startWork o items = some s') :
    PwtInv o items does s' := by
  unfold Processes.startWork at hs
  cases hm : s.manager with
  | start =>
    rw [hm] at hs
    dsimp only at hs
    obtain ⟨hq, hman, hproc, hview, hfrom⟩ := @schedule_items W o items s
    have hfirst := h.first
    rw [if_pos hm] at hfirst
    rw [hfirst, List.nil_append] at hfrom
    have hfits : ∀ r, Fits (isWorker o r) does
        ((items.foldl (fun s p => s.schedule o managerProc p.1 p.2) s).view r) := by
      intro r
      rw [hview r]
      exact h.fits (by rw [hm]; exact fun he => by cases he) r
    have hact := (congrFun hproc managerProc).trans h.active
    generalize items.foldl (fun s p => s.schedule o managerProc p.1 p.2) s = t at *
    have htm : ∀ r, t.manager.awaits r = false := fun r => by rw [hman, hm]; rfl
    cases ha : t.assign o with
    | none =>
      rw [ha] at hs
      obtain rfl := Option.some.inj hs
      refine ⟨⟨(hq h.toQueueInv).queues, (hq h.toQueueInv).queuesEnd⟩, hact, hfrom,
        fun hl => (by cases hl), fun _ r => ?_⟩
      rw [view_manager (by rw [htm r]; rfl)]
      exact hfits r
    | some u =>
      rw [ha] at hs
      obtain rfl := Option.some.inj hs
      obtain ⟨hact', hman', hsch, hfits'⟩ := @assign_spec _ _ does _ _ ha hact
      have hqu := (hq h.toQueueInv).assign ha
      refine ⟨⟨hqu.queues, hqu.queuesEnd⟩, hact', ?_, fun hl => (by cases hl), fun _ r => ?_⟩
      · refine Eq.trans ?_ hfrom
        unfold scheduledFrom
        dsimp only
        rw [hsch]
      · rw [view_manager (by rw [hman', htm r]; rfl)]
        exact hfits' hfits r
  | _ => rw [hm] at hs; cases hs

theorem PwtInv.poll (h : PwtInv o items does s) (hs : s.poll o = some s') :
    PwtInv o items does s' := by
  unfold Processes.poll at hs
  cases hm : s.manager with
  | running =>
    rw [hm] at hs
    dsimp only at hs
    have hassign : ∀ u, s.assign o = some u → PwtInv o items does u ∧ u.manager = .running := by
      intro u ha
      obtain ⟨hact, hman, hsch, hfits⟩ := @assign_spec _ _ does _ _ ha h.active
      refine ⟨⟨h.toQueueInv.assign ha, hact, ?_, fun hl => ?_, fun _ => hfits (h.fits ?_)⟩,
        hman.trans hm⟩
      · rw [hman]
        unfold scheduledFrom
        rw [hsch]
        exact h.first
      · rw [hman, hm] at hl
        cases hl
      · rw [hm]
        exact fun he => by cases he
    have hnext : PwtInv o items does (if schedulerCanAssignWork o s.sched then (s.assign o).getD s
        else s) ∧ (if schedulerCanAssignWork o s.sched then (s.assign o).getD s
        else s).manager = .running := by
      split_ifs
      · cases ha : s.assign o with
        | none => exact ⟨h, hm⟩
        | some u => exact hassign u ha
      · exact ⟨h, hm⟩
    generalize (if schedulerCanAssignWork o s.sched then (s.assign o).getD s else s) = t at *
    obtain ⟨ht, htm⟩ := hnext
    split_ifs at hs with hdone
    · obtain rfl := Option.some.inj hs
      have hfirst := ht.first
      rw [htm, if_neg fun he => by cases he] at hfirst
      refine ⟨⟨ht.queues, ht.queuesEnd⟩, ht.active, hfirst, fun _ => hdone, fun _ r => ?_⟩
      rw [view_manager (by rw [htm]; rfl)]
      exact ht.fits (by rw [htm]; exact fun he => by cases he) r
    · obtain rfl := Option.some.inj hs
      exact ht
  | _ => rw [hm] at hs; cases hs

/-- While the manager runs, it waits for no one. -/
theorem of_running (hm : s.manager = .running) (rank : ℕ) :
    s.manager ≠ .stopped ∧ s.manager ≠ .left ∧ (s.view rank).awaited = false := by
  have haw : (s.view rank).awaited = s.manager.awaits rank := rfl
  rw [haw, hm]
  exact ⟨fun he => (by cases he), fun he => (by cases he), rfl⟩

section Receive

/-! The manager takes a message of `rank`, which leaves it `toManager`. -/

variable {rank : ℕ} {toManager : ℕ → List (ToManager W)} (h : PwtInv o items does s)
  (hm : s.manager = .running) (hrest : ∀ r, r ≠ rank → toManager r = s.toManager r)

include h hm hrest

theorem PwtInv.receiveRequest {qidx : ℕ}
    (hhead : s.toManager rank = .request qidx :: toManager rank) :
    PwtInv o items does { s with
      manager := .awaiting rank qidx
      toManager := toManager
      toWorker := push s.toWorker rank .ack } := by
  obtain ⟨hns, -, haw⟩ := of_running hm rank
  have hfirst := h.first
  rw [hm, if_neg fun he => by cases he] at hfirst
  refine ⟨⟨h.queues, h.queuesEnd⟩, h.active, hfirst, fun hl => (by cases hl), fun _ => ?_⟩
  refine @fits_update _ o does s _ rank (h.fits hns) ?_ fun r hr => ?_
  · convert (h.fits hns rank).request haw hhead using 1
    unfold view
    dsimp only
    rw [push_apply, if_pos rfl]
    simp [Manager.awaits, assignedTo, scheduledFrom]
  · unfold view
    dsimp only
    rw [push_apply, if_neg hr.symm, List.append_nil, hrest r hr, hm]
    simp [Manager.awaits, assignedTo, scheduledFrom, hr.symm]

theorem PwtInv.receiveWork {qidx : ℕ} {item : W}
    (hhead : s.toManager rank = .work qidx item :: toManager rank) :
    PwtInv o items does
      (({ s with toManager := toManager } : Processes W).schedule o rank qidx item) := by
  obtain ⟨hns, hnl, haw⟩ := of_running hm rank
  have hworker := h.isWorker_of_pop hns hhead
  have hq : QueueInv o { s with toManager := toManager } := ⟨h.queues, h.queuesEnd⟩
  have hq' := hq.schedule rank qidx item
  refine ⟨⟨hq'.queues, hq'.queuesEnd⟩, h.active, ?_, fun hl => absurd hl hnl, fun _ => ?_⟩
  · rw [scheduledFrom_schedule, if_neg hworker.1, List.append_nil]
    exact h.first
  · refine @fits_update _ o does s _ rank (h.fits hns) ?_ fun r hr => ?_
    · rw [view_schedule hworker.1]
      exact (h.fits hns rank).work haw hhead
    · rw [view_schedule_of_ne (Or.inr hr)]
      unfold view
      dsimp only
      rw [hrest r hr]
      rfl

theorem PwtInv.receiveTask (hhead : s.toManager rank = .task :: toManager rank) :
    PwtInv o items does { s with toManager := toManager } := by
  obtain ⟨hns, hnl, haw⟩ := of_running hm rank
  refine ⟨⟨h.queues, h.queuesEnd⟩, h.active, h.first, fun hl => absurd hl hnl, fun _ => ?_⟩
  refine @fits_update _ o does s _ rank (h.fits hns) ?_ fun r hr => ?_
  · exact (h.fits hns rank).task haw hhead
  · unfold view
    dsimp only
    rw [hrest r hr]
    rfl

theorem PwtInv.receiveWorkdone {job : Job W}
    (hhead : s.toManager rank = .workdone job :: toManager rank) :
    PwtInv o items does { s with
      sched := scheduleIdle s.sched rank
      toManager := toManager
      finished := s.finished ++ [(rank, job)] } := by
  obtain ⟨hns, hnl, haw⟩ := of_running hm rank
  have hworker := h.isWorker_of_pop hns hhead
  refine ⟨⟨h.queues, h.queuesEnd⟩, ?_, h.first, fun hl => absurd hl hnl, fun _ => ?_⟩
  · show Function.update s.sched.processes rank false managerProc = true
    rw [Function.update_of_ne hworker.1.symm]
    exact h.active
  · refine @fits_update _ o does s _ rank (h.fits hns) ?_ fun r hr => ?_
    · convert (h.fits hns rank).workdone haw hhead using 1
      unfold view scheduleIdle
      dsimp only
      rw [Function.update_self, forPeer_concat, if_pos rfl]
      rfl
    · unfold view scheduleIdle
      dsimp only
      rw [Function.update_of_ne hr, forPeer_concat, if_neg hr.symm, List.append_nil, hrest r hr]
      rfl

end Receive

theorem PwtInv.receive {rank : ℕ} (h : PwtInv o items does s)
    (hs : s.receive o rank = some s') : PwtInv o items does s' := by
  unfold Processes.receive at hs
  split at hs
  · rename_i hm
    obtain ⟨⟨m, toManager⟩, hpop, hs⟩ := Option.bind_eq_some_iff.mp hs
    obtain ⟨hhead, hrest⟩ := pop_spec hpop
    cases m with
    | request qidx =>
      obtain rfl := Option.some.inj hs
      exact h.receiveRequest hm hrest hhead
    | work qidx item =>
      obtain rfl := Option.some.inj hs
      exact h.receiveWork hm hrest hhead
    | task =>
      obtain rfl := Option.some.inj hs
      exact h.receiveTask hm hrest hhead
    | workdone job =>
      obtain rfl := Option.some.inj hs
      exact h.receiveWorkdone hm hrest hhead
  · cases hs

theorem PwtInv.getNewWork (h : PwtInv o items does s) (hs : s.getNewWork o = some s') :
    PwtInv o items does s' := by
  unfold Processes.getNewWork at hs
  split at hs
  · rename_i rank qidx hm
    obtain ⟨⟨m, toManager⟩, hpop, hs⟩ := Option.bind_eq_some_iff.mp hs
    obtain ⟨hhead, hrest⟩ := pop_spec hpop
    have hns : s.manager ≠ .stopped := by
      rw [hm]
      exact fun he => by cases he
    have hworker := h.isWorker_of_pop hns hhead
    have haw : (s.view rank).awaited = true := by
      show s.manager.awaits rank = true
      rw [hm]
      exact decide_eq_true rfl
    obtain ⟨q, item, rfl, hfits⟩ := (h.fits hns rank).newWork haw hhead
    obtain rfl := Option.some.inj hs
    have hq : QueueInv o { s with toManager := toManager, manager := .running } :=
      ⟨h.queues, h.queuesEnd⟩
    have hq' := hq.schedule rank qidx item
    have hfirst := h.first
    rw [hm, if_neg fun he => by cases he] at hfirst
    have hawaits : ∀ r, s.manager.awaits r = decide (rank = r) := fun r => by rw [hm]; rfl
    refine ⟨⟨hq'.queues, hq'.queuesEnd⟩, h.active, ?_, fun hl => (by cases hl), fun _ => ?_⟩
    · refine Eq.trans (@scheduledFrom_schedule _ o _ rank qidx item managerProc) ?_
      rw [if_neg hworker.1, List.append_nil]
      exact hfirst
    · refine @fits_update _ o does s _ rank (h.fits hns) ?_ fun r hr => ?_
      · convert hfits using 1
        exact @view_schedule _ o { s with toManager := toManager, manager := .running } _ _ _ hworker.1
      · refine Eq.trans (@view_schedule_of_ne _ o
          { s with toManager := toManager, manager := .running } _ _ _ _ (Or.inr hr)) ?_
        unfold view
        dsimp only
        rw [hrest r hr, hawaits r, decide_eq_false hr.symm]
        rfl
  · cases hs

theorem PwtInv.stop (h : PwtInv o items does s) (hs : s.stop o = some s') :
    PwtInv o items does s' := by
  unfold Processes.stop at hs
  cases hm : s.manager with
  | left =>
    rw [hm] at hs
    obtain rfl := Option.some.inj hs
    have hfirst := h.first
    rw [hm, if_neg fun he => by cases he] at hfirst
    exact ⟨⟨h.queues, h.queuesEnd⟩, h.active, hfirst, fun hl => (by cases hl),
      fun hns => absurd rfl hns⟩
  | _ => rw [hm] at hs; cases hs

/-! ## Steps of the workers -/

/-- A step that changes the worker and the channels of one rank. -/
theorem PwtInv.worker (h : PwtInv o items does s) {rank : ℕ} {w : Worker W}
    {probecount : ℕ → ℕ} {toManager : ℕ → List (ToManager W)} {toWorker : ℕ → List (ToWorker W)}
    (hfits : s.manager ≠ .stopped → Fits (isWorker o rank) does { s.view rank with
      worker := w
      toManager := toManager rank
      toWorker := toWorker rank })
    (htm : ∀ r, r ≠ rank → toManager r = s.toManager r)
    (htw : ∀ r, r ≠ rank → toWorker r = s.toWorker r) :
    PwtInv o items does { s.setWorker rank w with
      probecount := probecount
      toManager := toManager
      toWorker := toWorker } := by
  refine ⟨⟨h.queues, h.queuesEnd⟩, h.active, h.first, h.left, fun hns => ?_⟩
  refine @fits_update _ o does s _ rank (h.fits hns) ?_ fun r hr => ?_
  · convert hfits hns using 1
    unfold view setWorker
    dsimp only
    rw [Function.update_self]
    rfl
  · unfold view setWorker
    dsimp only
    rw [Function.update_of_ne hr, htm r hr, htw r hr]
    rfl

theorem PwtInv.workerPoll {rank : ℕ} (h : PwtInv o items does s)
    (hs : s.workerPoll o rank = some s') : PwtInv o items does s' := by
  unfold Processes.workerPoll at hs
  split at hs
  · rename_i hw
    split_ifs at hs
    obtain rfl := Option.some.inj hs
    split_ifs
    · exact h.worker (fun hns => (h.fits hns rank).leave hw) (fun _ _ => rfl) fun _ _ => rfl
    · exact ⟨⟨h.queues, h.queuesEnd⟩, h.active, h.first, h.left, h.fits⟩
  · cases hs

theorem PwtInv.workerReceive {rank : ℕ} {acts : List (Action W)} (h : PwtInv o items does s)
    (hdoes : ∀ item l, s.toWorker rank = .work item :: l → does item acts)
    (hs : s.workerReceive rank acts = some s') : PwtInv o items does s' := by
  unfold Processes.workerReceive at hs
  split at hs
  · rename_i hw
    obtain ⟨⟨m, toWorker⟩, hpop, hs⟩ := Option.bind_eq_some_iff.mp hs
    obtain ⟨hhead, hrest⟩ := pop_spec hpop
    cases m with
    | work item =>
      obtain rfl := Option.some.inj hs
      refine h.worker (fun hns => ?_) (fun _ _ => rfl) hrest
      obtain ⟨item', he, hfits⟩ := (h.fits hns rank).take hw hhead
      obtain rfl := ToWorker.work.inj he
      exact hfits acts (hdoes item _ hhead)
    | exit =>
      obtain rfl := Option.some.inj hs
      refine h.worker (fun hns => ?_) (fun _ _ => rfl) hrest
      obtain ⟨_, he, -⟩ := (h.fits hns rank).take hw hhead
      cases he
    | ack => cases hs
  · cases hs

theorem PwtInv.workerAct {rank : ℕ} (h : PwtInv o items does s)
    (hs : s.workerAct rank = some s') : PwtInv o items does s' := by
  have hsend : ∀ {m : ToManager W} {w : Worker W},
      (s.manager ≠ .stopped → Fits (isWorker o rank) does { s.view rank with
        worker := w
        toManager := s.toManager rank ++ [m] }) →
      PwtInv o items does { s.setWorker rank w with toManager := push s.toManager rank m } := by
    intro m w hfits
    refine h.worker (fun hns => ?_) (fun r hr => ?_) fun _ _ => rfl
    · rw [push_apply, if_pos rfl]
      exact hfits hns
    · rw [push_apply, if_neg hr.symm, List.append_nil]
  unfold Processes.workerAct at hs
  split at hs
  · rename_i job qidx item rest hw
    obtain rfl := Option.some.inj hs
    exact hsend fun hns => (h.fits hns rank).send hw rfl (Or.inl ⟨qidx, item, rest, rfl, rfl⟩)
  · rename_i job qidx item rest hw
    obtain rfl := Option.some.inj hs
    exact hsend fun hns => (h.fits hns rank).send hw rfl (Or.inr ⟨rfl, by rintro _ _ _ _ ⟨⟩⟩)
  · rename_i job rest hw
    obtain rfl := Option.some.inj hs
    exact hsend fun hns => (h.fits hns rank).send hw rfl (Or.inr ⟨rfl, by rintro _ _ _ _ ⟨⟩⟩)
  · rename_i job hw
    obtain rfl := Option.some.inj hs
    exact hsend fun hns => (h.fits hns rank).send hw rfl (Or.inr ⟨rfl, by rintro _ _ _ _ ⟨⟩⟩)
  · cases hs

theorem PwtInv.workerAck {rank : ℕ} (h : PwtInv o items does s)
    (hs : s.workerAck rank = some s') : PwtInv o items does s' := by
  unfold Processes.workerAck at hs
  split at hs
  · rename_i job qidx item rest hw
    obtain ⟨⟨m, toWorker⟩, hpop, hs⟩ := Option.bind_eq_some_iff.mp hs
    obtain ⟨hhead, hrest⟩ := pop_spec hpop
    obtain rfl := Option.some.inj hs
    refine h.worker (fun hns => ?_) (fun r hr => ?_) hrest
    · rw [push_apply, if_pos rfl]
      exact (h.fits hns rank).ack hw hhead
    · rw [push_apply, if_neg hr.symm, List.append_nil]
  · cases hs

/-! ## Runs -/

theorem pwtInv_step (s : Processes W) (a : Label W) (s' : Processes W)
    (h : PwtInv o items does s) (ha : a.Does does s) (hs : pwtStep o items s a = some s') :
    PwtInv o items does s' := by
  cases a with
  | startWork => exact h.startWork hs
  | poll => exact h.poll hs
  | receive rank => exact h.receive hs
  | getNewWork => exact h.getNewWork hs
  | stop => exact h.stop hs
  | workerPoll rank => exact h.workerPoll hs
  | workerReceive rank acts => exact h.workerReceive ha hs
  | workerAct rank => exact h.workerAct hs
  | workerAck rank => exact h.workerAck hs

/-- When the manager has left its loop, every rank is between two items. -/
theorem PwtInv.rest (h : PwtInv o items does s) (hl : s.manager = .left) (r : ℕ) :
    Rest (isWorker o r) does (s.view r) := by
  have hidle : isWorker o r → (s.view r).active = false := fun hr =>
    idle_of_workDone (h.left hl) h.active hr.1 hr.2
  have hns : s.manager ≠ .stopped := by
    rw [hl]
    exact fun he => by cases he
  cases h.fits hns r with
  | rest hrest => exact hrest
  | given _ worker active =>
    rw [hidle worker] at active
    cases active
  | busy _ _ _ hb =>
    have hact := hb.active
    rw [hidle hb.worker] at hact
    cases hact

/-- When the manager has left its loop, the queues are empty. -/
theorem PwtInv.queues_empty (h : PwtInv o items does s) (hl : s.manager = .left) (i : ℕ) :
    s.sched.workq i = [] ∧ s.scheduledIn i = s.assignedFrom i := by
  have hdone := h.left hl
  unfold schedulerWorkDone at hdone
  have hempty : s.sched.workq i = [] := by
    by_cases hi : i < o.workqCount
    · exact workq_eq_nil (Bool.and_eq_true_iff.mp hdone).1 hi
    · exact h.queuesEnd i (by omega)
  refine ⟨hempty, ?_⟩
  rw [h.queues i, hempty, List.append_nil]

/-- When the manager leaves its loop, all queues are empty, the items scheduled for a queue have been
assigned from it, the items assigned to a worker have been reported as done by it, and no message
is in flight to or from a worker. -/
theorem manager_left {ls : List (Label W)} (h : exec (pwtStep o items) init ls = some s)
    (hl : s.manager = .left) :
    (∀ i, s.sched.workq i = [] ∧ s.scheduledIn i = s.assignedFrom i) ∧
      ∀ r, s.assignedTo r = (forPeer r s.finished).map Job.item ∧
        s.toWorker r = [] ∧ s.toManager r = [] ∧ (s.worker r).toSend = [] := by
  have hinv : PwtInv o items (fun _ _ => True) s := by
    refine exec_inv (fun s a s' hs hstep => ?_) pwtInv_init h
    refine pwtInv_step s a s' hs ?_ hstep
    cases a <;> first | trivial | exact fun _ _ _ => trivial
  refine ⟨fun i => hinv.queues_empty hl i, fun r => ?_⟩
  have hrest := hinv.rest hl r
  exact ⟨hrest.assigned, hrest.toWorker, hrest.toManager, hrest.toSend⟩

/-- Two workers and two queues: an item sent after a request comes with the work of the other worker,
and an item sent without one before a task and the report of the same worker. -/
theorem manager_left_two_workers : ∃ s,
    exec (pwtStep ⟨3, 2⟩ [(0, 10), (1, 11)]) init
        [.startWork, .poll, .workerReceive 1 [.request 5 20], .workerAct 1, .workerReceive 2 [],
          .workerAct 2, .receive 1, .workerAck 1, .getNewWork, .receive 2, .workerAct 1, .poll,
          .receive 1, .workerReceive 2 [.send 0 30, .task], .workerAct 2, .workerAct 2,
          .workerAct 2, .receive 2, .poll, .receive 2, .receive 2, .workerReceive 1 [],
          .workerAct 1, .receive 1, .poll] = some s ∧
      s.assigned = [⟨1, 1, 11⟩, ⟨0, 2, 10⟩, ⟨1, 2, 20⟩, ⟨0, 1, 30⟩] ∧
      (∀ i, s.sched.workq i = [] ∧ s.scheduledIn i = s.assignedFrom i) ∧
      ∀ r, s.assignedTo r = (forPeer r s.finished).map Job.item ∧
        s.toWorker r = [] ∧ s.toManager r = [] ∧ (s.worker r).toSend = [] := by
  have hrun : ((exec (pwtStep ⟨3, 2⟩ [(0, 10), (1, 11)]) init
      [.startWork, .poll, .workerReceive 1 [.request 5 20], .workerAct 1, .workerReceive 2 [],
        .workerAct 2, .receive 1, .workerAck 1, .getNewWork, .receive 2, .workerAct 1, .poll,
        .receive 1, .workerReceive 2 [.send 0 30, .task], .workerAct 2, .workerAct 2,
        .workerAct 2, .receive 2, .poll, .receive 2, .receive 2, .workerReceive 1 [],
        .workerAct 1, .receive 1, .poll]).any fun s => s.manager = .left ∧
      s.assigned = [⟨1, 1, 11⟩, ⟨0, 2, 10⟩, ⟨1, 2, 20⟩, ⟨0, 1, 30⟩]) = true := by decide +kernel
  obtain ⟨s, hs, hp⟩ := (Option.any_eq_true _ _).mp hrun
  obtain ⟨hl, ha⟩ := of_decide_eq_true hp
  exact ⟨s, hs, ha, manager_left hs hl⟩

end Processes

end MpiToShmem.Pwt
