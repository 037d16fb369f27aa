import Mathlib.Algebra.BigOperators.Group.List.Lemmas
import MpiToShmem.Pwt.Progress

/-!
# What the manager is told

The tasks that a worker sends, and its report at the end of the work for an item, have contents that
the manager deals with when it receives them. The contents go the way of the messages: those of one
worker are received in the order they were sent in.

1. `Work` is the work for an item with these contents, `reportStep` a step with them.
2. `Told`: what the manager has been told by a worker is what was in the work that the worker has
   done, and the first part of that it is doing.
3. `handled_perm`: at the end the manager has been told everything, once.
4. `Ordered`: what came before an item in the work that sent it, the manager is told before it is told
   anything by the work for the item.
-/

namespace MpiToShmem.Pwt

open Kit Fifo

variable {W C : Type}

/-! ## Contents -/

def Action.isTask : Action W → Bool
  | task => true
  | _ => false

/-- A message that the manager runs itself. -/
def ToManager.isRun : ToManager W → Bool
  | task => true
  | workdone _ => true
  | _ => false

/-- The work for an item: what it does, what is in its tasks, in order, and what is in its report. -/
structure Work (W C : Type) where
  acts : List (Action W)
  tasks : List C
  report : C
  tasks_length : tasks.length = acts.countP Action.isTask

def Work.contents (w : Work W C) : List C := w.tasks ++ [w.report]

/-- The processes, with the contents of the messages that a worker has sent or is to send for its
item, and what the manager has dealt with, by worker. -/
structure Reports (W C : Type) where
  procs : Processes W
  contents : ℕ → List C
  handled : List (ℕ × C)

def Reports.init : Reports W C := ⟨Processes.init, fun _ => [], []⟩

/-- One step, with the work that there is for each item; `none` is an item for which it fails. -/
def reportStep (o : Options) (items : List (ℕ × W)) (work : W → Option (Work W C))
    (s : Reports W C) (a : Label W) : Option (Reports W C) := do
  let procs ← pwtStep o items s.procs a
  match a with
  | .workerReceive rank _ =>
    match s.procs.toWorker rank with
    | .work item :: _ =>
      let w ← work item
      return { s with
        procs := procs
        contents := Function.update s.contents rank (s.contents rank ++ w.contents) }
    | _ => return { s with procs := procs }
  | .receive rank =>
    if (s.procs.toManager rank).head?.any ToManager.isRun then
      let (c, contents) ← pop s.contents rank
      return ⟨procs, contents, s.handled ++ [(rank, c)]⟩
    else return { s with procs := procs }
  | _ => return { s with procs := procs }

variable (work : W → Option (Work W C))

/-- The actions of the work for an item. -/
def WorkDoes (item : W) (acts : List (Action W)) : Prop := (work item).map Work.acts = some acts

instance [DecidableEq W] (item : W) (acts : List (Action W)) : Decidable (WorkDoes work item acts) :=
  inferInstanceAs (Decidable (_ = _))

def contentsOf (item : W) : List C := ((work item).map Work.contents).getD []

variable {work} {o : Options} {items : List (ℕ × W)} {s s' : Reports W C}

theorem contentsOf_eq {item : W} {w : Work W C} (h : work item = some w) :
    contentsOf work item = w.contents := by
  unfold contentsOf
  rw [h]
  rfl

theorem Work.length_contents (w : Work W C) :
    w.contents.length = w.acts.countP Action.isTask + 1 := by
  unfold contents
  rw [List.length_append, w.tasks_length, List.length_singleton]

/-- As many messages are run as there are contents. -/
theorem countP_remaining (acts : List (Action W)) (job : Job W) :
    (remaining acts job).countP ToManager.isRun = acts.countP Action.isTask + 1 := by
  unfold remaining
  rw [List.countP_append]
  congr 1
  induction acts with
  | nil => rfl
  | cons a l ih =>
    rw [List.flatMap_cons, List.countP_append, ih, List.countP_cons, Nat.add_comm]
    cases a <;> rfl

namespace Processes

/-- The messages of the work of a rank that the manager has not received. -/
def unheard (s : Processes W) (r : ℕ) : List (ToManager W) := s.toManager r ++ (s.worker r).toSend

end Processes

/-! ## What one worker has told -/

/-- What the manager has been told by a rank, and what it is still to be told. -/
inductive Told (work : W → Option (Work W C)) (s : Reports W C) (r : ℕ) : Prop
  | idle (unheard : s.procs.unheard r = []) (contents : s.contents r = [])
      (handled : forPeer r s.handled =
        (forPeer r s.procs.finished).flatMap fun job => contentsOf work job.item)
  | busy (job : Job W) (w : Work W C) (heard : List (ToManager W)) (hwork : work job.item = some w)
      (acts : w.acts = job.acts) (messages : heard ++ s.procs.unheard r = remaining job.acts job)
      (unheard : s.procs.unheard r ≠ [])
      (contents : s.contents r = w.contents.drop (heard.countP ToManager.isRun))
      (handled : forPeer r s.handled =
        ((forPeer r s.procs.finished).flatMap fun job => contentsOf work job.item) ++
          w.contents.take (heard.countP ToManager.isRun))

theorem Told.congr {r : ℕ} (h : Told work s r) (hunheard : s'.procs.unheard r = s.procs.unheard r)
    (hfinished : forPeer r s'.procs.finished = forPeer r s.procs.finished)
    (hcontents : s'.contents r = s.contents r)
    (hhandled : forPeer r s'.handled = forPeer r s.handled) : Told work s' r := by
  cases h with
  | idle unheard contents handled =>
    exact .idle (hunheard.trans unheard) (hcontents.trans contents)
      (by rw [hhandled, hfinished, handled])
  | busy job w heard hwork acts messages unheard contents handled =>
    exact .busy job w heard hwork acts (by rw [hunheard, messages]) (by rwa [hunheard])
      (hcontents.trans contents) (by rw [hhandled, hfinished, handled])

section Hear

variable {r : ℕ} {m : ToManager W} (h : Told work s r)
  (hhead : s.procs.unheard r = m :: s'.procs.unheard r)

include h hhead

/-- The manager receives an item or a request. -/
theorem Told.hear (hrun : m.isRun = false)
    (hfinished : forPeer r s'.procs.finished = forPeer r s.procs.finished)
    (hcontents : s'.contents r = s.contents r)
    (hhandled : forPeer r s'.handled = forPeer r s.handled) : Told work s' r := by
  cases h with
  | idle unheard =>
    rw [hhead] at unheard
    cases unheard
  | busy job w heard hwork acts messages unheard contents handled =>
    have hcount : (heard ++ [m]).countP ToManager.isRun = heard.countP ToManager.isRun := by
      rw [List.countP_append, List.countP_singleton, hrun]
      rfl
    have hmessages : heard ++ [m] ++ s'.procs.unheard r = remaining job.acts job := by
      rw [List.append_assoc, List.singleton_append, ← hhead, messages]
    refine .busy job w (heard ++ [m]) hwork acts hmessages (fun hnil => ?_) ?_ ?_
    · rw [hnil, List.append_nil] at hmessages
      obtain rfl := List.singleton_inj.mp (List.append_inj_right' hmessages rfl)
      cases hrun
    · rw [hcount, hcontents, contents]
    · rw [hcount, hhandled, hfinished, handled]

variable {c : C} (hcontents : s.contents r = c :: s'.contents r)
  (hhandled : forPeer r s'.handled = forPeer r s.handled ++ [c])

include hcontents hhandled

/-- The manager runs a task. -/
theorem Told.task (hm : m = .task)
    (hfinished : forPeer r s'.procs.finished = forPeer r s.procs.finished) : Told work s' r := by
  cases h with
  | idle unheard =>
    rw [hhead] at unheard
    cases unheard
  | busy job w heard hwork acts messages unheard contents handled =>
    subst hm
    have hcount : (heard ++ [ToManager.task]).countP ToManager.isRun = heard.countP ToManager.isRun + 1 := by
      rw [List.countP_append, List.countP_singleton]
      rfl
    have hmessages : heard ++ [ToManager.task] ++ s'.procs.unheard r = remaining job.acts job := by
      rw [List.append_assoc, List.singleton_append, ← hhead, messages]
    rw [hcontents] at contents
    refine .busy job w (heard ++ [ToManager.task]) hwork acts hmessages (fun hnil => ?_) ?_ ?_
    · rw [hnil, List.append_nil] at hmessages
      cases List.singleton_inj.mp (List.append_inj_right' hmessages rfl)
    · rw [hcount, ← List.tail_drop, ← contents, List.tail_cons]
    · have htake : w.contents.take (heard.countP ToManager.isRun + 1) =
          w.contents.take (heard.countP ToManager.isRun) ++ [c] := by
        rw [List.take_add, ← contents]
        rfl
      rw [hcount, hhandled, hfinished, handled, htake, List.append_assoc]

/-- The manager is told that the work for an item is done. -/
theorem Told.workdone {job : Job W} (hm : m = .workdone job)
    (hfinished : forPeer r s'.procs.finished = forPeer r s.procs.finished ++ [job]) :
    Told work s' r := by
  cases h with
  | idle unheard =>
    rw [hhead] at unheard
    cases unheard
  | busy job' w heard hwork acts messages unheard contents handled =>
    subst hm
    -- the report is the last message
    have hlast : s'.procs.unheard r = [] ∧ job = job' ∧
        heard = job'.acts.flatMap Action.messages := by
      rw [hhead] at messages
      unfold remaining at messages
      rcases List.eq_nil_or_concat (s'.procs.unheard r) with hnil | ⟨l, b, hlb⟩
      · rw [hnil] at messages
        obtain ⟨hheard, hjob⟩ := List.append_inj' messages rfl
        exact ⟨hnil, ToManager.workdone.inj (List.singleton_inj.mp hjob), hheard⟩
      · rw [hlb, List.concat_eq_append, ← List.cons_append, ← List.append_assoc] at messages
        have hmem := (List.append_inj' messages rfl).1
        have hin : ToManager.workdone job ∈ job'.acts.flatMap Action.messages := by
          rw [← hmem]
          exact List.mem_append_right _ List.mem_cons_self
        obtain ⟨a, -, ha⟩ := List.mem_flatMap.mp hin
        cases a <;> simp [Action.messages] at ha
    obtain ⟨hnil, rfl, rfl⟩ := hlast
    have hcount : (job.acts.flatMap Action.messages).countP ToManager.isRun =
        w.acts.countP Action.isTask := by
      have hall := countP_remaining job.acts job
      unfold remaining at hall
      rw [List.countP_append, List.countP_singleton] at hall
      rw [acts]
      exact Nat.succ.inj hall
    rw [hcount, hcontents] at contents
    have hlength := congrArg List.length contents
    rw [List.length_cons, List.length_drop, w.length_contents] at hlength
    refine .idle hnil (List.length_eq_zero_iff.mp (by omega)) ?_
    have hcontent : w.contents = w.contents.take (w.acts.countP Action.isTask) ++ [c] := by
      have hsplit := List.take_append_drop (w.acts.countP Action.isTask) w.contents
      rw [← contents, List.length_eq_zero_iff.mp (show (s'.contents r).length = 0 by omega)] at hsplit
      exact hsplit.symm
    rw [hhandled, hfinished, handled, hcount, List.flatMap_append, List.flatMap_singleton,
      contentsOf_eq hwork, List.append_assoc, ← hcontent]

end Hear

/-- A worker between two items begins with the work for one. -/
theorem Told.begin {r : ℕ} {item : W} {w : Work W C} (h : Told work s r)
    (hidle : s.procs.unheard r = []) (hwork : work item = some w)
    (hmessages : s'.procs.unheard r = remaining w.acts ⟨item, w.acts⟩)
    (hfinished : forPeer r s'.procs.finished = forPeer r s.procs.finished)
    (hcontents : s'.contents r = s.contents r ++ w.contents)
    (hhandled : forPeer r s'.handled = forPeer r s.handled) : Told work s' r := by
  cases h with
  | busy _ _ _ _ _ _ unheard => exact absurd hidle unheard
  | idle unheard contents handled =>
    refine .busy ⟨item, w.acts⟩ w [] hwork rfl hmessages ?_ ?_ ?_
    · rw [hmessages]
      exact remaining_ne_nil _ _
    · rw [hcontents, contents]
      rfl
    · rw [hhandled, hfinished, handled]
      exact (List.append_nil _).symm

/-! ## Steps -/

namespace Processes

variable {p p' : Processes W} {does : W → List (Action W) → Prop}

/-- The steps that neither send the manager anything nor take it. -/
def Quiet (p p' : Processes W) : Prop :=
  (∀ r, p'.unheard r = p.unheard r) ∧ p'.finished = p.finished

theorem quiet_of_eq (hworker : p'.worker = p.worker) (htm : p'.toManager = p.toManager)
    (hfinished : p'.finished = p.finished) : Quiet p p' :=
  ⟨fun r => by unfold unheard; rw [hworker, htm], hfinished⟩

theorem quiet_assign (h : p.assign o = some p') : Quiet p p' := by
  unfold assign at h
  obtain ⟨_, -, rfl⟩ := Option.map_eq_some_iff.mp h
  exact quiet_of_eq rfl rfl rfl

theorem quiet_items (l : List (ℕ × W)) (p : Processes W) :
    Quiet p (l.foldl (fun s q => s.schedule o managerProc q.1 q.2) p) := by
  induction l generalizing p with
  | nil => exact quiet_of_eq rfl rfl rfl
  | cons q l ih => exact ih (p.schedule o managerProc q.1 q.2)

theorem quiet_startWork (h : p.startWork o items = some p') : Quiet p p' := by
  unfold startWork at h
  split at h
  · dsimp only at h
    obtain ⟨hitems, hfin⟩ := @quiet_items W o items p
    split at h
    · rename_i t ha
      obtain rfl := Option.some.inj h
      obtain ⟨hassign, hfin'⟩ := quiet_assign ha
      exact ⟨fun r => (hassign r).trans (hitems r), hfin'.trans hfin⟩
    · obtain rfl := Option.some.inj h
      exact ⟨hitems, hfin⟩
  · cases h

theorem quiet_poll (h : p.poll o = some p') : Quiet p p' := by
  obtain ⟨-, t, -, hassign, hcases⟩ := poll_cases h
  have ht : Quiet p t := by
    rcases hassign with ha | ⟨-, rfl⟩
    · exact quiet_assign ha
    · exact quiet_of_eq rfl rfl rfl
  rcases hcases with ⟨rfl, -⟩ | ⟨rfl, -⟩
  · exact ht
  · exact ht

theorem quiet_workerPoll {rank : ℕ} (h : p.workerPoll o rank = some p') : Quiet p p' := by
  obtain ⟨hw, n, rfl | rfl⟩ := workerPoll_cases h
  · exact quiet_of_eq rfl rfl rfl
  · refine ⟨fun r => ?_, rfl⟩
    unfold unheard setWorker
    dsimp only
    by_cases hr : r = rank
    · rw [hr, Function.update_self, hw]
      rfl
    · rw [Function.update_of_ne hr]

/-- What a worker sends moves on to the manager's channel. -/
theorem quiet_send {rank : ℕ} {m : ToManager W} {w : Worker W} {toWorker : ℕ → List (ToWorker W)}
    (hsend : (p.worker rank).toSend = m :: w.toSend) : Quiet p { p.setWorker rank w with
      toWorker := toWorker
      toManager := push p.toManager rank m } := by
  refine ⟨fun r => ?_, rfl⟩
  unfold unheard setWorker
  dsimp only
  by_cases hr : r = rank
  · rw [hr, Function.update_self, push_apply, if_pos rfl, hsend, List.append_assoc]
    rfl
  · rw [Function.update_of_ne hr, push_apply, if_neg (Ne.symm hr), List.append_nil]

theorem quiet_workerAct {rank : ℕ} (h : p.workerAct rank = some p') : Quiet p p' := by
  obtain ⟨job, rest, m, w, hw, rfl, -, hsend, -⟩ := workerAct_cases h
  exact quiet_send (by rw [hw]; exact hsend)

theorem quiet_workerAck {rank : ℕ} (h : p.workerAck rank = some p') : Quiet p p' := by
  obtain ⟨job, qidx, item, rest, m, toWorker, hw, -, rfl⟩ := workerAck_cases h
  exact quiet_send (by rw [hw]; rfl)

/-- The manager takes a message of one rank. -/
theorem unheard_of_pop {rank : ℕ} {m : ToManager W} {toManager : ℕ → List (ToManager W)}
    (hp : pop p.toManager rank = some (m, toManager)) (hworker : p'.worker = p.worker)
    (htm : p'.toManager = toManager) :
    p.unheard rank = m :: p'.unheard rank ∧ ∀ r, r ≠ rank → p'.unheard r = p.unheard r := by
  obtain ⟨hhead, hother⟩ := pop_spec hp
  unfold unheard
  rw [hworker, htm, hhead]
  exact ⟨rfl, fun r hr => by rw [hother r hr]⟩

/-- A worker with an item on its way to it has nothing to tell. -/
theorem PwtInv.unheard_of_work (h : PwtInv o items does p) (hns : p.manager ≠ .stopped) {rank : ℕ}
    {item : W} {l : List (ToWorker W)} (hhead : p.toWorker rank = .work item :: l) :
    p.unheard rank = [] := by
  have htw : (p.view rank).toWorker = .work item :: l := hhead
  cases h.fits hns rank with
  | rest hr =>
    rw [hr.toWorker] at htw
    cases htw
  | given item' _ _ _ toSend _ toManager =>
    exact List.append_eq_nil_iff.mpr ⟨toManager, toSend⟩
  | busy job next acts hb =>
    have hh := hb.handshake
    unfold View.Handshake at hh
    cases hw : (p.view rank).worker with
    | awaiting _ _ _ _ =>
      rw [hw, htw] at hh
      rcases hh with ⟨he, -⟩ | ⟨he, -⟩ <;> cases he
    | _ =>
      rw [hw, htw] at hh
      cases hh.1

end Processes

namespace Reports

open Processes

variable {does : W → List (Action W) → Prop}

/-- A step of the processes, and what it does to the contents. -/
theorem step_procs {a : Label W} (hs : reportStep o items work s a = some s') :
    pwtStep o items s.procs a = some s'.procs := by
  unfold reportStep at hs
  obtain ⟨procs, hp, hs⟩ := Option.bind_eq_some_iff.mp hs
  rw [hp]
  cases a with
  | workerReceive rank acts =>
    dsimp only at hs
    split at hs
    · obtain ⟨w, -, hs⟩ := Option.bind_eq_some_iff.mp hs
      obtain rfl := Option.some.inj hs
      rfl
    · obtain rfl := Option.some.inj hs
      rfl
  | receive rank =>
    dsimp only at hs
    split_ifs at hs
    · obtain ⟨_, -, hs⟩ := Option.bind_eq_some_iff.mp hs
      obtain rfl := Option.some.inj hs
      rfl
    · obtain rfl := Option.some.inj hs
      rfl
  | _ =>
    obtain rfl := Option.some.inj hs
    rfl

/-- A message that is not run, and every step but these two, leaves the contents alone. -/
theorem step_contents {a : Label W} (hs : reportStep o items work s a = some s')
    (hreceive : ∀ rank, a = .receive rank →
      (s.procs.toManager rank).head?.any ToManager.isRun = false)
    (hwork : ∀ rank acts, a = .workerReceive rank acts →
      ∀ item l, s.procs.toWorker rank ≠ .work item :: l) :
    s'.contents = s.contents ∧ s'.handled = s.handled := by
  unfold reportStep at hs
  obtain ⟨procs, hp, hs⟩ := Option.bind_eq_some_iff.mp hs
  cases a with
  | workerReceive rank acts =>
    dsimp only at hs
    split at hs
    · rename_i item l heq
      exact absurd heq (hwork rank acts rfl item l)
    · obtain rfl := Option.some.inj hs
      exact ⟨rfl, rfl⟩
  | receive rank =>
    dsimp only at hs
    rw [if_neg (by rw [hreceive rank rfl]; exact Bool.false_ne_true)] at hs
    obtain rfl := Option.some.inj hs
    exact ⟨rfl, rfl⟩
  | _ =>
    obtain rfl := Option.some.inj hs
    exact ⟨rfl, rfl⟩

theorem step_run {rank : ℕ} {m : ToManager W} {l : List (ToManager W)}
    (hs : reportStep o items work s (.receive rank) = some s')
    (hhead : s.procs.toManager rank = m :: l) (hrun : m.isRun = true) :
    ∃ c, pop s.contents rank = some (c, s'.contents) ∧ s'.handled = s.handled ++ [(rank, c)] := by
  unfold reportStep at hs
  obtain ⟨procs, hp, hs⟩ := Option.bind_eq_some_iff.mp hs
  dsimp only at hs
  rw [hhead, if_pos (show (m :: l).head?.any ToManager.isRun = true from hrun)] at hs
  obtain ⟨⟨c, contents⟩, hpop, hs⟩ := Option.bind_eq_some_iff.mp hs
  obtain rfl := Option.some.inj hs
  exact ⟨c, hpop, rfl⟩

theorem step_begin {rank : ℕ} {acts : List (Action W)} {item : W} {l : List (ToWorker W)}
    (hs : reportStep o items work s (.workerReceive rank acts) = some s')
    (hhead : s.procs.toWorker rank = .work item :: l) : ∃ w, work item = some w ∧
      s'.contents = Function.update s.contents rank (s.contents rank ++ w.contents) ∧
      s'.handled = s.handled := by
  unfold reportStep at hs
  obtain ⟨procs, hp, hs⟩ := Option.bind_eq_some_iff.mp hs
  dsimp only at hs
  rw [hhead] at hs
  obtain ⟨w, hw, hs⟩ := Option.bind_eq_some_iff.mp hs
  obtain rfl := Option.some.inj hs
  exact ⟨w, hw, rfl, rfl⟩

theorem told_of_quiet (ht : ∀ r, Told work s r) (hq : Quiet s.procs s'.procs)
    (hc : s'.contents = s.contents ∧ s'.handled = s.handled) (r : ℕ) : Told work s' r :=
  (ht r).congr (hq.1 r) (by rw [hq.2]) (by rw [hc.1]) (by rw [hc.2])

/-- The manager takes a message that it does not run. -/
theorem told_of_hear (ht : ∀ r, Told work s r) {rank : ℕ} {m : ToManager W}
    {toManager : ℕ → List (ToManager W)} (hp : pop s.procs.toManager rank = some (m, toManager))
    (hrun : m.isRun = false) (hworker : s'.procs.worker = s.procs.worker)
    (htm : s'.procs.toManager = toManager) (hfinished : s'.procs.finished = s.procs.finished)
    (hc : s'.contents = s.contents ∧ s'.handled = s.handled) (r : ℕ) : Told work s' r := by
  obtain ⟨hhead, hother⟩ := unheard_of_pop hp hworker htm
  by_cases hr : r = rank
  · rw [hr]
    exact (ht rank).hear hhead hrun (by rw [hfinished]) (by rw [hc.1]) (by rw [hc.2])
  · exact (ht r).congr (hother r hr) (by rw [hfinished]) (by rw [hc.1]) (by rw [hc.2])

theorem told_receive (ht : ∀ r, Told work s r) {rank : ℕ}
    (hs : reportStep o items work s (.receive rank) = some s') (r : ℕ) : Told work s' r := by
  have hstep : s.procs.receive o rank = some s'.procs := step_procs hs
  have hworker := (receive_frame hstep).1
  obtain ⟨-, m, toManager, hp, htakes⟩ := receive_cases hstep
  have hhead := (pop_spec hp).1
  have hquiet : m.isRun = false → s'.contents = s.contents ∧ s'.handled = s.handled := by
    intro hrun
    refine step_contents hs (fun rank' hr => ?_) fun _ _ hr => by cases hr
    obtain rfl := Label.receive.inj hr
    rw [hhead]
    exact hrun
  cases m with
  | request qidx =>
    exact told_of_hear ht hp rfl hworker (by rw [htakes]) (by rw [htakes]) (hquiet rfl) r
  | work qidx item =>
    exact told_of_hear ht hp rfl hworker (by rw [htakes]; rfl) (by rw [htakes]; rfl) (hquiet rfl) r
  | task =>
    obtain ⟨c, hpop, hhandled⟩ := step_run hs hhead rfl
    obtain ⟨hcontent, hothers⟩ := pop_spec hpop
    obtain ⟨hheard, hother⟩ := unheard_of_pop hp hworker (by rw [htakes])
    have hfinished : s'.procs.finished = s.procs.finished := by rw [htakes]
    by_cases hr : r = rank
    · rw [hr]
      refine (ht rank).task hheard hcontent ?_ rfl (by rw [hfinished])
      rw [hhandled, forPeer_concat, if_pos rfl]
    · refine (ht r).congr (hother r hr) (by rw [hfinished]) (hothers r hr) ?_
      rw [hhandled, forPeer_concat, if_neg (Ne.symm hr), List.append_nil]
  | workdone job =>
    obtain ⟨c, hpop, hhandled⟩ := step_run hs hhead rfl
    obtain ⟨hcontent, hothers⟩ := pop_spec hpop
    obtain ⟨hheard, hother⟩ := unheard_of_pop hp hworker (by rw [htakes])
    have hfinished : s'.procs.finished = s.procs.finished ++ [(rank, job)] := by rw [htakes]
    by_cases hr : r = rank
    · rw [hr]
      refine (ht rank).workdone hheard hcontent ?_ rfl ?_
      · rw [hhandled, forPeer_concat, if_pos rfl]
      · rw [hfinished, forPeer_concat, if_pos rfl]
    · refine (ht r).congr (hother r hr) ?_ (hothers r hr) ?_
      · rw [hfinished, forPeer_concat, if_neg (Ne.symm hr), List.append_nil]
      · rw [hhandled, forPeer_concat, if_neg (Ne.symm hr), List.append_nil]

theorem told_workerReceive (hinv : PwtInv o items does s.procs) (hns : s.procs.manager ≠ .stopped)
    (ht : ∀ r, Told work s r) {rank : ℕ} {acts : List (Action W)}
    (ha : (Label.workerReceive rank acts).Does (WorkDoes work) s.procs)
    (hs : reportStep o items work s (.workerReceive rank acts) = some s') (r : ℕ) :
    Told work s' r := by
  obtain ⟨hw, m, toWorker, hp, hcases⟩ := workerReceive_cases (step_procs hs)
  have hhead := (pop_spec hp).1
  obtain ⟨item, rfl, -⟩ := (hinv.fits hns rank).take hw hhead
  obtain ⟨_, he, hprocs⟩ | ⟨he, -⟩ := hcases
  · obtain rfl := ToWorker.work.inj he
    obtain ⟨w, hwork, hcontents, hhandled⟩ := step_begin hs hhead
    have hacts : w.acts = acts := by
      have hdoes := ha item _ hhead
      unfold WorkDoes at hdoes
      rw [hwork] at hdoes
      exact Option.some.inj hdoes
    subst hacts
    have hidle := hinv.unheard_of_work hns hhead
    have hfinished : s'.procs.finished = s.procs.finished := by rw [hprocs]; rfl
    by_cases hr : r = rank
    · rw [hr]
      refine (ht rank).begin hidle hwork ?_ (by rw [hfinished]) ?_ (by rw [hhandled])
      · rw [hprocs]
        show s.procs.toManager rank ++ (Function.update s.procs.worker rank _ rank).toSend = _
        rw [Function.update_self, (List.append_eq_nil_iff.mp hidle).1]
        rfl
      · rw [hcontents, Function.update_self]
    · refine (ht r).congr ?_ (by rw [hfinished]) ?_ (by rw [hhandled])
      · rw [hprocs]
        show s.procs.toManager r ++ (Function.update s.procs.worker rank _ r).toSend = _
        rw [Function.update_of_ne hr]
        rfl
      · rw [hcontents, Function.update_of_ne hr]
  · cases he

/-- Before `stop`, what each worker has told is as its work says. -/
theorem told_step (hinv : PwtInv o items (WorkDoes work) s.procs)
    (ht : s.procs.manager ≠ .stopped → ∀ r, Told work s r) {a : Label W}
    (ha : a.Does (WorkDoes work) s.procs) (hs : reportStep o items work s a = some s')
    (hns' : s'.procs.manager ≠ .stopped) : ∀ r, Told work s' r := by
  have hns : s.procs.manager ≠ .stopped := by
    intro hstop
    have hover : s.procs.manager.over := by
      rw [hstop]
      rfl
    rcases (step_over hover (step_procs hs)).1 with hm | hm
    · exact hns' (hm.trans hstop)
    · exact hns' hm
  replace ht := ht hns
  have hquiet : (∀ rank, a ≠ .receive rank) → (∀ rank acts, a ≠ .workerReceive rank acts) →
      s'.contents = s.contents ∧ s'.handled = s.handled := fun h h' =>
    step_contents hs (fun rank he => absurd he (h rank)) fun rank acts he => absurd he (h' rank acts)
  have hstep := step_procs hs
  cases a with
  | receive rank => exact told_receive ht hs
  | workerReceive rank acts => exact told_workerReceive hinv hns ht ha hs
  | startWork => exact told_of_quiet ht (quiet_startWork hstep) (hquiet (by simp) (by simp))
  | poll => exact told_of_quiet ht (quiet_poll hstep) (hquiet (by simp) (by simp))
  | getNewWork =>
    obtain ⟨rank, _, _, _, _, -, hp, hprocs⟩ := getNewWork_cases hstep
    exact told_of_hear ht hp rfl (getNewWork_frame hstep).1 (by rw [hprocs]; rfl)
      (by rw [hprocs]; rfl) (hquiet (by simp) (by simp))
  | stop =>
    obtain ⟨-, hprocs⟩ := Processes.stop_cases hstep
    rw [hprocs] at hns'
    exact absurd rfl hns'
  | workerPoll rank => exact told_of_quiet ht (quiet_workerPoll hstep) (hquiet (by simp) (by simp))
  | workerAct rank => exact told_of_quiet ht (quiet_workerAct hstep) (hquiet (by simp) (by simp))
  | workerAck rank => exact told_of_quiet ht (quiet_workerAck hstep) (hquiet (by simp) (by simp))

/-! ## The order of what is told -/

/-- An item of the start, or one whose sender has told all that came before it. -/
def Origin (items : List (ℕ × W)) (work : W → Option (Work W C)) (told : List C) (item : W) : Prop :=
  item ∈ items.map Prod.snd ∨ ∃ (job : Job W) (w : Work W C) (heard : List (ToManager W)) (qidx : ℕ)
    (rest : List (ToManager W)), work job.item = some w ∧ w.acts = job.acts ∧
    remaining job.acts job = heard ++ .work qidx item :: rest ∧
    ∀ c ∈ w.contents.take (heard.countP ToManager.isRun), c ∈ told

theorem Origin.mono {told told' : List C} {item : W} (h : Origin items work told item)
    (hsub : told ⊆ told') : Origin items work told' item := by
  rcases h with h | ⟨job, w, heard, qidx, rest, hwork, hacts, hmessages, hall⟩
  · exact Or.inl h
  · exact Or.inr ⟨job, w, heard, qidx, rest, hwork, hacts, hmessages, fun c hc => hsub (hall c hc)⟩

/-- Nothing is told by the work for an item before what its sender told before the item. -/
structure Ordered (items : List (ℕ × W)) (work : W → Option (Work W C)) (s : Reports W C) :
    Prop where
  scheduled : s.procs.manager ≠ .stopped →
    ∀ e ∈ s.procs.scheduled, Origin items work (s.handled.map Prod.snd) e.item
  handled : ∀ l r c m, s.handled = l ++ (r, c) :: m →
    ∃ item w, work item = some w ∧ c ∈ w.contents ∧ Origin items work (l.map Prod.snd) item

/-- What a rank has told is among what the manager was told. -/
theorem mem_handled {r : ℕ} {c : C} {l m : List C} (h : forPeer r s.handled = l ++ m) (hc : c ∈ m) :
    c ∈ s.handled.map Prod.snd := by
  have hmem : c ∈ forPeer r s.handled := by
    rw [h]
    exact List.mem_append_right _ hc
  exact List.mem_map.mpr ⟨(r, c), mem_forPeer.mp hmem, rfl⟩

/-- An item that the manager receives. -/
theorem origin_of_work (ht : ∀ r, Told work s r) {rank qidx : ℕ} {item : W}
    {l : List (ToManager W)} (hhead : s.procs.toManager rank = .work qidx item :: l) :
    Origin items work (s.handled.map Prod.snd) item := by
  have hunheard : s.procs.unheard rank = .work qidx item :: (l ++ (s.procs.worker rank).toSend) := by
    unfold unheard
    rw [hhead]
    rfl
  cases ht rank with
  | idle unheard =>
    rw [hunheard] at unheard
    cases unheard
  | busy job w heard hwork acts messages _ _ handled =>
    rw [hunheard] at messages
    exact Or.inr ⟨job, w, heard, qidx, _, hwork, acts, messages.symm,
      fun c hc => mem_handled handled hc⟩

/-- The item that a worker is at was assigned to it. -/
theorem assigned_of_busy (hinv : PwtInv o items does s.procs) (hns : s.procs.manager ≠ .stopped)
    {rank : ℕ} {job : Job W} {heard : List (ToManager W)}
    (messages : heard ++ s.procs.unheard rank = remaining job.acts job)
    (hne : s.procs.unheard rank ≠ []) : ∃ a ∈ s.procs.assigned, a.item = job.item := by
  have hlast : (s.procs.unheard rank).getLast? = some (.workdone job) := by
    have hall := congrArg List.getLast? messages
    rw [List.getLast?_append_of_ne_nil _ hne] at hall
    rw [hall]
    unfold remaining
    exact List.getLast?_concat
  have hbusy : ∃ job' next acts, Busy (isWorker o rank) does (s.procs.view rank) job' next acts := by
    by_cases htm : s.procs.toManager rank = []
    · refine (hinv.fits hns rank).busy_of_toSend fun hsend => hne ?_
      exact List.append_eq_nil_iff.mpr ⟨htm, hsend⟩
    · exact (hinv.fits hns rank).busy_of_toManager htm
  obtain ⟨job', next, acts, hb⟩ := hbusy
  have hjob : job' = job := by
    have hmsg : s.procs.unheard rank = _ := hb.messages
    rw [hmsg, List.getLast?_append_of_ne_nil _ (remaining_ne_nil acts job')] at hlast
    unfold remaining at hlast
    rw [List.getLast?_concat] at hlast
    exact ToManager.workdone.inj (Option.some.inj hlast)
  have hmem : job.item ∈ s.procs.assignedTo rank := by
    have hassigned : s.procs.assignedTo rank = _ := hb.assigned
    rw [hassigned, hjob]
    exact List.mem_append_right _ (List.mem_singleton_self _)
  obtain ⟨a, ha, hae⟩ := List.mem_map.mp (mem_forPeer.mp hmem)
  exact ⟨a, ha, (Prod.mk.inj hae).2⟩

/-- What the manager runs comes from the work for an item that has its origin. -/
theorem origin_of_run (hinv : PwtInv o items does s.procs) (hns : s.procs.manager ≠ .stopped)
    (ht : ∀ r, Told work s r) (hord : Ordered items work s) {rank : ℕ} {c : C}
    (hc : ∃ l, s.contents rank = c :: l) (hne : s.procs.unheard rank ≠ []) :
    ∃ item w, work item = some w ∧ c ∈ w.contents ∧
      Origin items work (s.handled.map Prod.snd) item := by
  cases ht rank with
  | idle unheard => exact absurd unheard hne
  | busy job w heard hwork acts messages _ contents _ =>
    obtain ⟨l, hl⟩ := hc
    obtain ⟨a, ha, hae⟩ := assigned_of_busy hinv hns messages hne
    obtain ⟨e, he, hea⟩ := hinv.assigned_scheduled ha
    have hmem : c ∈ w.contents.drop (heard.countP ToManager.isRun) := by
      rw [← contents, hl]
      exact List.mem_cons_self
    refine ⟨job.item, w, hwork, List.mem_of_mem_drop hmem, ?_⟩
    · rw [← hae, ← hea]
      exact hord.scheduled hns e he

/-- Of a list with one more entry, a split before an entry is one of the list, or that at its end. -/
theorem split_concat {α : Type*} {l l' m : List α} {a b : α} (h : l ++ [a] = l' ++ b :: m) :
    (l' = l ∧ b = a) ∨ ∃ m', l = l' ++ b :: m' := by
  rcases List.eq_nil_or_concat m with rfl | ⟨m', d, rfl⟩
  · obtain ⟨hl, hab⟩ := List.append_inj' h rfl
    exact Or.inl ⟨hl.symm, (List.singleton_inj.mp hab).symm⟩
  · rw [List.concat_eq_append, ← List.cons_append, ← List.append_assoc] at h
    exact Or.inr ⟨m', (List.append_inj' h rfl).1⟩

theorem Ordered.concat (hord : Ordered items work s) {r : ℕ} {c : C}
    (hnew : ∃ item w, work item = some w ∧ c ∈ w.contents ∧
      Origin items work (s.handled.map Prod.snd) item)
    (hhandled : s'.handled = s.handled ++ [(r, c)]) (l : List (ℕ × C)) (r' : ℕ) (c' : C)
    (m : List (ℕ × C)) (h : s'.handled = l ++ (r', c') :: m) :
    ∃ item w, work item = some w ∧ c' ∈ w.contents ∧ Origin items work (l.map Prod.snd) item := by
  rcases split_concat (hhandled ▸ h : s.handled ++ [(r, c)] = l ++ (r', c') :: m) with
    ⟨rfl, he⟩ | ⟨m', hm'⟩
  · rw [(Prod.mk.inj he).2]
    exact hnew
  · exact hord.handled l r' c' m' hm'

theorem ordered_receive (hinv : PwtInv o items does s.procs) (ht : ∀ r, Told work s r)
    (hord : Ordered items work s) {rank : ℕ}
    (hs : reportStep o items work s (.receive rank) = some s') : Ordered items work s' := by
  have hstep : s.procs.receive o rank = some s'.procs := step_procs hs
  obtain ⟨hrun, m, toManager, hp, htakes⟩ := receive_cases hstep
  have hns := (of_running hrun rank).1
  have hhead := (pop_spec hp).1
  have hquiet : m.isRun = false → s'.contents = s.contents ∧ s'.handled = s.handled := by
    intro hrun
    refine step_contents hs (fun rank' hr => ?_) fun _ _ hr => by cases hr
    obtain rfl := Label.receive.inj hr
    rw [hhead]
    exact hrun
  have hran : m.isRun = true → s'.procs.scheduled = s.procs.scheduled → Ordered items work s' := by
    intro hisRun hscheduled
    obtain ⟨c, hpop, hhandled⟩ := step_run hs hhead hisRun
    have hnew := origin_of_run hinv hns ht hord ⟨_, (pop_spec hpop).1⟩
      (by unfold unheard; rw [hhead]; exact List.cons_ne_nil _ _)
    refine ⟨fun _ e he => ?_, hord.concat hnew hhandled⟩
    rw [hscheduled] at he
    refine (hord.scheduled hns e he).mono ?_
    rw [hhandled, List.map_append]
    exact List.subset_append_left _ _
  cases m with
  | request qidx =>
    obtain ⟨-, hh⟩ := hquiet rfl
    refine ⟨fun _ e he => ?_, by rw [hh]; exact hord.handled⟩
    rw [htakes] at he
    rw [hh]
    exact hord.scheduled hns e he
  | work qidx item =>
    obtain ⟨-, hh⟩ := hquiet rfl
    refine ⟨fun _ e he => ?_, by rw [hh]; exact hord.handled⟩
    rw [htakes] at he
    rw [hh]
    rcases List.mem_append.mp he with he | he
    · exact hord.scheduled hns e he
    · rw [List.mem_singleton.mp he]
      exact origin_of_work ht hhead
  | task => exact hran rfl (by rw [htakes])
  | workdone job => exact hran rfl (by rw [htakes])

/-- Before `stop`, the order is kept by every step. -/
theorem ordered_step (hinv : PwtInv o items does s.procs)
    (ht : s.procs.manager ≠ .stopped → ∀ r, Told work s r) (hord : Ordered items work s)
    {a : Label W} (hs : reportStep o items work s a = some s') : Ordered items work s' := by
  have hstep := step_procs hs
  have hsame : s'.handled = s.handled →
      (s'.procs.manager ≠ .stopped → s.procs.manager ≠ .stopped ∧ ∀ e ∈ s'.procs.scheduled,
        e ∈ s.procs.scheduled ∨ Origin items work (s.handled.map Prod.snd) e.item) →
      Ordered items work s' := by
    intro hh hsch
    refine ⟨fun hns' e he => ?_, by rw [hh]; exact hord.handled⟩
    obtain ⟨hns, hall⟩ := hsch hns'
    rw [hh]
    rcases hall e he with he | he
    · exact hord.scheduled hns e he
    · exact he
  have hquiet : (∀ rank, a ≠ .receive rank) → (∀ rank acts, a ≠ .workerReceive rank acts) →
      s'.handled = s.handled := fun h h' =>
    (step_contents hs (fun rank he => absurd he (h rank))
      fun rank acts he => absurd he (h' rank acts)).2
  -- a worker schedules nothing
  have hworker : ∀ {t : Processes W}, s'.procs = t → t.manager = s.procs.manager →
      t.scheduled = s.procs.scheduled → s'.handled = s.handled → Ordered items work s' := by
    rintro t rfl hm hsch hh
    exact hsame hh fun hns => ⟨hm ▸ hns, fun e he => Or.inl (hsch ▸ he)⟩
  cases a with
  | receive rank =>
    obtain ⟨hrun, -⟩ := receive_cases hstep
    exact ordered_receive hinv (ht (of_running hrun rank).1) hord hs
  | startWork =>
    refine hsame (hquiet (by simp) (by simp)) fun hns => ⟨fun hm => ?_, fun e he => ?_⟩
    · dsimp only [pwtStep, startWork] at hstep
      rw [hm] at hstep
      cases hstep
    · rcases (startWork_frame hstep).2 e he with he | ⟨p, hp, he⟩
      · exact Or.inl he
      · exact Or.inr (Or.inl (he ▸ List.mem_map_of_mem hp))
  | poll =>
    obtain ⟨hrun, -⟩ := poll_cases hstep
    refine hsame (hquiet (by simp) (by simp)) fun _ => ⟨(of_running hrun 0).1, fun e he => ?_⟩
    exact Or.inl ((poll_frame hstep).2 ▸ he)
  | getNewWork =>
    obtain ⟨rank, qidx, q, item, toManager, hm, hp, hprocs⟩ := getNewWork_cases hstep
    have hns : s.procs.manager ≠ .stopped := by
      rw [hm]
      exact fun he => by cases he
    refine hsame (hquiet (by simp) (by simp)) fun _ => ⟨hns, fun e he => ?_⟩
    rw [hprocs] at he
    rcases List.mem_append.mp he with he | he
    · exact Or.inl he
    · rw [List.mem_singleton.mp he]
      exact Or.inr (origin_of_work (ht hns) (pop_spec hp).1)
  | stop =>
    obtain ⟨-, hprocs⟩ := Processes.stop_cases hstep
    refine hsame (hquiet (by simp) (by simp)) fun hns => ?_
    rw [hprocs] at hns
    exact absurd rfl hns
  | workerPoll rank =>
    obtain ⟨-, n, hprocs | hprocs⟩ := workerPoll_cases hstep <;>
      exact hworker hprocs rfl rfl (hquiet (by simp) (by simp))
  | workerReceive rank acts =>
    obtain ⟨-, m, toWorker, hp, hcases⟩ := workerReceive_cases hstep
    have hhandled : s'.handled = s.handled := by
      cases m with
      | work item =>
        obtain ⟨_, -, -, hh⟩ := step_begin hs (pop_spec hp).1
        exact hh
      | _ =>
        refine (step_contents hs (fun _ he => by cases he) fun r _ he item l hl => ?_).2
        obtain ⟨rfl, -⟩ := Label.workerReceive.inj he
        rw [(pop_spec hp).1] at hl
        cases (List.cons.inj hl).1
    rcases hcases with ⟨_, -, hprocs⟩ | ⟨-, hprocs⟩ <;>
      exact hworker hprocs rfl rfl hhandled
  | workerAct rank =>
    obtain ⟨_, _, _, _, -, hprocs, -⟩ := workerAct_cases hstep
    exact hworker hprocs rfl rfl (hquiet (by simp) (by simp))
  | workerAck rank =>
    obtain ⟨_, _, _, _, _, _, -, -, hprocs⟩ := workerAck_cases hstep
    exact hworker hprocs rfl rfl (hquiet (by simp) (by simp))

/-! ## Runs -/

/-- The guard of a run: the work for an item is what `work` says. -/
def Does (work : W → Option (Work W C)) (s : Reports W C) (a : Label W) : Prop :=
  a.Does (WorkDoes work) s.procs

instance [DecidableEq W] (s : Reports W C) (a : Label W) : Decidable (Does work s a) :=
  inferInstanceAs (Decidable (a.Does (WorkDoes work) s.procs))

/-- A run of the processes with contents is one of the processes. -/
theorem exec_procs {ls : List (Label W)} (h : exec (reportStep o items work) s ls = some s')
    (hdoes : Meets (reportStep o items work) (Does work) s ls) :
    exec (pwtStep o items) s.procs ls = some s'.procs ∧
      Meets (pwtStep o items) (Label.Does (WorkDoes work)) s.procs ls := by
  induction ls generalizing s with
  | nil =>
    cases h
    exact ⟨rfl, trivial⟩
  | cons a ls ih =>
    obtain ⟨t, ht, h⟩ := exec_cons_eq_some.mp h
    obtain ⟨hrun, hmeets⟩ := ih h (hdoes.tail ht)
    have hstep := step_procs ht
    refine ⟨exec_cons_eq_some.mpr ⟨_, hstep, hrun⟩, hdoes.head, ?_⟩
    rw [hstep]
    exact hmeets

theorem told_run {ls : List (Label W)} (h : exec (reportStep o items work) init ls = some s)
    (hdoes : Meets (reportStep o items work) (Does work) init ls) :
    PwtInv o items (WorkDoes work) s.procs ∧ (s.procs.manager ≠ .stopped → ∀ r, Told work s r) ∧
      Ordered items work s := by
  refine exec_inv_meets (I := fun s => PwtInv o items (WorkDoes work) s.procs ∧
    (s.procs.manager ≠ .stopped → ∀ r, Told work s r) ∧ Ordered items work s) ?_ ?_ hdoes h
  · rintro s a s' ⟨hinv, ht, hord⟩ ha hs
    exact ⟨pwtInv_step _ a _ hinv ha (step_procs hs), told_step hinv ht ha hs,
      ordered_step hinv ht hord hs⟩
  · refine ⟨pwtInv_init, fun _ r => .idle rfl rfl rfl, fun _ e he => ?_, fun l r c m he => ?_⟩
    · cases he
    · exact absurd he.symm (List.append_ne_nil_of_right_ne_nil _ (List.cons_ne_nil _ _))

/-- At the end of its loop the manager has been told all that was in the work for the items, once. -/
theorem handled_perm (hinv : PwtInv o items does s.procs)
    (ht : s.procs.manager ≠ .stopped → ∀ r, Told work s r) (hl : s.procs.manager = .left) :
    (s.handled.map Prod.snd).Perm
      (s.procs.finished.flatMap fun f => contentsOf work f.2.item) := by
  have hpeer : s.handled.Perm
      (s.procs.finished.flatMap fun f => (contentsOf work f.2.item).map (Prod.mk f.1)) := by
    refine perm_of_forPeer fun r => ?_
    rw [forPeer_flatMap fun job : Job W => contentsOf work job.item]
    have hrest := hinv.rest hl r
    cases ht (by rw [hl]; exact fun he => by cases he) r with
    | idle _ _ handled => exact handled
    | busy _ _ _ _ _ _ unheard =>
      exact absurd (List.append_eq_nil_iff.mpr ⟨hrest.toManager, hrest.toSend⟩) unheard
  have hall := hpeer.map Prod.snd
  rw [List.map_flatMap] at hall
  simpa [Function.comp_def] using hall

/-- The work that an item was sent in. -/
theorem exists_act {acts : List (Action W)} {job : Job W} {heard rest : List (ToManager W)} {qidx : ℕ}
    {item : W} (h : remaining acts job = heard ++ .work qidx item :: rest) :
    ∃ l a m, acts = l ++ a :: m ∧ item ∈ a.items ∧
      heard.countP ToManager.isRun = l.countP Action.isTask := by
  induction acts generalizing heard with
  | nil =>
    rcases List.append_eq_singleton_iff.mp h.symm with ⟨-, he⟩ | ⟨-, he⟩
    · cases (List.cons.inj he).1
    · cases he
  | cons a acts ih =>
    -- behind the messages of the first action
    have hbehind : ∀ {heard' : List (ToManager W)},
        remaining acts job = heard' ++ .work qidx item :: rest → ∃ l b m, a :: acts = l ++ b :: m ∧
          item ∈ b.items ∧ (a.messages ++ heard').countP ToManager.isRun = l.countP Action.isTask := by
      intro heard' h'
      obtain ⟨l, b, m, rfl, hi, hcount⟩ := ih h'
      refine ⟨a :: l, b, m, rfl, hi, ?_⟩
      rw [List.countP_append, List.countP_cons, hcount, Nat.add_comm]
      cases a <;> rfl
    cases a with
    | request q i =>
      obtain ⟨-, he⟩ | ⟨heard, rfl, h₁⟩ := List.cons_eq_append_iff.mp h
      · cases (List.cons.inj he).1
      · obtain ⟨rfl, he⟩ | ⟨heard, rfl, h₂⟩ := List.cons_eq_append_iff.mp h₁
        · obtain ⟨-, rfl⟩ := ToManager.work.inj (List.cons.inj he).1
          exact ⟨[], _, acts, rfl, List.mem_singleton_self _, rfl⟩
        · exact hbehind h₂
    | send q i =>
      obtain ⟨rfl, he⟩ | ⟨heard, rfl, h₁⟩ := List.cons_eq_append_iff.mp h
      · obtain ⟨-, rfl⟩ := ToManager.work.inj (List.cons.inj he).1
        exact ⟨[], _, acts, rfl, List.mem_singleton_self _, rfl⟩
      · exact hbehind h₁
    | task =>
      obtain ⟨-, he⟩ | ⟨heard, rfl, h₁⟩ := List.cons_eq_append_iff.mp h
      · cases (List.cons.inj he).1
      · exact hbehind h₁

/-- An item whose work tells the manager something is one of the start, or the manager was told before
all that the work for another item tells before it sends this one. -/
theorem Ordered.told_before (hord : Ordered items work s) {r : ℕ} {c : C} {l m : List (ℕ × C)}
    (h : s.handled = l ++ (r, c) :: m) : ∃ item w, work item = some w ∧ c ∈ w.contents ∧
      (item ∈ items.map Prod.snd ∨ ∃ sender w' l' a m', work sender = some w' ∧
        w'.acts = l' ++ a :: m' ∧ item ∈ a.items ∧
          ∀ c ∈ w'.tasks.take (l'.countP Action.isTask), c ∈ l.map Prod.snd) := by
  obtain ⟨item, w, hw, hc, horigin⟩ := hord.handled l r c m h
  refine ⟨item, w, hw, hc, horigin.imp_right ?_⟩
  rintro ⟨job, w', heard, qidx, rest, hw', hacts, hmessages, htold⟩
  obtain ⟨l', a, m', hl', hi, hcount⟩ := exists_act hmessages
  refine ⟨job.item, w', l', a, m', hw', hacts.trans hl', hi, fun c' hc' => htold c' ?_⟩
  have hle : l'.countP Action.isTask ≤ w'.tasks.length := by
    rw [w'.tasks_length, hacts, hl', List.countP_append]
    exact Nat.le_add_right _ _
  unfold Work.contents
  rw [hcount, List.take_append_of_le_length hle]
  exact hc'

/-- At the end of its loop the manager has been told by each worker what there was in the work that it
did, once and in its order. And in every run, an item whose work tells the manager something is one of
the start, or the manager was told before what the work for another item tells before it sends it. -/
theorem told_in_order {ls : List (Label W)} (h : exec (reportStep o items work) init ls = some s)
    (hdoes : Meets (reportStep o items work) (Does work) init ls) :
    (s.procs.manager = .left → ∀ r, forPeer r s.handled =
      (forPeer r s.procs.finished).flatMap fun job => contentsOf work job.item) ∧
    ∀ l r c m, s.handled = l ++ (r, c) :: m → ∃ item w, work item = some w ∧ c ∈ w.contents ∧
      (item ∈ items.map Prod.snd ∨ ∃ sender w' l' a m', work sender = some w' ∧
        w'.acts = l' ++ a :: m' ∧ item ∈ a.items ∧
          ∀ c ∈ w'.tasks.take (l'.countP Action.isTask), c ∈ l.map Prod.snd) := by
  obtain ⟨hinv, ht, hord⟩ := told_run h hdoes
  refine ⟨fun hl r => ?_, fun l r c m he => hord.told_before he⟩
  have hrest := hinv.rest hl r
  cases ht (by rw [hl]; exact fun he => by cases he) r with
  | idle _ _ handled => exact handled
  | busy _ _ _ _ _ _ unheard =>
    exact absurd (List.append_eq_nil_iff.mpr ⟨hrest.toManager, hrest.toSend⟩) unheard

/-- Work that tells its number in a task, sends the next smaller one and reports its number. -/
def tellingCountdown (n : ℕ) : Option (Work ℕ ℕ) :=
  if n = 0 then some ⟨[], [], 0, rfl⟩ else some ⟨[.task, .request 0 (n - 1)], [n], n, rfl⟩

theorem told_in_order_countdown : ∃ s, exec (reportStep ⟨2, 1⟩ [(0, 1)] tellingCountdown) init
    [.startWork, .workerReceive 1 [.task, .request 0 0], .workerAct 1, .receive 1, .workerAct 1,
      .receive 1, .workerAck 1, .getNewWork, .workerAct 1, .receive 1, .poll, .workerReceive 1 [],
      .workerAct 1, .receive 1, .poll] = some s ∧
    forPeer 1 s.handled =
      (forPeer 1 s.procs.finished).flatMap fun job => contentsOf tellingCountdown job.item := by
  have hrun : ((exec (reportStep ⟨2, 1⟩ [(0, 1)] tellingCountdown) init
      [.startWork, .workerReceive 1 [.task, .request 0 0], .workerAct 1, .receive 1, .workerAct 1,
        .receive 1, .workerAck 1, .getNewWork, .workerAct 1, .receive 1, .poll, .workerReceive 1 [],
        .workerAct 1, .receive 1, .poll]).any fun s => s.procs.manager = .left) = true := by decide +kernel
  obtain ⟨s, hs, hl⟩ := (Option.any_eq_true _ _).mp hrun
  exact ⟨s, hs, (told_in_order hs (by decide +kernel)).1 (of_decide_eq_true hl) 1⟩

end Reports

/-! ## What adds up -/

section Sums

variable {M : Type*} [AddCancelCommMonoid M] {due made : W → M}

/-- Where the work for an item makes what is due for it, less what is due for the items it sends, all
that was made is what was due for the items of the start. -/
theorem Processes.PwtInv.sum_finished {p : Processes W} {does : W → List (Action W) → Prop}
    (h : Processes.PwtInv o items does p) (hl : p.manager = .left)
    (hjobs : ∀ f ∈ p.finished, made f.2.item + (f.2.sends.map due).sum = due f.2.item) :
    (p.finished.map fun f => made f.2.item).sum = ((items.map Prod.snd).map due).sum := by
  have hperm := ((h.finished_perm hl).map due).sum_eq
  rw [List.map_append, List.sum_append, List.map_flatMap, List.flatMap_def, List.sum_flatten] at hperm
  -- what is due for the items sent is on both sides
  refine add_right_cancel (b := (p.finished.map fun f => (f.2.sends.map due).sum).sum) ?_
  rw [← List.sum_map_add, List.map_congr_left hjobs]
  simpa [Function.comp_def] using hperm

/-- What the manager has been told at the end of its loop adds up to what was due for the items of the
start. -/
theorem Reports.sum_handled {P : W → Prop} {g : C → M} {ls : List (Label W)}
    (hitems : ∀ p ∈ items, P p.2)
    (hwork : ∀ item w, P item → work item = some w →
      (w.contents.map g).sum + ((w.acts.flatMap Action.items).map due).sum = due item ∧
        ∀ item' ∈ w.acts.flatMap Action.items, P item')
    (h : exec (reportStep o items work) Reports.init ls = some s)
    (hdoes : Meets (reportStep o items work) (Reports.Does work) Reports.init ls)
    (hl : s.procs.manager = .left) :
    ((s.handled.map Prod.snd).map g).sum = ((items.map Prod.snd).map due).sum := by
  obtain ⟨hinv, ht, -⟩ := Reports.told_run h hdoes
  obtain ⟨hrun, hmeets⟩ := Reports.exec_procs h hdoes
  have hpass : Processes.PwtInv o items (WorkDoes work) s.procs ∧ s.procs.Passed P := by
    refine exec_inv_meets (I := fun p => Processes.PwtInv o items (WorkDoes work) p ∧ p.Passed P)
      (Processes.passed_step hitems ?_) ⟨Processes.pwtInv_init, fun _ e he => (by cases he)⟩ hmeets
      hrun
    intro job hjob hP item hi
    obtain ⟨w, hw, hacts⟩ := Option.map_eq_some_iff.mp hjob
    refine (hwork job.item w hP hw).2 item ?_
    rw [hacts]
    exact hi
  rw [((Reports.handled_perm hinv ht hl).map g).sum_eq, List.map_flatMap, List.flatMap_def,
    List.sum_flatten, List.map_map]
  refine Eq.trans (congrArg List.sum (List.map_congr_left fun f hf => ?_))
    (@Processes.PwtInv.sum_finished _ _ _ _ _ _ (fun item => ((contentsOf work item).map g).sum) _ _
      hinv hl fun f hf => ?_)
  · rfl
  · obtain ⟨w, hw, hacts⟩ := Option.map_eq_some_iff.mp (hinv.finished_does hl hf)
    rw [contentsOf_eq hw]
    have heq := (hwork f.2.item w (Processes.finished_passed hpass hl hf) hw).1
    rw [hacts] at heq
    exact heq

end Sums

end MpiToShmem.Pwt
