import MpiToShmem.Kit.Runs
import MpiToShmem.Pwt.Scheduler

/-!
# The manager and its workers

The manager schedules and assigns work items; a worker that does an item can send further items,
each after a request that the manager acknowledges, and says at the end that it is done. An item
travels as one message on the channel of its sender and receiver: its size and its body follow each
other there.

1. `startWork`, `poll`, `receive`, `getNewWork` and `stop` are `manager_run` and `manager_fini`.
2. `workerPoll`, `workerReceive`, `workerAct` and `workerAck` are `worker_run` with the work it does.
3. `pwtStep` interleaves them. What the work does is any relation between an item and its actions.
-/

namespace MpiToShmem.Pwt

open Kit Fifo

variable {W : Type}

/-! ## Work -/

/-- What a work function does: send an item after `worker_sendrequest`, send an item at once, or
send a task that the manager runs itself and that leaves its scheduler alone. -/
inductive Action (W : Type) where
  | request (qidx : ℕ) (item : W)
  | send (qidx : ℕ) (item : W)
  | task
deriving DecidableEq

/-- An item with what was done for it. -/
structure Job (W : Type) where
  item : W
  acts : List (Action W)
deriving DecidableEq

/-- A message to the manager; `workdone` has the job it is about. -/
inductive ToManager (W : Type) where
  | request (qidx : ℕ)
  | work (qidx : ℕ) (item : W)
  | task
  | workdone (job : Job W)

/-- A message to a worker. -/
inductive ToWorker (W : Type) where
  | work (item : W)
  | ack
  | exit

/-! ## Processes -/

/-- The manager: before its first item, in the loop of `manager_run`, in `scheduler_ackwork` after
the acknowledgement, at the end of the loop, after `scheduler_stop_processes`, or without work to
start. -/
inductive Manager where
  | start
  | running
  | awaiting (rank qidx : ℕ)
  | left
  | stopped
  | failed
deriving DecidableEq

/-- A worker: in its message loop, at the work for an item, in `worker_sendrequest` with the item to
send after it, out of `worker_run` on its poll count, or after the exit item. -/
inductive Worker (W : Type) where
  | polling
  | working (job : Job W) (rest : List (Action W))
  | awaiting (job : Job W) (qidx : ℕ) (item : W) (rest : List (Action W))
  | returned
  | exited
deriving DecidableEq

/-- An item that was put into a queue, with the process it came from. -/
structure Scheduled (W : Type) where
  source : ℕ
  queue : ℕ
  item : W

/-- All processes with the messages between them; `scheduled`, `assigned` and `finished` record what
the manager has put into its queues, sent to a worker, and heard to be done. -/
structure Processes (W : Type) where
  manager : Manager
  sched : Scheduler W
  worker : ℕ → Worker W
  probecount : ℕ → ℕ
  toManager : ℕ → List (ToManager W)
  toWorker : ℕ → List (ToWorker W)
  scheduled : List (Scheduled W)
  assigned : List (Assignment W)
  finished : List (ℕ × Job W)

namespace Processes

def init : Processes W :=
  ⟨.start, schedulerNew, fun _ => .polling, fun _ => 0, fun _ => [], fun _ => [], [], [], []⟩

variable (o : Options) (s : Processes W)

/-! ## The manager -/

/-- An item joins its queue. -/
def schedule (source qidx : ℕ) (item : W) : Processes W :=
  { s with
    sched := schedulerAddwork o s.sched qidx item
    scheduled := s.scheduled ++ [⟨source, o.queue qidx, item⟩] }

/-- The next item goes to an idle worker. -/
def assign : Option (Processes W) :=
  (schedulerGetwork o s.sched).map fun r =>
    { s with
      sched := r.2
      toWorker := push s.toWorker r.1.rank (.work r.1.item)
      assigned := s.assigned ++ [r.1] }

/-- `startwork`: schedule these items and send out the first. -/
def startWork (items : List (ℕ × W)) : Option (Processes W) :=
  match s.manager with
  | .start =>
    let s := items.foldl (fun s p => s.schedule o managerProc p.1 p.2) s
    match s.assign o with
    | some s => some { s with manager := .running }
    | none => some { s with manager := .failed }
  | _ => none

/-- No message is ready: send more work out, and leave if all is done. -/
def poll : Option (Processes W) :=
  match s.manager with
  | .running =>
    let s := if schedulerCanAssignWork o s.sched then (s.assign o).getD s else s
    some (if schedulerWorkDone o s.sched then { s with manager := .left } else s)
  | _ => none

/-- Receive a message of a worker, and run it or put it into a queue; a request is accepted, since no
queue has a limit. -/
def receive (rank : ℕ) : Option (Processes W) :=
  match s.manager with
  | .running => do
    let (m, toManager) ← pop s.toManager rank
    let s := { s with toManager := toManager }
    match m with
    | .request qidx =>
      return { s with
        manager := .awaiting rank qidx
        toWorker := push s.toWorker rank .ack }
    | .work qidx item => return s.schedule o rank qidx item
    | .task => return s
    | .workdone job =>
      return { s with
        sched := scheduleIdle s.sched rank
        finished := s.finished ++ [(rank, job)] }
  | _ => none

/-- The item that follows an accepted request, for the queue of the request. -/
def getNewWork : Option (Processes W) :=
  match s.manager with
  | .awaiting rank qidx => do
    let (m, toManager) ← pop s.toManager rank
    match m with
    | .work _ item =>
      return { { s with toManager := toManager }.schedule o rank qidx item with manager := .running }
    | _ => none
  | _ => none

def isWorker (rank : ℕ) : Prop := rank ≠ managerProc ∧ rank < o.nproc

instance (rank : ℕ) : Decidable (isWorker o rank) := inferInstanceAs (Decidable (_ ∧ _))

/-- `scheduler_stop_processes`. -/
def stop : Option (Processes W) :=
  match s.manager with
  | .left =>
    some { s with
      manager := .stopped
      toWorker := fun r => if isWorker o r then s.toWorker r ++ [.exit] else s.toWorker r }
  | _ => none

/-! ## Workers -/

def setWorker (rank : ℕ) (w : Worker W) : Processes W :=
  { s with worker := Function.update s.worker rank w }

/-- The poll count at which `worker_run` returns; it is not reset between items. -/
def maxProbes : ℕ := 100

/-- No message is ready. -/
def workerPoll (rank : ℕ) : Option (Processes W) :=
  match s.worker rank with
  | .polling =>
    if isWorker o rank then
      let probecount := s.probecount rank + 1
      let s := { s with probecount := Function.update s.probecount rank probecount }
      some (if maxProbes ≤ probecount then s.setWorker rank .returned else s)
    else none
  | _ => none

/-- Receive an item; its work will do `acts`. -/
def workerReceive (rank : ℕ) (acts : List (Action W)) : Option (Processes W) :=
  match s.worker rank with
  | .polling => do
    let (m, toWorker) ← pop s.toWorker rank
    let s := { s with toWorker := toWorker }
    match m with
    | .work item => return s.setWorker rank (.working ⟨item, acts⟩ acts)
    | .exit => return s.setWorker rank .exited
    | .ack => none
  | _ => none

/-- The next message of the work, or at its end `worker_senddone`. -/
def workerAct (rank : ℕ) : Option (Processes W) :=
  match s.worker rank with
  | .working job (.request qidx item :: rest) =>
    some { s.setWorker rank (.awaiting job qidx item rest) with
      toManager := push s.toManager rank (.request qidx) }
  | .working job (.send qidx item :: rest) =>
    some { s.setWorker rank (.working job rest) with
      toManager := push s.toManager rank (.work qidx item) }
  | .working job (.task :: rest) =>
    some { s.setWorker rank (.working job rest) with toManager := push s.toManager rank .task }
  | .working job [] =>
    some { s.setWorker rank .polling with toManager := push s.toManager rank (.workdone job) }
  | _ => none

/-- Whatever comes from the manager ends `worker_sendrequest`, and the item follows. -/
def workerAck (rank : ℕ) : Option (Processes W) :=
  match s.worker rank with
  | .awaiting job qidx item rest => do
    let (_, toWorker) ← pop s.toWorker rank
    return { s.setWorker rank (.working job rest) with
      toWorker := toWorker
      toManager := push s.toManager rank (.work qidx item) }
  | _ => none

end Processes

/-! ## Steps -/

inductive Label (W : Type) where
  | startWork
  | poll
  | receive (rank : ℕ)
  | getNewWork
  | stop
  | workerPoll (rank : ℕ)
  | workerReceive (rank : ℕ) (acts : List (Action W))
  | workerAct (rank : ℕ)
  | workerAck (rank : ℕ)

/-- One step, from a start with `items`. -/
def pwtStep (o : Options) (items : List (ℕ × W)) (s : Processes W) :
    Label W → Option (Processes W)
  | .startWork => s.startWork o items
  | .poll => s.poll o
  | .receive rank => s.receive o rank
  | .getNewWork => s.getNewWork o
  | .stop => s.stop o
  | .workerPoll rank => s.workerPoll o rank
  | .workerReceive rank acts => s.workerReceive rank acts
  | .workerAct rank => s.workerAct rank
  | .workerAck rank => s.workerAck rank

/-- The work that workers do for an item is one of what `does` allows. -/
def Label.Does (does : W → List (Action W) → Prop) (s : Processes W) : Label W → Prop
  | .workerReceive rank acts => ∀ item l, s.toWorker rank = .work item :: l → does item acts
  | _ => True

instance (does : W → List (Action W) → Prop) [∀ item acts, Decidable (does item acts)]
    (s : Processes W) : (a : Label W) → Decidable (Label.Does does s a)
  | .workerReceive rank acts =>
    match h : s.toWorker rank with
    | .work item :: l =>
      decidable_of_iff (does item acts) ⟨fun hd _ _ he => by
        rw [h] at he
        cases he
        exact hd, fun hall => hall item l h⟩
    | .ack :: _ | .exit :: _ | [] => isTrue fun _ _ he => by
      rw [h] at he
      cases he
  | .startWork | .poll | .receive _ | .getNewWork | .stop | .workerPoll _ | .workerAct _
  | .workerAck _ => isTrue trivial

end MpiToShmem.Pwt
