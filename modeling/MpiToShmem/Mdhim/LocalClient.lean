import MpiToShmem.Kit.Runs
import MpiToShmem.Mdhim.WorkNet

/-!
# Calls to the own range server

A client on a rank with a range server hands its request to the worker thread over the work queue
and takes the response from `receive_msg`, a slot for one message with a condition variable.

1. `localStep` is a step of the client thread, of the worker thread, or of the listener thread with
   work of another rank. A waiting thread may wake up at any time.
2. `PendingInv`: the slot and the work of this rank in the queue belong to the call that waits.
3. `own_answers_iff`: every call of a run has its own answer if and only if no wakeup of the client
   finds the slot empty and every bulk put passes the check of its size.
-/

namespace MpiToShmem

open Kit

namespace LocalClient

/-! ## Work -/

/-- A message that `worker_thread` has a handler for. -/
inductive WorkMsg where
  | put (im : Putm)
  | bput (bim : Bputm)
  | get (gm : Getm)
  | bget (bgm : Bgetm)
  | del (dm : Delm)
  | bdel (bdm : Bdelm)
  | commit (im : Basem)

/-- `work_item`, and the number of the call that waits for the response. -/
structure WorkItem where
  message : WorkMsg
  source : ℤ
  call : ℕ

/-- A call of a `local_client` function that has a response. -/
inductive LocalCall where
  | put (pm : Putm)
  | bput (bpm : Bputm)
  | get (gm : Getm)
  | bget (bgm : Bgetm)
  | bgetOp (gm : Getm)
  | commit (cm : Basem)
  | delete (dm : Delm)
  | bdelete (bdm : Bdelm)

def LocalCall.message : LocalCall → WorkMsg
  | put pm => .put pm
  | bput bpm => .bput bpm
  | get gm => .get gm
  | bget bgm => .bget bgm
  | bgetOp gm => .get gm
  | commit cm => .commit cm
  | delete dm => .del dm
  | bdelete bdm => .bdel bdm

/-- The check of `local_client_bput`, before it adds its work; the others have none. -/
def LocalCall.fits : LocalCall → Bool
  | bput bpm => layoutSize Bputm.layout + recLens bpm.recs ≤ mdhimMaxMsgSize
  | _ => true

/-- The handlers of the range server over its state `σ`, with their response. -/
structure Handlers (σ ρ : Type*) where
  rangeServerPut : σ → Putm → σ × ρ
  rangeServerBput : σ → Bputm → σ × ρ
  rangeServerGet : σ → Getm → ℤ → σ × ρ
  rangeServerBgetOp : σ → Getm → ℤ → σ × ρ
  rangeServerBget : σ → Bgetm → σ × ρ
  rangeServerDel : σ → Delm → σ × ρ
  rangeServerBdel : σ → Bdelm → σ × ρ
  rangeServerCommit : σ → Basem → σ × ρ

variable {σ ρ : Type*}

/-- The handler for a message. -/
def Handlers.handle (h : Handlers σ ρ) (store : σ) : WorkMsg → σ × ρ
  | .put im => h.rangeServerPut store im
  | .bput bim => h.rangeServerBput store bim
  | .get gm =>
    if 1 < gm.numRecords then h.rangeServerBgetOp store gm gm.op
    else h.rangeServerGet store gm gm.op
  | .bget bgm => h.rangeServerBget store bgm
  | .del dm => h.rangeServerDel store dm
  | .bdel bdm => h.rangeServerBdel store bdm
  | .commit im => h.rangeServerCommit store im

/-! ## Threads -/

/-- The client thread: between calls, about to add its work, about to lock `receive_msg_mutex`,
waiting for the signal, or awake again before it has the mutex. -/
inductive Client where
  | idle
  | adding (item : WorkItem)
  | added (call : ℕ)
  | waiting (call : ℕ)
  | woken (call : ℕ)

/-- The worker thread: at the head of its loop, waiting for work, awake again, or at an item with
`work_queue_mutex` locked. -/
inductive Worker where
  | top
  | waiting
  | woken
  | working (item : WorkItem)

def Client.signal : Client → Client
  | waiting n => woken n
  | c => c

def Worker.signal : Worker → Worker
  | waiting => woken
  | w => w

def Worker.item : Worker → Option WorkItem
  | working item => some item
  | _ => none

/-- A rank with a range server; `workQueue` has its head first, and a response has the number of the
call it is for. `returned` records what the calls returned. -/
structure LocalState (σ ρ : Type*) where
  store : σ
  workQueue : List WorkItem
  worker : Worker
  receiveMsg : Option (ℕ × ρ)
  client : Client
  calls : ℕ
  returned : List (ℕ × Option (ℕ × ρ))

namespace LocalState

def init (store : σ) : LocalState σ ρ := ⟨store, [], .top, none, .idle, 0, []⟩

/-- `range_server_add_work`. -/
def addWork (s : LocalState σ ρ) (item : WorkItem) : LocalState σ ρ :=
  { s with workQueue := item :: s.workQueue, worker := s.worker.signal }

/-- `get_work`; without work the worker goes on at `next`. -/
def getWork (s : LocalState σ ρ) (next : Worker) : LocalState σ ρ :=
  match s.workQueue.getLast? with
  | none => { s with worker := next }
  | some item => { s with workQueue := s.workQueue.dropLast, worker := .working item }

/-- `get_msg_self`, after the wait. -/
def takeMsg (s : LocalState σ ρ) (call : ℕ) : LocalState σ ρ :=
  { s with receiveMsg := none, client := .idle, returned := s.returned ++ [(call, s.receiveMsg)] }

variable (h : Handlers σ ρ) (rank : ℤ)

/-- `send_locally_or_remote`. -/
def sendLocallyOrRemote (s : LocalState σ ρ) (dest : ℤ) (message : ℕ × ρ) : LocalState σ ρ :=
  if rank ≠ dest then s
  else { s with receiveMsg := some message, client := s.client.signal }

/-- The handler of an item, up to its response. -/
def handle (s : LocalState σ ρ) (item : WorkItem) : LocalState σ ρ :=
  let r := h.handle s.store item.message
  { s with store := r.1 }.sendLocallyOrRemote rank item.source (item.call, r.2)

end LocalState

/-! ## Steps -/

inductive Label where
  | call (c : LocalCall)
  | addWork
  | getMsg
  | wakeup
  | takeMsg
  | getWork
  | workWakeup
  | handle
  | remote (item : WorkItem)

open LocalState

/-- One step; no work is added while the worker has the mutex of the queue. -/
def localStep (h : Handlers σ ρ) (rank : ℤ) (s : LocalState σ ρ) : Label → Option (LocalState σ ρ)
  | .call c =>
    match s.client with
    | .idle =>
      if c.fits then
        some { s with client := .adding ⟨c.message, rank, s.calls⟩, calls := s.calls + 1 }
      else some { s with calls := s.calls + 1, returned := s.returned ++ [(s.calls, none)] }
    | _ => none
  | .addWork =>
    match s.client, s.worker.item with
    | .adding item, none => some { s.addWork item with client := .added item.call }
    | _, _ => none
  | .getMsg =>
    match s.client, s.receiveMsg with
    | .added n, none => some { s with client := .waiting n }
    | .added n, some _ => some (s.takeMsg n)
    | _, _ => none
  | .wakeup =>
    match s.client with
    | .waiting n => some { s with client := .woken n }
    | _ => none
  | .takeMsg =>
    match s.client with
    | .woken n => some (s.takeMsg n)
    | _ => none
  | .getWork =>
    match s.worker with
    | .top => some (s.getWork .waiting)
    | .woken => some (s.getWork .top)
    | _ => none
  | .workWakeup =>
    match s.worker with
    | .waiting => some { s with worker := .woken }
    | _ => none
  | .handle =>
    match s.worker with
    | .working item => some ((s.handle h rank item).getWork .top)
    | _ => none
  | .remote item =>
    if item.source = rank then none
    else
      match s.worker.item with
      | none => some (s.addWork item)
      | some _ => none

/-! ## The pending call -/

variable {h : Handlers σ ρ} {rank : ℤ} {s s' : LocalState σ ρ}

/-- The calls of this rank among work items. -/
def callsOf (rank : ℤ) (l : List WorkItem) : List ℕ :=
  (l.filter fun item => item.source = rank).map WorkItem.call

@[simp] theorem callsOf_nil : callsOf rank [] = [] := rfl

theorem callsOf_append (l l' : List WorkItem) :
    callsOf rank (l ++ l') = callsOf rank l ++ callsOf rank l' := by
  unfold callsOf
  rw [List.filter_append, List.map_append]

theorem callsOf_cons_of_eq {item : WorkItem} (hi : item.source = rank) (l : List WorkItem) :
    callsOf rank (item :: l) = item.call :: callsOf rank l := by
  unfold callsOf
  rw [List.filter_cons_of_pos (by simpa using hi), List.map_cons]

theorem callsOf_cons_of_ne {item : WorkItem} (hi : item.source ≠ rank) (l : List WorkItem) :
    callsOf rank (item :: l) = callsOf rank l := by
  unfold callsOf
  rw [List.filter_cons_of_neg (by simpa using hi)]

/-- The calls whose work is queued or at the worker, or whose response is in the slot. -/
def LocalState.pending (rank : ℤ) (s : LocalState σ ρ) : List ℕ :=
  callsOf rank (s.workQueue ++ s.worker.item.toList) ++ s.receiveMsg.toList.map Prod.fst

/-- The call that has added its work and waits for the response. -/
def Client.pending : Client → List ℕ
  | idle => []
  | adding _ => []
  | added n => [n]
  | waiting n => [n]
  | woken n => [n]

@[simp] theorem Client.pending_signal (c : Client) : c.signal.pending = c.pending := by
  cases c <;> rfl

theorem Client.signal_ne_waiting (c : Client) (n : ℕ) : c.signal ≠ waiting n := by
  cases c <;> exact fun hc => by cases hc

theorem Client.eq_of_signal_eq_adding {c : Client} {item : WorkItem} (hc : c.signal = adding item) :
    c = adding item := by
  cases c with
  | adding _ => exact hc
  | _ => cases hc

@[simp] theorem Worker.item_signal (w : Worker) : w.signal.item = w.item := by
  cases w <;> rfl

/-- What is queued, at the worker or in the slot for this rank is for the call that waits; a client
sleeps only on an empty slot, and the worker only on an empty queue. -/
structure PendingInv (rank : ℤ) (s : LocalState σ ρ) : Prop where
  pending : s.pending rank = s.client.pending
  adding : ∀ item, s.client = .adding item → item.source = rank
  asleep : ∀ n, s.client = .waiting n → s.receiveMsg = none
  idle : s.worker = .waiting → s.workQueue = []

theorem pendingInv_init (store : σ) : PendingInv rank (init store : LocalState σ ρ) where
  pending := rfl
  adding _ hc := by cases hc
  asleep _ hc := by cases hc
  idle hw := by cases hw

/-- Every call returned the response to its own work. -/
def LocalState.OwnAnswers (s : LocalState σ ρ) : Prop :=
  ∀ e ∈ s.returned, ∃ message, e.2 = some (e.1, message)

/-! ## Operations -/

/-- The worker looks for its next item: what is pending stays, but for the item it has finished. -/
theorem pending_getWork {next : Worker} (hn : next.item = none) :
    (s.getWork next).pending rank =
      callsOf rank s.workQueue ++ s.receiveMsg.toList.map Prod.fst := by
  unfold LocalState.getWork
  cases hq : s.workQueue.getLast? with
  | none =>
    dsimp only [LocalState.pending]
    rw [hn, Option.toList_none, List.append_nil]
  | some item =>
    dsimp only [LocalState.pending, Worker.item]
    rw [Option.toList_some, List.dropLast_append_getLast? item hq]

@[simp] theorem client_getWork (next : Worker) : (s.getWork next).client = s.client := by
  unfold LocalState.getWork
  split <;> rfl

@[simp] theorem receiveMsg_getWork (next : Worker) :
    (s.getWork next).receiveMsg = s.receiveMsg := by
  unfold LocalState.getWork
  split <;> rfl

@[simp] theorem returned_getWork (next : Worker) : (s.getWork next).returned = s.returned := by
  unfold LocalState.getWork
  split <;> rfl

@[simp] theorem returned_handle (item : WorkItem) :
    (s.handle h rank item).returned = s.returned := by
  unfold LocalState.handle LocalState.sendLocallyOrRemote
  dsimp only
  split_ifs <;> rfl

/-- A worker that falls asleep has found no work. -/
theorem idle_getWork (next : Worker) (hw : (s.getWork next).worker = .waiting) :
    (s.getWork next).workQueue = [] := by
  unfold LocalState.getWork at hw ⊢
  cases hq : s.workQueue.getLast? with
  | none => exact List.getLast?_eq_none_iff.mp hq
  | some item =>
    rw [hq] at hw
    cases hw

theorem PendingInv.getWork {next : Worker} (hinv : PendingInv rank s) (hw : s.worker.item = none)
    (hn : next.item = none) : PendingInv rank (s.getWork next) := by
  refine ⟨?_, ?_, ?_, idle_getWork next⟩
  · have hp := hinv.pending
    unfold LocalState.pending at hp
    rw [hw, Option.toList_none, List.append_nil] at hp
    rw [pending_getWork hn, client_getWork, hp]
  · rw [client_getWork]
    exact hinv.adding
  · rw [client_getWork, receiveMsg_getWork]
    exact hinv.asleep

/-- The handler of an item that the worker holds, and its next look into the queue. -/
theorem PendingInv.handle {item : WorkItem} (hinv : PendingInv rank s)
    (hw : s.worker = .working item) :
    PendingInv rank ((s.handle h rank item).getWork .top) := by
  have hp := hinv.pending
  unfold LocalState.pending at hp
  rw [hw, Worker.item, Option.toList_some, callsOf_append] at hp
  unfold LocalState.handle LocalState.sendLocallyOrRemote
  dsimp only
  by_cases hr : rank = item.source
  · subst hr
    rw [callsOf_cons_of_eq rfl, callsOf_nil] at hp
    -- the item is the pending call, so the slot and the queue have nothing of this rank
    have hlen := congrArg List.length hp
    have hone : s.client.pending.length ≤ 1 := by cases s.client <;> simp [Client.pending]
    simp only [List.length_append, List.length_cons, List.length_nil, List.length_map] at hlen
    have hqueue : callsOf item.source s.workQueue = [] := List.length_eq_zero_iff.mp (by omega)
    have hslot : s.receiveMsg.toList.map Prod.fst = [] :=
      List.length_eq_zero_iff.mp (by rw [List.length_map]; omega)
    rw [if_neg (not_not.mpr rfl)]
    refine ⟨?_, ?_, ?_, idle_getWork .top⟩
    · rw [pending_getWork rfl, client_getWork]
      dsimp only
      rw [Client.pending_signal, ← hp, hqueue, hslot]
      rfl
    · rw [client_getWork]
      intro item' hc
      apply hinv.adding
      exact Client.eq_of_signal_eq_adding hc
    · rw [client_getWork]
      exact fun n hc => absurd hc (Client.signal_ne_waiting _ n)
  · rw [callsOf_cons_of_ne (Ne.symm hr), callsOf_nil, List.append_nil] at hp
    rw [if_pos hr]
    refine ⟨?_, ?_, ?_, idle_getWork .top⟩
    · rw [pending_getWork rfl, client_getWork]
      exact hp
    · rw [client_getWork]
      exact hinv.adding
    · rw [client_getWork, receiveMsg_getWork]
      exact hinv.asleep

theorem pending_addWork (item : WorkItem) :
    (s.addWork item).pending rank = callsOf rank [item] ++ s.pending rank := by
  unfold LocalState.addWork LocalState.pending
  dsimp only
  rw [Worker.item_signal, ← List.singleton_append, List.append_assoc, callsOf_append,
    List.append_assoc]

theorem Worker.signal_ne_waiting (w : Worker) : w.signal ≠ waiting := by
  cases w <;> exact fun hw => by cases hw

/-- The response that a call takes is its own, and nothing is pending after it. -/
theorem PendingInv.takeMsg {n : ℕ} (hinv : PendingInv rank s) (hc : s.client.pending = [n])
    (hmsg : s.receiveMsg ≠ none) :
    PendingInv rank (s.takeMsg n) ∧ ∃ message, s.receiveMsg = some (n, message) := by
  obtain ⟨⟨m, message⟩, hm⟩ := Option.ne_none_iff_exists'.mp hmsg
  have hp := hinv.pending
  unfold LocalState.pending at hp
  rw [hc, hm, Option.toList_some, List.map_singleton] at hp
  have hqueue : callsOf rank (s.workQueue ++ s.worker.item.toList) = [] := by
    have hlen := congrArg List.length hp
    rw [List.length_append, List.length_singleton, List.length_singleton] at hlen
    exact List.length_eq_zero_iff.mp (by omega)
  refine ⟨⟨?_, fun _ hc => (by cases hc), fun _ hc => (by cases hc), hinv.idle⟩, message, ?_⟩
  · unfold LocalState.takeMsg LocalState.pending
    dsimp only
    rw [hqueue]
    rfl
  · rw [hqueue, List.nil_append] at hp
    obtain rfl : m = n := (List.cons.inj hp).1
    exact hm

/-! ## Runs -/

/-- A call passes its check, and a wakeup of the client that goes through finds a message. -/
def OnTime (s : LocalState σ ρ) : Label → Prop
  | .call c => c.fits
  | .takeMsg => s.receiveMsg ≠ none
  | _ => True

/-- The invariant of the runs on time. -/
structure LocalInv (rank : ℤ) (s : LocalState σ ρ) : Prop extends PendingInv rank s where
  own : s.OwnAnswers

theorem LocalInv.return {n : ℕ} (hinv : LocalInv rank s) (hc : s.client.pending = [n])
    (hmsg : s.receiveMsg ≠ none) : LocalInv rank (s.takeMsg n) := by
  obtain ⟨hinv', message, hm⟩ := hinv.toPendingInv.takeMsg hc hmsg
  refine ⟨hinv', fun e he => ?_⟩
  rcases List.mem_append.mp he with he | he
  · exact hinv.own e he
  · obtain rfl := List.mem_singleton.mp he
    exact ⟨message, hm⟩

theorem LocalInv.call {c : LocalCall} (hinv : LocalInv rank s) (hfits : c.fits)
    (hs : localStep h rank s (.call c) = some s') : LocalInv rank s' := by
  dsimp only [localStep] at hs
  split at hs
  · rename_i hc
    have hp := hinv.pending
    rw [if_pos hfits] at hs
    obtain rfl := Option.some.inj hs
    rw [hc] at hp
    refine ⟨⟨hp, fun item hi => ?_, fun _ hc => (by cases hc), hinv.idle⟩, hinv.own⟩
    cases hi
    rfl
  · cases hs

theorem LocalInv.addWork (hinv : LocalInv rank s) (hs : localStep h rank s .addWork = some s') :
    LocalInv rank s' := by
  dsimp only [localStep] at hs
  split at hs
  · rename_i item hc hw
    obtain rfl := Option.some.inj hs
    have hp := hinv.pending
    rw [hc] at hp
    refine ⟨⟨?_, fun _ hc => (by cases hc), fun _ hc => (by cases hc), fun hw => ?_⟩, hinv.own⟩
    · show (s.addWork item).pending rank = [item.call]
      rw [pending_addWork, hp, callsOf_cons_of_eq (hinv.adding item hc)]
      rfl
    · exact absurd hw (Worker.signal_ne_waiting _)
  · cases hs

theorem LocalInv.getMsg (hinv : LocalInv rank s) (hs : localStep h rank s .getMsg = some s') :
    LocalInv rank s' := by
  dsimp only [localStep] at hs
  split at hs
  · rename_i n hc hm
    obtain rfl := Option.some.inj hs
    have hp := hinv.pending
    rw [hc] at hp
    exact ⟨⟨hp, fun _ hc => (by cases hc), fun _ _ => hm, hinv.idle⟩, hinv.own⟩
  · rename_i n r hc hm
    obtain rfl := Option.some.inj hs
    apply hinv.return
    · rw [hc]
      rfl
    · rw [hm]
      exact Option.some_ne_none r
  · cases hs

theorem LocalInv.wakeup (hinv : LocalInv rank s) (hs : localStep h rank s .wakeup = some s') :
    LocalInv rank s' := by
  dsimp only [localStep] at hs
  split at hs
  · rename_i n hc
    obtain rfl := Option.some.inj hs
    have hp := hinv.pending
    rw [hc] at hp
    exact ⟨⟨hp, fun _ hc => (by cases hc), fun _ hc => (by cases hc), hinv.idle⟩, hinv.own⟩
  · cases hs

theorem LocalInv.takeMsg (hinv : LocalInv rank s) (hmsg : s.receiveMsg ≠ none)
    (hs : localStep h rank s .takeMsg = some s') : LocalInv rank s' := by
  dsimp only [localStep] at hs
  split at hs
  · rename_i n hc
    obtain rfl := Option.some.inj hs
    apply hinv.return _ hmsg
    rw [hc]
    rfl
  · cases hs

theorem LocalInv.getWork (hinv : LocalInv rank s) (hs : localStep h rank s .getWork = some s') :
    LocalInv rank s' := by
  have hnext : ∀ next : Worker, s.worker.item = none → next.item = none →
      LocalInv rank (s.getWork next) := by
    intro next hw hn
    refine ⟨hinv.toPendingInv.getWork hw hn, ?_⟩
    unfold LocalState.OwnAnswers
    rw [returned_getWork]
    exact hinv.own
  dsimp only [localStep] at hs
  split at hs
  · rename_i hw
    obtain rfl := Option.some.inj hs
    exact hnext .waiting (by rw [hw]; rfl) rfl
  · rename_i hw
    obtain rfl := Option.some.inj hs
    exact hnext .top (by rw [hw]; rfl) rfl
  · cases hs

theorem LocalInv.workWakeup (hinv : LocalInv rank s)
    (hs : localStep h rank s .workWakeup = some s') : LocalInv rank s' := by
  dsimp only [localStep] at hs
  split at hs
  · rename_i hw
    obtain rfl := Option.some.inj hs
    have hp := hinv.pending
    unfold LocalState.pending at hp
    rw [hw] at hp
    exact ⟨⟨hp, hinv.adding, hinv.asleep, fun hw => (by cases hw)⟩, hinv.own⟩
  · cases hs

theorem LocalInv.handle (hinv : LocalInv rank s) (hs : localStep h rank s .handle = some s') :
    LocalInv rank s' := by
  dsimp only [localStep] at hs
  split at hs
  · rename_i item hw
    obtain rfl := Option.some.inj hs
    refine ⟨hinv.toPendingInv.handle hw, ?_⟩
    unfold LocalState.OwnAnswers
    rw [returned_getWork, returned_handle]
    exact hinv.own
  · cases hs

theorem LocalInv.remote {item : WorkItem} (hinv : LocalInv rank s)
    (hs : localStep h rank s (.remote item) = some s') : LocalInv rank s' := by
  dsimp only [localStep] at hs
  split_ifs at hs with hr
  split at hs
  · obtain rfl := Option.some.inj hs
    refine ⟨⟨?_, hinv.adding, hinv.asleep, fun hw => ?_⟩, hinv.own⟩
    · rw [pending_addWork, callsOf_cons_of_ne hr, callsOf_nil, List.nil_append]
      exact hinv.pending
    · exact absurd hw (Worker.signal_ne_waiting _)
  · cases hs

theorem localInv_step (s : LocalState σ ρ) (a : Label) (s' : LocalState σ ρ)
    (hinv : LocalInv rank s) (ha : OnTime s a) (hs : localStep h rank s a = some s') :
    LocalInv rank s' := by
  cases a with
  | call c => exact hinv.call ha hs
  | addWork => exact hinv.addWork hs
  | getMsg => exact hinv.getMsg hs
  | wakeup => exact hinv.wakeup hs
  | takeMsg => exact hinv.takeMsg ha hs
  | getWork => exact hinv.getWork hs
  | workWakeup => exact hinv.workWakeup hs
  | handle => exact hinv.handle hs
  | remote item => exact hinv.remote hs

/-- What the calls have returned stays recorded. -/
theorem returned_prefix_step {a : Label} (hs : localStep h rank s a = some s') :
    s.returned <+: s'.returned := by
  cases a with
  | call c =>
    dsimp only [localStep] at hs
    split at hs
    · split_ifs at hs
      · obtain rfl := Option.some.inj hs
        exact List.prefix_rfl
      · obtain rfl := Option.some.inj hs
        exact List.prefix_append _ _
    · cases hs
  | addWork =>
    dsimp only [localStep] at hs
    split at hs
    · obtain rfl := Option.some.inj hs
      exact List.prefix_rfl
    · cases hs
  | getMsg =>
    dsimp only [localStep] at hs
    split at hs
    · obtain rfl := Option.some.inj hs
      exact List.prefix_rfl
    · obtain rfl := Option.some.inj hs
      exact List.prefix_append _ _
    · cases hs
  | wakeup =>
    dsimp only [localStep] at hs
    split at hs
    · obtain rfl := Option.some.inj hs
      exact List.prefix_rfl
    · cases hs
  | takeMsg =>
    dsimp only [localStep] at hs
    split at hs
    · obtain rfl := Option.some.inj hs
      exact List.prefix_append _ _
    · cases hs
  | getWork =>
    dsimp only [localStep] at hs
    split at hs
    · obtain rfl := Option.some.inj hs
      simp only [returned_getWork, List.prefix_rfl]
    · obtain rfl := Option.some.inj hs
      simp only [returned_getWork, List.prefix_rfl]
    · cases hs
  | workWakeup =>
    dsimp only [localStep] at hs
    split at hs
    · obtain rfl := Option.some.inj hs
      exact List.prefix_rfl
    · cases hs
  | handle =>
    dsimp only [localStep] at hs
    split at hs
    · obtain rfl := Option.some.inj hs
      simp only [returned_getWork, returned_handle, List.prefix_rfl]
    · cases hs
  | remote item =>
    dsimp only [localStep] at hs
    split_ifs at hs
    split at hs
    · obtain rfl := Option.some.inj hs
      exact List.prefix_rfl
    · cases hs

/-- A step that is not on time returns no message. -/
theorem exists_none_of_not_onTime {a : Label} (ha : ¬ OnTime s a)
    (hs : localStep h rank s a = some s') : ∃ n, (n, none) ∈ s'.returned := by
  cases a with
  | call c =>
    dsimp only [localStep] at hs
    split at hs
    · have hfits : ¬ c.fits := ha
      rw [if_neg hfits] at hs
      obtain rfl := Option.some.inj hs
      exact ⟨s.calls, List.mem_append_right _ List.mem_cons_self⟩
    · cases hs
  | takeMsg =>
    dsimp only [localStep] at hs
    split at hs
    · rename_i n hc
      obtain rfl := Option.some.inj hs
      refine ⟨n, List.mem_append_right _ ?_⟩
      rw [not_not.mp ha]
      exact List.mem_cons_self
    · cases hs
  | _ => exact absurd trivial ha

/-- A run in which every call has its own answer is on time. -/
theorem meets_onTime {ls : List Label} (hrun : exec (localStep h rank) s ls = some s')
    (hown : s'.OwnAnswers) : Meets (localStep h rank) OnTime s ls := by
  induction ls generalizing s with
  | nil => exact meets_nil
  | cons a ls ih =>
    obtain ⟨t, hs, hrest⟩ := exec_cons_eq_some.mp hrun
    refine ⟨?_, by rw [hs]; exact ih hrest⟩
    by_contra ha
    obtain ⟨n, hn⟩ := exists_none_of_not_onTime ha hs
    have hmem : (n, none) ∈ s'.returned :=
      @exec_inv _ _ (localStep h rank) t s' ls (fun u => (n, none) ∈ u.returned)
        (fun _ _ _ hm hs => (returned_prefix_step hs).subset hm) hn hrest
    obtain ⟨message, hm⟩ := hown _ hmem
    cases hm

/-- Some thread can go on without a wakeup that nobody signalled. -/
def LocalState.CanGoOn (h : Handlers σ ρ) (rank : ℤ) (s : LocalState σ ρ) : Prop :=
  ∃ a ∈ [Label.addWork, .getMsg, .takeMsg, .getWork, .handle], (localStep h rank s a).isSome

/-- While a call is under way, no thread waits for a signal that does not come. -/
theorem PendingInv.canGoOn (hinv : PendingInv rank s) (hidle : s.client ≠ .idle) :
    s.CanGoOn h rank := by
  have hhandle : ∀ item, s.worker = .working item → s.CanGoOn h rank := by
    intro item hw
    refine ⟨.handle, by simp, ?_⟩
    dsimp only [localStep]
    rw [hw]
    rfl
  cases hc : s.client with
  | idle => exact absurd hc hidle
  | adding item =>
    cases hw : s.worker with
    | working item' => exact hhandle item' hw
    | _ =>
      refine ⟨.addWork, by simp, ?_⟩
      dsimp only [localStep]
      rw [hc, hw]
      rfl
  | added n =>
    refine ⟨.getMsg, by simp, ?_⟩
    dsimp only [localStep]
    rw [hc]
    cases s.receiveMsg <;> rfl
  | woken n =>
    refine ⟨.takeMsg, by simp, ?_⟩
    dsimp only [localStep]
    rw [hc]
    rfl
  | waiting n =>
    cases hw : s.worker with
    | working item => exact hhandle item hw
    | waiting =>
      -- the request would be nowhere
      have hp := hinv.pending
      unfold LocalState.pending at hp
      rw [hinv.idle hw, hw, hinv.asleep n hc, hc] at hp
      cases hp
    | _ =>
      refine ⟨.getWork, by simp, ?_⟩
      dsimp only [localStep]
      rw [hw]
      rfl

/-- The calls of a run have their own answers, and none of them is stuck, if and only if every bulk
put passes its check and no wakeup in `get_msg_self` finds `receive_msg` empty. -/
theorem own_answers_iff {store : σ} {ls : List Label}
    (hrun : exec (localStep h rank) (init store) ls = some s) :
    (s.OwnAnswers ∧ (s.client ≠ .idle → s.CanGoOn h rank)) ↔
      Meets (localStep h rank) OnTime (init store) ls := by
  constructor
  · exact fun hs => meets_onTime hrun hs.1
  · intro hmeets
    have hinit : LocalInv rank (init store : LocalState σ ρ) :=
      ⟨pendingInv_init store, fun e he => absurd he List.not_mem_nil⟩
    have hinv : LocalInv rank s := exec_inv_meets localInv_step hinit hmeets hrun
    exact ⟨hinv.own, hinv.toPendingInv.canGoOn⟩

/-- Handlers that count the items and answer with the number of those before. -/
def countingHandlers : Handlers ℕ ℕ where
  rangeServerPut n _ := (n + 1, n)
  rangeServerBput n _ := (n + 1, n)
  rangeServerGet n _ _ := (n + 1, n)
  rangeServerBgetOp n _ _ := (n + 1, n)
  rangeServerBget n _ := (n + 1, n)
  rangeServerDel n _ := (n + 1, n)
  rangeServerBdel n _ := (n + 1, n)
  rangeServerCommit n _ := (n + 1, n)

/-- A put and a get with their answers, after the work of another rank and with wakeups of both
threads that nobody signalled. -/
theorem own_answers_remote_first :
    let f := localStep countingHandlers 0
    let ls : List Label :=
      [.remote ⟨.put ⟨1, 0, 0, [5], [2]⟩, 3, 0⟩, .getWork, .call (.put ⟨1, 0, 0, [4], [1]⟩),
        .handle, .getWork, .addWork, .getMsg, .getWork, .wakeup, .handle, .takeMsg, .getWork,
        .workWakeup, .getWork, .call (.get ⟨3, 0, 0, 0, [4], 1⟩), .addWork, .getMsg, .getWork,
        .handle, .takeMsg]
    ∃ s, exec f (init 0) ls = some s ∧
      ((s.OwnAnswers ∧ (s.client ≠ .idle → s.CanGoOn countingHandlers 0)) ↔
        Meets f OnTime (init 0) ls) ∧
      s.returned = [(0, some (0, 1)), (1, some (1, 2))] := by
  intro f ls
  have hrun : ((exec f (init 0) ls).any fun s =>
      s.returned = [(0, some (0, 1)), (1, some (1, 2))]) = true := by decide +kernel
  obtain ⟨s, hs, hreturned⟩ := (Option.any_eq_true _ _).mp hrun
  exact ⟨s, hs, own_answers_iff hs, of_decide_eq_true hreturned⟩

/-- The put wakes up before it has an answer and returns no message, and the get after it returns
the answer to the put. -/
theorem own_answers_spurious_wakeup :
    ∃ s, exec (localStep countingHandlers 0) (init 0)
        [.call (.put ⟨1, 0, 0, [4], [1]⟩), .addWork, .getMsg, .wakeup, .takeMsg, .getWork, .handle,
          .call (.get ⟨3, 0, 0, 0, [4], 1⟩), .addWork, .getMsg] = some s ∧
      s.returned = [(0, none), (1, some (0, 0))] ∧ ¬ s.OwnAnswers := by
  have hrun : ((exec (localStep countingHandlers 0) (init 0)
      [.call (.put ⟨1, 0, 0, [4], [1]⟩), .addWork, .getMsg, .wakeup, .takeMsg, .getWork, .handle,
        .call (.get ⟨3, 0, 0, 0, [4], 1⟩), .addWork, .getMsg]).any fun s =>
      s.returned = [(0, none), (1, some (0, 0))]) = true := by decide +kernel
  obtain ⟨s, hs, hreturned⟩ := (Option.any_eq_true _ _).mp hrun
  have hr := of_decide_eq_true hreturned
  refine ⟨s, hs, hr, fun hown => ?_⟩
  obtain ⟨message, hm⟩ := hown (0, none) (by rw [hr]; exact List.mem_cons_self)
  cases hm

end LocalClient

end MpiToShmem
