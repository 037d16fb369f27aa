import MpiToShmem.Pwt.Processes

/-!
# The phases of a worker

Between two items a worker has no message on the way in either direction. With an item it is at
first on its way to the worker, and then the messages to the manager and those the worker will still
send are, in order, the rest of the work for it.

1. `View` is what the processes have to do with one rank, `Fits` its phase.
2. `Fits.act`, `Fits.receive` and the others: what a step at the rank does to its phase.
-/

namespace MpiToShmem.Pwt

open Kit Fifo

variable {W : Type}

/-! ## Work on its way -/

/-- The messages of an action, without those of the manager. -/
def Action.messages : Action W → List (ToManager W)
  | request qidx item => [.request qidx, .work qidx item]
  | send qidx item => [.work qidx item]
  | task => [.task]

def Action.items : Action W → List W
  | request _ item => [item]
  | send _ item => [item]
  | task => []

/-- The items sent by a job. -/
def Job.sends (job : Job W) : List W := job.acts.flatMap Action.items

/-- What a job still sends, with the report at its end. -/
def remaining (acts : List (Action W)) (job : Job W) : List (ToManager W) :=
  acts.flatMap Action.messages ++ [.workdone job]

/-- What a worker will send before its next item. -/
def Worker.toSend : Worker W → List (ToManager W)
  | working job rest => remaining rest job
  | awaiting job qidx item rest => .work qidx item :: remaining rest job
  | _ => []

def ToManager.isRequest : ToManager W → Bool
  | request _ => true
  | _ => false

def NoRequest (l : List (ToManager W)) : Prop := ∀ m ∈ l, m.isRequest = false

/-- The manager waits for the item of this rank. -/
def Manager.awaits (rank : ℕ) : Manager → Bool
  | awaiting r _ => r = rank
  | _ => false

/-! ## Phases -/

/-- What the processes have to do with one rank: its flag, whether the manager waits for its item,
the worker, the messages, and the items assigned to it, done by it and scheduled for it. -/
structure View (W : Type) where
  active : Bool
  awaited : Bool
  worker : Worker W
  toWorker : List (ToWorker W)
  toManager : List (ToManager W)
  assigned : List W
  finished : List (Job W)
  scheduled : List W

/-- A worker in `worker_sendrequest` has its request last on the way, or the acknowledgement on the
way back; otherwise there is no request. -/
def View.Handshake (v : View W) : Prop :=
  match v.worker with
  | .awaiting _ _ _ _ =>
    (v.toWorker = [] ∧ ∃ l qidx, v.toManager = l ++ [.request qidx] ∧ NoRequest l) ∨
      (v.toWorker = [.ack] ∧ v.toManager = [])
  | _ => v.toWorker = [] ∧ NoRequest v.toManager

/-- A rank at a job: `next` is the item that the manager waits for, `acts` are the actions it has
not heard of. -/
structure Busy (isWorker : Prop) (does : W → List (Action W) → Prop) (v : View W) (job : Job W)
    (next : Option (ℕ × W)) (acts : List (Action W)) : Prop where
  worker : isWorker
  active : v.active = true
  awaited : v.awaited = next.isSome
  handshake : v.Handshake
  messages : v.toManager ++ v.worker.toSend =
    next.toList.map (fun p => .work p.1 p.2) ++ remaining acts job
  assigned : v.assigned = v.finished.map Job.item ++ [job.item]
  scheduled : v.scheduled ++ (next.toList.map Prod.snd ++ acts.flatMap Action.items) =
    v.finished.flatMap Job.sends ++ job.sends
  jobs : ∀ job' ∈ v.finished ++ [job], does job'.item job'.acts

/-- A rank between two items; one that is no worker is never at a job. -/
structure Rest (isWorker : Prop) (does : W → List (Action W) → Prop) (v : View W) : Prop where
  active : isWorker → v.active = false
  awaited : v.awaited = false
  toSend : v.worker.toSend = []
  toWorker : v.toWorker = []
  toManager : v.toManager = []
  assigned : v.assigned = v.finished.map Job.item
  scheduled : v.scheduled = v.finished.flatMap Job.sends
  jobs : ∀ job ∈ v.finished, does job.item job.acts
  nobody : ¬ isWorker → v.finished = []

/-- A rank between two items, with an item on its way to it, or at a job. -/
inductive Fits (isWorker : Prop) (does : W → List (Action W) → Prop) (v : View W) : Prop
  | rest (h : Rest isWorker does v)
  | given (item : W) (worker : isWorker) (active : v.active = true) (awaited : v.awaited = false)
      (toSend : v.worker.toSend = []) (toWorker : v.toWorker = [.work item])
      (toManager : v.toManager = []) (assigned : v.assigned = v.finished.map Job.item ++ [item])
      (scheduled : v.scheduled = v.finished.flatMap Job.sends)
      (jobs : ∀ job ∈ v.finished, does job.item job.acts)
  | busy (job : Job W) (next : Option (ℕ × W)) (acts : List (Action W))
      (h : Busy isWorker does v job next acts)

variable {isWorker : Prop} {does : W → List (Action W) → Prop} {v : View W} {m : ToManager W}
  {l : List (ToManager W)}

theorem remaining_ne_nil (acts : List (Action W)) (job : Job W) : remaining acts job ≠ [] :=
  List.append_ne_nil_of_right_ne_nil _ (List.cons_ne_nil _ _)

/-- Messages on the way to the manager come from a job. -/
theorem Fits.busy_of_toManager (h : Fits isWorker does v) (hm : v.toManager ≠ []) :
    ∃ job next acts, Busy isWorker does v job next acts := by
  cases h with
  | rest h => exact absurd h.toManager hm
  | given _ _ _ _ _ _ htm => exact absurd htm hm
  | busy job next acts h => exact ⟨job, next, acts, h⟩

/-- A worker that has something to send is at a job. -/
theorem Fits.busy_of_toSend (h : Fits isWorker does v) (hs : v.worker.toSend ≠ []) :
    ∃ job next acts, Busy isWorker does v job next acts := by
  cases h with
  | rest h => exact absurd h.toSend hs
  | given _ _ _ _ hsend => exact absurd hsend hs
  | busy job next acts h => exact ⟨job, next, acts, h⟩

/-- What is scheduled for a rank was sent by a job for one of its items. -/
theorem Fits.sent (h : Fits isWorker does v) {item : W} (hi : item ∈ v.scheduled) :
    ∃ job : Job W, does job.item job.acts ∧ item ∈ job.sends ∧ job.item ∈ v.assigned := by
  have hjobs : ∀ l : List (Job W), (∀ job ∈ l, does job.item job.acts) →
      item ∈ l.flatMap Job.sends →
      ∃ job : Job W, does job.item job.acts ∧ item ∈ job.sends ∧ job.item ∈ l.map Job.item := by
    intro l hl hmem
    obtain ⟨job, hj, hs⟩ := List.mem_flatMap.mp hmem
    exact ⟨job, hl job hj, hs, List.mem_map_of_mem hj⟩
  cases h with
  | rest h =>
    rw [h.scheduled] at hi
    rw [h.assigned]
    exact hjobs _ h.jobs hi
  | given item' _ _ _ _ _ _ assigned scheduled jobs =>
    rw [scheduled] at hi
    obtain ⟨job, hdoes, hs, hj⟩ := hjobs _ jobs hi
    rw [assigned]
    exact ⟨job, hdoes, hs, List.mem_append_left _ hj⟩
  | busy job next acts hb =>
    have hmem : item ∈ (v.finished ++ [job]).flatMap Job.sends := by
      rw [List.flatMap_append, List.flatMap_singleton, ← hb.scheduled]
      exact List.mem_append_left _ hi
    obtain ⟨job', hdoes, hs, hj⟩ := hjobs _ hb.jobs hmem
    refine ⟨job', hdoes, hs, ?_⟩
    rw [hb.assigned]
    rwa [List.map_append, List.map_singleton] at hj

theorem Busy.next_eq_none {job : Job W} {next : Option (ℕ × W)} {acts : List (Action W)}
    (h : Busy isWorker does v job next acts) (haw : v.awaited = false) : next = none := by
  have hsome := h.awaited
  rw [haw] at hsome
  cases next with
  | none => rfl
  | some p => cases hsome

/-- Taking a message that is no request from the manager's channel keeps the handshake. -/
theorem View.Handshake.tail (h : v.Handshake) (hm : v.toManager = m :: l)
    (hr : m.isRequest = false) (b b' : Bool) (sch : List W) :
    View.Handshake { v with active := b, awaited := b', toManager := l, scheduled := sch } := by
  unfold View.Handshake at h ⊢
  dsimp only
  cases hw : v.worker with
  | awaiting job qidx item rest =>
    rw [hw] at h
    rcases h with ⟨htw, pre, q, hpre, hno⟩ | ⟨-, htm⟩
    · refine Or.inl ⟨htw, ?_⟩
      cases pre with
      | nil =>
        rw [hm] at hpre
        obtain ⟨rfl, -⟩ := List.cons.inj hpre
        cases hr
      | cons m' pre =>
        rw [hm] at hpre
        obtain ⟨-, rfl⟩ := List.cons.inj hpre
        exact ⟨pre, q, rfl, fun x hx => hno x (List.mem_cons_of_mem _ hx)⟩
    · rw [hm] at htm
      cases htm
  | _ =>
    rw [hw] at h
    rw [hm] at h
    exact ⟨h.1, fun x hx => h.2 x (List.mem_cons_of_mem _ hx)⟩

/-! ## The manager's steps -/

/-- An idle worker is given an item. -/
theorem Fits.give (h : Fits isWorker does v) (hw : isWorker) (ha : v.active = false) (item : W) :
    Fits isWorker does { v with
      active := true
      toWorker := v.toWorker ++ [.work item]
      assigned := v.assigned ++ [item] } := by
  cases h with
  | given _ _ active => rw [ha] at active; cases active
  | busy _ _ _ hb => exact absurd (ha.symm.trans hb.active) Bool.false_ne_true
  | rest h =>
    refine .given item hw rfl h.awaited h.toSend ?_ h.toManager ?_ h.scheduled h.jobs
    · rw [h.toWorker, List.nil_append]
    · rw [h.assigned]

/-- A request is acknowledged, and the manager waits for its item. -/
theorem Fits.request {qidx : ℕ} (h : Fits isWorker does v) (haw : v.awaited = false)
    (hm : v.toManager = .request qidx :: l) :
    Fits isWorker does { v with
      awaited := true
      toWorker := v.toWorker ++ [.ack]
      toManager := l } := by
  obtain ⟨job, next, acts, hb⟩ := h.busy_of_toManager (by rw [hm]; exact List.cons_ne_nil _ _)
  obtain rfl := hb.next_eq_none haw
  have hmsg := hb.messages
  rw [hm] at hmsg
  cases acts with
  | nil => cases (List.cons.inj hmsg).1
  | cons a acts =>
    cases a with
    | send _ _ => cases (List.cons.inj hmsg).1
    | task => cases (List.cons.inj hmsg).1
    | request q item =>
      -- the request is the last message of a worker that waits for the answer
      have hlast : v.toWorker = [] ∧ l = [] ∧ ∃ job qidx item rest,
          v.worker = .awaiting job qidx item rest := by
        have hh := hb.handshake
        unfold View.Handshake at hh
        cases hw : v.worker with
        | awaiting job qidx item rest =>
          rw [hw] at hh
          rcases hh with ⟨htw, pre, q, hpre, hno⟩ | ⟨-, htm⟩
          · refine ⟨htw, ?_, job, qidx, item, rest, rfl⟩
            rw [hm] at hpre
            cases pre with
            | nil => exact (List.cons.inj hpre).2
            | cons m' pre =>
              obtain ⟨rfl, -⟩ := List.cons.inj hpre
              have hreq := hno _ List.mem_cons_self
              cases hreq
          · rw [hm] at htm
            cases htm
        | _ =>
          rw [hw, hm] at hh
          have hreq := hh.2 _ List.mem_cons_self
          cases hreq
      obtain ⟨htw, hl, job', q', item', rest, hw⟩ := hlast
      refine .busy job (some (q, item)) acts
        ⟨hb.worker, hb.active, rfl, ?_, (List.cons.inj hmsg).2, hb.assigned, ?_, hb.jobs⟩
      · unfold View.Handshake
        dsimp only
        rw [hw, htw, hl]
        exact Or.inr ⟨rfl, rfl⟩
      · exact hb.scheduled

/-- An item that was sent without a request. -/
theorem Fits.work {qidx : ℕ} {item : W} (h : Fits isWorker does v) (haw : v.awaited = false)
    (hm : v.toManager = .work qidx item :: l) :
    Fits isWorker does { v with
      toManager := l
      scheduled := v.scheduled ++ [item] } := by
  obtain ⟨job, next, acts, hb⟩ := h.busy_of_toManager (by rw [hm]; exact List.cons_ne_nil _ _)
  obtain rfl := hb.next_eq_none haw
  have hmsg := hb.messages
  rw [hm] at hmsg
  cases acts with
  | nil => cases (List.cons.inj hmsg).1
  | cons a acts =>
    cases a with
    | request _ _ => cases (List.cons.inj hmsg).1
    | task => cases (List.cons.inj hmsg).1
    | send q item' =>
      obtain ⟨he, hrest⟩ := List.cons.inj hmsg
      obtain ⟨rfl, rfl⟩ := ToManager.work.inj he
      refine .busy job none acts
        ⟨hb.worker, hb.active, haw, hb.handshake.tail hm rfl _ _ _, hrest, hb.assigned, ?_, hb.jobs⟩
      rw [List.append_assoc]
      exact hb.scheduled

/-- A task of the manager. -/
theorem Fits.task (h : Fits isWorker does v) (haw : v.awaited = false)
    (hm : v.toManager = .task :: l) : Fits isWorker does { v with toManager := l } := by
  obtain ⟨job, next, acts, hb⟩ := h.busy_of_toManager (by rw [hm]; exact List.cons_ne_nil _ _)
  obtain rfl := hb.next_eq_none haw
  have hmsg := hb.messages
  rw [hm] at hmsg
  cases acts with
  | nil => cases (List.cons.inj hmsg).1
  | cons a acts =>
    cases a with
    | request _ _ => cases (List.cons.inj hmsg).1
    | send _ _ => cases (List.cons.inj hmsg).1
    | task =>
      exact .busy job none acts ⟨hb.worker, hb.active, haw, hb.handshake.tail hm rfl _ _ _,
        (List.cons.inj hmsg).2, hb.assigned, hb.scheduled, hb.jobs⟩

/-- The report at the end of a job. -/
theorem Fits.workdone {job : Job W} (h : Fits isWorker does v) (haw : v.awaited = false)
    (hm : v.toManager = .workdone job :: l) :
    Fits isWorker does { v with
      active := false
      toManager := l
      finished := v.finished ++ [job] } := by
  obtain ⟨job', next, acts, hb⟩ := h.busy_of_toManager (by rw [hm]; exact List.cons_ne_nil _ _)
  obtain rfl := hb.next_eq_none haw
  have hmsg := hb.messages
  rw [hm] at hmsg
  cases acts with
  | cons a acts => cases a <;> cases (List.cons.inj hmsg).1
  | nil =>
    obtain ⟨he, hrest⟩ := List.cons.inj hmsg
    obtain rfl := ToManager.workdone.inj he
    obtain ⟨hl, hsend⟩ := List.append_eq_nil_iff.mp hrest
    have htw : v.toWorker = [] := by
      have hh := hb.handshake
      unfold View.Handshake at hh
      cases hw : v.worker with
      | awaiting _ _ _ _ => rw [hw] at hsend; cases hsend
      | _ => rw [hw] at hh; exact hh.1
    refine .rest ⟨fun _ => rfl, haw, hsend, htw, hl, ?_, ?_, hb.jobs, fun hno => absurd hb.worker hno⟩
    · rw [hb.assigned, List.map_append]
      rfl
    · have hsch := hb.scheduled
      rw [Option.toList_none, List.map_nil, List.flatMap_nil, List.append_nil,
        List.append_nil] at hsch
      rw [List.flatMap_append, List.flatMap_singleton]
      exact hsch

/-- What the manager gets after an acknowledgement is the item of the request. -/
theorem Fits.newWork (h : Fits isWorker does v) (haw : v.awaited = true)
    (hm : v.toManager = m :: l) : ∃ qidx item, m = .work qidx item ∧
      Fits isWorker does { v with
        awaited := false
        toManager := l
        scheduled := v.scheduled ++ [item] } := by
  obtain ⟨job, next, acts, hb⟩ := h.busy_of_toManager (by rw [hm]; exact List.cons_ne_nil _ _)
  have hmsg := hb.messages
  have hsome := hb.awaited
  rw [hm] at hmsg
  cases next with
  | none => rw [haw] at hsome; cases hsome
  | some p =>
    obtain ⟨rfl, hrest⟩ := List.cons.inj hmsg
    refine ⟨p.1, p.2, rfl, .busy job none acts ⟨hb.worker, hb.active, rfl,
      hb.handshake.tail hm rfl _ _ _, hrest, hb.assigned, ?_, hb.jobs⟩⟩
    rw [List.append_assoc]
    exact hb.scheduled

/-! ## The worker's steps -/

/-- A worker in its loop receives nothing but an item. -/
theorem Fits.take {m : ToWorker W} {l : List (ToWorker W)} (h : Fits isWorker does v)
    (hw : v.worker = .polling) (hm : v.toWorker = m :: l) : ∃ item, m = .work item ∧
      ∀ acts, does item acts → Fits isWorker does { v with
        worker := .working ⟨item, acts⟩ acts
        toWorker := l } := by
  cases h with
  | rest h =>
    have htw := h.toWorker
    rw [hm] at htw
    cases htw
  | busy job next acts hb =>
    have hh := hb.handshake
    unfold View.Handshake at hh
    rw [hw, hm] at hh
    cases hh.1
  | given item worker active awaited toSend htw htm assigned scheduled jobs =>
    rw [hm] at htw
    obtain ⟨rfl, rfl⟩ := List.cons.inj htw
    refine ⟨item, rfl, fun acts hdoes => .busy ⟨item, acts⟩ none acts
      ⟨worker, active, awaited, ?_, ?_, assigned, ?_, ?_⟩⟩
    · unfold View.Handshake
      rw [htm]
      exact ⟨rfl, fun _ hx => absurd hx List.not_mem_nil⟩
    · rw [htm]
      rfl
    · rw [scheduled]
      rfl
    · intro job hj
      rcases List.mem_append.mp hj with hj | hj
      · exact jobs job hj
      · rw [List.mem_singleton.mp hj]
        exact hdoes

/-- A worker at its work sends its next message. -/
theorem Fits.send {job : Job W} {rest : List (Action W)} {w : Worker W}
    (h : Fits isWorker does v) (hw : v.worker = .working job rest)
    (hsend : remaining rest job = m :: w.toSend)
    (hwait : (∃ qidx item rest', m = .request qidx ∧ w = .awaiting job qidx item rest') ∨
      m.isRequest = false ∧ ∀ job qidx item rest', w ≠ .awaiting job qidx item rest') :
    Fits isWorker does { v with worker := w, toManager := v.toManager ++ [m] } := by
  have hne : v.worker.toSend ≠ [] := by
    rw [hw]
    exact remaining_ne_nil rest job
  obtain ⟨job', next, acts, hb⟩ := h.busy_of_toSend hne
  have hh := hb.handshake
  have hmsg := hb.messages
  unfold View.Handshake at hh
  rw [hw] at hh hmsg
  refine .busy job' next acts
    ⟨hb.worker, hb.active, hb.awaited, ?_, ?_, hb.assigned, hb.scheduled, hb.jobs⟩
  · unfold View.Handshake
    dsimp only
    rcases hwait with ⟨qidx, item, rest', rfl, rfl⟩ | ⟨hr, hna⟩
    · exact Or.inl ⟨hh.1, _, qidx, rfl, hh.2⟩
    · have hno : NoRequest (v.toManager ++ [m]) := by
        intro x hx
        rcases List.mem_append.mp hx with hx | hx
        · exact hh.2 x hx
        · rw [List.mem_singleton.mp hx]
          exact hr
      cases w with
      | awaiting job qidx item rest' => exact absurd rfl (hna job qidx item rest')
      | _ => exact ⟨hh.1, hno⟩
  · dsimp only
    rw [List.append_assoc, List.singleton_append, ← hsend]
    exact hmsg

/-- The answer to a request, and the item that follows it. -/
theorem Fits.ack {job : Job W} {qidx : ℕ} {item : W} {rest : List (Action W)} {m : ToWorker W}
    {l : List (ToWorker W)} (h : Fits isWorker does v)
    (hw : v.worker = .awaiting job qidx item rest) (hm : v.toWorker = m :: l) :
    Fits isWorker does { v with
      worker := .working job rest
      toWorker := l
      toManager := v.toManager ++ [.work qidx item] } := by
  have hne : v.worker.toSend ≠ [] := by
    rw [hw]
    exact List.cons_ne_nil _ _
  obtain ⟨job', next, acts, hb⟩ := h.busy_of_toSend hne
  have hh := hb.handshake
  have hmsg := hb.messages
  unfold View.Handshake at hh
  rw [hw] at hh hmsg
  rcases hh with ⟨htw, -⟩ | ⟨htw, htm⟩
  · rw [hm] at htw
    cases htw
  · rw [hm] at htw
    obtain ⟨-, rfl⟩ := List.cons.inj htw
    refine .busy job' next acts
      ⟨hb.worker, hb.active, hb.awaited, ?_, ?_, hb.assigned, hb.scheduled, hb.jobs⟩
    · unfold View.Handshake
      dsimp only
      refine ⟨rfl, fun x hx => ?_⟩
      rw [htm, List.nil_append] at hx
      rw [List.mem_singleton.mp hx]
      rfl
    · dsimp only
      rw [List.append_assoc, List.singleton_append]
      exact hmsg

/-- A worker that polls or gives up polling. -/
theorem Fits.leave (h : Fits isWorker does v) (hw : v.worker = .polling) :
    Fits isWorker does { v with worker := .returned } := by
  cases h with
  | rest h => exact .rest { h with toSend := rfl }
  | given item h1 h2 h3 _ h5 h6 h7 h8 h9 => exact .given item h1 h2 h3 rfl h5 h6 h7 h8 h9
  | busy job next acts hb =>
    have hh := hb.handshake
    have hmsg := hb.messages
    unfold View.Handshake at hh
    rw [hw] at hh hmsg
    exact .busy job next acts
      ⟨hb.worker, hb.active, hb.awaited, hh, hmsg, hb.assigned, hb.scheduled, hb.jobs⟩

end MpiToShmem.Pwt
