import Mathlib.Algebra.BigOperators.Group.List.Lemmas
import MpiToShmem.Kit.Related
import MpiToShmem.Pftool.Jobs
import MpiToShmem.Pftool.WalkEnds

/-!
# What a job does on its visits

A job visits what the walk visits. What it sends besides the items of the walk, and what it counts,
goes with the visits.

1. `Follows`: the work of a job and the walk after the same paths.
2. `run_follows`: the whole work for an item of the walk.

Where `processfile` announces a file to the manager before it sends a chunk of it, so does the whole
work.
-/

namespace MpiToShmem.Jobs

open Kit Pwt Treewalk Compare
open Pwt.Reports (split_concat)

/-! ## Items -/

def Item.workItem : Item → Option Treewalk.WorkItem
  | walk data => some data
  | compare _ => none

def Item.filePair : Item → Option FilePair
  | walk _ => none
  | compare fpair => some fpair

/-- The items that a work function has sent. -/
def Run.sent (r : Run) : List Item := r.acts.flatMap Action.items

/-- The files that are announced to the manager. -/
def chunkFiles (msgs : List Message) : List FilePair :=
  msgs.filterMap fun m =>
    match m with
    | .addchunkfile fpair => some fpair
    | .compare _ => none

variable (j : Job)

/-! ## Visits -/

/-- What `processfile` does with a file of the walk. -/
def Job.processed (path : Path) : Option Processed :=
  j.processfile (fileinfoInitStat path (j.stat path))

/-- What is sent for a visit. -/
def Job.sent : Visit → List Message
  | .processfile path => ((j.processed path).map Processed.sent).getD []
  | .readdir _ => []

/-- A stat more is counted for a visit. -/
def Job.stats : Visit → Bool
  | .processfile path => ((j.processed path).map Processed.stats).getD false
  | .readdir _ => false

/-- What is counted for a visit, without the look at its path. -/
def Job.visitPerf (v : Visit) : PerfStat
  | .dirsRead => if v.isDir then 1 else 0
  | .statCalls => if j.stats v then 1 else 0
  | _ => 0

def lookPerf : PerfStat
  | .statCalls => 1
  | _ => 0

/-- The messages announce a file before each chunk of it. -/
def Announces (msgs : List Message) : Prop :=
  ∀ l fpair m, msgs = l ++ .compare fpair :: m → 0 ≤ fpair.chunknum →
    ∃ f ∈ chunkFiles l, f.src.path = fpair.src.path

/-- Before a chunk is sent, a task with its file has been. -/
def Run.Announced (r : Run) : Prop :=
  ∀ l a m fpair, r.acts = l ++ a :: m → .compare fpair ∈ a.items → 0 ≤ fpair.chunknum →
    ∃ f, .addchunkfile f ∈ r.tasks.take (l.countP Action.isTask) ∧ f.src.path = fpair.src.path

def Job.Announces : Prop := ∀ path p, j.processed path = some p → Jobs.Announces p.sent

/-! ## The work and the walk -/

section Follows

variable {j} {r : Run} {w : Walk} {n : ℕ}

namespace Run

theorem sent_request (qidx : ℕ) (item : Item) : (r.request qidx item).sent = r.sent ++ [item] := by
  unfold sent request
  rw [List.flatMap_append]
  rfl

theorem sent_task (c : Content) : (r.task c).sent = r.sent := by
  unfold sent task
  rw [List.flatMap_append]
  exact List.append_nil _

theorem sent_sendBuffer (doWork : DoWork) :
    (r.sendBuffer doWork).sent = r.sent ++ [.walk ⟨doWork, [], some r.buffer⟩] := sent_request _ _

/-- What the messages of a file add to the run. -/
theorem foldl_send (msgs : List Message) (r : Run) :
    (msgs.foldl send r).buffer = r.buffer ∧ (msgs.foldl send r).perf = r.perf ∧
      (msgs.foldl send r).sent = r.sent ++ (compares msgs).map Item.compare ∧
      (msgs.foldl send r).tasks = r.tasks ++ (chunkFiles msgs).map Content.addchunkfile := by
  induction msgs generalizing r with
  | nil => exact ⟨rfl, rfl, (List.append_nil _).symm, (List.append_nil _).symm⟩
  | cons m msgs ih =>
    rw [List.foldl_cons]
    obtain ⟨hbuffer, hperf, hsent, htasks⟩ := ih (r.send m)
    rw [hbuffer, hperf, hsent, htasks]
    cases m with
    | addchunkfile fpair =>
      refine ⟨rfl, rfl, ?_, ?_⟩
      · exact congrArg (· ++ _) (sent_task _)
      · exact List.append_assoc _ _ _
    | compare fpair =>
      refine ⟨rfl, rfl, ?_, rfl⟩
      rw [show r.send (.compare fpair) = r.request 1 (.compare fpair) from rfl, sent_request,
        List.append_assoc]
      rfl

theorem announced_request (h : r.Announced) {qidx : ℕ} {item : Item}
    (hitem : ∀ fpair, item = .compare fpair → 0 ≤ fpair.chunknum →
      ∃ f, .addchunkfile f ∈ r.tasks ∧ f.src.path = fpair.src.path) :
    (r.request qidx item).Announced := by
  intro l a m fpair he hmem hc
  rcases split_concat he with ⟨rfl, rfl⟩ | ⟨m', hm'⟩
  · obtain ⟨f, hf, hpath⟩ := hitem fpair (List.mem_singleton.mp hmem).symm hc
    refine ⟨f, ?_, hpath⟩
    show _ ∈ r.tasks.take _
    rw [List.take_of_length_le (Nat.le_of_eq r.tasks_length)]
    exact hf
  · exact h l a m' fpair hm' hmem hc

theorem announced_task (h : r.Announced) (c : Content) : (r.task c).Announced := by
  intro l a m fpair he hmem hc
  rcases split_concat he with ⟨-, rfl⟩ | ⟨m', hm'⟩
  · cases hmem
  · obtain ⟨f, hf, hpath⟩ := h l a m' fpair hm' hmem hc
    have hle : l.countP Action.isTask ≤ r.tasks.length := by
      rw [r.tasks_length, hm', List.countP_append]
      exact Nat.le_add_right _ _
    refine ⟨f, ?_, hpath⟩
    show _ ∈ (r.tasks ++ [c]).take _
    rw [List.take_append_of_le_length hle]
    exact hf

theorem announced_sendBuffer (h : r.Announced) (doWork : DoWork) : (r.sendBuffer doWork).Announced :=
  @announced_request _ h 0 _ fun _ he => by cases he

theorem announced_foldl_send {msgs : List Message} (hmsgs : Announces msgs) (h : r.Announced) :
    (msgs.foldl send r).Announced := by
  induction msgs using List.reverseRecOn with
  | nil => exact h
  | append_singleton msgs m ih =>
    have hbefore : Announces msgs := fun l fpair m' he =>
      hmsgs l fpair (m' ++ [m]) (by rw [he, List.append_assoc, List.cons_append])
    have ih := ih hbefore
    rw [List.foldl_append]
    cases m with
    | addchunkfile fpair => exact announced_task ih _
    | compare fpair =>
      refine announced_request ih fun fpair' he hc => ?_
      obtain rfl := Item.compare.inj he
      obtain ⟨f, hf, hpath⟩ := hmsgs msgs fpair [] rfl hc
      refine ⟨f, ?_, hpath⟩
      rw [(foldl_send msgs r).2.2.2]
      exact List.mem_append_right _ (List.mem_map_of_mem hf)

end Run

/-- The work of a job has looked at as many paths, and has visited, sent and put into its buffer what
the walk has. -/
structure Follows (j : Job) (n : ℕ) (r : Run) (w : Walk) : Prop where
  buffer : r.buffer = w.buffer
  walks : r.sent.filterMap Item.workItem = w.sent
  pairs : r.sent.filterMap Item.filePair = w.visits.flatMap fun v => compares (j.sent v)
  tasks : r.tasks = w.visits.flatMap fun v => (chunkFiles (j.sent v)).map Content.addchunkfile
  perf : r.perf = n • lookPerf + (w.visits.map j.visitPerf).sum
  announced : j.Announces → r.Announced

theorem follows_init : Follows j 0 Run.init Walk.init where
  buffer := rfl
  walks := rfl
  pairs := rfl
  tasks := rfl
  perf := by
    rw [zero_nsmul, zero_add]
    rfl
  announced _ _ _ _ _ he _ := absurd he.symm (List.append_ne_nil_of_right_ne_nil _ (List.cons_ne_nil _ _))

/-- A step of both; that of the job fails where the walk does not only if `p` does not hold. -/
abbrev Steps (p : Prop) (j : Job) (n : ℕ) : Option Run → Option Walk → Prop := Related p (Follows j n)

variable {p : Prop}

theorem Follows.sendBuffer (h : Follows j n r w) (doWork : DoWork) :
    Follows j n (r.sendBuffer doWork) (w.sendBuffer doWork) where
  buffer := rfl
  walks := by
    rw [Run.sent_sendBuffer, Walk.sent_sendBuffer, List.filterMap_append, h.walks, h.buffer]
    rfl
  pairs := by
    rw [Run.sent_sendBuffer, List.filterMap_append, h.pairs]
    exact List.append_nil _
  tasks := h.tasks
  perf := h.perf
  announced hj := Run.announced_sendBuffer (h.announced hj) doWork

theorem Follows.flush (h : Follows j n r w) (doWork : DoWork) :
    Follows j n (if pathworkIsFull r.buffer then r.sendBuffer doWork else r)
      (if pathworkIsFull w.buffer then w.sendBuffer doWork else w) := by
  rw [h.buffer]
  split_ifs
  · exact h.sendBuffer doWork
  · exact h

theorem Follows.finish (h : Follows j n r w) (doWork : DoWork) :
    Follows j n (if pathworkIsEmpty r.buffer then r else r.sendBuffer doWork)
      (if pathworkIsEmpty w.buffer then w else w.sendBuffer doWork) := by
  rw [h.buffer]
  split_ifs
  · exact h
  · exact h.sendBuffer doWork

theorem Follows.addPath (h : Follows j n r w) (path : Path) :
    Steps p j n (r.addPath path) (w.addPath path) := by
  unfold Run.addPath Walk.addPath
  rw [h.buffer]
  cases pathworkAddPath w.buffer path with
  | none => exact related_none
  | some buffer => exact related_some ⟨rfl, h.walks, h.pairs, h.tasks, h.perf, h.announced⟩

theorem Follows.incStats (h : Follows j n r w) : Follows j (n + 1) r.incStats w where
  buffer := h.buffer
  walks := h.walks
  pairs := h.pairs
  tasks := h.tasks
  perf := by
    funext c
    show Function.update r.perf .statCalls (r.perf .statCalls + 1) c = _
    rw [h.perf, add_nsmul, one_nsmul]
    cases c <;> simp [lookPerf, Pi.add_apply]
    omega
  announced := h.announced

theorem Follows.readdir (h : Follows j n r w) (path : Path) :
    Follows j n r.incDirsread { w with visits := w.visits ++ [.readdir path] } where
  buffer := h.buffer
  walks := h.walks
  pairs := by
    rw [List.flatMap_append, ← h.pairs]
    exact (List.append_nil _).symm
  tasks := by
    rw [List.flatMap_append, ← h.tasks]
    exact (List.append_nil _).symm
  perf := by
    rw [List.map_append, List.sum_append, ← add_assoc, ← h.perf]
    funext c
    cases c <;> simp [Run.incDirsread, perfstatIncDirsread, perfstatIncCounter, Job.visitPerf,
      Job.stats, Visit.isDir]
  announced := h.announced

/-- `processfile` returns, and its messages are sent. -/
theorem Follows.processfile (h : Follows j n r w) {path : Path} {f : Processed}
    (hf : j.processed path = some f) :
    Follows j n (f.sent.foldl Run.send (if f.stats then r.incStats else r))
      { w with visits := w.visits ++ [.processfile path] } := by
  have hsent : j.sent (.processfile path) = f.sent := by
    show ((j.processed path).map Processed.sent).getD [] = _
    rw [hf]
    rfl
  have hstats : j.stats (.processfile path) = f.stats := by
    show ((j.processed path).map Processed.stats).getD false = _
    rw [hf]
    rfl
  obtain ⟨hb, hperf, hs, ht⟩ := Run.foldl_send f.sent (if f.stats then r.incStats else r)
  have hsame : (if f.stats then r.incStats else r).buffer = r.buffer ∧
      (if f.stats then r.incStats else r).sent = r.sent ∧
      (if f.stats then r.incStats else r).tasks = r.tasks := by
    split_ifs <;> exact ⟨rfl, rfl, rfl⟩
  refine ⟨?_, ?_, ?_, ?_, ?_, fun hj => ?_⟩
  · rw [hb, hsame.1]
    exact h.buffer
  · rw [hs, hsame.2.1, List.filterMap_append, h.walks, List.filterMap_map]
    refine (congrArg _ (List.filterMap_eq_nil_iff.mpr ?_)).trans (List.append_nil _)
    exact fun _ _ => rfl
  · rw [hs, hsame.2.1, List.filterMap_append, h.pairs, List.filterMap_map, List.flatMap_append,
      List.flatMap_singleton, hsent]
    exact congrArg _ List.filterMap_some
  · rw [ht, hsame.2.2, List.flatMap_append, List.flatMap_singleton, hsent, h.tasks]
  · rw [hperf, List.map_append, List.sum_append, ← add_assoc, ← h.perf]
    funext c
    cases hst : f.stats <;> cases c <;>
      simp [Run.incStats, perfstatIncStats, perfstatIncCounter, Job.visitPerf, hstats, hst,
        Visit.isDir]
  · refine Run.announced_foldl_send (hj path f hf) ?_
    split_ifs <;> exact h.announced hj

theorem lookAt_follows (h : Follows j n r w) {path : Path}
    (hp : p → j.fs.lstat path = some false → j.processed path ≠ none) :
    Steps p j (n + 1) (lookAt j r path) (Treewalk.lookAt j.fs w path) := by
  unfold lookAt Treewalk.lookAt
  cases hstat : j.fs.lstat path with
  | none => exact related_none
  | some isDir =>
    cases isDir with
    | true => exact h.incStats.addPath path
    | false =>
      dsimp only
      cases hf : j.processfile (fileinfoInitStat path (j.stat path)) with
      | none => exact ⟨fun _ hx => (by cases hx), fun h => absurd hf (hp h hstat)⟩
      | some f => exact related_some (h.incStats.processfile hf)

theorem statEntry_follows (h : Follows j n r w) {path : Path}
    (hp : p → j.fs.lstat path = some false → j.processed path ≠ none) :
    Steps p j (n + 1) (statEntry j r path) (Treewalk.statEntry j.fs w path) :=
  related_bind (lookAt_follows h hp) fun _ _ h' => related_some (h'.flush .readdir)

theorem dirEntry_follows (h : Follows j n r w) (path name : Path) :
    Steps p j n (dirEntry path r name) (Treewalk.dirEntry path w name) := by
  unfold dirEntry Treewalk.dirEntry
  split_ifs
  · exact related_some h
  · exact related_bind (h.addPath (subpath path name)) fun _ _ h' => related_some (h'.flush .statpath)

theorem readdirs_follow (h : Follows j n r w) (paths : List Path) :
    Steps p j n (readdirs j r paths) (Treewalk.readdirs j.fs w paths) := by
  induction paths generalizing r w with
  | nil => exact related_some (h.finish .statpath)
  | cons path paths ih =>
    unfold readdirs Treewalk.readdirs
    cases j.fs.opendir path with
    | none => exact related_some h
    | some names =>
      have hentries := related_foldlM (p := p) (R := fun _ => Follows j n) (n := 0)
        (fun name _ _ _ _ h' => dirEntry_follows h' path name) h (l := names)
      exact related_bind hentries fun _ _ h' => ih (Follows.readdir h' path)

end Follows

/-- How many paths the work for an item looks at. -/
def looks (data : Treewalk.WorkItem) : ℕ :=
  match data.doWork with
  | .statpath => data.paths.length
  | .readdir => 0

/-- The work of a job for an item of the walk. -/
def Job.run (data : Treewalk.WorkItem) : Option Run :=
  match data.doWork with
  | .statpath => treewalkStatpath j data
  | .readdir => treewalkReaddir j data

/-- `processfile` returns for the files among the paths of an item. -/
def Job.Returns (data : Treewalk.WorkItem) : Prop :=
  ∀ path ∈ data.paths, j.fs.lstat path = some false → j.processed path ≠ none

variable {j}

theorem run_follows (data : Treewalk.WorkItem) :
    Steps (j.Returns data) j (looks data) (j.run data) (data.run j.fs) := by
  unfold Job.run Treewalk.WorkItem.run looks
  cases data.doWork with
  | statpath =>
    have h := related_foldlM (p := j.Returns data) (R := Follows j)
      (fun path hpath _ _ _ h => @statEntry_follows _ _ _ _ _ h path fun hp => hp path hpath)
      follows_init
    rw [Nat.zero_add] at h
    exact related_bind h fun _ _ h' => related_some (h'.finish .readdir)
  | readdir => exact readdirs_follow follows_init data.paths

theorem work_walk (data : Treewalk.WorkItem) : j.work (.walk data) = (j.run data).map Run.work := by
  unfold Job.run
  show (match data.doWork with
    | .statpath => (treewalkStatpath j data).map Run.work
    | .readdir => (treewalkReaddir j data).map Run.work) = _
  cases data.doWork <;> rfl

end MpiToShmem.Jobs
