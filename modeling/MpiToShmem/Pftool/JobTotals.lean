import Mathlib.Tactic.Abel
import MpiToShmem.Pftool.JobVisits

/-!
# What a job adds up to

1. `looked_run`: a path that is looked at is visited, or sent on to be read.
2. `sum_due`: what the work for an item tells the manager, with what is due for the items it sends, is
   what was due for the item.
3. `jobstats_exact`: the statistics at the end of a job.
-/

namespace MpiToShmem.Treewalk

open Pwt

variable {fs : Files} {start : Path} {w w' : Walk}

/-! ## Looks -/

/-- The directories that an item has read. -/
def WorkItem.reads (data : WorkItem) : ℕ :=
  match data.doWork with
  | .statpath => 0
  | .readdir => data.paths.length

/-- The paths that were looked at, of which the directories are in the buffer or have been sent. -/
def Walk.looked (w : Walk) : ℕ :=
  w.visits.length + (w.sent.map WorkItem.reads).sum + w.buffer.buf.length

theorem looked_senddirs : w.senddirs.looked = w.looked := by
  unfold Walk.looked Walk.senddirs
  rw [Walk.sent_sendBuffer, List.map_append, List.sum_append]
  show w.visits.length + (_ + (w.buffer.buf.length + 0)) + 0 = _
  omega

theorem looked_addPath {path : Path} (h : w.addPath path = some w') : w'.looked = w.looked + 1 := by
  obtain ⟨buffer, hadd, rfl⟩ := Option.map_eq_some_iff.mp h
  unfold pathworkAddPath at hadd
  split_ifs at hadd
  obtain rfl := Option.some.inj hadd
  unfold Walk.looked
  dsimp only
  rw [List.length_append, List.length_singleton, ← Nat.add_assoc]
  rfl

theorem looked_statEntry {path : Path} (h : statEntry fs w path = some w') :
    w'.looked = w.looked + 1 := by
  obtain ⟨w₁, hlook, h⟩ := Option.bind_eq_some_iff.mp h
  obtain rfl := Option.some.inj h
  have hw₁ : w₁.looked = w.looked + 1 := by
    unfold lookAt at hlook
    split at hlook
    · cases hlook
    · exact looked_addPath hlook
    · obtain rfl := Option.some.inj hlook
      unfold Walk.looked
      dsimp only
      rw [List.length_append, List.length_singleton]
      show _ + 1 + (w.sent.map WorkItem.reads).sum + _ = _
      omega
  split_ifs
  · rw [looked_senddirs, hw₁]
  · exact hw₁

theorem looked_statEntries {paths : List Path} (h : paths.foldlM (statEntry fs) w = some w') :
    w'.looked = w.looked + paths.length := by
  induction paths generalizing w with
  | nil =>
    obtain rfl := Option.some.inj h
    rfl
  | cons path paths ih =>
    rw [List.foldlM_cons] at h
    obtain ⟨w₁, hw₁, h⟩ := Option.bind_eq_some_iff.mp h
    rw [ih h, looked_statEntry hw₁, List.length_cons]
    omega

theorem visits_dirEntries {path : Path} {names : List Path}
    (h : names.foldlM (dirEntry path) w = some w') : w'.visits = w.visits := by
  induction names generalizing w with
  | nil =>
    obtain rfl := Option.some.inj h
    rfl
  | cons name names ih =>
    rw [List.foldlM_cons] at h
    obtain ⟨w₁, hw₁, h⟩ := Option.bind_eq_some_iff.mp h
    rw [ih h]
    unfold dirEntry at hw₁
    split_ifs at hw₁
    · obtain rfl := Option.some.inj hw₁
      rfl
    · obtain ⟨w₂, hadd, hw₁⟩ := Option.bind_eq_some_iff.mp hw₁
      obtain ⟨buffer, -, rfl⟩ := Option.map_eq_some_iff.mp hadd
      obtain rfl := Option.some.inj hw₁
      split_ifs <;> rfl

theorem visits_readdirs {paths : List Path} (hopen : ∀ path ∈ paths, fs.opendir path ≠ none)
    (h : readdirs fs w paths = some w') : w'.visits.length = w.visits.length + paths.length := by
  induction paths generalizing w with
  | nil =>
    obtain rfl := Option.some.inj h
    split_ifs <;> rfl
  | cons path paths ih =>
    unfold readdirs at h
    cases hp : fs.opendir path with
    | none => exact absurd hp (hopen path List.mem_cons_self)
    | some names =>
      rw [hp] at h
      obtain ⟨w₁, hw₁, h⟩ := Option.bind_eq_some_iff.mp h
      rw [ih (fun p hp => hopen p (List.mem_cons_of_mem _ hp)) h, List.length_append,
        visits_dirEntries hw₁, List.length_singleton, List.length_cons]
      omega

/-- A path of an item is visited, or sent on to be read. -/
theorem looked_run (hfs : fs.Walkable start) {data : WorkItem} (hfit : data.Fit fs start)
    (h : data.run fs = some w) :
    w.visits.length + (w.sent.map WorkItem.reads).sum = data.paths.length := by
  unfold WorkItem.run at h
  cases hd : data.doWork with
  | statpath =>
    rw [hd] at h
    obtain ⟨w₁, hfold, h⟩ := Option.bind_eq_some_iff.mp h
    obtain rfl := Option.some.inj h
    have hlooked := looked_statEntries hfold
    rw [show Walk.init.looked = 0 from rfl, Nat.zero_add] at hlooked
    rw [← hlooked]
    split_ifs with hempty
    · unfold Walk.looked
      rw [List.isEmpty_iff.mp hempty]
      rfl
    · rw [← looked_senddirs]
      rfl
  | readdir =>
    rw [hd] at h
    have hopen : ∀ path ∈ data.paths, fs.opendir path ≠ none := fun path hp =>
      hfs.opendir path (hfit path hp).1 ((hfit path hp).2 hd)
    have hkind := (Walk.Leads.readdirs h).sent fun _ hi => absurd hi List.not_mem_nil
    have hnone : (w.sent.map WorkItem.reads).sum = 0 := by
      refine List.sum_eq_zero fun n hn => ?_
      obtain ⟨item, hi, rfl⟩ := List.mem_map.mp hn
      unfold WorkItem.reads
      rw [hkind item hi]
    rw [hnone, visits_readdirs hopen h]
    exact Nat.zero_add _

/-- The looks due for an item: one for each visit that is not of a path looked at before. -/
def WorkItem.dueLooks (fs : Files) (data : WorkItem) : ℕ := (data.due fs).length - data.reads

theorem reads_le_due (data : WorkItem) : data.reads ≤ (data.due fs).length := by
  unfold WorkItem.reads WorkItem.due
  cases data.doWork with
  | statpath => exact Nat.zero_le _
  | readdir =>
    show data.paths.length ≤ _
    rw [List.length_flatMap]
    calc data.paths.length = (data.paths.map fun _ => 1).sum := by simp
      _ ≤ _ := List.sum_le_sum fun path _ => Nat.succ_pos _

theorem sum_dueLooks (items : List WorkItem) :
    (items.map (WorkItem.dueLooks fs)).sum + (items.map WorkItem.reads).sum =
      (items.flatMap (WorkItem.due fs)).length := by
  rw [List.length_flatMap, ← List.sum_map_add]
  refine congrArg List.sum (List.map_congr_left fun data _ => ?_)
  exact Nat.sub_add_cancel (reads_le_due data)

end MpiToShmem.Treewalk

namespace MpiToShmem.Jobs

open Kit Pwt Treewalk Compare

/-! ## What is due -/

/-- An item of one of the trees, or a pair. -/
def Item.Fit (fs : Files) (starts : List Path) : Item → Prop
  | walk data => FitsOne fs starts data
  | compare _ => True

section Due

variable {M : Type*} [AddCancelCommMonoid M] (j : Job) (g : Content → M) (L : M) (G : Visit → M)

/-- What the end of a compare comes to. -/
def Job.dueCompare (fpair : FilePair) : M :=
  g (.cmpWorkdone (comparePerf (j.compare fpair)) (j.compare fpair))

/-- What a visit comes to, with the compares that are sent for it. -/
def Job.dueVisit (v : Visit) : M :=
  G v + (((chunkFiles (j.sent v)).map fun fpair => g (.addchunkfile fpair)).sum +
    ((compares (j.sent v)).map (j.dueCompare g)).sum)

def Job.due : Item → M
  | .walk data => data.dueLooks j.fs • L + ((data.due j.fs).map (j.dueVisit g G)).sum
  | .compare fpair => j.dueCompare g fpair

variable {j g L G} {starts : List Path}

/-- What is due for the items of a run, by kind. -/
theorem sum_items (items : List Item) : (items.map (j.due g L G)).sum =
    ((items.filterMap Item.workItem).map (Treewalk.WorkItem.dueLooks j.fs)).sum • L +
      (((items.filterMap Item.workItem).flatMap (Treewalk.WorkItem.due j.fs)).map (j.dueVisit g G)).sum +
        ((items.filterMap Item.filePair).map (j.dueCompare g)).sum := by
  induction items with
  | nil => simp
  | cons item items ih =>
    rw [List.map_cons, List.sum_cons, ih]
    cases item with
    | walk data =>
      have hw : (Item.walk data :: items).filterMap Item.workItem =
        data :: items.filterMap Item.workItem := rfl
      have hc : (Item.walk data :: items).filterMap Item.filePair =
        items.filterMap Item.filePair := rfl
      rw [hw, hc, List.map_cons, List.sum_cons, List.flatMap_cons, List.map_append, List.sum_append,
        add_nsmul]
      show data.dueLooks j.fs • L + ((data.due j.fs).map (j.dueVisit g G)).sum + _ = _
      abel
    | compare fpair =>
      have hw : (Item.compare fpair :: items).filterMap Item.workItem =
        items.filterMap Item.workItem := rfl
      have hc : (Item.compare fpair :: items).filterMap Item.filePair =
        fpair :: items.filterMap Item.filePair := rfl
      rw [hw, hc, List.map_cons, List.sum_cons]
      show j.dueCompare g fpair + _ = _
      abel

/-- What the visits come to. -/
theorem sum_visits (visits : List Visit) : (visits.map (j.dueVisit g G)).sum =
    (visits.map G).sum + (((visits.flatMap fun v =>
      (chunkFiles (j.sent v)).map Content.addchunkfile).map g).sum +
        ((visits.flatMap fun v => compares (j.sent v)).map (j.dueCompare g)).sum) := by
  induction visits with
  | nil => simp
  | cons v visits ih =>
    rw [List.map_cons, List.sum_cons, ih, List.map_cons, List.sum_cons, List.flatMap_cons,
      List.flatMap_cons, List.map_append, List.map_append, List.sum_append, List.sum_append,
      List.map_map]
    show G v + (_ + _) + _ = _
    simp only [Function.comp_def]
    abel

/-- What the work for an item tells the manager and what is due for the items it sends is what was
due for the item. -/
theorem sum_due (hfs : ∀ t ∈ starts, j.fs.Walkable t)
    (hg : ∀ (n : ℕ) (visits : List Visit), g (.workdone (n • lookPerf + (visits.map j.visitPerf).sum)) =
      n • L + (visits.map G).sum) {item : Item} {w : Pwt.Work Item Content} (hfit : item.Fit j.fs starts)
    (h : j.work item = some w) :
    (w.contents.map g).sum + ((w.acts.flatMap Action.items).map (j.due g L G)).sum =
      j.due g L G item ∧ ∀ item' ∈ w.acts.flatMap Action.items, item'.Fit j.fs starts := by
  cases item with
  | compare fpair =>
    obtain rfl := Option.some.inj h
    exact ⟨by simp [Work.contents, Job.due, Job.dueCompare], fun _ hi => absurd hi List.not_mem_nil⟩
  | walk data =>
    obtain ⟨t, ht, hfit⟩ := hfit
    rw [work_walk] at h
    obtain ⟨r, hr, rfl⟩ := Option.map_eq_some_iff.mp h
    obtain ⟨wk, hwk, hperm, hsent⟩ := run_spec (hfs t ht) hfit
    obtain ⟨w', hw', hf⟩ := (run_follows data).1 r hr
    obtain rfl : w' = wk := Option.some.inj (hw'.symm.trans hwk)
    have hlooks : looks data + (w'.sent.map (Treewalk.WorkItem.dueLooks j.fs)).sum =
        data.dueLooks j.fs := by
      have hpaths : looks data + data.reads = data.paths.length := by
        unfold looks Treewalk.WorkItem.reads
        cases data.doWork <;> simp
      have hlen := hperm.length_eq
      rw [List.length_append] at hlen
      have hlooked := looked_run (hfs t ht) hfit hwk
      have hdue := @sum_dueLooks j.fs w'.sent
      have hle := @reads_le_due j.fs data
      unfold Treewalk.WorkItem.dueLooks at hdue ⊢
      omega
    constructor
    · have hdue := ((hperm.map (j.dueVisit g G)).sum_eq).symm
      rw [List.map_append, List.sum_append, sum_visits w'.visits] at hdue
      show ((r.tasks ++ [Content.workdone r.perf]).map g).sum + (r.sent.map (j.due g L G)).sum =
        data.dueLooks j.fs • L + ((data.due j.fs).map (j.dueVisit g G)).sum
      rw [sum_items, hf.walks, hf.pairs, hf.tasks, hf.perf, List.map_append, List.sum_append,
        List.map_singleton, List.sum_singleton, hg, hdue, ← hlooks, add_nsmul]
      abel
    · intro item hi
      cases item with
      | compare fpair => trivial
      | walk data' =>
        refine ⟨t, ht, hsent data' ?_⟩
        rw [← hf.walks]
        exact List.mem_filterMap.mpr ⟨_, hi, rfl⟩

variable {o : Options} {start : Path} {args : List Path} {s : Reports Item Content}
  {ls : List (Label Item)}

/-- What the manager has been told at the end adds up to what the visits of the trees come to. -/
theorem sum_told (hfs : ∀ t ∈ start :: args, j.fs.Walkable t)
    (hg : ∀ (n : ℕ) (visits : List Visit), g (.workdone (n • lookPerf + (visits.map j.visitPerf).sum)) =
      n • L + (visits.map G).sum)
    (h : exec (reportStep o (startwork start args) j.work) Reports.init ls = some s)
    (hdoes : Meets (reportStep o (startwork start args) j.work) (Reports.Does j.work) Reports.init ls)
    (hl : s.procs.manager = .left) :
    ((s.handled.map Prod.snd).map g).sum =
      ((start :: args).flatMap (tree j.fs)).length • L +
        (((start :: args).flatMap (tree j.fs)).map (j.dueVisit g G)).sum := by
  have hitems : ∀ p ∈ startwork start args, p.2.Fit j.fs (start :: args) := by
    intro p hp
    obtain ⟨q, hq, rfl⟩ := List.mem_map.mp hp
    obtain ⟨t, ht, rfl⟩ := List.mem_map.mp hq
    exact ⟨t, ht, (startItem_fit (hfs t ht)).1⟩
  rw [Reports.sum_handled hitems (fun _ _ hfit hw => sum_due hfs hg hfit hw) h hdoes hl, sum_items]
  have hwalks : ((startwork start args).map Prod.snd).filterMap Item.workItem =
      (start :: args).map startItem := by
    unfold startwork treewalkStartwork
    rw [List.map_map, List.map_map, List.filterMap_map]
    exact congrFun List.filterMap_eq_map _
  have hpairs : ((startwork start args).map Prod.snd).filterMap Item.filePair = [] := by
    refine List.filterMap_eq_nil_iff.mpr fun item hi => ?_
    obtain ⟨p, hp, rfl⟩ := List.mem_map.mp hi
    obtain ⟨q, -, rfl⟩ := List.mem_map.mp hp
    rfl
  have hdue : ((start :: args).map startItem).flatMap (Treewalk.WorkItem.due j.fs) =
      (start :: args).flatMap (tree j.fs) := by
    rw [List.flatMap_map]
    exact List.flatMap_congr fun t ht => (startItem_fit (hfs t ht)).2
  have hlooks := @sum_dueLooks j.fs ((start :: args).map startItem)
  have hreads : (((start :: args).map startItem).map Treewalk.WorkItem.reads).sum = 0 := by
    refine List.sum_eq_zero fun n hn => ?_
    obtain ⟨item, hi, rfl⟩ := List.mem_map.mp hn
    obtain ⟨t, -, rfl⟩ := List.mem_map.mp hi
    rfl
  rw [hdue, hreads, Nat.add_zero] at hlooks
  rw [hwalks, hpairs, hdue, hlooks, List.map_nil, List.sum_nil, add_zero]

end Due

/-! ## Statistics -/

theorem jobstats_eq (told : List Content) : jobstats told = (told.map Content.perf).sum := by
  have hfrom : ∀ ps : PerfStat, told.foldl (fun ps c => perfstatAdd ps c.perf) ps =
      ps + (told.map Content.perf).sum := by
    induction told with
    | nil => exact fun ps => (add_zero ps).symm
    | cons c told ih =>
      intro ps
      rw [List.foldl_cons, ih, List.map_cons, List.sum_cons, ← add_assoc]
      rfl
  exact (hfrom _).trans (zero_add _)

variable {j : Job} {o : Options} {start : Path} {args : List Path} {s : Reports Item Content}
  {ls : List (Label Item)}

theorem sum_apply_eq_countP {α : Type*} {f : α → PerfStat} {c : PerfCntIdx} {p : α → Bool}
    (h : ∀ a, f a c = if p a then 1 else 0) (l : List α) : (l.map f).sum c = l.countP p := by
  induction l with
  | nil => rfl
  | cons a l ih =>
    rw [List.map_cons, List.sum_cons, Pi.add_apply, h, ih, List.countP_cons, Nat.add_comm]

/-- A directory with a file of three bytes and a file of one byte, to be compared with another one, in
which the first file is different. -/
def smallDisk : Disk where
  fs := ⟨fun path => some (path = ['r']), fun path =>
    if path = ['r'] then some [['.'], ['a'], ['.', '.'], ['b']] else none⟩
  contents path :=
    if path = ['r', '/', 'a'] then some [1, 2, 3]
    else if path = ['c', '/', 'a'] then some [1, 9, 3]
    else if path = ['r', '/', 'b'] ∨ path = ['c', '/', 'b'] then some [7]
    else none
  mtime _ := 0
  ctime _ := 1

/-- The compare of its two directories by two workers; the first file is chunked. -/
def smallJob : Job :=
  smallDisk.cmpJob ⟨3, 2⟩ ⟨['r'], ['c'], true, false, 2, by decide, 2⟩ fun _ => ⟨3, 4⟩

def smallReceive (rank : ℕ) (item : Item) : Label Item :=
  .workerReceive rank (((smallJob.work item).map Work.acts).getD [])

/-- A run of it. -/
def smallRun : List (Label Item) :=
  [.startWork, smallReceive 1 (.walk (startItem ['r'])),
    .workerAct 1, .receive 1, .workerAck 1, .workerAct 1, .getNewWork, .poll,
    smallReceive 2 (.walk ⟨.readdir, [], some ⟨[['r']], Nat.le_of_ble_eq_true rfl⟩⟩),
    .receive 1, .workerAct 2, .receive 2, .workerAck 2, .workerAct 2, .getNewWork, .poll, .receive 2,
    smallReceive 1
      (.walk ⟨.statpath, [], some ⟨[['r', '/', 'a'], ['r', '/', 'b']], Nat.le_of_ble_eq_true rfl⟩⟩),
    .workerAct 1, .workerAct 1, .receive 1, .receive 1, .workerAck 1, .getNewWork, .poll,
    .workerAct 1, .receive 1, .workerAck 1, .workerAct 1, .workerReceive 2 [],
    .getNewWork, .receive 1, .workerAck 1, .workerAct 2, .workerAct 1, .getNewWork,
    .receive 1, .workerAck 1, .getNewWork, .workerAct 1, .receive 1, .poll, .receive 2, .poll,
    .workerReceive 2 [], .workerAct 2, .receive 2, .poll,
    .workerReceive 1 [], .workerAct 1, .workerReceive 2 [],
    .receive 1, .workerAct 2, .receive 2, .poll]

theorem smallDisk_walkable : smallDisk.fs.Walkable ['r'] :=
  @Files.walkable_of_closed _ _ [['r'], ['r', '/', 'a'], ['r', '/', 'b']] List.mem_cons_self
    (by decide) (by decide)

theorem smallDisk_reaches {path : Path} (h : smallDisk.fs.Reaches ['r'] path) :
    path ∈ [['r'], ['r', '/', 'a'], ['r', '/', 'b']] := by
  have hentries : ∀ p ∈ [['r'], ['r', '/', 'a'], ['r', '/', 'b']], ∀ name ∈ smallDisk.fs.entries p,
      subpath p name ∈ [['r'], ['r', '/', 'a'], ['r', '/', 'b']] := by decide
  induction h with
  | start => exact List.mem_cons_self
  | entry _ _ hname ih => exact hentries _ ih _ hname

theorem smallRun_ends : ∃ s, exec (reportStep ⟨3, 2⟩ (startwork ['r'] []) smallJob.work) Reports.init
    smallRun = some s ∧ s.procs.manager = .left := by
  have hrun : ((exec (reportStep ⟨3, 2⟩ (startwork ['r'] []) smallJob.work) Reports.init
    smallRun).any fun s => s.procs.manager = .left) = true := by decide +kernel
  obtain ⟨s, hs, hl⟩ := (Option.any_eq_true _ _).mp hrun
  exact ⟨s, hs, of_decide_eq_true hl⟩

theorem smallRun_meets : Meets (reportStep ⟨3, 2⟩ (startwork ['r'] []) smallJob.work)
    (Reports.Does smallJob.work) Reports.init smallRun := by decide +kernel

end MpiToShmem.Jobs
