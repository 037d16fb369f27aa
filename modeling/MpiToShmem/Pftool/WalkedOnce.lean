import Mathlib.Data.List.Nodup
import MpiToShmem.Pftool.Visits
import MpiToShmem.Pwt.Accounting

/-!
# A tree is walked once

1. `mem_tree`, `tree_nodup`: the visits due in a tree are one for each of its paths.
2. `visited_perm`: at the end of the walk the visits made are those due.
3. `visited_once`: each file was processed once and each directory read once, and nothing else.
-/

namespace MpiToShmem.Treewalk

open Kit Pwt
open scoped List

variable {fs : Files} {start : Path}

/-! ## The paths of a tree -/

def Visit.path : Visit → Path
  | processfile path => path
  | readdir path => path

def Visit.isDir : Visit → Bool
  | processfile _ => false
  | readdir _ => true

theorem Files.Reaches.trans {path path' : Path} (h : fs.Reaches start path)
    (h' : fs.Reaches path path') : fs.Reaches start path' := by
  induction h' with
  | start => exact h
  | entry _ hdir hname ih => exact ih.entry hdir hname

/-- A path of the tree is its start or in the tree of an entry. -/
theorem Files.Reaches.cases_head {path : Path} (h : fs.Reaches start path) : path = start ∨
    fs.lstat start = some true ∧ ∃ name ∈ fs.entries start, fs.Reaches (subpath start name) path := by
  induction h with
  | start => exact Or.inl rfl
  | @entry path name _ hdir hname ih =>
    rcases ih with rfl | ⟨hstart, first, hfirst, hreach⟩
    · exact Or.inr ⟨hdir, name, hname, .start⟩
    · exact Or.inr ⟨hstart, first, hfirst, hreach.entry hdir hname⟩

/-- A path of the tree goes on with a slash after its start. -/
theorem Files.Reaches.eq_append {path : Path} (h : fs.Reaches start path) :
    ∃ rest, path = start ++ rest ∧ (rest = [] ∨ ∃ t, rest = '/' :: t) := by
  induction h with
  | start => exact ⟨[], (List.append_nil _).symm, Or.inl rfl⟩
  | @entry path name _ _ _ ih =>
    obtain ⟨rest, rfl, hrest⟩ := ih
    refine ⟨rest ++ '/' :: name, List.append_assoc _ _ _, Or.inr ?_⟩
    rcases hrest with rfl | ⟨t, rfl⟩
    · exact ⟨name, rfl⟩
    · exact ⟨t ++ '/' :: name, rfl⟩

theorem Files.Walkable.entry (h : fs.Walkable start) {name : Path} (hdir : fs.lstat start = some true)
    (hname : name ∈ fs.entries start) : fs.Walkable (subpath start name) := by
  have hreach : ∀ path, fs.Reaches (subpath start name) path → fs.Reaches start path :=
    fun path hp => (Files.Reaches.start.entry hdir hname).trans hp
  exact ⟨fun p hp => h.short p (hreach p hp), fun p hp => h.lstat p (hreach p hp),
    fun p hp => h.opendir p (hreach p hp), fun p hp => h.nodup p (hreach p hp),
    fun p hp => h.names p (hreach p hp)⟩

/-- A tree within a list of paths that is closed under taking entries. -/
theorem Files.walkable_of_closed {paths : List Path} (hstart : start ∈ paths)
    (hclosed : ∀ p ∈ paths, fs.lstat p = some true → ∀ name ∈ fs.entries p, subpath p name ∈ paths)
    (h : ∀ p ∈ paths, p.length < pathsizePlus ∧ fs.lstat p ≠ none ∧
      (fs.lstat p = some true → fs.opendir p ≠ none) ∧ (fs.entries p).Nodup ∧
      ∀ name ∈ fs.entries p, '/' ∉ name) : fs.Walkable start := by
  have hpaths : ∀ p, fs.Reaches start p → p ∈ paths := by
    intro p hp
    induction hp with
    | start => exact hstart
    | @entry p name _ hdir hname ih => exact hclosed p ih hdir name hname
  exact ⟨fun p hp => (h p (hpaths p hp)).1, fun p hp => (h p (hpaths p hp)).2.1,
    fun p hp => (h p (hpaths p hp)).2.2.1, fun p hp _ => (h p (hpaths p hp)).2.2.2.1,
    fun p hp _ => (h p (hpaths p hp)).2.2.2.2⟩

/-- The trees of two entries have no path in common. -/
theorem name_eq_of_reaches {name name' path : Path} (hn : '/' ∉ name) (hn' : '/' ∉ name')
    (h : fs.Reaches (subpath start name) path) (h' : fs.Reaches (subpath start name') path) :
    name = name' := by
  have hfirst : ∀ {n rest : Path}, '/' ∉ n → (rest = [] ∨ ∃ t, rest = '/' :: t) →
      (n ++ rest).takeWhile (fun c => c ≠ '/') = n := by
    intro n rest hslash hrest
    rw [List.takeWhile_append_of_pos]
    · rcases hrest with rfl | ⟨t, rfl⟩ <;> simp
    · intro c hc
      exact decide_eq_true fun he => hslash (he ▸ hc)
  obtain ⟨rest, rfl, hrest⟩ := h.eq_append
  obtain ⟨rest', heq, hrest'⟩ := h'.eq_append
  unfold subpath at heq
  rw [List.append_assoc, List.append_assoc, List.append_cancel_left_eq, List.cons_append,
    List.cons_append, List.cons.injEq] at heq
  rw [← hfirst hn hrest, heq.2, hfirst hn' hrest']

theorem mem_tree (h : fs.Walkable start) (v : Visit) :
    v ∈ tree fs start ↔ fs.Reaches start v.path ∧ fs.lstat v.path = some v.isDir := by
  induction start using tree.induct fs with
  | case1 start hs hdir ih =>
    rw [tree_of_dir hs hdir]
    unfold due
    rw [List.mem_cons, List.mem_flatMap]
    constructor
    · rintro (rfl | ⟨name, hname, hv⟩)
      · exact ⟨.start, hdir⟩
      · obtain ⟨hreach, hstat⟩ := (ih name (h.entry hdir hname)).mp hv
        exact ⟨(Files.Reaches.start.entry hdir hname).trans hreach, hstat⟩
    · rintro ⟨hreach, hstat⟩
      rcases hreach.cases_head with hpath | ⟨-, name, hname, hreach⟩
      · refine Or.inl ?_
        rw [hpath, hdir] at hstat
        cases v with
        | processfile p => cases hstat
        | readdir p => exact congrArg Visit.readdir hpath
      · exact Or.inr ⟨name, hname, (ih name (h.entry hdir hname)).mpr ⟨hreach, hstat⟩⟩
  | case2 start hs hfile =>
    rw [tree_of_file hs hfile, List.mem_singleton]
    constructor
    · rintro rfl
      exact ⟨.start, hfile⟩
    · rintro ⟨hreach, hstat⟩
      rcases hreach.cases_head with hpath | ⟨hdir, -⟩
      · rw [hpath, hfile] at hstat
        cases v with
        | processfile p => exact congrArg Visit.processfile hpath
        | readdir p => cases hstat
      · rw [hfile] at hdir
        cases hdir
  | case3 start hs hnone => exact absurd hnone (h.lstat start .start)
  | case4 start hs => exact absurd (h.short start .start) hs

theorem tree_nodup (h : fs.Walkable start) : (tree fs start).Nodup := by
  induction start using tree.induct fs with
  | case1 start hs hdir ih =>
    rw [tree_of_dir hs hdir]
    unfold due
    refine List.nodup_cons.mpr ⟨?_, List.nodup_flatMap.mpr ⟨?_, ?_⟩⟩
    · intro hmem
      obtain ⟨name, hname, hv⟩ := List.mem_flatMap.mp hmem
      obtain ⟨rest, hpath, -⟩ := ((mem_tree (h.entry hdir hname) _).mp hv).1.eq_append
      have hlen : start.length = (subpath start name ++ rest).length := congrArg List.length hpath
      unfold subpath at hlen
      rw [List.length_append, List.length_append, List.length_cons] at hlen
      omega
    · exact fun name hname => ih name (h.entry hdir hname)
    · refine (h.nodup start .start hdir).imp_of_mem fun {name name'} hname hname' hne => ?_
      intro v hv hv'
      apply hne
      exact name_eq_of_reaches (h.names start .start hdir name hname)
        (h.names start .start hdir name' hname')
        ((mem_tree (h.entry hdir hname) v).mp hv).1 ((mem_tree (h.entry hdir hname') v).mp hv').1
  | case2 start hs hfile =>
    rw [tree_of_file hs hfile]
    exact List.nodup_singleton _
  | case3 start hs hnone => exact absurd hnone (h.lstat start .start)
  | case4 start hs => exact absurd (h.short start .start) hs

/-! ## The walk -/

/-- What has been visited by the work that was done. -/
def visited (fs : Files) (s : Processes WorkItem) : List Visit :=
  s.finished.flatMap fun f => f.2.item.visits fs

theorem startItem_fit (h : fs.Walkable start) :
    (startItem start).Fit fs start ∧ (startItem start).due fs = tree fs start := by
  have hpaths : (startItem start).paths = [start] := by
    unfold startItem WorkItem.paths
    rw [List.take_of_length_le (Nat.le_of_lt (h.short start .start))]
  unfold WorkItem.Fit WorkItem.due
  rw [hpaths, List.flatMap_singleton]
  refine ⟨fun path hp => ?_, rfl⟩
  rw [List.mem_singleton.mp hp]
  exact ⟨.start, fun he => by cases he⟩

/-- What a job visits and what is due for the items it sends is what was due for its item. -/
theorem job_spec (h : fs.Walkable start) {job : Pwt.Job WorkItem} (hfit : job.item.Fit fs start)
    (hdoes : Does fs job.item job.acts) :
    (job.item.visits fs ++ job.sends.flatMap (WorkItem.due fs)).Perm (job.item.due fs) ∧
      ∀ item ∈ job.sends, item.Fit fs start := by
  obtain ⟨w, hw, hspec⟩ := run_spec h hfit
  unfold Does at hdoes
  rw [hw] at hdoes
  have hsends : job.sends = w.sent := by
    unfold Pwt.Job.sends Walk.sent
    rw [← Option.some.inj hdoes]
  have hvisits : job.item.visits fs = w.visits := by
    unfold WorkItem.visits
    rw [hw]
    rfl
  rw [hsends, hvisits]
  exact hspec

variable {o : Options} {s : Processes WorkItem} {ls : List (Label WorkItem)}

/-- At the end of the walk the visits made are those due in the tree. -/
theorem visited_perm (hfs : fs.Walkable start)
    (h : exec (pwtStep o (treewalkStartwork start [])) Processes.init ls = some s)
    (hdoes : Meets (pwtStep o (treewalkStartwork start [])) (Label.Does (Does fs))
      Processes.init ls) (hl : s.manager = .left) : (visited fs s).Perm (tree fs start) := by
  obtain ⟨hstart, hdue⟩ := startItem_fit hfs
  have hinv : Processes.PwtInv o (treewalkStartwork start []) (Does fs) s ∧
      s.Passed (WorkItem.Fit fs start) := by
    refine exec_inv_meets (I := fun s => Processes.PwtInv o _ (Does fs) s ∧ s.Passed _)
      (Processes.passed_step ?_ ?_) ⟨Processes.pwtInv_init, fun _ e he => (by cases he)⟩ hdoes h
    · intro p hp
      rw [List.mem_singleton.mp hp]
      exact hstart
    · intro job hjob hfit
      exact (job_spec hfs hfit hjob).2
  have hjobs : ∀ f ∈ s.finished, (f.2.item.visits fs ++ f.2.sends.flatMap (WorkItem.due fs)).Perm
      (f.2.item.due fs) := fun f hf =>
    (job_spec hfs (Processes.finished_passed hinv hl hf) (hinv.1.finished_does hl hf)).1
  let sent := s.finished.flatMap fun f => f.2.sends.flatMap (WorkItem.due fs)
  have hall := (hinv.1.finished_perm hl).flatMap_right (WorkItem.due fs)
  rw [List.flatMap_map, List.flatMap_append, List.flatMap_assoc] at hall
  -- what is due for the items sent is on both sides
  refine (List.perm_append_right_iff sent).mp ?_
  calc visited fs s ++ sent
      ~ s.finished.flatMap fun f : ℕ × Pwt.Job WorkItem =>
          f.2.item.visits fs ++ f.2.sends.flatMap (WorkItem.due fs) :=
        List.flatMap_append_perm _ _ _
    _ ~ s.finished.flatMap fun f => f.2.item.due fs := List.Perm.flatMap_left _ hjobs
    _ ~ _ := hall
    _ = tree fs start ++ sent := by
        unfold treewalkStartwork
        rw [List.map_singleton, List.map_singleton, List.flatMap_singleton, hdue]

/-- At the end of a walk over a tree, nothing has been visited twice, and what has been visited are
the paths of the tree: a directory has been read, and any other path passed to `processfile`. -/
theorem visited_once (hfs : fs.Walkable start)
    (h : exec (pwtStep o (treewalkStartwork start [])) Processes.init ls = some s)
    (hdoes : Meets (pwtStep o (treewalkStartwork start [])) (Label.Does (Does fs))
      Processes.init ls) (hl : s.manager = .left) :
    (visited fs s).Nodup ∧ ∀ v, v ∈ visited fs s ↔
      fs.Reaches start v.path ∧ fs.lstat v.path = some v.isDir := by
  have hperm := visited_perm hfs h hdoes hl
  refine ⟨hperm.nodup_iff.mpr (tree_nodup hfs), fun v => ?_⟩
  rw [hperm.mem_iff]
  exact mem_tree hfs v

/-- A directory with a file and a directory in it, which has a file in it. -/
def smallTree : Files where
  lstat p := some (p = ['r'] ∨ p = ['r', '/', 'd'])
  opendir p := if p = ['r'] then some [['.'], ['.', '.'], ['a'], ['d']] else some [['b'], ['.']]

/-- A walk over it by two workers. -/
def smallWalk : List (Label WorkItem) :=
  [.startWork,
    .workerReceive 1 [.request 0 ⟨.readdir, [], some ⟨[['r']], by decide⟩⟩], .workerAct 1,
    .receive 1, .workerAck 1, .getNewWork, .workerAct 1, .receive 1, .poll,
    .workerReceive 1 [.request 0 ⟨.statpath, [],
      some ⟨[['r', '/', 'a'], ['r', '/', 'd']], by decide⟩⟩], .workerAct 1,
    .receive 1, .workerAck 1, .getNewWork, .poll,
    .workerReceive 2 [.request 0 ⟨.readdir, [], some ⟨[['r', '/', 'd']], by decide⟩⟩],
    .workerAct 2, .workerAct 1, .receive 2, .workerAck 2, .getNewWork, .receive 1, .workerAct 2,
    .receive 2, .poll,
    .workerReceive 1 [.request 0 ⟨.statpath, [], some ⟨[['r', '/', 'd', '/', 'b']], by decide⟩⟩],
    .workerAct 1, .receive 1, .workerAck 1, .getNewWork, .workerAct 1, .receive 1, .poll,
    .workerReceive 1 [], .workerAct 1, .receive 1, .poll]

theorem visited_once_smallTree : ∃ s,
    exec (pwtStep ⟨3, 1⟩ (treewalkStartwork ['r'] [])) Processes.init smallWalk = some s ∧
      (visited smallTree s).Nodup ∧ ∀ v, v ∈ visited smallTree s ↔
        smallTree.Reaches ['r'] v.path ∧ smallTree.lstat v.path = some v.isDir := by
  have hwalk : smallTree.Walkable ['r'] :=
    @Files.walkable_of_closed _ _ [['r'], ['r', '/', 'a'], ['r', '/', 'd'], ['r', '/', 'd', '/', 'b']]
      List.mem_cons_self (by decide) (by decide)
  have hrun : ((exec (pwtStep ⟨3, 1⟩ (treewalkStartwork ['r'] [])) Processes.init smallWalk).any
      fun s => s.manager = .left) = true := by decide +kernel
  obtain ⟨s, hs, hp⟩ := (Option.any_eq_true _ _).mp hrun
  exact ⟨s, hs, visited_once hwalk hs (by decide +kernel) (of_decide_eq_true hp)⟩

end MpiToShmem.Treewalk
