import MpiToShmem.Pftool.Treewalk
import MpiToShmem.Pwt.Phases

/-!
# What the work for an item amounts to

1. `Files.Reaches`: the paths of a tree; `tree` lists the visits that are due in it.
2. `Walk.Covers`: what a work function has visited, sent and put into its buffer amounts to the visits
   due for the paths it has dealt with.
3. `run_spec`: no visit is lost or made twice between the work for an item and the items it sends.
-/

namespace MpiToShmem.Treewalk

open Pwt

variable (fs : Files)

/-! ## Trees of files -/

/-- The names in a directory without `.` and `..`. -/
def Files.entries (path : Path) : List Path := ((fs.opendir path).getD []).filter fun n => !isDot n

/-- The paths of a tree, from its starting path down. -/
inductive Files.Reaches (start : Path) : Path → Prop
  | start : Files.Reaches start start
  | entry {path name : Path} (h : Files.Reaches start path) (hdir : fs.lstat path = some true)
      (hname : name ∈ fs.entries path) : Files.Reaches start (subpath path name)

/-- All calls succeed in a tree whose paths fit their arrays; the names in a directory are different
and have no slash. -/
structure Files.Walkable (start : Path) : Prop where
  short : ∀ path, fs.Reaches start path → path.length < pathsizePlus
  lstat : ∀ path, fs.Reaches start path → fs.lstat path ≠ none
  opendir : ∀ path, fs.Reaches start path → fs.lstat path = some true → fs.opendir path ≠ none
  nodup : ∀ path, fs.Reaches start path → fs.lstat path = some true → (fs.entries path).Nodup
  names : ∀ path, fs.Reaches start path → fs.lstat path = some true →
    ∀ name ∈ fs.entries path, '/' ∉ name

/-- The visits due in a tree. -/
def tree (path : Path) : List Visit :=
  if path.length < pathsizePlus then
    match fs.lstat path with
    | some true => .readdir path :: (fs.entries path).flatMap fun name => tree (subpath path name)
    | some false => [.processfile path]
    | none => []
  else []
termination_by pathsizePlus - path.length
decreasing_by
  unfold subpath
  rw [List.length_append, List.length_cons]
  omega

/-- The visits due for a path that is to be looked at or read. -/
def due (doWork : DoWork) (path : Path) : List Visit :=
  match doWork with
  | .statpath => tree fs path
  | .readdir => .readdir path :: (fs.entries path).flatMap fun name => tree fs (subpath path name)

variable {fs} {start : Path}

theorem tree_of_dir {path : Path} (hs : path.length < pathsizePlus)
    (h : fs.lstat path = some true) : tree fs path = due fs .readdir path := by
  rw [tree, if_pos hs, h]
  rfl

theorem tree_of_file {path : Path} (hs : path.length < pathsizePlus)
    (h : fs.lstat path = some false) : tree fs path = [.processfile path] := by
  rw [tree, if_pos hs, h]

/-! ## Items -/

/-- The visits due for an item. -/
def WorkItem.due (fs : Files) (data : WorkItem) : List Visit :=
  data.paths.flatMap (Treewalk.due fs data.doWork)

/-- A path of the tree; one that is to be read is a directory. -/
def Fit (fs : Files) (start : Path) (doWork : DoWork) (path : Path) : Prop :=
  fs.Reaches start path ∧ (doWork = .readdir → fs.lstat path = some true)

def WorkItem.Fit (fs : Files) (start : Path) (data : WorkItem) : Prop :=
  ∀ path ∈ data.paths, Treewalk.Fit fs start data.doWork path

namespace Walk

/-- The items sent. -/
def sent (w : Walk) : List WorkItem := w.acts.flatMap Action.items

theorem sent_sendBuffer (w : Walk) (doWork : DoWork) :
    (w.sendBuffer doWork).sent = w.sent ++ [⟨doWork, [], some w.buffer⟩] := by
  unfold sent sendBuffer
  rw [List.flatMap_append]
  rfl

/-- A work function that sends items of one kind has dealt with paths for which these visits were
due; `WithBuffer` is what is due for its buffer. -/
structure Covers (fs : Files) (start : Path) (doWork : DoWork) (w : Walk) (l : List Visit) :
    Prop where
  perm : (w.visits ++ (w.sent.flatMap (WorkItem.due fs) ++ w.buffer.buf.flatMap (due fs doWork))).Perm l
  sentFit : ∀ item ∈ w.sent, item.Fit fs start
  bufferFit : ∀ path ∈ w.buffer.buf, Fit fs start doWork path

variable {doWork : DoWork} {w : Walk} {l : List Visit}

theorem covers_init : init.Covers fs start doWork [] where
  perm := List.Perm.refl _
  sentFit _ hi := absurd hi List.not_mem_nil
  bufferFit _ hp := absurd hp List.not_mem_nil

theorem Covers.visit (h : w.Covers fs start doWork l) (v : Visit) :
    Covers fs start doWork { w with visits := w.visits ++ [v] } (l ++ [v]) where
  perm := by
    rw [List.append_assoc]
    refine (List.Perm.append_left _ List.perm_append_comm).trans ?_
    rw [← List.append_assoc]
    exact h.perm.append_right [v]
  sentFit := h.sentFit
  bufferFit := h.bufferFit

/-- What is due for the buffer is due for the item it is sent in. -/
theorem Covers.sendBuffer (h : w.Covers fs start doWork l) :
    (w.sendBuffer doWork).Covers fs start doWork l where
  perm := by
    rw [sent_sendBuffer, List.flatMap_append, List.flatMap_singleton]
    show (w.visits ++ (w.sent.flatMap (WorkItem.due fs) ++ w.buffer.buf.flatMap (due fs doWork) ++
      [])).Perm l
    rw [List.append_nil]
    exact h.perm
  sentFit item hi := by
    rw [sent_sendBuffer] at hi
    rcases List.mem_append.mp hi with hi | hi
    · exact h.sentFit item hi
    · rw [List.mem_singleton.mp hi]
      exact h.bufferFit
  bufferFit _ hp := absurd hp List.not_mem_nil

/-- A path is put into a buffer that is not full. -/
theorem Covers.addPath (h : w.Covers fs start doWork l) (hfull : pathworkIsFull w.buffer = false)
    {path : Path} (hs : path.length < pathsizePlus) (hfit : Fit fs start doWork path) :
    ∃ w', w.addPath path = some w' ∧ w'.Covers fs start doWork (l ++ due fs doWork path) := by
  have hlt : w.buffer.buf.length < pathBufferMax := Nat.not_le.mp (of_decide_eq_false hfull)
  obtain ⟨buffer, hadd, hbuf⟩ := pathworkAddPath_of_lt hlt hs
  refine ⟨{ w with buffer := buffer }, ?_, ?_, h.sentFit, ?_⟩
  · unfold Walk.addPath
    rw [hadd]
    rfl
  · dsimp only
    rw [hbuf, List.flatMap_append, List.flatMap_singleton, ← List.append_assoc, ← List.append_assoc]
    exact (List.append_assoc w.visits _ _ ▸ h.perm).append_right _
  · intro p hp
    rw [hbuf] at hp
    rcases List.mem_append.mp hp with hp | hp
    · exact h.bufferFit p hp
    · rw [List.mem_singleton.mp hp]
      exact hfit

/-- After the check for a full buffer the buffer is not full. -/
theorem Covers.flush (h : w.Covers fs start doWork l) :
    ∃ w', (if pathworkIsFull w.buffer then w.sendBuffer doWork else w) = w' ∧
      w'.Covers fs start doWork l ∧ pathworkIsFull w'.buffer = false := by
  refine ⟨_, rfl, ?_⟩
  split_ifs with hfull
  · exact ⟨h.sendBuffer, rfl⟩
  · exact ⟨h, Bool.eq_false_iff.mpr hfull⟩

/-- After the check for an empty buffer nothing is left in it. -/
theorem Covers.finish (h : w.Covers fs start doWork l) :
    ∃ w', (if pathworkIsEmpty w.buffer then w else w.sendBuffer doWork) = w' ∧
      (w'.visits ++ w'.sent.flatMap (WorkItem.due fs)).Perm l ∧
      ∀ item ∈ w'.sent, item.Fit fs start := by
  have hempty : ∀ {w' : Walk}, w'.Covers fs start doWork l → w'.buffer.buf = [] →
      (w'.visits ++ w'.sent.flatMap (WorkItem.due fs)).Perm l ∧
        ∀ item ∈ w'.sent, item.Fit fs start := by
    intro w' hw hb
    have hperm := hw.perm
    rw [hb, List.flatMap_nil, List.append_nil] at hperm
    exact ⟨hperm, hw.sentFit⟩
  refine ⟨_, rfl, ?_⟩
  split_ifs with hb
  · exact hempty h (List.isEmpty_iff.mp hb)
  · exact hempty h.sendBuffer rfl

end Walk

/-! ## The work functions -/

theorem statEntry_spec (hfs : fs.Walkable start) {w : Walk} {l : List Visit}
    (h : w.Covers fs start .readdir l) (hfull : pathworkIsFull w.buffer = false) {path : Path}
    (hpath : fs.Reaches start path) :
    ∃ w', statEntry fs w path = some w' ∧ w'.Covers fs start .readdir (l ++ tree fs path) ∧
      pathworkIsFull w'.buffer = false := by
  have hs := hfs.short path hpath
  have hlook : ∃ w₁, lookAt fs w path = some w₁ ∧
      w₁.Covers fs start .readdir (l ++ tree fs path) := by
    unfold lookAt
    cases hstat : fs.lstat path with
    | none => exact absurd hstat (hfs.lstat path hpath)
    | some isDir =>
      cases isDir with
      | true =>
        rw [tree_of_dir hs hstat]
        exact h.addPath hfull hs ⟨hpath, fun _ => hstat⟩
      | false =>
        rw [tree_of_file hs hstat]
        exact ⟨_, rfl, h.visit (.processfile path)⟩
  obtain ⟨w₁, hw₁, hcov⟩ := hlook
  obtain ⟨w₂, hw₂, hcov₂⟩ := hcov.flush
  refine ⟨w₂, ?_, hcov₂⟩
  unfold statEntry
  rw [hw₁, ← hw₂]
  rfl

theorem dirEntry_spec (hfs : fs.Walkable start) {w : Walk} {l : List Visit}
    (h : w.Covers fs start .statpath l) (hfull : pathworkIsFull w.buffer = false)
    {path name : Path} (hpath : isDot name = false → fs.Reaches start (subpath path name)) :
    ∃ w', dirEntry path w name = some w' ∧
      w'.Covers fs start .statpath
        (l ++ if isDot name then [] else tree fs (subpath path name)) ∧
      pathworkIsFull w'.buffer = false := by
  unfold dirEntry
  split_ifs with hdot
  · refine ⟨w, rfl, ?_, hfull⟩
    rwa [List.append_nil]
  · have hreach := hpath (Bool.eq_false_iff.mpr hdot)
    obtain ⟨w₁, hw₁, hcov⟩ :=
      h.addPath hfull (hfs.short _ hreach) ⟨hreach, fun he => by cases he⟩
    obtain ⟨w₂, hw₂, hcov₂⟩ := hcov.flush
    refine ⟨w₂, ?_, hcov₂⟩
    rw [← hw₂, hw₁]
    rfl

theorem statEntries_spec (hfs : fs.Walkable start) (paths : List Path) {w : Walk} {l : List Visit}
    (h : w.Covers fs start .readdir l) (hfull : pathworkIsFull w.buffer = false)
    (hpaths : ∀ path ∈ paths, fs.Reaches start path) :
    ∃ w', paths.foldlM (statEntry fs) w = some w' ∧
      w'.Covers fs start .readdir (l ++ paths.flatMap (tree fs)) := by
  induction paths generalizing w l with
  | nil =>
    refine ⟨w, rfl, ?_⟩
    rwa [List.flatMap_nil, List.append_nil]
  | cons path paths ih =>
    obtain ⟨w₁, hw₁, hcov, hfull₁⟩ := statEntry_spec hfs h hfull (hpaths path List.mem_cons_self)
    obtain ⟨w₂, hw₂, hcov₂⟩ := ih hcov hfull₁ fun p hp => hpaths p (List.mem_cons_of_mem _ hp)
    refine ⟨w₂, ?_, ?_⟩
    · rw [List.foldlM_cons, hw₁]
      exact hw₂
    · rwa [List.flatMap_cons, ← List.append_assoc]

theorem dirEntries_spec (hfs : fs.Walkable start) {path : Path} (names : List Path) {w : Walk}
    {l : List Visit} (h : w.Covers fs start .statpath l) (hfull : pathworkIsFull w.buffer = false)
    (hnames : ∀ name ∈ names, isDot name = false → fs.Reaches start (subpath path name)) :
    ∃ w', names.foldlM (dirEntry path) w = some w' ∧
      w'.Covers fs start .statpath
        (l ++ (names.filter fun n => !isDot n).flatMap fun n => tree fs (subpath path n)) ∧
      pathworkIsFull w'.buffer = false := by
  induction names generalizing w l with
  | nil =>
    refine ⟨w, rfl, ?_, hfull⟩
    rwa [List.filter_nil, List.flatMap_nil, List.append_nil]
  | cons name names ih =>
    obtain ⟨w₁, hw₁, hcov, hfull₁⟩ := dirEntry_spec hfs h hfull (hnames name List.mem_cons_self)
    obtain ⟨w₂, hw₂, hcov₂, hfull₂⟩ :=
      ih hcov hfull₁ fun n hn => hnames n (List.mem_cons_of_mem _ hn)
    refine ⟨w₂, ?_, ?_, hfull₂⟩
    · rw [List.foldlM_cons, hw₁]
      exact hw₂
    · convert hcov₂ using 1
      rw [List.append_assoc]
      cases hdot : isDot name <;> simp [hdot]

theorem readdirs_spec (hfs : fs.Walkable start) (paths : List Path) {w : Walk} {l : List Visit}
    (h : w.Covers fs start .statpath l) (hfull : pathworkIsFull w.buffer = false)
    (hpaths : ∀ path ∈ paths, Fit fs start .readdir path) :
    ∃ w', readdirs fs w paths = some w' ∧
      (w'.visits ++ w'.sent.flatMap (WorkItem.due fs)).Perm
        (l ++ paths.flatMap (due fs .readdir)) ∧
      ∀ item ∈ w'.sent, item.Fit fs start := by
  induction paths generalizing w l with
  | nil =>
    rw [List.flatMap_nil, List.append_nil]
    obtain ⟨w', hw', hrest⟩ := h.finish
    exact ⟨w', congrArg some hw', hrest⟩
  | cons path paths ih =>
    obtain ⟨hreach, hdir⟩ := hpaths path List.mem_cons_self
    have hdir := hdir rfl
    cases hopen : fs.opendir path with
    | none => exact absurd hopen (hfs.opendir path hreach hdir)
    | some names =>
      have hentries : names.filter (fun n => !isDot n) = fs.entries path := by
        unfold Files.entries
        rw [hopen]
        rfl
      obtain ⟨w₁, hw₁, hcov, hfull₁⟩ := @dirEntries_spec fs start hfs path names w l h hfull
        fun name hn hdot => hreach.entry hdir (by
          rw [← hentries]
          exact List.mem_filter.mpr ⟨hn, by rw [hdot]; rfl⟩)
      rw [hentries] at hcov
      obtain ⟨w₂, hw₂, hperm, hfit⟩ := ih (hcov.visit (.readdir path)) hfull₁
        fun p hp => hpaths p (List.mem_cons_of_mem _ hp)
      refine ⟨w₂, ?_, hperm.trans ?_, hfit⟩
      · rw [readdirs, hopen]
        dsimp only
        rw [hw₁]
        exact hw₂
      · rw [List.flatMap_cons, ← List.append_assoc]
        refine List.Perm.append_right _ ?_
        rw [List.append_assoc]
        exact List.Perm.append_left _ (List.perm_append_singleton _ _)

/-- The work for an item does not fail, and what it visits and what is due for the items it sends
is what was due for the item. -/
theorem run_spec (hfs : fs.Walkable start) {data : WorkItem} (hfit : data.Fit fs start) :
    ∃ w, data.run fs = some w ∧
      (w.visits ++ w.sent.flatMap (WorkItem.due fs)).Perm (data.due fs) ∧
      ∀ item ∈ w.sent, item.Fit fs start := by
  unfold WorkItem.run WorkItem.due
  unfold WorkItem.Fit at hfit
  cases hd : data.doWork with
  | statpath =>
    rw [hd] at hfit
    obtain ⟨w, hw, hcov⟩ := statEntries_spec hfs data.paths Walk.covers_init rfl
      fun path hp => (hfit path hp).1
    obtain ⟨w', hw', hrest⟩ := hcov.finish
    refine ⟨w', ?_, hrest⟩
    dsimp only
    unfold treewalkStatpath
    rw [hw, ← hw']
    rfl
  | readdir =>
    rw [hd] at hfit
    exact readdirs_spec hfs data.paths Walk.covers_init rfl hfit

end MpiToShmem.Treewalk
