import MpiToShmem.Pftool.Cmp
import MpiToShmem.Pftool.Compare
import MpiToShmem.Pwt.Reports

/-!
# The jobs: walk and compare

The work functions of the walk with the function that `processfile` points at, what they count, and
the work function of the compare. `treewalk_process_file` only prints; `cmp_process_file` sends what
there is to compare.

1. `statpath` and `readdirs` are `treewalk_statpath` and `treewalk_readdir`.
2. `Job.work` is the work for an item, with what its messages tell the manager.
-/

namespace MpiToShmem.Compare

def Side.of (src dest : List UInt8) : Side → List UInt8
  | .src => src
  | .dest => dest

/-- The `pread`s of files with these contents; at the end of a file they read less. -/
def fileReads (src dest : List UInt8) : Reads := fun side pos count =>
  if pos < 0 then none else some (((side.of src dest).drop pos.toNat).take count)

end MpiToShmem.Compare

namespace MpiToShmem.Jobs

open Kit Pwt Treewalk Compare

/-! ## Statistics -/

inductive PerfCntIdx where
  | dirsRead
  | filesCopied
  | filesMatched
  | statCalls
  | cmpCalls
deriving DecidableEq

/-- The counters of a `PerfStat`. -/
abbrev PerfStat := PerfCntIdx → ℕ

def perfstatNew : PerfStat := fun _ => 0

def perfstatIncCounter (ps : PerfStat) (idx : PerfCntIdx) : PerfStat :=
  Function.update ps idx (ps idx + 1)

def perfstatIncStats (ps : PerfStat) : PerfStat := perfstatIncCounter ps .statCalls

def perfstatIncDirsread (ps : PerfStat) : PerfStat := perfstatIncCounter ps .dirsRead

def perfstatAdd (psSum psInc : PerfStat) : PerfStat := fun c => psSum c + psInc c

/-! ## Items -/

deriving instance DecidableEq for FileInfo, FilePair

inductive Item where
  | walk (data : Treewalk.WorkItem)
  | compare (fpair : FilePair)
deriving DecidableEq

/-- What the manager is told: a file for the chunk table, or the end of the work for an item with its
counters, and with the pair that was compared. -/
inductive Content where
  | addchunkfile (fpair : FilePair)
  | workdone (perf : PerfStat)
  | cmpWorkdone (perf : PerfStat) (fpair : FilePair)

/-- What `lstat` says of a file of the walk. -/
structure StatBuf where
  stSize : ℤ
  stMtime : ℤ
  stCtime : ℤ

/-- `fileinfo_init`, with a `stat` structure. -/
def fileinfoInitStat (pname : Path) (statinfo : StatBuf) : FileInfo :=
  ⟨pname, if 0 < statinfo.stCtime then 1 else 0, statinfo.stSize, statinfo.stMtime⟩

/-- What `processfile` does: the messages that it sends, and whether it has counted a stat. -/
structure Processed where
  sent : List Message
  stats : Bool

/-- A function for `processfile`; `none` where it does not return. -/
abbrev Processfile := FileInfo → Option Processed

def treewalkProcessFile : Processfile := fun _ => some ⟨[], false⟩

def cmpProcessfile (o : Options) (cpO : AppOptions) (lstat : Path → Lstat) : Processfile :=
  fun infile => (cmpProcessFile o cpO lstat infile).map fun r => ⟨r.2, r.1 = 0⟩

/-- What a job works on, and what it does with a file and with a pair. -/
structure Job where
  fs : Files
  stat : Path → StatBuf
  processfile : Processfile
  compare : FilePair → FilePair

/-- The job of `treewalk`. -/
def treewalkJob (fs : Files) (stat : Path → StatBuf) : Job := ⟨fs, stat, treewalkProcessFile, id⟩

/-- The job of `cmp`; what `open` and `pread` say may differ from pair to pair. -/
def cmpJob (o : Options) (cpO : AppOptions) (fs : Files) (stat : Path → StatBuf) (lstat : Path → Lstat)
    (fds : FilePair → Fds) (reads : FilePair → Reads) : Job where
  fs := fs
  stat := stat
  processfile := cmpProcessfile o cpO lstat
  compare fpair := (cmpCompare o cpO (fds fpair) (reads fpair) fpair).filebuf

/-! ## Work under way -/

/-- A work function under way: what it does, what it tells the manager, its counters and its buffer. -/
structure Run where
  acts : List (Action Item)
  tasks : List Content
  perf : PerfStat
  buffer : PathWork
  tasks_length : tasks.length = acts.countP Action.isTask

namespace Run

def init : Run := ⟨[], [], perfstatNew, pathworkClear, rfl⟩

variable (r : Run)

def incStats : Run := { r with perf := perfstatIncStats r.perf }

def incDirsread : Run := { r with perf := perfstatIncDirsread r.perf }

/-- An item for the queue, after a request. -/
def request (qidx : ℕ) (item : Item) : Run :=
  { r with
    acts := r.acts ++ [.request qidx item]
    tasks_length := by rw [List.countP_append, r.tasks_length]; rfl }

/-- A task for the manager. -/
def task (c : Content) : Run :=
  { r with
    acts := r.acts ++ [.task]
    tasks := r.tasks ++ [c]
    tasks_length := by
      rw [List.countP_append, List.length_append, r.tasks_length, List.length_singleton]
      rfl }

/-- `cmp_sendchunkfileadd` and `cmp_sendpaths`. -/
def send : Message → Run
  | .addchunkfile fpair => r.task (.addchunkfile fpair)
  | .compare fpair => r.request 1 (.compare fpair)

/-- A request for queue 0 and the item with the buffer, which is cleared after it. -/
def sendBuffer (doWork : DoWork) : Run :=
  { r.request 0 (.walk ⟨doWork, [], some r.buffer⟩) with buffer := pathworkClear }

def addPath (newpath : Path) : Option Run :=
  (pathworkAddPath r.buffer newpath).map fun buffer => { r with buffer := buffer }

end Run

variable (j : Job)

/-- One path of `treewalk_statpath`. -/
def lookAt (r : Run) (path : Path) : Option Run :=
  match j.fs.lstat path with
  | none => none
  | some true => r.incStats.addPath path
  | some false =>
    (j.processfile (fileinfoInitStat path (j.stat path))).map fun p =>
      p.sent.foldl Run.send (if p.stats then r.incStats.incStats else r.incStats)

def statEntry (r : Run) (path : Path) : Option Run := do
  let r ← lookAt j r path
  return if pathworkIsFull r.buffer then r.sendBuffer .readdir else r

def treewalkStatpath (data : Treewalk.WorkItem) : Option Run := do
  let r ← data.paths.foldlM (statEntry j) Run.init
  return if pathworkIsEmpty r.buffer then r else r.sendBuffer .readdir

/-- One entry of a directory in `treewalk_readdir`. -/
def dirEntry (path : Path) (r : Run) (name : Path) : Option Run :=
  if isDot name then some r
  else do
    let r ← r.addPath (subpath path name)
    return if pathworkIsFull r.buffer then r.sendBuffer .statpath else r

/-- The directories of an item; if one cannot be opened, the work ends and its buffer is lost. -/
def readdirs (r : Run) : List Path → Option Run
  | [] => some (if pathworkIsEmpty r.buffer then r else r.sendBuffer .statpath)
  | path :: paths =>
    match j.fs.opendir path with
    | none => some r
    | some names => do
      let r ← names.foldlM (dirEntry path) r
      readdirs r.incDirsread paths

def treewalkReaddir (data : Treewalk.WorkItem) : Option Run := readdirs j Run.init data.paths

/-- The counters of `cmp_compare`, for the pair that it sends back. -/
def comparePerf (fpair : FilePair) : PerfStat :=
  let perf := perfstatIncCounter perfstatNew .cmpCalls
  if fpair.dest.existsFlag ≠ 0 ∧ fpair.matched then perfstatIncCounter perf .filesMatched else perf

/-- What a work function does, with the report at its end. -/
def Run.work (r : Run) : Pwt.Work Item Content := ⟨r.acts, r.tasks, .workdone r.perf, r.tasks_length⟩

/-- The work for an item. -/
def Job.work : Item → Option (Pwt.Work Item Content)
  | .walk data =>
    match data.doWork with
    | .statpath => (treewalkStatpath j data).map Run.work
    | .readdir => (treewalkReaddir j data).map Run.work
  | .compare fpair =>
    let fpair := j.compare fpair
    some ⟨[], [], .cmpWorkdone (comparePerf fpair) fpair, rfl⟩

/-- The items of the start: `cmp_startwork` has no further arguments. -/
def startwork (startPath : Path) (args : List Path) : List (ℕ × Item) :=
  (treewalkStartwork startPath args).map fun p => (p.1, .walk p.2)

/-! ## A disk -/

/-- A disk on which all calls for a file succeed; where there is none, they say so. -/
structure Disk where
  fs : Files
  contents : Path → Option (List UInt8)
  mtime : Path → ℤ
  ctime : Path → ℤ

namespace Disk

variable (d : Disk)

def bytesOf (path : Path) : List UInt8 := (d.contents path).getD []

def stat (path : Path) : StatBuf := ⟨(d.bytesOf path).length, d.mtime path, d.ctime path⟩

def lstat (path : Path) : Lstat :=
  match d.contents path with
  | some bs => .ok bs.length (d.mtime path)
  | none => .enoent

def reads (fpair : FilePair) : Reads :=
  fileReads (d.bytesOf fpair.src.path) (d.bytesOf fpair.dest.path)

/-- The compare of two trees on the disk. -/
def cmpJob (o : Options) (cpO : AppOptions) (fds : FilePair → Fds) : Job :=
  Jobs.cmpJob o cpO d.fs d.stat d.lstat fds d.reads

end Disk

/-! ## The manager -/

def Content.perf : Content → PerfStat
  | addchunkfile _ => perfstatNew
  | workdone perf => perf
  | cmpWorkdone perf _ => perf

/-- `jobstats` after what the manager was told, by `manager_update_jobperf`. -/
def jobstats (told : List Content) : PerfStat :=
  told.foldl (fun ps c => perfstatAdd ps c.perf) perfstatNew

/-- The characters of a path. -/
def bytes (path : Path) : Cmp.Path := path.map fun c => UInt8.ofNat c.toNat

/-- What the chunk table and the lines of output need of a pair. -/
def cmpPair (fpair : FilePair) : Cmp.FilePair :=
  ⟨bytes fpair.src.path, bytes fpair.dest.path, fpair.chunknum, fpair.matched⟩

/-- What `cmp_addchunkfile` and `cmp_workdone` are told. -/
def Content.message : Content → Option Cmp.Message
  | addchunkfile fpair => some (.addchunkfile (cmpPair fpair))
  | workdone _ => none
  | cmpWorkdone _ fpair => some (.workdone (cmpPair fpair))

/-- The chunk table and the output of the manager, after what it was told. -/
def verdicts (verbose : Bool) (told : List Content) : Cmp.FchunkTbl × List Cmp.Line :=
  Cmp.handleAll verbose (Buckets.create 17 (by decide) Cmp.defHashfunc)
    (told.filterMap Content.message)

end MpiToShmem.Jobs
