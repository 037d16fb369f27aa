import MpiToShmem.Pwt.Processes

/-!
# The work functions of the tree walk

Two work functions generate each other's items. `treewalk_statpath` looks at paths and puts the
directories among them into a buffer; `treewalk_readdir` reads directories and puts the paths of
their entries into one. A full buffer is sent as an item and cleared, and so is what is left at the
end.

A run of a work function is `none` where the process is aborted or writes past an array.
-/

namespace MpiToShmem.Treewalk

open Pwt

/-- A path, or the name of an entry. -/
abbrev Path := List Char

/-- What the system calls say: `lstat` whether a path is a directory, `opendir` the names in it. -/
structure Files where
  lstat : Path → Option Bool
  opendir : Path → Option (List Path)

def filenameMax : ℕ := 4096

/-- `PATHSIZE_PLUS`, the size of all path arrays. -/
def pathsizePlus : ℕ := filenameMax + 30

def pathBufferMax : ℕ := 50

/-! ## Path buffers -/

/-- `PathWork`: the paths in a buffer, which are no more than its array holds. -/
structure PathWork where
  buf : List Path
  size_le : buf.length ≤ pathBufferMax
deriving DecidableEq

def pathworkClear : PathWork := ⟨[], Nat.zero_le _⟩

/-- `pathwork_add_path`, which checks neither the size of the buffer nor the length of the path. -/
def pathworkAddPath (pkbuf : PathWork) (newpath : Path) : Option PathWork :=
  if h : pkbuf.buf.length < pathBufferMax ∧ newpath.length < pathsizePlus then
    some ⟨pkbuf.buf ++ [newpath], by
      rw [List.length_append]
      exact h.1⟩
  else none

theorem pathworkAddPath_of_lt {pkbuf : PathWork} {newpath : Path}
    (hlt : pkbuf.buf.length < pathBufferMax) (hs : newpath.length < pathsizePlus) :
    ∃ pkbuf', pathworkAddPath pkbuf newpath = some pkbuf' ∧
      pkbuf'.buf = pkbuf.buf ++ [newpath] := by
  unfold pathworkAddPath
  rw [dif_pos ⟨hlt, hs⟩]
  exact ⟨_, rfl, rfl⟩

def pathworkIsFull (pkbuf : PathWork) : Bool := pathBufferMax ≤ pkbuf.buf.length

def pathworkIsEmpty (pkbuf : PathWork) : Bool := pkbuf.buf.isEmpty

/-! ## Work items -/

/-- The work function of an item. -/
inductive DoWork where
  | statpath
  | readdir
deriving DecidableEq

structure WorkItem where
  doWork : DoWork
  path : Path
  workdata : Option PathWork
deriving DecidableEq

/-- The paths the work is about: those of the buffer, or the path of the item if it has none. -/
def WorkItem.paths (data : WorkItem) : List Path :=
  match data.workdata with
  | some dirbuf => dirbuf.buf
  | none => [data.path]

/-- A file that was passed to `processfile`, or a directory that was read. -/
inductive Visit where
  | processfile (path : Path)
  | readdir (path : Path)
deriving DecidableEq

/-- A work function under way: what it has visited and sent, and its buffer. -/
structure Walk where
  visits : List Visit
  acts : List (Action WorkItem)
  buffer : PathWork

namespace Walk

def init : Walk := ⟨[], [], pathworkClear⟩

/-- A request for queue 0 and the item with the buffer, which is cleared after it. -/
def sendBuffer (w : Walk) (doWork : DoWork) : Walk :=
  { w with
    acts := w.acts ++ [.request 0 ⟨doWork, [], some w.buffer⟩]
    buffer := pathworkClear }

/-- `tw_senddirs`. -/
def senddirs (w : Walk) : Walk := w.sendBuffer .readdir

/-- `tw_sendpaths`. -/
def sendpaths (w : Walk) : Walk := w.sendBuffer .statpath

def addPath (w : Walk) (newpath : Path) : Option Walk :=
  (pathworkAddPath w.buffer newpath).map fun buffer => { w with buffer := buffer }

end Walk

variable (fs : Files)

/-! ## Stat -/

/-- What one path is; the process is aborted if `lstat` fails. -/
def lookAt (w : Walk) (path : Path) : Option Walk :=
  match fs.lstat path with
  | none => none
  | some true => w.addPath path
  | some false => some { w with visits := w.visits ++ [.processfile path] }

/-- One path of `treewalk_statpath`. -/
def statEntry (w : Walk) (path : Path) : Option Walk := do
  let w ← lookAt fs w path
  return if pathworkIsFull w.buffer then w.senddirs else w

def treewalkStatpath (data : WorkItem) : Option Walk := do
  let w ← data.paths.foldlM (statEntry fs) Walk.init
  return if pathworkIsEmpty w.buffer then w else w.senddirs

/-! ## Readdir -/

/-- The path of an entry. -/
def subpath (path name : Path) : Path := path ++ '/' :: name

def isDot (name : Path) : Bool := name = ['.'] || name = ['.', '.']

/-- One entry of a directory. -/
def dirEntry (path : Path) (w : Walk) (name : Path) : Option Walk :=
  if isDot name then some w
  else do
    let w ← w.addPath (subpath path name)
    return if pathworkIsFull w.buffer then w.sendpaths else w

/-- The directories of an item; if one cannot be opened, the work ends and its buffer is lost. -/
def readdirs (w : Walk) : List Path → Option Walk
  | [] => some (if pathworkIsEmpty w.buffer then w else w.sendpaths)
  | path :: paths =>
    match fs.opendir path with
    | none => some w
    | some names => do
      let w ← names.foldlM (dirEntry path) w
      readdirs { w with visits := w.visits ++ [.readdir path] } paths

def treewalkReaddir (data : WorkItem) : Option Walk := readdirs fs Walk.init data.paths

/-! ## Work -/

/-- The work for an item, without `tw_senddone` at its end. -/
def WorkItem.run (data : WorkItem) : Option Walk :=
  match data.doWork with
  | .statpath => treewalkStatpath fs data
  | .readdir => treewalkReaddir fs data

/-- What the work for an item visits. -/
def WorkItem.visits (data : WorkItem) : List Visit := ((data.run fs).map Walk.visits).getD []

/-- What the work for an item sends. -/
def Does (data : WorkItem) (acts : List (Action WorkItem)) : Prop :=
  (data.run fs).map Walk.acts = some acts

instance (data : WorkItem) (acts : List (Action WorkItem)) : Decidable (Does fs data acts) :=
  inferInstanceAs (Decidable (_ = _))

/-- An item of the start; `workitem_update_path` copies as much as its array holds. -/
def startItem (path : Path) : WorkItem := ⟨.statpath, path.take pathsizePlus, none⟩

/-- `treewalk_startwork`: an item for the starting path, and one for each further argument. -/
def treewalkStartwork (startPath : Path) (args : List Path) : List (ℕ × WorkItem) :=
  (startPath :: args).map fun path => (0, startItem path)

end MpiToShmem.Treewalk
