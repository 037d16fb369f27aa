import MpiToShmem.Kit.CInt
import MpiToShmem.Pftool.Str
import MpiToShmem.Pftool.WalkedOnce

/-!
# Pairs of files to compare

`cmp_process_file` pairs a file of the walk with the file at the destination. It sends the pair to
the manager, or, for a large file, the pair with the number of each chunk.

`basepath_iff`: when the path of a file is stripped of the starting path as documented, and that no
two files of a walk have one destination.
-/

namespace MpiToShmem.Compare

open Kit Treewalk Str

/-! ## Paths -/

/-- `strstr`: where the needle first is. -/
def strstr (haystack needle : Path) : Option ℕ :=
  (List.range (haystack.length + 1)).find? fun i => needle.isPrefixOf (haystack.drop i)

/-- `basepath`; `none` is a read behind the NUL of the path. -/
def basepath (path pre : Path) : Option Path :=
  match strstr path pre with
  | none => some (path.take (pathsizePlus - 1))
  | some i =>
    let rstr := i + (pre.length + 1)
    if rstr ≤ path.length then some ((path.drop rstr).take (pathsizePlus - 1)) else none

/-- `AppOptions`, as far as compares use it. -/
structure AppOptions where
  startPath : Path
  destPath : Path
  recursive : Bool
  metaOnly : Bool
  buffersize : ℕ
  buffersize_pos : 0 < buffersize
  startChunking : ℕ

/-- The path of the file at the destination; `none` where `dpath` is too small for it. -/
def AppOptions.dpath (cpO : AppOptions) (path : Path) : Option Path :=
  if cpO.recursive then do
    let base ← basepath path cpO.startPath
    let dpath := cpO.destPath ++ '/' :: base
    if dpath.length < pathsizePlus then some dpath else none
  else some cpO.destPath

/-! ## Files -/

/-- `FileInfo`: a path with what its `stat` structure says, and whether the file exists; `-1` is
before the call. -/
structure FileInfo where
  path : Path
  existsFlag : ℤ
  stSize : ℤ
  stMtime : ℤ

/-- `FilePair`; without a chunk its number is `-1`. -/
structure FilePair where
  chunknum : ℤ
  matched : Bool
  src : FileInfo
  dest : FileInfo

/-- What `lstat` says. -/
inductive Lstat where
  | ok (stSize stMtime : ℤ)
  | enoent
  | error (errno : ℤ)

/-- `fileinfo_init`, without a `stat` structure. -/
def fileinfoInit (pname : Path) : FileInfo := ⟨pname, -1, 0, 0⟩

def fileinfoLstat (finfo : FileInfo) : Lstat → FileInfo × ℤ
  | .ok stSize stMtime =>
    ({ finfo with existsFlag := 1, stSize := stSize, stMtime := stMtime }, 0)
  | .enoent => ({ finfo with existsFlag := 0 }, 0)
  | .error errno => (finfo, errno)

/-- `fileinfo_isChunkable`, which compares the size as a `size_t`. -/
def fileinfoIsChunkable (finfo : FileInfo) (appO : AppOptions) : Bool :=
  appO.startChunking ≤ toUInt64 finfo.stSize

def filepairNew (src dest : FileInfo) : FilePair := ⟨-1, false, src, dest⟩

/-- What is sent to the manager: a file to add to its chunk table, or a pair to compare. -/
inductive Message where
  | addchunkfile (fpair : FilePair)
  | compare (fpair : FilePair)

/-- `cmp_process_file`: what it returns and sends. -/
def cmpProcessFile (o : Pwt.Options) (cpO : AppOptions) (lstat : Path → Lstat) (infile : FileInfo) :
    Option (ℤ × List Message) :=
  if strIsBlank infile.path then some (-1, [])
  else do
    let dpath ← cpO.dpath infile.path
    let (destfile, staterr) := fileinfoLstat (fileinfoInit dpath) (lstat dpath)
    if staterr ≠ 0 then return (-1, [])
    let fpair := filepairNew infile destfile
    if fileinfoIsChunkable infile cpO && !cpO.metaOnly then
      return (0, .addchunkfile { fpair with chunknum := o.nproc } ::
        (List.range o.nproc).map fun i : ℕ => .compare { fpair with chunknum := i })
    else return (0, [.compare fpair])

/-! ## The path behind a prefix -/

/-- The components of `pre` lead those of `path`, and `rest` is what is behind them and a separating
slash. -/
def Leads (pre path rest : Path) : Prop :=
  path = pre ++ '/' :: rest ∨ (path = pre ∧ rest = []) ∨
    (pre.getLast? = some '/' ∧ path = pre ++ rest ∧ rest.head? ≠ some '/')

/-- `basepath` returns what is behind a leading prefix and a copy of any other path, and reads no
further than the NUL. -/
def Strips (path pre : Path) : Prop :=
  (∀ rest, Leads pre path rest → basepath path pre = some rest) ∧
    ((∀ rest, ¬ Leads pre path rest) → basepath path pre = some path)

section Basepath

variable {path pre rest : Path} {i : ℕ}

theorem Leads.isPrefix (h : Leads pre path rest) : pre <+: path := by
  rcases h with rfl | ⟨rfl, -⟩ | ⟨-, rfl, -⟩
  · exact List.prefix_append _ _
  · exact List.prefix_refl _
  · exact List.prefix_append _ _

theorem strstr_eq_none : strstr path pre = none ↔ ¬ pre <:+: path := by
  unfold strstr
  rw [List.find?_eq_none]
  constructor
  · rintro h ⟨s, t, rfl⟩
    have hlt : s.length < (s ++ pre ++ t).length + 1 := by
      rw [List.length_append, List.length_append]
      omega
    refine h s.length (List.mem_range.mpr hlt) ?_
    rw [List.append_assoc, List.drop_left, List.isPrefixOf_iff_prefix]
    exact List.prefix_append _ _
  · intro h i _ hi
    rw [List.isPrefixOf_iff_prefix] at hi
    exact h (hi.isInfix.trans (List.drop_suffix i path).isInfix)

/-- A leading prefix is found at the start. -/
theorem strstr_of_isPrefix (h : pre <+: path) : strstr path pre = some 0 := by
  unfold strstr
  rw [List.range_succ_eq_map, List.find?_cons_of_pos]
  rw [List.drop_zero]
  exact List.isPrefixOf_iff_prefix.mpr h

variable (hlen : path.length < pathsizePlus)

include hlen

theorem basepath_of_none (h : strstr path pre = none) : basepath path pre = some path := by
  unfold basepath
  rw [h]
  exact congrArg some (List.take_of_length_le (by omega))

/-- What is found is skipped with one character more, if the path has one. -/
theorem basepath_of_some (h : strstr path pre = some i) : basepath path pre =
    if i + (pre.length + 1) ≤ path.length then some (path.drop (i + (pre.length + 1))) else none := by
  have htake : (path.drop (i + (pre.length + 1))).take (pathsizePlus - 1) =
      path.drop (i + (pre.length + 1)) := List.take_of_length_le (by rw [List.length_drop]; omega)
  unfold basepath
  rw [h]
  dsimp only
  rw [htake]

theorem basepath_append (h : path = pre ++ '/' :: rest) : basepath path pre = some rest := by
  have hdrop : (pre ++ '/' :: rest).drop (pre.length + 1) = rest := by
    rw [← List.drop_drop, List.drop_left]
    rfl
  have hle : 0 + (pre.length + 1) ≤ path.length := by
    rw [h, List.length_append, List.length_cons]
    omega
  rw [basepath_of_some hlen (strstr_of_isPrefix ⟨_, h.symm⟩), if_pos hle, h, Nat.zero_add, hdrop]

/-- `basepath` is right when the prefix is not in the path at all, or leads it with a slash behind. -/
theorem strips_iff : Strips path pre ↔ ¬ pre <:+: path ∨ pre ++ ['/'] <+: path := by
  cases hfind : strstr path pre with
  | none =>
    have hnot := strstr_eq_none.mp hfind
    refine iff_of_true ⟨fun rest h => absurd h.isPrefix.isInfix hnot, fun _ => ?_⟩ (Or.inl hnot)
    exact basepath_of_none hlen hfind
  | some i =>
    have hin : pre <:+: path := by
      by_contra hnot
      rw [strstr_eq_none.mpr hnot] at hfind
      cases hfind
    rw [or_iff_right (not_not.mpr hin)]
    constructor
    · intro ⟨hleads, hcopy⟩
      rw [basepath_of_some hlen hfind] at hleads hcopy
      by_cases hle : i + (pre.length + 1) ≤ path.length
      · rw [if_pos hle] at hleads hcopy
        by_cases hl : ∃ rest, Leads pre path rest
        · obtain ⟨rest, hl⟩ := hl
          have hrest := congrArg List.length (Option.some.inj (hleads rest hl))
          rw [List.length_drop] at hrest
          rcases hl with rfl | ⟨rfl, -⟩ | ⟨-, rfl, -⟩
          · exact ⟨rest, by simp⟩
          · omega
          · rw [List.length_append] at hrest hle
            omega
        · have hpath := congrArg List.length (Option.some.inj (hcopy (not_exists.mp hl)))
          rw [List.length_drop] at hpath
          omega
      · rw [if_neg hle] at hleads hcopy
        by_cases hl : ∃ rest, Leads pre path rest
        · obtain ⟨rest, hl⟩ := hl
          cases hleads rest hl
        · cases hcopy (not_exists.mp hl)
    · rintro ⟨rest, hrest⟩
      have hpath : path = pre ++ '/' :: rest := by rw [← hrest]; simp
      have hbase := basepath_append hlen hpath
      refine ⟨fun rest' h => ?_, fun h => absurd (Or.inl hpath) (h rest)⟩
      rw [hbase]
      rcases h with h | ⟨h, -⟩ | ⟨-, h, hslash⟩
      · rw [hpath, List.append_cancel_left_eq] at h
        rw [(List.cons.inj h).2]
      · rw [hpath, List.append_right_eq_self] at h
        cases h
      · rw [hpath, List.append_cancel_left_eq] at h
        exact absurd (h ▸ rfl) hslash

end Basepath

/-! ## Destinations -/

section Destinations

variable {o : Pwt.Options} {cpO : AppOptions} {lstat : Path → Lstat} {infile : FileInfo} {r : ℤ}
  {msgs : List Message} {fpair : FilePair}

/-- Every pair is a copy of the file and of the file at its destination. -/
theorem pair_of_mem (h : cmpProcessFile o cpO lstat infile = some (r, msgs))
    (hmem : .compare fpair ∈ msgs) : fpair.src = infile ∧ cpO.dpath infile.path = some fpair.dest.path := by
  unfold cmpProcessFile at h
  by_cases hblank : strIsBlank infile.path = true
  · rw [if_pos hblank] at h
    obtain ⟨-, rfl⟩ := Prod.mk.inj (Option.some.inj h)
    cases hmem
  · rw [if_neg hblank] at h
    obtain ⟨dpath, hdpath, h⟩ := Option.bind_eq_some_iff.mp h
    have hdest : (fileinfoLstat (fileinfoInit dpath) (lstat dpath)).1.path = dpath := by
      cases lstat dpath <;> rfl
    rw [hdpath]
    dsimp only at h
    split_ifs at h with herr hchunk
    · obtain ⟨-, rfl⟩ := Prod.mk.inj (Option.some.inj h)
      cases hmem
    · obtain ⟨-, rfl⟩ := Prod.mk.inj (Option.some.inj h)
      rcases List.mem_cons.mp hmem with hmem | hmem
      · cases hmem
      · obtain ⟨i, -, hi⟩ := List.mem_map.mp hmem
        obtain rfl := Message.compare.inj hi
        exact ⟨rfl, congrArg some hdest.symm⟩
    · obtain ⟨-, rfl⟩ := Prod.mk.inj (Option.some.inj h)
      obtain rfl := Message.compare.inj (List.mem_singleton.mp hmem)
      exact ⟨rfl, congrArg some hdest.symm⟩

variable {fs : Files}

/-- A path of the walk other than its start goes on behind the start with a slash, and then the start
is a directory. -/
theorem slash_of_reaches {start path : Path} (h : fs.Reaches start path) (hne : path ≠ start) :
    fs.lstat start = some true ∧ ∃ rest, path = start ++ '/' :: rest := by
  obtain ⟨rest, rfl, hrest⟩ := h.eq_append
  rcases h.cases_head with heq | ⟨hdir, -⟩
  · exact absurd heq hne
  · refine ⟨hdir, ?_⟩
    rcases hrest with rfl | ⟨t, rfl⟩
    · rw [List.append_nil] at hne
      exact absurd rfl hne
    · exact ⟨t, rfl⟩

/-- Two files of a walk are behind its start. -/
theorem slash_of_files {start path path' : Path} (h : fs.Reaches start path)
    (h' : fs.Reaches start path') (hfile : fs.lstat path = some false) (hne : path ≠ path') :
    ∃ rest, path = start ++ '/' :: rest := by
  by_cases hs : path = start
  · subst hs
    rw [(slash_of_reaches h' hne.symm).1] at hfile
    cases hfile
  · exact (slash_of_reaches h hs).2

theorem dpath_of_slash {path rest : Path} (hrec : cpO.recursive = true)
    (hlen : path.length < pathsizePlus) (hpath : path = cpO.startPath ++ '/' :: rest) {dest : Path}
    (hd : cpO.dpath path = some dest) : dest = cpO.destPath ++ '/' :: rest := by
  unfold AppOptions.dpath at hd
  rw [if_pos hrec, basepath_append hlen hpath, Option.bind_eq_bind, Option.bind_some] at hd
  dsimp only at hd
  split_ifs at hd
  exact (Option.some.inj hd).symm

end Destinations

/-- `basepath` is right exactly when the prefix is not in the path, or leads it with a slash behind;
and two files of a walk are never compared with one file. -/
theorem basepath_iff (path pre : Path) (hpath : path.length < pathsizePlus)
    (_ : pre.length < pathsizePlus) :
    (Strips path pre ↔ ¬ pre <:+: path ∨ pre ++ ['/'] <+: path) ∧
    ∀ (o : Pwt.Options) (cpO : AppOptions) (lstat : Path → Lstat) (fs : Files)
      (infile infile' : FileInfo) (r r' : ℤ) (msgs msgs' : List Message) (fpair fpair' : FilePair),
      cpO.recursive = true →
      infile.path.length < pathsizePlus → infile'.path.length < pathsizePlus →
      fs.Reaches cpO.startPath infile.path → fs.Reaches cpO.startPath infile'.path →
      fs.lstat infile.path = some false → fs.lstat infile'.path = some false →
      infile.path ≠ infile'.path →
      cmpProcessFile o cpO lstat infile = some (r, msgs) →
      cmpProcessFile o cpO lstat infile' = some (r', msgs') →
      .compare fpair ∈ msgs → .compare fpair' ∈ msgs' → fpair.dest.path ≠ fpair'.dest.path := by
  refine ⟨strips_iff hpath, ?_⟩
  intro o cpO lstat fs infile infile' r r' msgs msgs' fpair fpair' hrec hlen hlen' hreach hreach'
    hfile hfile' hne hrun hrun' hmem hmem' heq
  obtain ⟨rest, hrest⟩ := slash_of_files hreach hreach' hfile hne
  obtain ⟨rest', hrest'⟩ := slash_of_files hreach' hreach hfile' hne.symm
  have hdest := dpath_of_slash hrec hlen hrest (pair_of_mem hrun hmem).2
  have hdest' := dpath_of_slash hrec hlen' hrest' (pair_of_mem hrun' hmem').2
  rw [hdest, hdest', List.append_cancel_left_eq] at heq
  rw [hrest, hrest', (List.cons.inj heq).2] at hne
  exact hne rfl

/-- A path that is stripped of its start, and the destinations of two files of a walk. -/
theorem basepath_iff_two_files :
    Strips ['s', '/', 'a'] ['s'] ∧ ['d', '/', 'a'] ≠ ['d', '/', 'b'] := by
  let fs : Files := ⟨fun path => some (path = ['s']), fun _ => some [['a'], ['b']]⟩
  let cpO : AppOptions := ⟨['s'], ['d'], true, false, 1, one_pos, 1⟩
  have hreach : ∀ name ∈ [['a'], ['b']], fs.Reaches ['s'] (subpath ['s'] name) := fun name hn =>
    .entry .start rfl (by
      unfold Files.entries
      rw [show (fs.opendir ['s']).getD [] = [['a'], ['b']] from rfl]
      revert name
      decide)
  obtain ⟨hstrips, hdest⟩ := basepath_iff ['s', '/', 'a'] ['s'] (by decide) (by decide)
  refine ⟨hstrips.mpr (Or.inr (by decide)), ?_⟩
  exact hdest ⟨1, 1⟩ cpO (fun _ => .enoent) fs ⟨['s', '/', 'a'], 1, 0, 0⟩
    ⟨['s', '/', 'b'], 1, 0, 0⟩ 0 0
    [.compare (filepairNew ⟨['s', '/', 'a'], 1, 0, 0⟩ ⟨['d', '/', 'a'], 0, 0, 0⟩)]
    [.compare (filepairNew ⟨['s', '/', 'b'], 1, 0, 0⟩ ⟨['d', '/', 'b'], 0, 0, 0⟩)] _ _
    rfl (by decide) (by decide) (hreach ['a'] (by decide)) (hreach ['b'] (by decide)) rfl rfl
    (by decide) rfl rfl List.mem_cons_self List.mem_cons_self

/-- A prefix that is found later in the path. -/
theorem not_strips_later : ¬ Strips ['a', '/', 'b', '/', 'c'] ['b'] := by
  intro h
  have hnot : ∀ rest, ¬ Leads ['b'] ['a', '/', 'b', '/', 'c'] rest := fun rest hl =>
    absurd hl.isPrefix (by decide)
  exact absurd (h.2 hnot) (by decide)

end MpiToShmem.Compare
