import MpiToShmem.Pftool.Verdicts

/-!
# A compare of contents

Over a disk on which every call succeeds, a file matches when the file at its destination has the same
bytes.

1. `compareLoop_files`: the loop finds no difference when the parts of the two files are the same.
2. `allMatched_iff`: the chunks of a file all match when the contents do.
3. `verdicts_of_contents`: the lines of the whole compare.
-/

namespace MpiToShmem.Compare

open Kit Treewalk

/-! ## The loop over two files -/

section Loop

variable {src dest : List UInt8} {start length bufsize : ℕ}

theorem blockOf_bytes (side : Side) (k : ℕ) :
    (blockOf (fileReads src dest) start length bufsize side k).bytes =
      some (((side.of src dest).drop (k * bufsize + start)).take
        (blockSize length (k * bufsize) bufsize)) := by
  have hpos : (((k * bufsize : ℕ) : ℤ) + (start : ℤ)) = ((k * bufsize + start : ℕ) : ℤ) :=
    (Nat.cast_add _ _).symm
  show fileReads src dest side (((k * bufsize : ℕ) : ℤ) + (start : ℤ)) _ = _
  unfold fileReads
  rw [hpos, if_neg (by omega), Int.toNat_natCast]

variable (hsrc : start + length ≤ src.length) (hdest : start + length ≤ dest.length)

include hsrc hdest

theorem blockRead_of_lt {k : ℕ} (hk : k * bufsize < length) :
    BlockRead (fileReads src dest) start length bufsize k := by
  have hfull : ∀ side, (blockOf (fileReads src dest) start length bufsize side k).full = true := by
    intro side
    refine Pread.full_iff.mpr ⟨_, blockOf_bytes side k, ?_⟩
    show _ = blockSize length (k * bufsize) bufsize
    have hle : blockSize length (k * bufsize) bufsize ≤ length - k * bufsize := by
      unfold blockSize
      split_ifs <;> omega
    have hside : start + length ≤ (side.of src dest).length := by
      cases side
      · exact hsrc
      · exact hdest
    rw [List.length_take, List.length_drop, Nat.min_eq_left]
    omega
  exact ⟨hfull .src, hfull .dest⟩

/-- The loop finds no difference when the parts of the two files are the same. -/
theorem compareLoop_files (bufsize_pos : 0 < bufsize) :
    (compareLoop (fileReads src dest) start length 0 bufsize bufsize_pos).noMatch = false ↔
      ∀ i < length, src[start + i]? = dest[start + i]? := by
  have hblock : ∀ k, k * bufsize < length →
      ((blockOf (fileReads src dest) start length bufsize .src k).bytes =
        (blockOf (fileReads src dest) start length bufsize .dest k).bytes ↔
      ∀ i < blockSize length (k * bufsize) bufsize,
        src[start + (k * bufsize + i)]? = dest[start + (k * bufsize + i)]?) := by
    intro k hk
    rw [blockOf_bytes, blockOf_bytes, Option.some.injEq]
    show (src.drop _).take _ = (dest.drop _).take _ ↔ _
    constructor
    · intro h i hi
      have hget := congrArg (fun l => l[i]?) h
      simp only [List.getElem?_take, if_pos hi, List.getElem?_drop] at hget
      rw [show start + (k * bufsize + i) = k * bufsize + start + i by omega]
      exact hget
    · intro h
      refine List.ext_getElem? fun i => ?_
      rw [List.getElem?_take, List.getElem?_take]
      split_ifs with hi
      · rw [List.getElem?_drop, List.getElem?_drop]
        rw [show k * bufsize + start + i = start + (k * bufsize + i) by omega]
        exact h i hi
      · rfl
  have hends := @compareLoop_ends (fileReads src dest) start length bufsize bufsize_pos 0
  rw [Nat.zero_mul] at hends
  rcases hends with ⟨-, hno, -, hall⟩ | ⟨-, -, m, -, hlen, hfail, -⟩ | ⟨hno, m, -, hlen, hdiff, -⟩
  · refine iff_of_true hno fun i hi => ?_
    have hlow : i / bufsize * bufsize ≤ i := Nat.div_mul_le_self i bufsize
    have hhigh : i < i / bufsize * bufsize + bufsize := Nat.lt_div_mul_add bufsize_pos
    have hk : i / bufsize * bufsize < length := by omega
    have heq := (hblock _ hk).mp (hall _ (Nat.zero_le _) hk).1.2 (i - i / bufsize * bufsize) (by
      unfold blockSize
      split_ifs <;> omega)
    rwa [Nat.add_sub_cancel' hlow] at heq
  · exact absurd (blockRead_of_lt hsrc hdest hlen) hfail
  · refine iff_of_false (by rw [hno]; exact fun he => by cases he) fun h => hdiff.2 ?_
    refine (hblock m hlen).mpr fun i hi => h _ ?_
    have hle : blockSize length (m * bufsize) bufsize ≤ length - m * bufsize := by
      unfold blockSize
      split_ifs <;> omega
    omega

end Loop

/-! ## Pairs of files -/

section Pair

variable {o : Pwt.Options} {cpO : AppOptions} {fds : FilePair → Fds} {src dest : List UInt8}
  {fpair : FilePair} (hmode : cpO.metaOnly = false)
  (hopen : ∀ fpair, 0 < (fds fpair).sfd ∧ 0 < (fds fpair).dfd)
  (hexists : fpair.dest.existsFlag = 1) (hsrc : fpair.src.stSize = src.length)
  (hdest : fpair.dest.stSize = dest.length)

include hmode hopen hexists hsrc hdest

/-- A pair matches when the files have one size and the same bytes in the part that is compared. -/
theorem matched_part_iff {start : ℕ} (hstart : computeTransferOffset fpair o = start)
    (hlen : start + computeTransferLength fpair o ≤ src.length) :
    (cmpCompare o cpO (fds fpair) (fileReads src dest) fpair).filebuf.matched = true ↔
      src.length = dest.length ∧ ∀ x, Transfers o x fpair → src[x.toNat]? = dest[x.toNat]? := by
  by_cases hsize : src.length = dest.length
  · have hgo : fpair.dest.existsFlag ≠ 0 ∧ 0 < (fds fpair).sfd ∧ 0 < (fds fpair).dfd :=
      ⟨hexists.symm ▸ one_ne_zero, hopen fpair⟩
    have hpart : comparePart o cpO (fileReads src dest) fpair (fpair.dest.existsFlag < 0) =
        compareLoop (fileReads src dest) start (computeTransferLength fpair o) 0 cpO.buffersize
          cpO.buffersize_pos := by
      unfold comparePart
      rw [hexists, hstart]
      rfl
    rw [cmpCompare_of_opened (by rw [hsrc, hdest, hsize]) hmode hgo, and_iff_right hsize,
      forall_transfers, hstart, hpart]
    dsimp only
    rw [Bool.not_eq_true', compareLoop_files hlen (hsize ▸ hlen)]
    refine forall_congr' fun i => imp_congr_right fun _ => ?_
    rw [show ((start : ℤ) + (i : ℤ)).toNat = start + i by omega]
  · refine iff_of_false ?_ fun h => hsize h.1
    have hne : ¬ fpair.src.stSize = fpair.dest.stSize := by
      rw [hsrc, hdest]
      omega
    unfold cmpCompare
    simp [hexists, hne]

variable (hmax : (src.length : ℤ) < 2 ^ 63) (hn : 1 ≤ o.nproc)

omit hmode hopen hexists hdest hn in
include hmax in
/-- The whole file is compared. -/
theorem transfer_whole (hnum : fpair.chunknum = -1) : computeTransferOffset fpair o = 0 ∧
    computeTransferLength fpair o = src.length := by
  have hlen : (toUInt64 fpair.src.stSize : ℤ) = fpair.src.stSize :=
    toUInt64_of_lt (by omega) (by omega)
  unfold computeTransferOffset computeTransferLength
  rw [hnum, if_neg (by decide), if_neg (by decide)]
  exact ⟨rfl, by omega⟩

omit hmode hopen hexists hsrc hdest in
theorem eq_iff_getElem? : src = dest ↔ src.length = dest.length ∧
    ∀ x : ℤ, 0 ≤ x ∧ x < src.length → src[x.toNat]? = dest[x.toNat]? := by
  constructor
  · rintro rfl
    exact ⟨rfl, fun _ _ => rfl⟩
  · rintro ⟨hlen, h⟩
    refine List.ext_getElem? fun i => ?_
    by_cases hi : i < src.length
    · exact h i ⟨Int.natCast_nonneg i, by omega⟩
    · rw [List.getElem?_eq_none (by omega), List.getElem?_eq_none (by omega)]

include hmax

/-- A file that is compared as a whole matches when the contents are the same. -/
theorem matched_whole (hnum : fpair.chunknum = -1) :
    (cmpCompare o cpO (fds fpair) (fileReads src dest) fpair).filebuf.matched = true ↔ src = dest := by
  obtain ⟨hoff, hlen⟩ := transfer_whole (o := o) hsrc hmax hnum
  rw [matched_part_iff hmode hopen hexists hsrc hdest (show _ = ((0 : ℕ) : ℤ) from hoff) (by omega),
    eq_iff_getElem?]
  refine and_congr_right fun _ => forall_congr' fun x => ?_
  unfold Transfers
  rw [hoff, hlen, zero_add]

include hn

/-- The chunks of a file all match when the contents are the same. -/
theorem allMatched_iff : (∀ k < o.nproc, (cmpCompare o cpO (fds (fpair.chunk k)) (fileReads src dest)
    (fpair.chunk k)).filebuf.matched = true) ↔ src = dest := by
  have hsize : 0 ≤ fpair.src.stSize := by omega
  have hmax' : fpair.src.stSize < 2 ^ 63 := by omega
  have hchunk : ∀ k < o.nproc,
      ((cmpCompare o cpO (fds (fpair.chunk k)) (fileReads src dest)
          (fpair.chunk k)).filebuf.matched = true ↔ src.length = dest.length ∧
          ∀ x, Transfers o x (fpair.chunk k) → src[x.toNat]? = dest[x.toNat]?) := by
    intro k hk
    have hoff := @computeTransferOffset_chunk fpair o _ _ hsize hmax' rfl hk
    have hlen := @computeTransferLength_chunk fpair o _ _ hsize hmax' rfl hk
    have hmono := monotone_boundary (o := o) hsize
    have hlow := hmono (Nat.zero_le k)
    have hhigh := hmono (show k + 1 ≤ o.nproc from hk)
    rw [boundary_zero hn] at hlow
    rw [boundary_self] at hhigh
    exact @matched_part_iff _ _ _ _ _ (fpair.chunk k) hmode hopen hexists hsrc hdest
      (boundary fpair.src.stSize o.nproc k).toNat (by omega) (by omega)
  rw [eq_iff_getElem?]
  constructor
  · intro h
    refine ⟨((hchunk 0 hn).mp (h 0 hn)).1, fun x hx => ?_⟩
    have htile := (exists_tile_iff (n := o.nproc) (x := x) (monotone_boundary (o := o) hsize)).mpr (by
      rw [boundary_zero hn, boundary_self]
      omega)
    obtain ⟨k, hk, hx⟩ := htile
    exact ((hchunk k hk).mp (h k hk)).2 x ((transfers_chunk hsize hmax' rfl hk x).mpr hx)
  · rintro ⟨hlen, h⟩ k hk
    refine (hchunk k hk).mpr ⟨hlen, fun x hx => h x ?_⟩
    have htile := (exists_tile_iff (n := o.nproc) (x := x) (monotone_boundary (o := o) hsize)).mp
      ⟨k, hk, (transfers_chunk hsize hmax' rfl hk x).mp hx⟩
    rw [boundary_zero hn, boundary_self] at htile
    omega

end Pair

end MpiToShmem.Compare

namespace MpiToShmem.Jobs

open Kit Pwt Treewalk Compare

/-! ## A disk -/

namespace Disk

variable (d : Disk)

/-- What is to be printed for a visit. -/
def verdict (cpO : AppOptions) (verbose : Bool) : Visit → List Cmp.Line
  | .readdir _ => []
  | .processfile path =>
    if Str.strIsBlank path then []
    else (cpO.dpath path).toList.flatMap fun dpath =>
      verdictLines verbose ⟨bytes path, bytes dpath, -1, false⟩ (d.contents path = d.contents dpath)

variable {d} {o : Options} {cpO : AppOptions} {fds : FilePair → Fds}

/-- The pair of a file. -/
def pair (d : Disk) (path dpath : Path) : FilePair :=
  filepairNew (fileinfoInitStat path (d.stat path))
    (fileinfoLstat (fileinfoInit dpath) (d.lstat dpath)).1

theorem sent_eq (path : Path) : (d.cmpJob o cpO fds).sent (.processfile path) =
    ((cmpProcessFile o cpO d.lstat (fileinfoInitStat path (d.stat path))).map Prod.snd).getD [] := by
  show (((cmpProcessFile o cpO d.lstat (fileinfoInitStat path (d.stat path))).map _).map _).getD [] = _
  rw [Option.map_map]
  rfl

theorem compares_nil {path : Path} (h : Str.strIsBlank path = true ∨ cpO.dpath path = none) :
    compares ((d.cmpJob o cpO fds).sent (.processfile path)) = [] := by
  rw [sent_eq]
  unfold cmpProcessFile
  rw [show (fileinfoInitStat path (d.stat path)).path = path from rfl]
  by_cases hblank : Str.strIsBlank path = true
  · rw [if_pos hblank]
    rfl
  · rw [if_neg hblank, h.resolve_left hblank]
    rfl

theorem compares_of_dpath {path dpath : Path} (hblank : Str.strIsBlank path = false)
    (hdpath : cpO.dpath path = some dpath) :
    compares ((d.cmpJob o cpO fds).sent (.processfile path)) = [d.pair path dpath] ∨
      compares ((d.cmpJob o cpO fds).sent (.processfile path)) =
        (List.range o.nproc).map (d.pair path dpath).chunk := by
  have hstat : (fileinfoLstat (fileinfoInit dpath) (d.lstat dpath)).2 = 0 := by
    unfold lstat
    cases d.contents dpath <;> rfl
  have hrun : cmpProcessFile o cpO d.lstat (fileinfoInitStat path (d.stat path)) =
      if fileinfoIsChunkable (fileinfoInitStat path (d.stat path)) cpO && !cpO.metaOnly then
        some (0, .addchunkfile { d.pair path dpath with chunknum := o.nproc } ::
          (List.range o.nproc).map fun i : ℕ => .compare ((d.pair path dpath).chunk i))
      else some (0, [.compare (d.pair path dpath)]) := by
    unfold cmpProcessFile
    rw [show (fileinfoInitStat path (d.stat path)).path = path from rfl, hblank,
      if_neg Bool.false_ne_true, hdpath]
    simp only [Option.bind_eq_bind, Option.bind_some, hstat, ne_eq, not_true_eq_false, if_false]
    rfl
  rw [sent_eq, hrun]
  split_ifs
  · exact Or.inr (List.filterMap_map.trans (congrFun List.filterMap_eq_map _))
  · exact Or.inl rfl

/-- Without a file at the destination a pair does not match. -/
theorem matched_of_none {path dpath : Path} (h : d.contents dpath = none) {fds : Fds} {reads : Reads}
    {fpair : FilePair} (hpair : fpair = d.pair path dpath ∨ ∃ k, fpair = (d.pair path dpath).chunk k) :
    (cmpCompare o cpO fds reads fpair).filebuf.matched = false := by
  have hdest : fpair.dest.existsFlag = 0 ∧ fpair.matched = false := by
    have hlstat : d.lstat dpath = .enoent := by
      unfold lstat
      rw [h]
    rcases hpair with rfl | ⟨k, rfl⟩
    all_goals
      unfold pair
      rw [hlstat]
      exact ⟨rfl, rfl⟩
  unfold cmpCompare
  simp [hdest.1, hdest.2]

/-- The compares of a file all match when there is a file with the same contents at its destination. -/
theorem all_matched (hn : 1 ≤ o.nproc) (hmode : cpO.metaOnly = false)
    (hopen : ∀ fpair, 0 < (fds fpair).sfd ∧ 0 < (fds fpair).dfd) {path dpath : Path}
    {bs : List UInt8} (hfile : d.contents path = some bs) (hmax : (bs.length : ℤ) < 2 ^ 63)
    {fpairs : List FilePair} (h : fpairs = [d.pair path dpath] ∨
      fpairs = (List.range o.nproc).map (d.pair path dpath).chunk) :
    (∀ fpair ∈ fpairs, ((d.cmpJob o cpO fds).compare fpair).matched = true) ↔
      d.contents path = d.contents dpath := by
  cases hd : d.contents dpath with
  | none =>
    rw [hfile]
    refine iff_of_false (fun hall => ?_) (Option.some_ne_none _)
    have hmem : ∃ fpair ∈ fpairs, fpair = d.pair path dpath ∨
        ∃ k, fpair = (d.pair path dpath).chunk k := by
      rcases h with rfl | rfl
      · exact ⟨_, List.mem_cons_self, Or.inl rfl⟩
      · exact ⟨_, List.mem_map_of_mem (List.mem_range.mpr hn), Or.inr ⟨0, rfl⟩⟩
    obtain ⟨fpair, hmem, hpair⟩ := hmem
    exact absurd ((matched_of_none hd hpair).symm.trans (hall fpair hmem)) Bool.false_ne_true
  | some bs' =>
    rw [hfile, Option.some.injEq]
    have hlstat : d.lstat dpath = .ok bs'.length (d.mtime dpath) := by
      unfold lstat
      rw [hd]
    have hpair : (d.pair path dpath).dest.existsFlag = 1 ∧
        (d.pair path dpath).src.stSize = bs.length ∧ (d.pair path dpath).dest.stSize = bs'.length := by
      unfold pair stat bytesOf
      rw [hlstat, hfile]
      exact ⟨rfl, rfl, rfl⟩
    have hcompare : ∀ fpair, fpair.src = (d.pair path dpath).src → fpair.dest = (d.pair path dpath).dest →
        (d.cmpJob o cpO fds).compare fpair =
          (cmpCompare o cpO (fds fpair) (fileReads bs bs') fpair).filebuf := by
      intro fpair hsrc hdest
      have hreads : d.reads fpair = fileReads bs bs' := by
        unfold reads bytesOf
        rw [hsrc, hdest, show (d.pair path dpath).src.path = path from rfl, hfile]
        unfold pair
        rw [hlstat, show (filepairNew _ (fileinfoLstat (fileinfoInit dpath) _).1).dest.path = dpath
          from rfl, hd]
        rfl
      show (cmpCompare o cpO (fds fpair) (d.reads fpair) fpair).filebuf = _
      rw [hreads]
    obtain ⟨hexists, hsrc, hdest⟩ := hpair
    rcases h with rfl | rfl
    · rw [List.forall_mem_singleton, hcompare _ rfl rfl]
      exact matched_whole hmode hopen hexists hsrc hdest hmax rfl
    · rw [List.forall_mem_map]
      simp only [List.mem_range]
      rw [← allMatched_iff hmode hopen hexists hsrc hdest hmax hn]
      exact forall_congr' fun k => imp_congr_right fun _ => by
        rw [hcompare ((d.pair path dpath).chunk k) rfl rfl]

/-- The verdict on a file is the one it should get. -/
theorem lines_eq_verdict (hn : 1 ≤ o.nproc) (hmode : cpO.metaOnly = false)
    (hopen : ∀ fpair, 0 < (fds fpair).sfd ∧ 0 < (fds fpair).dfd) {verbose : Bool} {path : Path}
    {bs : List UInt8} (hfile : d.contents path = some bs) (hmax : (bs.length : ℤ) < 2 ^ 63) :
    (d.cmpJob o cpO fds).lines verbose (.processfile path) =
      d.verdict cpO verbose (.processfile path) := by
  show _ = if Str.strIsBlank path then [] else _
  by_cases hnone : Str.strIsBlank path = true ∨ cpO.dpath path = none
  · unfold Job.lines
    rw [compares_nil hnone]
    rcases hnone with hblank | hdpath
    · rw [if_pos hblank]
      rfl
    · rw [hdpath]
      exact (ite_self _).symm
  · obtain ⟨hblank, hsome⟩ := not_or.mp hnone
    obtain ⟨dpath, hdpath⟩ := Option.ne_none_iff_exists'.mp hsome
    have hpairs := @compares_of_dpath d o _ fds _ _ (Bool.eq_false_iff.mpr hblank) hdpath
    have hdest : (d.pair path dpath).dest.path = dpath := by
      unfold pair
      cases d.lstat dpath <;> rfl
    rw [if_neg hblank, hdpath, lines_eq (p := bytes path) (d := bytes dpath) ?_ rfl ?_]
    · have hall := all_matched hn hmode hopen hfile hmax hpairs
      have hsame : ((compares ((d.cmpJob o cpO fds).sent (.processfile path))).map
          (d.cmpJob o cpO fds).compare).all FilePair.matched =
            decide (d.contents path = d.contents dpath) := by
        rw [Bool.eq_iff_iff, decide_eq_true_eq, ← hall, List.all_eq_true, List.forall_mem_map]
      rw [hsame]
      exact (List.append_nil _).symm
    · rcases hpairs with h | h
      · rw [h]
        exact List.cons_ne_nil _ _
      · rw [h]
        intro hnil
        have hlen := congrArg List.length hnil
        simp at hlen
        omega
    · intro fpair hf
      obtain ⟨c, hc, rfl⟩ := List.mem_map.mp hf
      have hc' : c.src = (d.pair path dpath).src ∧ c.dest = (d.pair path dpath).dest := by
        rcases hpairs with h | h
        · rw [h] at hc
          rw [List.mem_singleton.mp hc]
          exact ⟨rfl, rfl⟩
        · rw [h] at hc
          obtain ⟨k, -, rfl⟩ := List.mem_map.mp hc
          exact ⟨rfl, rfl⟩
      rw [show (d.cmpJob o cpO fds).compare c = _ from cmpJob_compares.keeps c]
      dsimp only
      rw [hc'.1, hc'.2, hdest]
      exact ⟨rfl, rfl⟩

end Disk

/-! ## The whole compare -/

variable {d : Disk} {o : Options} {cpO : AppOptions} {fds : FilePair → Fds} {start : Path}
  {s : Reports Item Content} {ls : List (Label Item)}

/-- A compare of contents over a disk, however its work is spread over the workers, prints for each file
of the tree whether the file at its destination is there and has the same bytes, and nothing else. -/
theorem verdicts_of_contents (hn : 1 ≤ o.nproc) (hmode : cpO.metaOnly = false)
    (hopen : ∀ fpair, 0 < (fds fpair).sfd ∧ 0 < (fds fpair).dfd) (hfs : d.fs.Walkable start)
    (hbytes : OfBytes d.fs start)
    (hfiles : ∀ path, d.fs.Reaches start path → d.fs.lstat path = some false →
      ∃ bs, d.contents path = some bs ∧ (bs.length : ℤ) < 2 ^ 63)
    (h : exec (reportStep o (startwork start []) (d.cmpJob o cpO fds).work) Reports.init ls = some s)
    (hdoes : Meets (reportStep o (startwork start []) (d.cmpJob o cpO fds).work)
      (Reports.Does (d.cmpJob o cpO fds).work) Reports.init ls)
    (hl : s.procs.manager = .left) (verbose : Bool) :
    (verdicts verbose (s.handled.map Prod.snd)).2.Perm
      ((tree d.fs start).flatMap (d.verdict cpO verbose)) := by
  obtain ⟨-, -, hord⟩ := Reports.told_run h hdoes
  have hlines := (@handleAll_tree _ _ verbose _ _ cmpJob_compares hn hfs hbytes _
    (messages_perm hfs h hdoes hl) (inOrder_messages cmpJob_compares hord)
    (Buckets.create 17 (by decide) Cmp.defHashfunc) fun key => rfl).1
  refine hlines.trans (List.Perm.of_eq (List.flatMap_congr fun v hv => ?_))
  cases v with
  | readdir path => rfl
  | processfile path =>
    obtain ⟨hreach, hstat⟩ := (mem_tree hfs _).mp hv
    obtain ⟨bs, hfile, hmax⟩ := hfiles path hreach hstat
    exact Disk.lines_eq_verdict hn hmode hopen hfile hmax

theorem verdicts_of_contents_smallRun : ∃ s,
    exec (reportStep ⟨3, 2⟩ (startwork ['r'] []) smallJob.work) Reports.init smallRun = some s ∧
      (verdicts true (s.handled.map Prod.snd)).2.Perm ((tree smallDisk.fs ['r']).flatMap
        (smallDisk.verdict ⟨['r'], ['c'], true, false, 2, by decide, 2⟩ true)) := by
  obtain ⟨s, hs, hl⟩ := smallRun_ends
  refine ⟨s, hs, verdicts_of_contents (by decide) rfl (fun _ => by decide) smallDisk_walkable
    smallDisk_ofBytes ?_ hs smallRun_meets hl true⟩
  have hall : ∀ path ∈ [['r'], ['r', '/', 'a'], ['r', '/', 'b']], smallDisk.fs.lstat path = some false →
      ∃ bs ∈ [[1, 2, 3], [7]], smallDisk.contents path = some bs := by decide
  intro path hp hfile
  obtain ⟨bs, hbs, hcontents⟩ := hall path (smallDisk_reaches hp) hfile
  refine ⟨bs, hcontents, ?_⟩
  have hlen : ∀ bs ∈ ([[1, 2, 3], [7]] : List (List UInt8)), (bs.length : ℤ) < 2 ^ 63 := by decide
  exact hlen bs hbs

end MpiToShmem.Jobs
