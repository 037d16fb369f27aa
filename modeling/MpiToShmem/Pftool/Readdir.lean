import MpiToShmem.Pftool.Visits

/-!
# What `treewalk_readdir` sends

The paths of the entries go into a buffer that is sent when it is full and at the end. A directory
that cannot be opened ends the work: neither the paths in the buffer nor the directories after it are
dealt with.

1. `Walk.Batched`: the paths met so far are in full batches and in the buffer, in their order.
2. `readdirs_batched`: what is sent, and what is left in the buffer.
3. `sendsAll_iff`: when the entries of all directories that can be opened are sent.
-/

namespace MpiToShmem.Treewalk

open Pwt

/-! ## Messages -/

/-- What a work function sends: items, and that it is done. -/
inductive Sent where
  | act (a : Action WorkItem)
  | done
deriving DecidableEq

/-- The item of `tw_sendpaths` for a buffer. -/
def sendItem (dirbuf : PathWork) : Action WorkItem := .request 0 ⟨.statpath, [], some dirbuf⟩

variable (fs : Files)

/-- The messages of `treewalk_readdir`; both of its ends call `tw_senddone`. -/
def readdirMessages (data : WorkItem) : Option (List Sent) :=
  (treewalkReaddir fs data).map fun w => w.acts.map .act ++ [.done]

/-- The paths of the entries of a directory; there are none if it cannot be opened. -/
def entryPaths (path : Path) : List Path := (fs.entries path).map (subpath path)

/-- Every entry of the directories that can be opened is sent once, in batches, and then that the work
is done. -/
def SendsAll (data : WorkItem) : Prop :=
  ∃ batches : List PathWork,
    readdirMessages fs data = some (batches.map (fun b => .act (sendItem b)) ++ [.done]) ∧
      (∀ b ∈ batches, b.buf.length ≤ pathBufferMax) ∧
      (batches.flatMap PathWork.buf).Perm (data.paths.flatMap (entryPaths fs))

/-! ## Directories that cannot be opened -/

def canOpen (path : Path) : Bool := (fs.opendir path).isSome

/-- The directories before the first one that cannot be opened. -/
def opened (paths : List Path) : List Path := paths.takeWhile (canOpen fs)

/-- The first directory that cannot be opened, and those after it. -/
def unread (paths : List Path) : List Path := paths.dropWhile (canOpen fs)

/-- The paths that are put into the buffer. -/
def metPaths (paths : List Path) : List Path := (opened fs paths).flatMap (entryPaths fs)

/-- The paths fit their array, and nothing is lost at a directory that cannot be opened: no path is
in the buffer then, and no entry is in the directories after it. -/
def NothingLost (paths : List Path) : Prop :=
  (∀ path ∈ metPaths fs paths, path.length < pathsizePlus) ∧
    (unread fs paths ≠ [] →
      (metPaths fs paths).length % pathBufferMax = 0 ∧
        (unread fs paths).flatMap (entryPaths fs) = [])

instance (paths : List Path) : Decidable (NothingLost fs paths) :=
  inferInstanceAs (Decidable (_ ∧ _))

variable {fs}

theorem flatMap_entryPaths (paths : List Path) :
    paths.flatMap (entryPaths fs) =
      metPaths fs paths ++ (unread fs paths).flatMap (entryPaths fs) := by
  unfold metPaths opened unread
  rw [← List.flatMap_append, List.takeWhile_append_dropWhile]

theorem metPaths_of_none {path : Path} (h : fs.opendir path = none) (paths : List Path) :
    metPaths fs (path :: paths) = [] ∧ unread fs (path :: paths) = path :: paths := by
  have hcan : canOpen fs path = false := by
    unfold canOpen
    rw [h]
    rfl
  unfold metPaths opened unread
  rw [List.takeWhile_cons_of_neg (Bool.eq_false_iff.mp hcan),
    List.dropWhile_cons_of_neg (Bool.eq_false_iff.mp hcan)]
  exact ⟨rfl, rfl⟩

theorem metPaths_of_some {path : Path} {names : List Path} (h : fs.opendir path = some names)
    (paths : List Path) :
    metPaths fs (path :: paths) = entryPaths fs path ++ metPaths fs paths ∧
      unread fs (path :: paths) = unread fs paths := by
  have hcan : canOpen fs path = true := by
    unfold canOpen
    rw [h]
    rfl
  unfold metPaths opened unread
  rw [List.takeWhile_cons_of_pos hcan, List.dropWhile_cons_of_pos hcan, List.flatMap_cons]
  exact ⟨rfl, rfl⟩

theorem entryPaths_of_some {path : Path} {names : List Path} (h : fs.opendir path = some names) :
    entryPaths fs path = (names.filter fun n => !isDot n).map (subpath path) := by
  unfold entryPaths Files.entries
  rw [h]
  rfl

/-! ## Batches -/

namespace Walk

/-- The paths that were met are in full batches that were sent and in a buffer that is not full. -/
structure Batched (w : Walk) (l : List Path) : Prop where
  batches : ∃ batches : List PathWork, w.acts = batches.map sendItem ∧
    (∀ b ∈ batches, b.buf.length = pathBufferMax) ∧
    batches.flatMap PathWork.buf ++ w.buffer.buf = l
  notFull : w.buffer.buf.length < pathBufferMax

variable {w : Walk} {l : List Path}

theorem batched_init : init.Batched [] where
  batches := ⟨[], rfl, List.forall_mem_nil _, rfl⟩
  notFull := by decide

theorem Batched.visit (h : w.Batched l) (v : Visit) :
    Batched { w with visits := w.visits ++ [v] } l := ⟨h.batches, h.notFull⟩

/-- What is in the buffer does not fill a batch. -/
theorem Batched.length_buffer (h : w.Batched l) :
    w.buffer.buf.length = l.length % pathBufferMax := by
  obtain ⟨batches, -, hfull, rfl⟩ := h.batches
  have hsum : (batches.flatMap PathWork.buf).length = pathBufferMax * batches.length := by
    rw [List.length_flatMap, List.map_congr_left hfull, List.map_const', List.sum_replicate_nat]
    exact Nat.mul_comm _ _
  rw [List.length_append, hsum, Nat.mul_add_mod, Nat.mod_eq_of_lt h.notFull]

/-- A path that fits its array is put into the buffer, which is sent if that fills it. -/
theorem Batched.addPath (h : w.Batched l) {path : Path} (hs : path.length < pathsizePlus) :
    ∃ w', ((w.addPath path).map fun w => if pathworkIsFull w.buffer then w.sendpaths else w) =
      some w' ∧ w'.Batched (l ++ [path]) := by
  obtain ⟨batches, hacts, hfull, hl⟩ := h.batches
  obtain ⟨buffer, hadd, hbuf⟩ := pathworkAddPath_of_lt h.notFull hs
  have hlen : buffer.buf.length = w.buffer.buf.length + 1 := by
    rw [hbuf, List.length_append, List.length_singleton]
  have hl' : batches.flatMap PathWork.buf ++ buffer.buf = l ++ [path] := by
    rw [hbuf, ← List.append_assoc, hl]
  refine ⟨_, by rw [Walk.addPath, hadd]; rfl, ?_⟩
  dsimp only
  unfold pathworkIsFull
  by_cases hmax : pathBufferMax ≤ buffer.buf.length
  · rw [if_pos (decide_eq_true hmax)]
    refine ⟨⟨batches ++ [buffer], ?_, ?_, ?_⟩, Nat.zero_lt_succ _⟩
    · rw [List.map_append, ← hacts]
      rfl
    · intro b hb
      rcases List.mem_append.mp hb with hb | hb
      · exact hfull b hb
      · rw [List.mem_singleton.mp hb]
        exact Nat.le_antisymm buffer.size_le hmax
    · rw [List.flatMap_append, List.flatMap_singleton, hl']
      exact List.append_nil _
  · rw [if_neg (by rwa [decide_eq_true_eq])]
    exact ⟨⟨batches, hacts, hfull, hl'⟩, Nat.lt_of_not_le hmax⟩

/-- A path that is too long does not get into the buffer. -/
theorem addPath_eq_none {path : Path} (hs : pathsizePlus ≤ path.length) :
    w.addPath path = none := by
  unfold Walk.addPath pathworkAddPath
  rw [dif_neg fun h => Nat.not_le.mpr h.2 hs]
  rfl

end Walk

/-! ## Directories -/

variable {w : Walk} {l : List Path}

theorem dirEntry_batched (h : w.Batched l) (path name : Path)
    (hs : isDot name = false → (subpath path name).length < pathsizePlus) :
    ∃ w', dirEntry path w name = some w' ∧
      w'.Batched (l ++ (if isDot name then [] else [subpath path name])) := by
  unfold dirEntry
  split_ifs with hdot
  · refine ⟨w, rfl, ?_⟩
    rwa [List.append_nil]
  · obtain ⟨w', hw', hb⟩ := h.addPath (hs (Bool.eq_false_iff.mpr hdot))
    refine ⟨w', ?_, hb⟩
    rw [← hw']
    cases w.addPath (subpath path name) <;> rfl

theorem dirEntries_batched {path : Path} (names : List Path) (h : w.Batched l)
    (hs : ∀ p ∈ (names.filter fun n => !isDot n).map (subpath path), p.length < pathsizePlus) :
    ∃ w', names.foldlM (dirEntry path) w = some w' ∧
      w'.Batched (l ++ (names.filter fun n => !isDot n).map (subpath path)) := by
  induction names generalizing w l with
  | nil =>
    refine ⟨w, rfl, ?_⟩
    rwa [List.filter_nil, List.map_nil, List.append_nil]
  | cons name names ih =>
    rw [List.filter_cons] at hs ⊢
    obtain ⟨w₁, hw₁, h₁⟩ := dirEntry_batched h path name fun hdot =>
      hs _ (by simp [hdot])
    obtain ⟨w₂, hw₂, h₂⟩ := ih h₁ fun p hp => hs p (by
      cases isDot name
      · exact List.mem_cons_of_mem _ hp
      · exact hp)
    refine ⟨w₂, ?_, ?_⟩
    · rw [List.foldlM_cons, hw₁]
      exact hw₂
    · convert h₂ using 1
      rw [List.append_assoc]
      cases isDot name <;> rfl

/-- An entry whose path is too long ends the process. -/
theorem dirEntries_eq_none {path : Path} (names : List Path)
    (hs : ∃ p ∈ (names.filter fun n => !isDot n).map (subpath path), pathsizePlus ≤ p.length) :
    names.foldlM (dirEntry path) w = none := by
  induction names generalizing w with
  | nil =>
    obtain ⟨p, hp, -⟩ := hs
    exact absurd hp List.not_mem_nil
  | cons name names ih =>
    rw [List.foldlM_cons]
    cases hw : dirEntry path w name with
    | none => rfl
    | some w₁ =>
      apply ih
      obtain ⟨p, hp, hlong⟩ := hs
      refine ⟨p, ?_, hlong⟩
      rw [List.filter_cons] at hp
      cases hdot : isDot name with
      | true =>
        rw [hdot] at hp
        exact hp
      | false =>
        rw [hdot] at hp
        rcases List.mem_cons.mp hp with rfl | hp
        · rw [dirEntry, hdot, Walk.addPath_eq_none hlong] at hw
          cases hw
        · exact hp

/-- The paths of the entries are sent, but for those that are in the buffer when a directory cannot be
opened. -/
theorem readdirs_batched (paths : List Path) (h : w.Batched l)
    (hs : ∀ p ∈ metPaths fs paths, p.length < pathsizePlus) :
    ∃ (w' : Walk) (batches : List PathWork) (rest : List Path),
      readdirs fs w paths = some w' ∧ w'.acts = batches.map sendItem ∧
      batches.flatMap PathWork.buf ++ rest = l ++ metPaths fs paths ∧
      rest.length =
        if unread fs paths = [] then 0 else (l ++ metPaths fs paths).length % pathBufferMax := by
  induction paths generalizing w l with
  | nil =>
    obtain ⟨batches, hacts, -, hl⟩ := h.batches
    have hmet : l ++ metPaths fs [] = l := List.append_nil l
    rw [hmet, readdirs]
    cases hempty : pathworkIsEmpty w.buffer with
    | true =>
      have hbuf : w.buffer.buf = [] := List.isEmpty_iff.mp hempty
      rw [hbuf] at hl
      exact ⟨w, batches, [], rfl, hacts, hl, rfl⟩
    | false =>
      refine ⟨w.sendpaths, batches ++ [w.buffer], [], rfl, ?_, ?_, rfl⟩
      · rw [List.map_append, ← hacts]
        rfl
      · rw [List.flatMap_append, List.flatMap_singleton, List.append_nil, hl]
  | cons path paths ih =>
    cases hopen : fs.opendir path with
    | none =>
      obtain ⟨hmet, hunread⟩ := metPaths_of_none hopen paths
      obtain ⟨batches, hacts, -, hl⟩ := h.batches
      rw [hmet, hunread, if_neg (List.cons_ne_nil _ _), List.append_nil]
      refine ⟨w, batches, w.buffer.buf, ?_, hacts, hl, h.length_buffer⟩
      rw [readdirs, hopen]
    | some names =>
      obtain ⟨hmet, hunread⟩ := metPaths_of_some hopen paths
      rw [hmet, hunread, ← List.append_assoc]
      rw [hmet] at hs
      have hpath : ∀ p ∈ entryPaths fs path, p.length < pathsizePlus := fun p hp =>
        hs p (List.mem_append_left _ hp)
      rw [entryPaths_of_some hopen] at hpath ⊢
      obtain ⟨w₁, hw₁, h₁⟩ := dirEntries_batched names h hpath
      obtain ⟨w₂, batches, rest, hw₂, hrest⟩ :=
        ih (h₁.visit (.readdir path)) fun p hp => hs p (List.mem_append_right _ hp)
      refine ⟨w₂, batches, rest, ?_, hrest⟩
      rw [readdirs, hopen]
      dsimp only
      rw [hw₁]
      exact hw₂

theorem readdirs_eq_none (paths : List Path)
    (hs : ∃ p ∈ metPaths fs paths, pathsizePlus ≤ p.length) : readdirs fs w paths = none := by
  induction paths generalizing w with
  | nil =>
    obtain ⟨p, hp, -⟩ := hs
    exact absurd hp List.not_mem_nil
  | cons path paths ih =>
    obtain ⟨p, hp, hlong⟩ := hs
    cases hopen : fs.opendir path with
    | none =>
      rw [(metPaths_of_none hopen paths).1] at hp
      exact absurd hp List.not_mem_nil
    | some names =>
      rw [(metPaths_of_some hopen paths).1, entryPaths_of_some hopen] at hp
      rw [readdirs, hopen]
      dsimp only
      rcases List.mem_append.mp hp with hp | hp
      · rw [dirEntries_eq_none names ⟨p, hp, hlong⟩]
        rfl
      · cases names.foldlM (dirEntry path) w with
        | none => rfl
        | some w₁ => exact ih ⟨p, hp, hlong⟩

/-! ## Items -/

theorem readdirMessages_of_acts {data : WorkItem} {w : Walk} {batches : List PathWork}
    (hw : readdirs fs Walk.init data.paths = some w) (hacts : w.acts = batches.map sendItem) :
    readdirMessages fs data = some (batches.map (fun b => .act (sendItem b)) ++ [.done]) := by
  unfold readdirMessages treewalkReaddir
  rw [hw, Option.map_some, hacts, List.map_map]
  rfl

theorem sendItem_injective : Function.Injective fun b => Sent.act (sendItem b) := by
  intro b b' h
  unfold sendItem at h
  injection h with h
  injection h with _ h
  injection h with _ _ h
  exact Option.some.inj h

/-- The batches that were sent are the only ones that all entries could have been sent in. -/
theorem flatMap_buf_perm {data : WorkItem} {w : Walk} {batches : List PathWork}
    (hw : readdirs fs Walk.init data.paths = some w) (hacts : w.acts = batches.map sendItem)
    (h : SendsAll fs data) :
    (batches.flatMap PathWork.buf).Perm (data.paths.flatMap (entryPaths fs)) := by
  obtain ⟨batches', hmsgs, -, hperm⟩ := h
  rw [readdirMessages_of_acts hw hacts] at hmsgs
  have heq := List.append_cancel_right (Option.some.inj hmsgs)
  rwa [List.map_injective_iff.mpr sendItem_injective heq]

theorem SendsAll.nothingLost {data : WorkItem} (h : SendsAll fs data) :
    NothingLost fs data.paths := by
  by_cases hs : ∀ path ∈ metPaths fs data.paths, path.length < pathsizePlus
  · refine ⟨hs, fun hunread => ?_⟩
    obtain ⟨w, batches, rest, hw, hacts, hbuf, hrest⟩ :=
      readdirs_batched data.paths Walk.batched_init hs
    rw [List.nil_append, if_neg hunread] at hrest
    have hlen := congrArg List.length hbuf
    rw [List.nil_append, List.length_append] at hlen
    -- no fewer paths are sent than there are entries
    have hperm := (flatMap_buf_perm hw hacts h).length_eq
    rw [flatMap_entryPaths, List.length_append] at hperm
    exact ⟨by omega, List.eq_nil_of_length_eq_zero (by omega)⟩
  · have hlong : ∃ p ∈ metPaths fs data.paths, pathsizePlus ≤ p.length := by
      by_contra hno
      exact hs fun p hp => Nat.lt_of_not_le fun hle => hno ⟨p, hp, hle⟩
    obtain ⟨batches, hmsgs, -⟩ := h
    unfold readdirMessages treewalkReaddir at hmsgs
    rw [readdirs_eq_none data.paths hlong] at hmsgs
    cases hmsgs

theorem NothingLost.sendsAll {data : WorkItem} (h : NothingLost fs data.paths) :
    SendsAll fs data := by
  obtain ⟨hs, hlost⟩ := h
  obtain ⟨w, batches, rest, hw, hacts, hbuf, hrest⟩ :=
    readdirs_batched data.paths Walk.batched_init hs
  rw [List.nil_append] at hbuf hrest
  -- nothing is left in the buffer, and nothing is after the directories that were read
  have hzero : rest = [] ∧ (unread fs data.paths).flatMap (entryPaths fs) = [] := by
    by_cases hunread : unread fs data.paths = []
    · rw [if_pos hunread] at hrest
      exact ⟨List.eq_nil_of_length_eq_zero hrest, by rw [hunread]; rfl⟩
    · obtain ⟨hfull, hnone⟩ := hlost hunread
      rw [if_neg hunread, hfull] at hrest
      exact ⟨List.eq_nil_of_length_eq_zero hrest, hnone⟩
  refine ⟨batches, readdirMessages_of_acts hw hacts, fun b _ => b.size_le, ?_⟩
  rw [flatMap_entryPaths, hzero.2, ← hbuf, hzero.1, List.append_nil, List.append_nil]

/-- All entries are sent exactly if nothing is in the buffer when a directory cannot be opened, and
nothing in the directories after it. -/
theorem sendsAll_iff (fs : Files) (data : WorkItem) :
    SendsAll fs data ↔ NothingLost fs data.paths :=
  ⟨SendsAll.nothingLost, NothingLost.sendsAll⟩

/-- An item of the directories `d` and `e`, of which `d` has the entry `f` and `e` cannot be opened:
`f` is not sent. -/
theorem not_sendsAll_unopened :
    ¬ SendsAll ⟨fun _ => some true, fun path => if path = ['d'] then some [['.'], ['f']] else none⟩
      ⟨.readdir, [], some ⟨[['d'], ['e']], by decide⟩⟩ := by
  intro h
  exact absurd h.nothingLost (by decide)

end MpiToShmem.Treewalk
