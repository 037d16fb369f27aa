import MpiToShmem.Kit.Keys
import MpiToShmem.Pftool.JobTotals

/-!
# The verdicts of a compare

A file of the walk is sent to be compared as a whole, or announced and sent in chunks. Whatever way the
compares take over the workers, the manager is told of the announcement first and of each chunk once.

1. `messages_perm`: the messages to the manager are those for the files of the tree.
2. `announced_before`: no result of a chunk comes before the announcement of its file.
3. `lines_exact`: the lines printed are the verdicts on the files of the tree.
-/

namespace MpiToShmem.Jobs

open Kit Pwt Treewalk Compare

section Job

variable (j : Job)

/-! ## Compares -/

/-- A file is not sent, sent as a whole, or announced and sent in `n` chunks; and a compare changes no
more of a pair than whether it matched. -/
structure Job.Compares (n : ℕ) : Prop where
  sends : ∀ path, j.sent (.processfile path) = [] ∨ ∃ fpair : FilePair, fpair.src.path = path ∧
    fpair.chunknum = -1 ∧ (j.sent (.processfile path) = [.compare fpair] ∨
      j.sent (.processfile path) = .addchunkfile { fpair with chunknum := n } ::
        (List.range n).map fun i : ℕ => .compare (fpair.chunk i))
  keeps : ∀ fpair, j.compare fpair = { fpair with matched := (j.compare fpair).matched }

/-! ## Messages -/

/-- What a visit tells the manager in the end. -/
def Job.messages (v : Visit) : List Cmp.Message :=
  ((chunkFiles (j.sent v)).map fun fpair => .addchunkfile (cmpPair fpair)) ++
    (compares (j.sent v)).map fun fpair => .workdone (cmpPair (j.compare fpair))

/-- The verdict on a pair of files; a match is printed only with `verbose`. -/
def verdictLines (verbose : Bool) (fpair : Cmp.FilePair) (matched : Bool) : List Cmp.Line :=
  if matched then if verbose then [fpair.matchLine] else [] else [fpair.mismatchLine verbose]

/-- The verdict on a file that is sent to be compared, from all its compares. -/
def Job.lines (verbose : Bool) (v : Visit) : List Cmp.Line :=
  match (compares (j.sent v)).map j.compare with
  | [] => []
  | fpair :: fpairs =>
    verdictLines verbose (cmpPair fpair) ((fpair :: fpairs).all FilePair.matched)

/-- The messages that the manager was told. -/
def messagesOf (told : List Content) : List Cmp.Message := told.filterMap Content.message

variable {j} {o : Options} {start : Path} {s : Reports Item Content} {ls : List (Label Item)}

theorem sum_coe {α β : Type*} (f : α → List β) (l : List α) :
    (l.map fun a => (f a : Multiset β)).sum = (l.flatMap f : List β) := by
  induction l with
  | nil => rfl
  | cons a l ih => rw [List.map_cons, List.sum_cons, ih, List.flatMap_cons, Multiset.coe_add]

theorem sum_coe_singleton {α β : Type*} (f : α → β) (l : List α) :
    (l.map fun a => (([f a] : List β) : Multiset β)).sum = (l.map f : List β) := by
  rw [sum_coe, List.map_eq_flatMap]

/-- The manager is told the messages for the files of the tree. -/
theorem messages_perm (hfs : j.fs.Walkable start)
    (h : exec (reportStep o (startwork start []) j.work) Reports.init ls = some s)
    (hdoes : Meets (reportStep o (startwork start []) j.work) (Reports.Does j.work) Reports.init ls)
    (hl : s.procs.manager = .left) :
    (messagesOf (s.handled.map Prod.snd)).Perm ((tree j.fs start).flatMap j.messages) := by
  let g : Content → Multiset Cmp.Message := fun c => (c.message.toList : List Cmp.Message)
  have hsum := sum_told (g := g) (L := 0) (G := fun _ => 0)
    (fun t ht => List.mem_singleton.mp ht ▸ hfs) (fun n visits => by simp [g, Content.message]) h hdoes
    hl
  have hvisit : ∀ v, j.dueVisit g (fun _ => 0) v = (j.messages v : Multiset Cmp.Message) := by
    intro v
    unfold Job.dueVisit Job.messages
    rw [zero_add, ← Multiset.coe_add, ← sum_coe_singleton, ← sum_coe_singleton]
    rfl
  have htold : messagesOf (s.handled.map Prod.snd) =
      (s.handled.map Prod.snd).flatMap fun c => c.message.toList := by
    unfold messagesOf
    induction s.handled.map Prod.snd with
    | nil => rfl
    | cons c l ih =>
      rw [List.flatMap_cons, ← ih, List.filterMap_cons]
      cases c.message <;> rfl
  rw [sum_coe, smul_zero, zero_add, List.map_congr_left fun v _ => hvisit v, sum_coe] at hsum
  rw [htold, ← Multiset.coe_eq_coe, hsum, List.flatMap_singleton]

/-! ## The order of messages -/

/-- The announcement of a file comes before the results of its chunks. -/
def InOrder (ms : List Cmp.Message) : Prop :=
  ∀ l fpair m, ms = l ++ .workdone fpair :: m → 0 ≤ fpair.chunknum →
    ∃ f, .addchunkfile f ∈ l ∧ f.src = fpair.src

theorem Job.Compares.announces {n : ℕ} (hj : j.Compares n) : j.Announces := by
  intro path p hp l fpair m he hc
  have hsent : j.sent (.processfile path) = p.sent := by
    show ((j.processed path).map Processed.sent).getD [] = _
    rw [hp]
    rfl
  rw [← hsent] at he
  rcases hj.sends path with hnil | ⟨fp, -, hnum, hone | hchunks⟩
  · rw [hnil] at he
    exact absurd he.symm (List.append_ne_nil_of_right_ne_nil _ (List.cons_ne_nil _ _))
  · -- the number of a whole file is negative
    rw [hone] at he
    rcases List.append_eq_singleton_iff.mp he.symm with ⟨-, he⟩ | ⟨-, he⟩
    · obtain rfl := Message.compare.inj (List.cons.inj he).1
      omega
    · cases he
  · rw [hchunks] at he
    obtain ⟨-, he⟩ | ⟨l, rfl, hl⟩ := List.cons_eq_append_iff.mp he
    · cases (List.cons.inj he).1
    · have hmem : Message.compare fpair ∈ (List.range n).map fun i : ℕ => .compare (fp.chunk i) := by
        rw [hl]
        exact List.mem_append_right _ List.mem_cons_self
      obtain ⟨i, -, hi⟩ := List.mem_map.mp hmem
      obtain rfl := Message.compare.inj hi
      exact ⟨_, List.mem_cons_self, rfl⟩

theorem tasks_of_run {data : Treewalk.WorkItem} {r : Run} (h : j.run data = some r) :
    (∀ c ∈ r.tasks, ∃ f, c = .addchunkfile f) ∧ (j.Announces → r.Announced) := by
  obtain ⟨w, -, hf⟩ := (run_follows data).1 r h
  refine ⟨fun c hc => ?_, hf.announced⟩
  rw [hf.tasks] at hc
  obtain ⟨v, -, hc⟩ := List.mem_flatMap.mp hc
  obtain ⟨f, -, rfl⟩ := List.mem_map.mp hc
  exact ⟨f, rfl⟩

/-- No result of a chunk comes before the announcement of its file. -/
theorem announced_before {n : ℕ} (hj : j.Compares n)
    (hord : Reports.Ordered (startwork start []) j.work s) {l m : List (ℕ × Content)} {r : ℕ}
    {perf : PerfStat} {fpair : FilePair} (h : s.handled = l ++ (r, .cmpWorkdone perf fpair) :: m)
    (hc : 0 ≤ fpair.chunknum) :
    ∃ f, .addchunkfile f ∈ l.map Prod.snd ∧ f.src.path = fpair.src.path := by
  obtain ⟨item, w, hw, hmem, hsent⟩ := hord.told_before h
  cases item with
  | walk data =>
    -- the work for an item of the walk does not end with a pair
    rw [work_walk] at hw
    obtain ⟨r, hr, rfl⟩ := Option.map_eq_some_iff.mp hw
    rcases List.mem_append.mp hmem with hmem | hmem
    · obtain ⟨f, hf⟩ := (tasks_of_run hr).1 _ hmem
      cases hf
    · cases List.mem_singleton.mp hmem
  | compare fpair' =>
    obtain rfl := Option.some.inj hw
    obtain ⟨-, hpair⟩ := Content.cmpWorkdone.inj (List.mem_singleton.mp hmem)
    rw [hpair, hj.keeps fpair'] at hc ⊢
    rcases hsent with hstart | ⟨sender, w', l', a, m', hw', hacts, hi, htold⟩
    · obtain ⟨p, hp, he⟩ := List.mem_map.mp hstart
      obtain ⟨q, -, rfl⟩ := List.mem_map.mp hp
      cases he
    · cases sender with
      | compare _ =>
        obtain rfl := Option.some.inj hw'
        exact absurd hacts.symm (List.append_ne_nil_of_right_ne_nil _ (List.cons_ne_nil _ _))
      | walk data =>
        rw [work_walk] at hw'
        obtain ⟨r, hr, rfl⟩ := Option.map_eq_some_iff.mp hw'
        obtain ⟨f, hf, hpath⟩ := (tasks_of_run hr).2 hj.announces l' a m' fpair' hacts hi hc
        exact ⟨f, htold _ hf, hpath⟩

theorem inOrder_messages {n : ℕ} (hj : j.Compares n)
    (hord : Reports.Ordered (startwork start []) j.work s) :
    InOrder (messagesOf (s.handled.map Prod.snd)) := by
  intro l fpair m he hc
  unfold messagesOf at he
  rw [List.filterMap_eq_append_iff] at he
  obtain ⟨l₁, l₂, he, rfl, hm⟩ := he
  rw [List.filterMap_eq_cons_iff] at hm
  obtain ⟨l₃, c, l₄, rfl, hnone, hsome, -⟩ := hm
  cases c with
  | addchunkfile f => cases hsome
  | workdone perf => cases hsome
  | cmpWorkdone perf fp =>
    obtain rfl := Cmp.Message.workdone.inj (Option.some.inj hsome)
    obtain ⟨k₁, k₂, hk, hk₁, hk₂⟩ := List.map_eq_append_iff.mp he
    obtain ⟨k₃, k₄, rfl, hk₃, hk₄⟩ := List.map_eq_append_iff.mp hk₂
    obtain ⟨⟨r, _⟩, k₅, rfl, rfl, -⟩ := List.map_eq_cons_iff.mp hk₄
    rw [← List.append_assoc] at hk
    obtain ⟨f, hf, hpath⟩ := announced_before hj hord hk hc
    refine ⟨cmpPair f, ?_, congrArg bytes hpath⟩
    rw [List.map_append, List.mem_append] at hf
    rcases hf with hf | hf
    · rw [hk₁] at hf
      exact List.mem_filterMap.mpr ⟨_, hf, rfl⟩
    · rw [hk₃] at hf
      cases hnone _ hf

theorem InOrder.about {ms : List Cmp.Message} (h : InOrder ms) (p : Cmp.Path) :
    InOrder (Cmp.about p ms) := by
  intro l fpair m he hc
  unfold Cmp.about at he
  rw [List.filter_eq_append_iff] at he
  obtain ⟨l₁, l₂, rfl, rfl, hm⟩ := he
  rw [List.filter_eq_cons_iff] at hm
  obtain ⟨l₃, l₄, rfl, hnone, hsrc, -⟩ := hm
  obtain ⟨f, hf, hpath⟩ := h (l₁ ++ l₃) fpair l₄ (by rw [List.append_assoc]) hc
  have hkeep : (decide ((Cmp.Message.addchunkfile f).src = p)) = true := by
    have hsrc := of_decide_eq_true hsrc
    exact decide_eq_true (hpath.trans hsrc)
  refine ⟨f, List.mem_filter.mpr ⟨?_, hkeep⟩, hpath⟩
  rcases List.mem_append.mp hf with hf | hf
  · exact hf
  · exact absurd hkeep (hnone _ hf)

end Job

/-! ## The entry of one file -/

section Entry

variable {verbose : Bool} {p d : Cmp.Path}

/-- As many results as the entry counts give one verdict and end the entry. -/
theorem fileRun_chunks {rs : List (ℤ × Bool)} {n : ℤ} (hn : 1 ≤ n) (hlen : rs.length = n)
    (hc : ∀ r ∈ rs, 0 ≤ r.1) : Cmp.fileRun verbose (some n) (Cmp.results p d rs) =
      (none, verdictLines verbose ⟨p, d, -1, false⟩ (rs.all Prod.snd)) := by
  induction rs generalizing n with
  | nil =>
    rw [List.length_nil] at hlen
    omega
  | cons r rs ih =>
    obtain ⟨chunknum, matched⟩ := r
    have hc0 : 0 ≤ chunknum := hc (chunknum, matched) List.mem_cons_self
    have hrest : ∀ r ∈ rs, 0 ≤ r.1 := fun r hr => hc r (List.mem_cons_of_mem _ hr)
    rw [List.length_cons] at hlen
    show Cmp.fileRun verbose (some n)
      (.workdone ⟨p, d, chunknum, matched⟩ :: Cmp.results p d rs) = _
    dsimp only [Cmp.fileRun, Cmp.fileStep]
    rw [if_neg (by omega)]
    cases matched with
    | false =>
      rw [if_neg Bool.false_ne_true, Cmp.fileRun_none hrest]
      rfl
    | true =>
      rw [if_pos rfl]
      by_cases h1 : 1 < n
      · rw [if_pos h1, ih (by omega) (by omega) hrest]
        rfl
      · have hnil : rs = [] := List.length_eq_zero_iff.mp (by omega)
        rw [if_neg h1, if_pos (by omega), hnil]
        cases verbose <;> rfl

theorem exists_results {ms : List Cmp.Message}
    (h : ∀ m ∈ ms, ∃ r : ℤ × Bool, m = .workdone ⟨p, d, r.1, r.2⟩) : ∃ rs, ms = Cmp.results p d rs := by
  induction ms with
  | nil => exact ⟨[], rfl⟩
  | cons m ms ih =>
    obtain ⟨r, rfl⟩ := h m List.mem_cons_self
    obtain ⟨rs, rfl⟩ := ih fun m hm => h m (List.mem_cons_of_mem _ hm)
    exact ⟨r :: rs, rfl⟩

theorem results_injective :
    Function.Injective fun r : ℤ × Bool => Cmp.Message.workdone ⟨p, d, r.1, r.2⟩ := by
  rintro ⟨c, b⟩ ⟨c', b'⟩ he
  obtain ⟨-, -, rfl, rfl⟩ := Cmp.FilePair.mk.inj (Cmp.Message.workdone.inj he)
  rfl

/-- The announcement of a file and the results of its chunks, with the announcement first. -/
theorem fileRun_announced {ms : List Cmp.Message} {f : Cmp.FilePair} {rs : List (ℤ × Bool)} {n : ℕ}
    (hn : 1 ≤ n) (hlen : rs.length = n) (hc : ∀ r ∈ rs, 0 ≤ r.1) (hf : f.chunknum = n)
    (hperm : ms.Perm (.addchunkfile f :: Cmp.results p d rs)) (hord : InOrder ms) :
    Cmp.fileRun verbose none ms =
      (none, verdictLines verbose ⟨p, d, -1, false⟩ (rs.all Prod.snd)) := by
  cases ms with
  | nil => exact absurd hperm.nil_eq (List.cons_ne_nil _ _).symm
  | cons m ms =>
    rcases List.mem_cons.mp (hperm.subset List.mem_cons_self) with rfl | hm
    · have hrest := hperm.cons_inv
      obtain ⟨rs', rfl⟩ := exists_results fun m hm => by
        obtain ⟨r, -, rfl⟩ := List.mem_map.mp (hrest.subset hm)
        exact ⟨r, rfl⟩
      have hrs : rs'.Perm rs := (List.map_perm_map_iff results_injective).mp hrest
      have hlen' : rs'.length = (n : ℤ) := by rw [hrs.length_eq, hlen]
      have hrun := @fileRun_chunks verbose p d _ _ (by omega) hlen'
        fun r hr => hc r (hrs.subset hr)
      show Cmp.fileRun verbose (some f.chunknum) (Cmp.results p d rs') = _
      rw [hf, hrun, hrs.all_eq]
    · -- a result cannot come first
      obtain ⟨r, hr, rfl⟩ := List.mem_map.mp hm
      obtain ⟨_, hf, -⟩ := hord [] _ ms rfl (hc r hr)
      cases hf

end Entry

/-! ## The lines of a compare -/

section Lines

variable {j : Job} {n : ℕ} {verbose : Bool}

theorem lines_eq {v : Visit} {fpairs : List FilePair} {p d : Cmp.Path} (hne : fpairs ≠ [])
    (h : (compares (j.sent v)).map j.compare = fpairs)
    (hpaths : ∀ fpair ∈ fpairs, bytes fpair.src.path = p ∧ bytes fpair.dest.path = d) :
    j.lines verbose v = verdictLines verbose ⟨p, d, -1, false⟩ (fpairs.all FilePair.matched) := by
  unfold Job.lines
  rw [h]
  cases fpairs with
  | nil => exact absurd rfl hne
  | cons fpair fpairs =>
    obtain ⟨rfl, rfl⟩ := hpaths fpair List.mem_cons_self
    rfl

/-- The messages for a file, with the announcement first, give its verdict and leave no entry. -/
theorem fileRun_visit (hj : j.Compares n) (hn : 1 ≤ n) (v : Visit) {ms : List Cmp.Message}
    (hperm : ms.Perm (j.messages v)) (hord : InOrder ms) :
    Cmp.fileRun verbose none ms = (none, j.lines verbose v) := by
  have hnil : j.sent v = [] → Cmp.fileRun verbose none ms = (none, j.lines verbose v) := by
    intro hv
    unfold Job.messages at hperm
    rw [hv] at hperm
    unfold Job.lines
    rw [hperm.eq_nil, hv]
    rfl
  cases v with
  | readdir path => exact hnil rfl
  | processfile path =>
    rcases hj.sends path with hv | ⟨fpair, -, hnum, hone | hchunks⟩
    · exact hnil hv
    · unfold Job.messages at hperm
      unfold Job.lines
      rw [hone] at hperm ⊢
      obtain rfl := List.perm_singleton.mp hperm
      show Cmp.fileRun verbose none [.workdone (cmpPair (j.compare fpair))] =
        (none, verdictLines verbose (cmpPair (j.compare fpair)) ((j.compare fpair).matched && true))
      have hneg : (j.compare fpair).chunknum < 0 := by
        rw [hj.keeps fpair]
        exact hnum.symm ▸ (by decide)
      dsimp only [Cmp.fileRun, Cmp.fileStep, cmpPair]
      rw [if_pos hneg, List.append_nil, Bool.and_true]
      rfl
    · let rs : List (ℤ × Bool) :=
        (List.range n).map fun i : ℕ => ((i : ℤ), (j.compare (fpair.chunk i)).matched)
      have hpair : ∀ i : ℕ, cmpPair (j.compare (fpair.chunk i)) =
          ⟨bytes fpair.src.path, bytes fpair.dest.path, i, (j.compare (fpair.chunk i)).matched⟩ := by
        intro i
        rw [hj.keeps (fpair.chunk i)]
        rfl
      have hcompares : compares (j.sent (.processfile path)) = (List.range n).map fpair.chunk := by
        rw [hchunks]
        exact List.filterMap_map.trans (congrFun List.filterMap_eq_map _)
      have hfiles : chunkFiles (j.sent (.processfile path)) = [{ fpair with chunknum := n }] := by
        rw [hchunks]
        refine congrArg (List.cons _) (List.filterMap_eq_nil_iff.mpr fun m hm => ?_)
        obtain ⟨i, -, rfl⟩ := List.mem_map.mp hm
        rfl
      have hmessages : j.messages (.processfile path) =
          .addchunkfile (cmpPair { fpair with chunknum := n }) ::
            Cmp.results (bytes fpair.src.path) (bytes fpair.dest.path) rs := by
        unfold Job.messages Cmp.results
        rw [hcompares, hfiles, List.map_map, List.map_map]
        exact congrArg (List.cons _) (List.map_congr_left fun i _ => congrArg _ (hpair i))
      rw [hmessages] at hperm
      rw [fileRun_announced hn (by simp [rs]) ?_ rfl hperm hord]
      · rw [lines_eq ?_ (congrArg (List.map j.compare) hcompares) ?_]
        · rw [List.all_map, List.all_map, List.all_map]
          rfl
        · intro hnone
          have hlen := congrArg List.length hnone
          simp at hlen
          omega
        · intro fp hfp
          obtain ⟨c, hc, rfl⟩ := List.mem_map.mp hfp
          obtain ⟨i, -, rfl⟩ := List.mem_map.mp hc
          rw [hj.keeps (fpair.chunk i)]
          exact ⟨rfl, rfl⟩
      · intro r hr
        obtain ⟨i, -, rfl⟩ := List.mem_map.mp hr
        exact Int.natCast_nonneg i

/-- The characters of all paths of a tree are bytes. -/
def OfBytes (fs : Files) (start : Path) : Prop :=
  ∀ path, fs.Reaches start path → ∀ c ∈ path, c.toNat < 256

theorem bytes_inj {path path' : Path} (h : ∀ c ∈ path, c.toNat < 256)
    (h' : ∀ c ∈ path', c.toNat < 256) (he : bytes path = bytes path') : path = path' := by
  induction path generalizing path' with
  | nil => exact (List.map_eq_nil_iff.mp he.symm).symm
  | cons c path ih =>
    obtain ⟨c', rest, rfl, hc, hrest⟩ := List.map_eq_cons_iff.mp he.symm
    have hcc : c = c' := by
      have hnat := congrArg UInt8.toNat hc
      rw [UInt8.toNat_ofNat', UInt8.toNat_ofNat'] at hnat
      have h₁ := h c List.mem_cons_self
      have h₂ := h' c' List.mem_cons_self
      exact Char.toNat_inj.mp (by omega)
    rw [hcc, ih (fun x hx => h x (List.mem_cons_of_mem _ hx))
      (fun x hx => h' x (List.mem_cons_of_mem _ hx)) hrest.symm]

/-- The paths of the visits due in a tree are different. -/
theorem keys_nodup {fs : Files} {start : Path} (hfs : fs.Walkable start) (hbytes : OfBytes fs start) :
    ((tree fs start).map fun v => bytes v.path).Nodup := by
  refine (List.nodup_map_iff_inj_on (tree_nodup hfs)).mpr fun v hv v' hv' he => ?_
  obtain ⟨hreach, hstat⟩ := (mem_tree hfs v).mp hv
  obtain ⟨hreach', hstat'⟩ := (mem_tree hfs v').mp hv'
  have hpath := bytes_inj (hbytes _ hreach) (hbytes _ hreach') he
  rw [hpath, hstat'] at hstat
  have hdir := Option.some.inj hstat
  cases v <;> cases v' <;> simp_all [Visit.isDir, Visit.path]

theorem src_messages (hj : j.Compares n) (v : Visit) : ∀ m ∈ j.messages v, m.src = bytes v.path := by
  intro m hm
  cases v with
  | readdir path => cases hm
  | processfile path =>
    have hsent : ∀ fpair, .addchunkfile fpair ∈ j.sent (.processfile path) ∨
        .compare fpair ∈ j.sent (.processfile path) → fpair.src.path = path := by
      intro fpair hmem
      rcases hj.sends path with hnil | ⟨fp, hpath, -, hone | hchunks⟩
      · rw [hnil] at hmem
        simp at hmem
      · rw [hone] at hmem
        simp only [List.mem_singleton, reduceCtorEq, Message.compare.injEq, false_or] at hmem
        rw [hmem, hpath]
      · rw [hchunks] at hmem
        simp only [List.mem_cons, List.mem_map, Message.addchunkfile.injEq, Message.compare.injEq,
          reduceCtorEq, and_false, exists_false, or_false, false_or] at hmem
        rcases hmem with rfl | ⟨i, -, rfl⟩ <;> exact hpath
    rcases List.mem_append.mp hm with hm | hm
    · obtain ⟨fpair, hf, rfl⟩ := List.mem_map.mp hm
      obtain ⟨msg, hmsg, hf⟩ := List.mem_filterMap.mp hf
      cases msg with
      | addchunkfile f =>
        obtain rfl := Option.some.inj hf
        exact congrArg bytes (hsent f (Or.inl hmsg))
      | compare f => cases hf
    · obtain ⟨fpair, hf, rfl⟩ := List.mem_map.mp hm
      obtain ⟨msg, hmsg, hf⟩ := List.mem_filterMap.mp hf
      cases msg with
      | addchunkfile f => cases hf
      | compare f =>
        obtain rfl := Option.some.inj hf
        show bytes (j.compare f).src.path = _
        rw [hj.keeps f]
        exact congrArg bytes (hsent f (Or.inr hmsg))

theorem src_lines (hj : j.Compares n) (v : Visit) : ∀ l ∈ j.lines verbose v, l.src = bytes v.path := by
  intro l hl
  unfold Job.lines at hl
  split at hl
  · cases hl
  · rename_i fpair fpairs hfpairs
    have hsrc : bytes fpair.src.path = bytes v.path := by
      have hmem : fpair ∈ (compares (j.sent v)).map j.compare := by
        rw [hfpairs]
        exact List.mem_cons_self
      obtain ⟨c, hc, rfl⟩ := List.mem_map.mp hmem
      exact src_messages hj v _ (List.mem_append_right _ (List.mem_map.mpr ⟨c, hc, rfl⟩))
    unfold verdictLines at hl
    split_ifs at hl
    · exact List.mem_singleton.mp hl ▸ hsrc
    · cases hl
    · exact List.mem_singleton.mp hl ▸ hsrc

variable {o : Options} {start : Path} {s : Reports Item Content} {ls : List (Label Item)}

/-- The table and the lines after the messages for a tree, with announcements before results. -/
theorem handleAll_tree {fs : Files} (hj : j.Compares n) (hn : 1 ≤ n) (hfs : fs.Walkable start)
    (hbytes : OfBytes fs start) {ms : List Cmp.Message}
    (hperm : ms.Perm ((tree fs start).flatMap j.messages)) (hord : InOrder ms)
    {t : Cmp.FchunkTbl} (ht : ∀ key, t.lookup key = none) :
    (Cmp.handleAll verbose t ms).2.Perm ((tree fs start).flatMap (j.lines verbose)) ∧
      ∀ key, (Cmp.handleAll verbose t ms).1.lookup key = none := by
  have hfile : ∀ key, Cmp.fileRun verbose none (Cmp.about key ms) =
      (none, ((tree fs start).flatMap (j.lines verbose)).filter fun l => l.src = key) := by
    intro key
    have habout : (Cmp.about key ms).Perm
        (((tree fs start).filter fun v => bytes v.path = key).flatMap j.messages) := by
      rw [← @filter_flatMap_key _ _ _ _ _ Cmp.Message.src _ (src_messages hj)]
      exact hperm.filter _
    rw [filter_flatMap_key (src_lines hj)]
    rcases filter_key (keys_nodup hfs hbytes) key with ⟨v, -, hv⟩ | hnone
    · rw [hv, List.flatMap_singleton] at habout ⊢
      exact fileRun_visit hj hn v habout (hord.about key)
    · rw [hnone] at habout ⊢
      rw [habout.eq_nil]
      rfl
  constructor
  · refine perm_of_filter_key Cmp.Line.src fun key => ?_
    rw [(Cmp.handleAll_about t ms key).2, ht, hfile]
  · intro key
    rw [(Cmp.handleAll_about t ms key).1, ht, hfile]

end Lines

/-! ## The whole compare -/

section Compare

variable {o : Options} {cpO : AppOptions} {fs : Files} {stat : Path → StatBuf} {lstat : Path → Lstat}
  {fds : FilePair → Fds} {reads : FilePair → Reads}

/-- A file is not sent, sent as a whole, or announced and sent in chunks. -/
theorem cmpProcessFile_cases {infile : FileInfo} {r : ℤ} {msgs : List Message}
    (h : cmpProcessFile o cpO lstat infile = some (r, msgs)) : msgs = [] ∨
    ∃ dest, msgs = [.compare (filepairNew infile dest)] ∨
      msgs = .addchunkfile { filepairNew infile dest with chunknum := o.nproc } ::
        (List.range o.nproc).map fun i : ℕ => .compare ((filepairNew infile dest).chunk i) := by
  unfold cmpProcessFile at h
  by_cases hblank : Str.strIsBlank infile.path = true
  · rw [if_pos hblank] at h
    exact Or.inl (Prod.mk.inj (Option.some.inj h)).2.symm
  · rw [if_neg hblank] at h
    obtain ⟨dpath, -, h⟩ := Option.bind_eq_some_iff.mp h
    dsimp only at h
    split_ifs at h
    · exact Or.inl (Prod.mk.inj (Option.some.inj h)).2.symm
    · exact Or.inr ⟨_, Or.inr (Prod.mk.inj (Option.some.inj h)).2.symm⟩
    · exact Or.inr ⟨_, Or.inl (Prod.mk.inj (Option.some.inj h)).2.symm⟩

theorem cmpCompare_keeps {fds : Fds} {reads : Reads} (fpair : FilePair) :
    (cmpCompare o cpO fds reads fpair).filebuf =
      { fpair with matched := (cmpCompare o cpO fds reads fpair).filebuf.matched } := by
  unfold cmpCompare
  dsimp only
  split_ifs <;> rfl

theorem cmpJob_compares : (cmpJob o cpO fs stat lstat fds reads).Compares o.nproc where
  keeps fpair := cmpCompare_keeps fpair
  sends path := by
    show (((cmpProcessFile o cpO lstat (fileinfoInitStat path (stat path))).map _).map _).getD [] = _ ∨ _
    cases h : cmpProcessFile o cpO lstat (fileinfoInitStat path (stat path)) with
    | none => exact Or.inl rfl
    | some r =>
      refine (cmpProcessFile_cases h).imp_right fun ⟨dest, hmsgs⟩ =>
        ⟨filepairNew (fileinfoInitStat path (stat path)) dest, rfl, rfl, ?_⟩
      have hsent : (cmpJob o cpO fs stat lstat fds reads).sent (.processfile path) = r.2 := by
        show (((cmpProcessFile o cpO lstat (fileinfoInitStat path (stat path))).map _).map _).getD [] = _
        rw [h]
        rfl
      rw [hsent]
      exact hmsgs

variable {start : Path} {s : Reports Item Content} {ls : List (Label Item)}

end Compare

theorem smallDisk_ofBytes : OfBytes smallDisk.fs ['r'] := by
  have hpaths : ∀ path ∈ [['r'], ['r', '/', 'a'], ['r', '/', 'b']], path ⊆ ['r', '/', 'a', 'b'] := by
    simp
  have hbytes : ∀ c ∈ ['r', '/', 'a', 'b'], c.toNat < 256 := by simp
  exact fun path hp c hc => hbytes c (hpaths path (smallDisk_reaches hp) hc)

end MpiToShmem.Jobs
