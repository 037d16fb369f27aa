import Mathlib.Algebra.Group.Nat.Defs
import MpiToShmem.Kit.Buckets

/-!
# The verdicts on chunked files

The manager counts the chunks of a file that are left to match in a chained hash table, and prints
a verdict on the file when the last of them has matched or the first one has not.

1. `fchunktblInsert` and the others are the chunk table, `cmpAddchunkfile` and `cmpWorkdone` what
   the manager does with the messages of the workers.
2. `fileStep` is the life of one file's entry: `handle_refines`.
3. `one_verdict`: each file has one verdict and no entry after it, whatever the interleaving.
-/

namespace MpiToShmem.Cmp

open Kit

abbrev Path := List UInt8

/-! ## The chunk table -/

abbrev FchunkTbl := Buckets Path ℤ

/-- The sum of the characters, as a `size_t`. -/
def defHashfunc (key : Path) : ℕ :=
  key.foldl (fun hash c => (hash + c.toNat) % 2 ^ 64) 0

def fchunktblInsert (t : FchunkTbl) (key : Path) (data : ℤ) : FchunkTbl := t.insert key data

def fchunktblRemove (t : FchunkTbl) (key : Path) : FchunkTbl × ℤ :=
  match t.remove key with
  | some t' => (t', 0)
  | none => (t, -1)

def fchunktblGet (t : FchunkTbl) (key : Path) : ℤ := (t.lookup key).getD (-1)

def fchunktblUpdate (t : FchunkTbl) (key : Path) (data : ℤ) : FchunkTbl × ℤ :=
  match t.update key data with
  | some t' => (t', 0)
  | none => (t, -1)

/-! ## The manager -/

/-- `FilePair`, with the paths of its files. -/
structure FilePair where
  src : Path
  dest : Path
  chunknum : ℤ
  matched : Bool
deriving DecidableEq

/-- A line of output: the arguments of `printf`. -/
structure Line where
  fmt : String
  src : Path
  dest : Path
deriving DecidableEq

/-- `cmp_addchunkfile`. -/
def cmpAddchunkfile (t : FchunkTbl) (fpair : FilePair) : FchunkTbl :=
  fchunktblInsert t fpair.src fpair.chunknum

def FilePair.mismatchLine (fpair : FilePair) (verbose : Bool) : Line :=
  ⟨if verbose then "%s DOES NOT MATCH %s\n" else "%s %s differs\n", fpair.src, fpair.dest⟩

def FilePair.matchLine (fpair : FilePair) : Line := ⟨"%s MATCHES %s\n", fpair.src, fpair.dest⟩

/-- `cmp_workdone` for a pair that does not match: without an entry in the table nobody is
notified. -/
def workdoneMismatch (verbose : Bool) (t : FchunkTbl) (fpair : FilePair) : FchunkTbl × List Line :=
  if 0 ≤ fpair.chunknum then
    let r := fchunktblUpdate t fpair.src 0
    (r.1, if r.2 < 0 then [] else [fpair.mismatchLine verbose])
  else (t, [fpair.mismatchLine verbose])

/-- `cmp_workdone` for a pair that matches. -/
def workdoneMatch (verbose : Bool) (t : FchunkTbl) (fpair : FilePair) : FchunkTbl × List Line :=
  let chunksLeft := if 0 ≤ fpair.chunknum then fchunktblGet t fpair.src else 0
  if 0 < chunksLeft then
    ((fchunktblUpdate t fpair.src (chunksLeft - 1)).1,
      if verbose ∧ chunksLeft - 1 = 0 then [fpair.matchLine] else [])
  else (t, if verbose ∧ chunksLeft = 0 then [fpair.matchLine] else [])

/-- The end of `cmp_workdone`: an entry that is down to zero is removed. -/
def cleanUp (t : FchunkTbl) (fpair : FilePair) : FchunkTbl :=
  if 0 ≤ fpair.chunknum ∧ fchunktblGet t fpair.src = 0 then (fchunktblRemove t fpair.src).1 else t

/-- `cmp_workdone`, for a message with a `FileWorkStat`. -/
def cmpWorkdone (verbose : Bool) (t : FchunkTbl) (fpair : FilePair) : FchunkTbl × List Line :=
  let r :=
    if fpair.matched then workdoneMatch verbose t fpair else workdoneMismatch verbose t fpair
  (cleanUp r.1 fpair, r.2)

/-- A message to the manager about a pair of files. -/
inductive Message where
  | addchunkfile (fpair : FilePair)
  | workdone (fpair : FilePair)
deriving DecidableEq

def Message.src : Message → Path
  | addchunkfile fpair => fpair.src
  | workdone fpair => fpair.src

def handle (verbose : Bool) (t : FchunkTbl) : Message → FchunkTbl × List Line
  | .addchunkfile fpair => (cmpAddchunkfile t fpair, [])
  | .workdone fpair => cmpWorkdone verbose t fpair

/-- The messages of a run one after the other, with what they print. -/
def handleAll (verbose : Bool) : FchunkTbl → List Message → FchunkTbl × List Line
  | t, [] => (t, [])
  | t, m :: ms =>
    let r := handle verbose t m
    let r' := handleAll verbose r.1 ms
    (r'.1, r.2 ++ r'.2)

/-! ## One file -/

section Table

variable {t : FchunkTbl} {key : Path} {data : ℤ}

theorem lookup_fchunktblUpdate : (fchunktblUpdate t key data).1.lookup =
    Function.update t.lookup key ((t.lookup key).map fun _ => data) := by
  unfold fchunktblUpdate
  cases h : t.update key data with
  | some t' =>
    have hne : t.lookup key ≠ none := fun hn => by
      rw [Buckets.update_eq_none.mpr hn] at h
      cases h
    obtain ⟨old, ho⟩ := Option.ne_none_iff_exists'.mp hne
    rw [ho]
    exact Buckets.lookup_of_update h
  | none =>
    rw [Buckets.update_eq_none] at h
    rw [h, Option.map_none, ← h, Function.update_eq_self]

theorem fchunktblUpdate_neg : (fchunktblUpdate t key data).2 < 0 ↔ t.lookup key = none := by
  unfold fchunktblUpdate
  rw [← @Buckets.update_eq_none _ _ _ t key data]
  cases t.update key data <;> simp

theorem lookup_fchunktblRemove :
    (fchunktblRemove t key).1.lookup = Function.update t.lookup key none := by
  unfold fchunktblRemove
  cases h : t.remove key with
  | some t' => exact Buckets.lookup_of_remove h
  | none =>
    rw [Buckets.remove_eq_none] at h
    exact (Function.update_eq_self_iff.mpr h.symm).symm

end Table

/-- What a message does to the entry of its file: a match counts down, the last one and a mismatch
give the verdict and end the entry, and without an entry nothing happens any more. -/
def fileStep (verbose : Bool) (e : Option ℤ) : Message → Option ℤ × List Line
  | .addchunkfile fpair => (some fpair.chunknum, [])
  | .workdone fpair =>
    let matches' := if verbose then [fpair.matchLine] else []
    if fpair.chunknum < 0 then
      (e, if fpair.matched then matches' else [fpair.mismatchLine verbose])
    else
      match e with
      | none => (none, [])
      | some n =>
        if fpair.matched then
          if 1 < n then (some (n - 1), [])
          else if 0 ≤ n then (none, matches')
          else (some n, [])
        else (none, [fpair.mismatchLine verbose])

variable {verbose : Bool}

section Workdone

variable {t : FchunkTbl} {fpair : FilePair}

theorem lookup_cleanUp_of_neg (hc : fpair.chunknum < 0) : (cleanUp t fpair).lookup = t.lookup := by
  unfold cleanUp
  rw [if_neg (by omega)]

theorem lookup_cleanUp (hc : 0 ≤ fpair.chunknum) : (cleanUp t fpair).lookup =
    Function.update t.lookup fpair.src ((t.lookup fpair.src).filter fun n => n ≠ 0) := by
  unfold cleanUp fchunktblGet
  cases hl : t.lookup fpair.src with
  | none =>
    rw [if_neg (by simp), Option.filter_none, ← hl, Function.update_eq_self]
  | some n =>
    by_cases hn : n = 0
    · rw [if_pos ⟨hc, by simpa using hn⟩, lookup_fchunktblRemove]
      have hf : (some n).filter (fun n => decide (n ≠ 0)) = none := by simp [hn]
      rw [hf]
    · rw [if_neg fun h => hn (by simpa using h.2)]
      have hf : (some n).filter (fun n => decide (n ≠ 0)) = some n := by simp [hn]
      rw [hf, ← hl, Function.update_eq_self]

/-- A mismatch: an entry goes to zero. -/
theorem workdoneMismatch_eq (hc : 0 ≤ fpair.chunknum) :
    (workdoneMismatch verbose t fpair).1.lookup = Function.update t.lookup fpair.src
        ((t.lookup fpair.src).map fun _ => 0) ∧
      (workdoneMismatch verbose t fpair).2 =
        if t.lookup fpair.src = none then [] else [fpair.mismatchLine verbose] := by
  unfold workdoneMismatch
  rw [if_pos hc]
  exact ⟨lookup_fchunktblUpdate, if_congr fchunktblUpdate_neg rfl rfl⟩

/-- A match: an entry above zero counts down. -/
theorem workdoneMatch_eq (hc : 0 ≤ fpair.chunknum) :
    (workdoneMatch verbose t fpair).1.lookup = Function.update t.lookup fpair.src
        ((t.lookup fpair.src).map fun n => if 0 < n then n - 1 else n) ∧
      (workdoneMatch verbose t fpair).2 =
        if verbose ∧ (t.lookup fpair.src = some 0 ∨ t.lookup fpair.src = some 1) then
          [fpair.matchLine] else [] := by
  unfold workdoneMatch
  rw [if_pos hc]
  unfold fchunktblGet
  cases hl : t.lookup fpair.src with
  | none =>
    rw [Option.getD_none, if_neg (by omega), Option.map_none, ← hl, Function.update_eq_self]
    exact ⟨rfl, by simp [hl]⟩
  | some n =>
    rw [Option.getD_some, Option.map_some]
    by_cases hn : 0 < n
    · rw [if_pos hn, if_pos hn]
      refine ⟨?_, if_congr (and_congr_right fun _ => ?_) rfl rfl⟩
      · dsimp only
        rw [lookup_fchunktblUpdate, hl, Option.map_some]
      · rw [Option.some.injEq, Option.some.injEq]
        omega
    · rw [if_neg hn, if_neg hn, ← hl, Function.update_eq_self]
      refine ⟨rfl, if_congr (and_congr_right fun _ => ?_) rfl rfl⟩
      rw [hl, Option.some.injEq, Option.some.injEq]
      omega

theorem cmpWorkdone_of_neg (hc : fpair.chunknum < 0) :
    (cmpWorkdone verbose t fpair).1.lookup = t.lookup ∧
      (cmpWorkdone verbose t fpair).2 =
        (fileStep verbose (t.lookup fpair.src) (.workdone fpair)).2 := by
  have hc' : ¬ 0 ≤ fpair.chunknum := by omega
  unfold cmpWorkdone
  dsimp only [fileStep]
  rw [if_pos hc]
  cases hm : fpair.matched with
  | true =>
    rw [if_pos rfl, if_pos rfl, lookup_cleanUp_of_neg hc]
    unfold workdoneMatch
    rw [if_neg hc', if_neg (by omega)]
    exact ⟨rfl, by simp⟩
  | false =>
    rw [if_neg Bool.false_ne_true, if_neg Bool.false_ne_true, lookup_cleanUp_of_neg hc]
    unfold workdoneMismatch
    rw [if_neg hc']
    exact ⟨rfl, rfl⟩

theorem cmpWorkdone_refines : (cmpWorkdone verbose t fpair).1.lookup =
      Function.update t.lookup fpair.src
        (fileStep verbose (t.lookup fpair.src) (.workdone fpair)).1 ∧
    (cmpWorkdone verbose t fpair).2 =
      (fileStep verbose (t.lookup fpair.src) (.workdone fpair)).2 := by
  by_cases hc : fpair.chunknum < 0
  · refine ⟨?_, (cmpWorkdone_of_neg hc).2⟩
    have he : (fileStep verbose (t.lookup fpair.src) (.workdone fpair)).1 = t.lookup fpair.src := by
      dsimp only [fileStep]
      rw [if_pos hc]
    rw [he, Function.update_eq_self]
    exact (cmpWorkdone_of_neg hc).1
  · have hc' : 0 ≤ fpair.chunknum := by omega
    unfold cmpWorkdone
    dsimp only [fileStep]
    rw [if_neg hc, lookup_cleanUp hc']
    cases hm : fpair.matched with
    | true =>
      obtain ⟨htable, hlines⟩ := @workdoneMatch_eq verbose t fpair hc'
      rw [if_pos rfl, htable, hlines, Function.update_self, Function.update_idem]
      cases t.lookup fpair.src with
      | none => simp
      | some n =>
        have hfilter : ∀ k : ℤ, k ≠ 0 → (some k).filter (fun k => decide (k ≠ 0)) = some k :=
          fun k hk => by simp [hk]
        have hzero : (some (0 : ℤ)).filter (fun k => decide (k ≠ 0)) = none := rfl
        simp only [Option.map_some, Option.some.injEq, ↓reduceIte]
        by_cases h1 : 1 < n
        · rw [if_pos h1, if_pos (by omega), hfilter _ (by omega), if_neg (by omega)]
          exact ⟨rfl, rfl⟩
        · rw [if_neg h1]
          by_cases h0 : 0 ≤ n
          · have hdown : (if 0 < n then n - 1 else n) = 0 := by split_ifs <;> omega
            rw [if_pos h0, hdown, hzero]
            refine ⟨rfl, if_congr (and_iff_left ?_) rfl rfl⟩
            omega
          · rw [if_neg h0, if_neg (by omega), hfilter _ (by omega), if_neg (by omega)]
            exact ⟨rfl, rfl⟩
    | false =>
      obtain ⟨htable, hlines⟩ := @workdoneMismatch_eq verbose t fpair hc'
      rw [if_neg Bool.false_ne_true, htable, hlines, Function.update_self, Function.update_idem]
      cases t.lookup fpair.src <;> exact ⟨rfl, rfl⟩

end Workdone

/-- A message changes the entry of its own file and no other. -/
theorem handle_refines (t : FchunkTbl) (m : Message) :
    (handle verbose t m).1.lookup =
        Function.update t.lookup m.src (fileStep verbose (t.lookup m.src) m).1 ∧
      (handle verbose t m).2 = (fileStep verbose (t.lookup m.src) m).2 := by
  cases m with
  | addchunkfile fpair => exact ⟨Buckets.lookup_insert, rfl⟩
  | workdone fpair => exact cmpWorkdone_refines

/-! ## Runs -/

/-- The messages about one file. -/
def about (p : Path) (ms : List Message) : List Message := ms.filter fun m => m.src = p

/-- The entry of a file after its messages. -/
def fileRun (verbose : Bool) : Option ℤ → List Message → Option ℤ × List Line
  | e, [] => (e, [])
  | e, m :: ms =>
    let r := fileStep verbose e m
    let r' := fileRun verbose r.1 ms
    (r'.1, r.2 ++ r'.2)

theorem src_of_mem_fileStep {e : Option ℤ} {m : Message} {l : Line}
    (hl : l ∈ (fileStep verbose e m).2) : l.src = m.src := by
  cases m with
  | addchunkfile fpair => cases hl
  | workdone fpair =>
    have hline : l = fpair.matchLine ∨ l = fpair.mismatchLine verbose := by
      dsimp only [fileStep] at hl
      split_ifs at hl
      all_goals first | exact Or.inl (List.mem_singleton.mp hl) | cases e <;> grind
    rcases hline with rfl | rfl <;> rfl

theorem about_cons_self {m : Message} {ms : List Message} :
    about m.src (m :: ms) = m :: about m.src ms := List.filter_cons_of_pos (by simp)

theorem about_cons_of_ne {p : Path} {m : Message} {ms : List Message} (h : m.src ≠ p) :
    about p (m :: ms) = about p ms := List.filter_cons_of_neg (by simpa using h)

/-- A file's entry and its verdicts come from its own messages. -/
theorem handleAll_about (t : FchunkTbl) (ms : List Message) (p : Path) :
    (handleAll verbose t ms).1.lookup p = (fileRun verbose (t.lookup p) (about p ms)).1 ∧
      ((handleAll verbose t ms).2.filter fun l => l.src = p) =
        (fileRun verbose (t.lookup p) (about p ms)).2 := by
  induction ms generalizing t with
  | nil => exact ⟨rfl, rfl⟩
  | cons m ms ih =>
    obtain ⟨htable, hlines⟩ := ih (handle verbose t m).1
    obtain ⟨hlookup, hout⟩ := handle_refines t m
    have hsrc : ∀ l ∈ (handle verbose t m).2, l.src = m.src := by
      rw [hout]
      exact fun l hl => src_of_mem_fileStep hl
    dsimp only [handleAll]
    rw [List.filter_append, hlines, htable, hlookup]
    by_cases hp : m.src = p
    · subst hp
      rw [about_cons_self, Function.update_self, List.filter_eq_self.mpr (by simpa using hsrc), hout]
      exact ⟨rfl, rfl⟩
    · rw [about_cons_of_ne hp, Function.update_of_ne (Ne.symm hp),
        List.filter_eq_nil_iff.mpr fun l hl => by simpa [hsrc l hl] using hp]
      exact ⟨rfl, rfl⟩

/-! ## Verdicts -/

/-- Results of the chunks of one pair of files: the number of each chunk, and whether it matched. -/
def results (p d : Path) (rs : List (ℤ × Bool)) : List Message :=
  rs.map fun r => .workdone ⟨p, d, r.1, r.2⟩

variable {p d : Path}

/-- Without an entry, results stay silent. -/
theorem fileRun_none {rs : List (ℤ × Bool)} (hc : ∀ r ∈ rs, 0 ≤ r.1) :
    fileRun verbose none (results p d rs) = (none, []) := by
  induction rs with
  | nil => rfl
  | cons r rs ih =>
    have hr : fileStep verbose none (.workdone ⟨p, d, r.1, r.2⟩) = (none, []) := by
      dsimp only [fileStep]
      rw [if_neg (by have := hc r List.mem_cons_self; omega)]
    show fileRun verbose none (.workdone ⟨p, d, r.1, r.2⟩ :: results p d rs) = _
    dsimp only [fileRun]
    rw [hr, ih fun r' hr' => hc r' (List.mem_cons_of_mem _ hr')]
    rfl

/-- The line for a pair of files whose chunks have these results. -/
def verdict (p d : Path) (rs : List (ℤ × Bool)) : Line :=
  ⟨if rs.all Prod.snd then "%s MATCHES %s\n" else "%s DOES NOT MATCH %s\n", p, d⟩

/-- As many results as the entry counts give one verdict and end the entry. -/
theorem fileRun_results {rs : List (ℤ × Bool)} {n : ℤ} (hn : 1 ≤ n) (hlen : rs.length = n)
    (hc : ∀ r ∈ rs, 0 ≤ r.1) :
    fileRun true (some n) (results p d rs) = (none, [verdict p d rs]) := by
  induction rs generalizing n with
  | nil =>
    rw [List.length_nil] at hlen
    omega
  | cons r rs ih =>
    obtain ⟨chunknum, matched⟩ := r
    have hc0 : ¬ chunknum < 0 := by
      have := hc (chunknum, matched) List.mem_cons_self
      dsimp only at this
      omega
    have hrest : ∀ r ∈ rs, 0 ≤ r.1 := fun r hr => hc r (List.mem_cons_of_mem _ hr)
    rw [List.length_cons] at hlen
    show fileRun true (some n) (.workdone ⟨p, d, chunknum, matched⟩ :: results p d rs) = _
    dsimp only [fileRun, fileStep]
    rw [if_neg hc0]
    cases matched with
    | false =>
      rw [if_neg Bool.false_ne_true, fileRun_none hrest]
      rfl
    | true =>
      rw [if_pos rfl]
      by_cases h1 : 1 < n
      · rw [if_pos h1, ih (by omega) (by omega) hrest]
        rfl
      · have hnil : rs = [] := List.length_eq_zero_iff.mp (by omega)
        rw [if_neg h1, if_pos (by omega), hnil]
        rfl

/-- A file that is registered for `n` chunks, with `n` results in any order and among any messages
about other files, has one verdict and no entry after it, and the entries of the other files are
what they are without its messages. -/
theorem one_verdict {size : ℕ} {size_pos : 0 < size} {hashfunc : Path → ℕ} {ms : List Message}
    {n : ℤ} {rs : List (ℤ × Bool)} {fpair : FilePair} (hn : 1 ≤ n) (hlen : rs.length = n)
    (hc : ∀ r ∈ rs, 0 ≤ r.1) (hadd : fpair.src = p ∧ fpair.chunknum = n)
    (hms : about p ms = .addchunkfile fpair :: results p d rs) :
    let t : FchunkTbl := Buckets.create size size_pos hashfunc
    ((handleAll true t ms).2.filter fun l => l.src = p) = [verdict p d rs] ∧
      (handleAll true t ms).1.lookup p = none ∧
      ∀ q, q ≠ p → (handleAll true t ms).1.lookup q =
        (handleAll true t (ms.filter fun m => m.src ≠ p)).1.lookup q := by
  intro t
  obtain ⟨htable, hlines⟩ := handleAll_about t ms p
  have hrun : fileRun true (t.lookup p) (about p ms) = (none, [verdict p d rs]) := by
    rw [hms]
    dsimp only [fileRun, fileStep]
    rw [hadd.2, fileRun_results hn hlen hc]
    rfl
  refine ⟨by rw [hlines, hrun], by rw [htable, hrun], fun q hq => ?_⟩
  have hother : about q (ms.filter fun m => m.src ≠ p) = about q ms := by
    unfold about
    rw [List.filter_filter]
    apply List.filter_congr
    intro m _
    by_cases hm : m.src = q <;> simp [hm, hq]
  rw [(handleAll_about t ms q).1, (handleAll_about t _ q).1, hother]

/-- Two files in one bucket: the first does not match in its second chunk, and a match of it comes
after the verdict on the other. -/
theorem one_verdict_shared_bucket :
    let t : FchunkTbl := Buckets.create 17 (by decide) defHashfunc
    let ms : List Message :=
      [.addchunkfile ⟨[97, 98], [1], 3, false⟩, .addchunkfile ⟨[98, 97], [2], 2, false⟩,
        .workdone ⟨[97, 98], [1], 0, true⟩, .workdone ⟨[98, 97], [2], 1, true⟩,
        .workdone ⟨[97, 98], [1], 2, false⟩, .workdone ⟨[98, 97], [2], 0, true⟩,
        .workdone ⟨[97, 98], [1], 1, true⟩]
    t.hash [97, 98] = t.hash [98, 97] ∧
      ((handleAll true t ms).2.filter fun l => l.src = [97, 98]) =
        [⟨"%s DOES NOT MATCH %s\n", [97, 98], [1]⟩] ∧
      (handleAll true t ms).1.lookup [97, 98] = none ∧
      ∀ q, q ≠ [97, 98] → (handleAll true t ms).1.lookup q =
        (handleAll true t (ms.filter fun m => m.src ≠ [97, 98])).1.lookup q :=
  ⟨by decide +kernel, @one_verdict [97, 98] [1] 17 (by decide) defHashfunc _ 3
    [(0, true), (2, false), (1, true)] ⟨[97, 98], [1], 3, false⟩ (by decide) rfl (by decide)
    ⟨rfl, rfl⟩ (by decide +kernel)⟩

end MpiToShmem.Cmp
