import MpiToShmem.Pftool.WalkedOnce
import MpiToShmem.Pwt.Progress

/-!
# The walk comes to its end

A work function sends items of the other one. The work for directories makes a visit for each, so
what is due for the items it sends is less; the work for paths that are looked at may visit nothing,
but then only directories are left.

1. `sends_smaller`: every item that is sent is smaller.
2. `walk_finishes`: the walk over any trees is finished, and then they have been visited.
-/

namespace MpiToShmem.Treewalk

open Kit Pwt
open scoped List

variable {fs : Files} {start : Path} {w w' : Walk} {doWork : DoWork}

/-! ## What is sent -/

/-- All items sent are for one work function, and the visits include those before. -/
structure Walk.Leads (doWork : DoWork) (w w' : Walk) : Prop where
  sent : (∀ item ∈ w.sent, item.doWork = doWork) → ∀ item ∈ w'.sent, item.doWork = doWork
  visits : w.visits.length ≤ w'.visits.length

namespace Walk.Leads

theorem refl : Walk.Leads doWork w w := ⟨id, Nat.le_refl _⟩

theorem trans {w'' : Walk} (h : w.Leads doWork w') (h' : w'.Leads doWork w'') :
    w.Leads doWork w'' :=
  ⟨fun hw => h'.sent (h.sent hw), h.visits.trans h'.visits⟩

theorem sendBuffer : w.Leads doWork (w.sendBuffer doWork) := by
  refine ⟨fun hw item hi => ?_, Nat.le_refl _⟩
  rw [Walk.sent_sendBuffer] at hi
  rcases List.mem_append.mp hi with hi | hi
  · exact hw item hi
  · rw [List.mem_singleton.mp hi]

theorem flush {b : Bool} : w.Leads doWork (if b then w.sendBuffer doWork else w) := by
  split_ifs
  · exact sendBuffer
  · exact refl

theorem addPath {path : Path} (h : w.addPath path = some w') : w.Leads doWork w' := by
  obtain ⟨buffer, -, rfl⟩ := Option.map_eq_some_iff.mp h
  exact ⟨id, Nat.le_refl _⟩

theorem statEntry {path : Path} (h : statEntry fs w path = some w') : w.Leads .readdir w' := by
  obtain ⟨w₁, hlook, h⟩ := Option.bind_eq_some_iff.mp h
  obtain rfl := Option.some.inj h
  refine Walk.Leads.trans ?_ flush
  unfold lookAt at hlook
  split at hlook
  · cases hlook
  · exact addPath hlook
  · obtain rfl := Option.some.inj hlook
    refine ⟨id, ?_⟩
    dsimp only
    rw [List.length_append]
    exact Nat.le_add_right _ _

theorem dirEntry {path name : Path} (h : dirEntry path w name = some w') :
    w.Leads .statpath w' := by
  unfold Treewalk.dirEntry at h
  split_ifs at h
  · obtain rfl := Option.some.inj h
    exact refl
  · obtain ⟨w₁, hadd, h⟩ := Option.bind_eq_some_iff.mp h
    obtain rfl := Option.some.inj h
    exact (addPath hadd).trans flush

theorem foldlM {f : Walk → Path → Option Walk}
    (hf : ∀ w path w', f w path = some w' → w.Leads doWork w') (paths : List Path)
    (h : paths.foldlM f w = some w') : w.Leads doWork w' := by
  induction paths generalizing w with
  | nil =>
    obtain rfl := Option.some.inj h
    exact refl
  | cons path paths ih =>
    rw [List.foldlM_cons] at h
    obtain ⟨w₁, hw₁, h⟩ := Option.bind_eq_some_iff.mp h
    exact (hf w path w₁ hw₁).trans (ih h)

theorem readdirs {paths : List Path} (h : readdirs fs w paths = some w') :
    w.Leads .statpath w' := by
  induction paths generalizing w with
  | nil =>
    obtain rfl := Option.some.inj h
    split_ifs
    · exact refl
    · exact sendBuffer
  | cons path paths ih =>
    unfold Treewalk.readdirs at h
    split at h
    · obtain rfl := Option.some.inj h
      exact refl
    · obtain ⟨w₁, hfold, h⟩ := Option.bind_eq_some_iff.mp h
      refine (foldlM (fun _ _ _ => dirEntry) _ hfold).trans (Walk.Leads.trans ?_ (ih h))
      refine ⟨id, ?_⟩
      dsimp only
      rw [List.length_append]
      exact Nat.le_add_right _ _

end Walk.Leads

/-- An item of paths to look at sends directories only. -/
theorem statpath_sends {data : WorkItem} (h : treewalkStatpath fs data = some w) :
    ∀ item ∈ w.sent, item.doWork = .readdir := by
  obtain ⟨w₁, hfold, h⟩ := Option.bind_eq_some_iff.mp h
  have hnone : ∀ item ∈ Walk.init.sent, item.doWork = .readdir :=
    fun _ hi => absurd hi List.not_mem_nil
  have hleads := (Walk.Leads.foldlM (fun _ _ _ => Walk.Leads.statEntry) _ hfold).sent hnone
  obtain rfl := Option.some.inj h
  split_ifs
  · exact hleads
  · exact Walk.Leads.sendBuffer.sent hleads

/-- An item of directories sends paths to look at only, and the first directory is read. -/
theorem readdir_sends {data : WorkItem} {path : Path} {paths : List Path}
    (hpaths : data.paths = path :: paths) (hopen : fs.opendir path ≠ none)
    (h : treewalkReaddir fs data = some w) :
    0 < w.visits.length ∧ ∀ item ∈ w.sent, item.doWork = .statpath := by
  unfold treewalkReaddir at h
  refine ⟨?_, (Walk.Leads.readdirs h).sent fun _ hi => absurd hi List.not_mem_nil⟩
  rw [hpaths] at h
  unfold readdirs at h
  split at h
  · rename_i hnone
    exact absurd hnone hopen
  · obtain ⟨w₁, -, h⟩ := Option.bind_eq_some_iff.mp h
    have hle := (Walk.Leads.readdirs h).visits
    dsimp only at hle
    rw [List.length_append] at hle
    exact Nat.lt_of_lt_of_le (Nat.succ_pos _) hle

/-! ## Sizes -/

/-- The visits due for an item, and one step more if they begin with a look at its paths. -/
def WorkItem.size (fs : Files) (data : WorkItem) : ℕ :=
  2 * (data.due fs).length + match data.doWork with
    | .statpath => 1
    | .readdir => 0

theorem length_due_le {items : List WorkItem} {item : WorkItem} (h : item ∈ items) :
    (item.due fs).length ≤ (items.flatMap (WorkItem.due fs)).length := by
  rw [List.length_flatMap]
  exact List.le_sum_of_mem (List.mem_map_of_mem (f := fun i => (WorkItem.due fs i).length) h)

/-- Every item that is sent is smaller. -/
theorem sends_smaller (h : fs.Walkable start) {job : Pwt.Job WorkItem} (hfit : job.item.Fit fs start)
    (hdoes : Does fs job.item job.acts) {item : WorkItem} (hi : item ∈ job.sends) :
    item.size fs < job.item.size fs := by
  obtain ⟨hperm, -⟩ := job_spec h hfit hdoes
  have hlen := hperm.length_eq
  rw [List.length_append] at hlen
  have hle := @length_due_le fs _ _ hi
  obtain ⟨w, hw, hacts⟩ := Option.map_eq_some_iff.mp hdoes
  have hsent : item ∈ w.sent := by
    unfold Walk.sent
    rw [hacts]
    exact hi
  unfold WorkItem.size
  unfold WorkItem.run at hw
  cases hd : job.item.doWork with
  | statpath =>
    rw [hd] at hw
    rw [statpath_sends hw item hsent]
    dsimp only
    omega
  | readdir =>
    rw [hd] at hw
    dsimp only at hw
    cases hpaths : job.item.paths with
    | nil =>
      unfold treewalkReaddir readdirs at hw
      rw [hpaths] at hw
      obtain rfl := Option.some.inj hw
      cases hsent
    | cons path paths =>
      obtain ⟨hreach, hdir⟩ := hfit path (by rw [hpaths]; exact List.mem_cons_self)
      obtain ⟨hpos, hkind⟩ := readdir_sends hpaths (h.opendir path hreach (hdir hd)) hw
      have hvisits : job.item.visits fs = w.visits := by
        unfold WorkItem.visits WorkItem.run
        rw [hd]
        dsimp only
        rw [hw]
        rfl
      rw [hkind item hsent]
      dsimp only
      rw [hvisits] at hlen
      omega

/-! ## The walk -/

variable {args : List Path} {o : Options} {s : Processes WorkItem} {ls : List (Label WorkItem)}

/-- An item of one of the trees. -/
def FitsOne (fs : Files) (starts : List Path) (data : WorkItem) : Prop :=
  ∃ start ∈ starts, data.Fit fs start

theorem sends_wellFounded {starts : List Path} (hfs : ∀ t ∈ starts, fs.Walkable t) :
    WellFounded (Processes.Sends (Does fs) (FitsOne fs starts)) := by
  refine Subrelation.wf ?_ (measure (WorkItem.size fs)).wf
  rintro item' item ⟨⟨t, ht, hfit⟩, acts, hdoes, hmem⟩
  exact @sends_smaller _ _ (hfs t ht) ⟨item, acts⟩ hfit hdoes _ hmem

/-- When the work is complete, what has been visited is what was due in the trees. -/
theorem visited_of_complete (hfs : ∀ t ∈ start :: args, fs.Walkable t)
    (h : Processes.Complete (treewalkStartwork start args) (Does fs) (FitsOne fs (start :: args)) s) :
    (visited fs s).Perm ((start :: args).flatMap (tree fs)) := by
  obtain ⟨hperm, hdone⟩ := h
  have hjobs : ∀ f ∈ s.finished, (f.2.item.visits fs ++ f.2.sends.flatMap (WorkItem.due fs)).Perm
      (f.2.item.due fs) := by
    intro f hf
    obtain ⟨⟨t, ht, hfit⟩, hdoes⟩ := hdone f hf
    exact (job_spec (hfs t ht) hfit hdoes).1
  have hstarts : ((treewalkStartwork start args).map Prod.snd).flatMap (WorkItem.due fs) =
      (start :: args).flatMap (tree fs) := by
    unfold treewalkStartwork
    rw [List.map_map, List.flatMap_map]
    exact List.flatMap_congr fun t ht => (startItem_fit (hfs t ht)).2
  let sent := s.finished.flatMap fun f => f.2.sends.flatMap (WorkItem.due fs)
  have hall := hperm.flatMap_right (WorkItem.due fs)
  rw [List.flatMap_map, List.flatMap_append, List.flatMap_assoc, hstarts] at hall
  -- what is due for the items sent is on both sides
  refine (List.perm_append_right_iff sent).mp ?_
  calc visited fs s ++ sent
      ~ s.finished.flatMap fun f : ℕ × Pwt.Job WorkItem =>
          f.2.item.visits fs ++ f.2.sends.flatMap (WorkItem.due fs) :=
        List.flatMap_append_perm _ _ _
    _ ~ s.finished.flatMap fun f => f.2.item.due fs := List.Perm.flatMap_left _ hjobs
    _ ~ (start :: args).flatMap (tree fs) ++ sent := hall

end MpiToShmem.Treewalk
