import MpiToShmem.Pwt.Steps
import MpiToShmem.Pwt.Termination

/-!
# What the finished work adds up to

Every item is there once: the items that were done are those of the start and those sent by the work
that was done. What holds of the items of the start and is passed on by the work holds of all.

1. `finished_perm`: the items that were done, at the end of the manager's loop.
2. `Passed`, `passed_step`: what the work passes on.
-/

namespace MpiToShmem.Pwt

open Kit Fifo

variable {W : Type} {o : Options} {items : List (ℕ × W)} {does : W → List (Action W) → Prop}
  {s s' : Processes W}

namespace Processes

/-! ## The items that were done -/

theorem PwtInv.assigned_perm (h : PwtInv o items does s) (hl : s.manager = .left) :
    (s.assigned.map Assignment.item).Perm (s.finished.map fun f => f.2.item) := by
  have hpeer : (s.assigned.map fun a => (a.rank, a.item)).Perm
      (s.finished.map fun f => (f.1, f.2.item)) := by
    apply perm_of_forPeer
    intro r
    rw [forPeer_map]
    exact (h.rest hl r).assigned
  have hitems := hpeer.map Prod.snd
  rwa [List.map_map, List.map_map] at hitems

theorem PwtInv.scheduled_perm_assigned (h : PwtInv o items does s) (hl : s.manager = .left) :
    (s.scheduled.map Scheduled.item).Perm (s.assigned.map Assignment.item) := by
  have hpeer : (s.scheduled.map fun e => (e.queue, e.item)).Perm
      (s.assigned.map fun a => (a.queue, a.item)) :=
    perm_of_forPeer fun i => (h.queues_empty hl i).2
  have hitems := hpeer.map Prod.snd
  rwa [List.map_map, List.map_map] at hitems

theorem PwtInv.scheduled_perm (h : PwtInv o items does s) (hl : s.manager = .left) :
    (s.scheduled.map Scheduled.item).Perm
      (items.map Prod.snd ++ s.finished.flatMap fun f => f.2.sends) := by
  have hpeer : (s.scheduled.map fun e => (e.source, e.item)).Perm
      ((items.map Prod.snd).map (Prod.mk managerProc) ++
        s.finished.flatMap fun f => f.2.sends.map (Prod.mk f.1)) := by
    apply perm_of_forPeer
    intro r
    have hrest := h.rest hl r
    rw [forPeer_append, forPeer_map_mk, forPeer_flatMap]
    by_cases hr : managerProc = r
    · have hnone : forPeer r s.finished = [] := hrest.nobody fun hw => hw.1 hr.symm
      have hfirst := h.first
      rw [hl, if_neg fun he => by cases he] at hfirst
      rw [if_pos hr, hnone, List.flatMap_nil, List.append_nil, ← hr]
      exact hfirst
    · rw [if_neg hr, List.nil_append]
      have hsch : (s.view r).scheduled = s.scheduledFrom r := if_neg (Ne.symm hr)
      exact hsch.symm.trans hrest.scheduled
  have hitems := hpeer.map Prod.snd
  rw [List.map_map, List.map_append, List.map_map, List.map_flatMap] at hitems
  simpa [Function.comp_def] using hitems

/-- The items that were done are those of the start and those that the work sent. -/
theorem PwtInv.finished_perm (h : PwtInv o items does s) (hl : s.manager = .left) :
    (s.finished.map fun f => f.2.item).Perm
      (items.map Prod.snd ++ s.finished.flatMap fun f => f.2.sends) :=
  (h.assigned_perm hl).symm.trans
    ((h.scheduled_perm_assigned hl).symm.trans (h.scheduled_perm hl))

theorem PwtInv.finished_does (h : PwtInv o items does s) (hl : s.manager = .left)
    {f : ℕ × Job W} (hf : f ∈ s.finished) : does f.2.item f.2.acts :=
  (h.rest hl f.1).jobs f.2 (mem_forPeer.mpr hf)

/-! ## What the work passes on -/

/-- An item from a worker was sent by work for an item that is assigned to it. -/
theorem PwtInv.scheduled_from (h : PwtInv o items does s) (hm : s.manager ≠ .stopped)
    {e : Scheduled W} (he : e ∈ s.scheduled) (hs : e.source ≠ managerProc) :
    ∃ job : Job W, does job.item job.acts ∧ e.item ∈ job.sends ∧
      ∃ a ∈ s.assigned, a.item = job.item := by
  have hmem : e.item ∈ (s.view e.source).scheduled := by
    show e.item ∈ if e.source = managerProc then [] else s.scheduledFrom e.source
    rw [if_neg hs]
    exact mem_forPeer.mpr (List.mem_map_of_mem he)
  obtain ⟨job, hdoes, hsend, hjob⟩ := (h.fits hm e.source).sent hmem
  obtain ⟨a, ha, hae⟩ := List.mem_map.mp (mem_forPeer.mp hjob)
  exact ⟨job, hdoes, hsend, a, ha, (Prod.mk.inj hae).2⟩

/-- What was assigned was scheduled. -/
theorem QueueInv.assigned_scheduled (h : QueueInv o s) {a : Assignment W} (ha : a ∈ s.assigned) :
    ∃ e ∈ s.scheduled, e.item = a.item := by
  have hmem : a.item ∈ s.assignedFrom a.queue := mem_forPeer.mpr (List.mem_map_of_mem ha)
  have hsch : a.item ∈ s.scheduledIn a.queue := by
    rw [h.queues a.queue]
    exact List.mem_append_left _ hmem
  obtain ⟨e, he, hea⟩ := List.mem_map.mp (mem_forPeer.mp hsch)
  exact ⟨e, he, (Prod.mk.inj hea).2⟩

/-- All items that were put into a queue satisfy `P`. -/
def Passed (P : W → Prop) (s : Processes W) : Prop :=
  s.manager ≠ .stopped → ∀ e ∈ s.scheduled, P e.item

theorem passed_step {P : W → Prop} (hitems : ∀ p ∈ items, P p.2)
    (hwork : ∀ job : Job W, does job.item job.acts → P job.item → ∀ item ∈ job.sends, P item)
    (s : Processes W) (a : Label W) (s' : Processes W)
    (h : PwtInv o items does s ∧ s.Passed P) (ha : a.Does does s)
    (hs : pwtStep o items s a = some s') : PwtInv o items does s' ∧ s'.Passed P := by
  obtain ⟨hinv, hpassed⟩ := h
  have hinv' := pwtInv_step s a s' hinv ha hs
  refine ⟨hinv', fun hns' e he => ?_⟩
  have hns : s.manager ≠ .stopped := by
    intro hstop
    have hover : s.manager.over := by
      rw [hstop]
      rfl
    rcases (step_over hover hs).1 with hm | hm
    · exact hns' (hm.trans hstop)
    · exact hns' hm
  rcases step_assigned hs with hassigned | hscheduled
  · by_cases hsource : e.source = managerProc
    · -- the manager schedules the items of its start
      have hfirst := hinv'.first
      have hmem : e.item ∈ s'.scheduledFrom managerProc :=
        mem_forPeer.mpr (List.mem_map.mpr ⟨e, he, by rw [hsource]⟩)
      rw [hfirst] at hmem
      split_ifs at hmem
      · cases hmem
      · obtain ⟨p, hp, hpe⟩ := List.mem_map.mp hmem
        exact hpe ▸ hitems p hp
    · obtain ⟨job, hdoes, hsend, b, hb, hbjob⟩ := hinv'.scheduled_from hns' he hsource
      rw [hassigned] at hb
      obtain ⟨e', he', heb⟩ := hinv.assigned_scheduled hb
      refine hwork job hdoes ?_ e.item hsend
      rw [← hbjob, ← heb]
      exact hpassed hns e' he'
  · rcases hscheduled e he with hold | ⟨p, hp, hep⟩
    · exact hpassed hns e hold
    · rw [hep]
      exact hitems p hp

/-- At the end of the manager's loop every item that was done satisfies `P`. -/
theorem finished_passed {P : W → Prop} (h : PwtInv o items does s ∧ s.Passed P)
    (hl : s.manager = .left) {f : ℕ × Job W} (hf : f ∈ s.finished) : P f.2.item := by
  have hns : s.manager ≠ .stopped := by
    rw [hl]
    exact fun he => by cases he
  have hmem := (h.1.assigned_perm hl).mem_iff.mpr
    (List.mem_map.mpr ⟨f, hf, rfl⟩ : f.2.item ∈ s.finished.map fun f => f.2.item)
  obtain ⟨a, ha, haf⟩ := List.mem_map.mp hmem
  obtain ⟨e, he, hea⟩ := h.1.assigned_scheduled ha
  rw [← haf, ← hea]
  exact h.2 hns e he

end Processes

end MpiToShmem.Pwt
