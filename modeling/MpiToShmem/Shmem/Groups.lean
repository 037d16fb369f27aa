import MpiToShmem.Shmem.Comm

/-!
# Groups of groups

`MPI_Group_incl` takes the ranks that it is given for the numbers of PEs, whatever group they are
ranks of.

1. `Included`, `GroupLaw`: the members of a new group are those that the ranks name in the old one,
   and groups of groups are groups by the composed ranks.
2. `Fixed`: in every group the ranks that are asked for name the PEs of the same numbers.
3. `groupLaw_iff`: the law holds exactly then.
-/

namespace MpiToShmem.Shmem

/-- A call of `MPI_Group_incl`: the ranks, and what `new_rank` held before. -/
structure InclCall where
  ranks : List ℤ
  junk : ℤ

/-- Distinct ranks of a group of this size. -/
def RanksOf (size : ℤ) (ranks : List ℤ) : Prop := ranks.Nodup ∧ ∀ r ∈ ranks, 0 ≤ r ∧ r < size

/-- Every list has ranks of the group that the list before gives. -/
def ValidRanks (size : ℤ) : List (List ℤ) → Prop
  | [] => True
  | ranks :: rest => RanksOf size ranks ∧ ValidRanks ranks.length rest

/-- The PEs of these ranks. -/
def select (pes ranks : List ℤ) : List ℤ := ranks.map fun r => pes.getD r.toNat 0

/-- The ranks in the first group of those that the lists select one after the other. -/
def composeRanks (ranks : List ℤ) : List (List ℤ) → List ℤ
  | [] => ranks
  | next :: rest => composeRanks (select ranks next) rest

/-- The group after the calls on PE `myPe`. -/
def inclAll (myPe : ℤ) (g : MpidGroup) : List InclCall → MpidGroup
  | [] => g
  | c :: calls => inclAll myPe (mpiGroupIncl c.ranks myPe c.junk) calls

/-! ## The law -/

/-- What including these ranks is to give on PE `myPe`. -/
structure Included (pes ranks : List ℤ) (myPe : ℤ) (new : MpidGroup) : Prop where
  size : new.size = ranks.length
  pesInGroup : new.pesInGroup = select pes ranks
  rank : ∀ i : ℕ, new.pesInGroup[i]? = some myPe → new.rank = i

/-- Every call includes what it should. -/
def AllIncluded (myPe : ℤ) (g : MpidGroup) : List InclCall → Prop
  | [] => True
  | c :: calls =>
    Included g.pesInGroup c.ranks myPe (mpiGroupIncl c.ranks myPe c.junk) ∧
      AllIncluded myPe (mpiGroupIncl c.ranks myPe c.junk) calls

/-- The same group, for those who are in it. -/
structure SameGroup (myPe : ℤ) (g g' : MpidGroup) : Prop where
  size : g.size = g'.size
  pesInGroup : g.pesInGroup = g'.pesInGroup
  rank : ∀ i : ℕ, g.pesInGroup[i]? = some myPe → g.rank = g'.rank

/-- Every call includes what it should, and all of them give what a call with the composed ranks
gives. -/
structure GroupLaw (myPe : ℤ) (g : MpidGroup) (calls : List InclCall) : Prop where
  included : AllIncluded myPe g calls
  composes : ∀ c rest, calls = c :: rest → ∀ junk, SameGroup myPe (inclAll myPe g calls)
    (mpiGroupIncl (composeRanks c.ranks (rest.map InclCall.ranks)) myPe junk)

/-! ## When it holds -/

/-- In every group, the PE of a rank that is asked for has that number. -/
def Fixed (pes : List ℤ) : List (List ℤ) → Prop
  | [] => True
  | ranks :: rest => (∀ r ∈ ranks, pes.getD r.toNat 0 = r) ∧ Fixed ranks rest

theorem select_eq_self {pes ranks : List ℤ} :
    select pes ranks = ranks ↔ ∀ r ∈ ranks, pes.getD r.toNat 0 = r := by
  unfold select
  conv_lhs => rhs; rw [← List.map_id ranks]
  rw [List.map_inj_left]
  rfl

theorem included_iff {pes ranks : List ℤ} {myPe junk : ℤ} (hnodup : ranks.Nodup) :
    Included pes ranks myPe (mpiGroupIncl ranks myPe junk) ↔
      ∀ r ∈ ranks, pes.getD r.toNat 0 = r := by
  rw [← select_eq_self]
  constructor
  · intro h
    exact h.pesInGroup.symm
  · intro h
    exact ⟨rfl, h.symm, fun i hi => newRank_eq hnodup hi junk⟩

theorem allIncluded_iff {myPe size : ℤ} {g : MpidGroup} {calls : List InclCall}
    (hvalid : ValidRanks size (calls.map InclCall.ranks)) :
    AllIncluded myPe g calls ↔ Fixed g.pesInGroup (calls.map InclCall.ranks) := by
  induction calls generalizing g size with
  | nil => exact Iff.rfl
  | cons c calls ih =>
    obtain ⟨hranks, hrest⟩ := hvalid
    exact and_congr (included_iff hranks.1) (ih hrest)

/-- Ranks that are numbers of PEs compose to the last of them. -/
theorem sameGroup_of_fixed {myPe size junk : ℤ} {g : MpidGroup} {c : InclCall}
    {calls : List InclCall} (hvalid : ValidRanks size ((c :: calls).map InclCall.ranks))
    (hfixed : Fixed c.ranks (calls.map InclCall.ranks)) :
    SameGroup myPe (inclAll myPe g (c :: calls))
      (mpiGroupIncl (composeRanks c.ranks (calls.map InclCall.ranks)) myPe junk) := by
  induction calls generalizing g c size with
  | nil =>
    refine ⟨rfl, rfl, fun i hi => ?_⟩
    have hrank := fun junk => newRank_eq hvalid.1.1 hi junk
    exact (hrank c.junk).trans (hrank junk).symm
  | cons c' calls ih =>
    obtain ⟨hfix, hrest⟩ := hfixed
    rw [List.map_cons, composeRanks, select_eq_self.mpr hfix]
    exact @ih _ (mpiGroupIncl c.ranks myPe c.junk) c' hvalid.2 hrest

/-- On every PE, selecting members composes exactly when every rank that is asked for is the number
of the PE that has it. -/
theorem groupLaw_iff (myPe : ℤ) (g : MpidGroup) (calls : List InclCall)
    (hvalid : ValidRanks g.size (calls.map InclCall.ranks)) :
    GroupLaw myPe g calls ↔ Fixed g.pesInGroup (calls.map InclCall.ranks) := by
  constructor
  · intro h
    exact (allIncluded_iff hvalid).mp h.included
  · intro h
    refine ⟨(allIncluded_iff hvalid).mpr h, ?_⟩
    rintro c rest rfl junk
    exact sameGroup_of_fixed hvalid h.2

/-- The last two of three PEs that are the last three of four are not the PEs 1 and 2. -/
theorem not_groupLaw_nested :
    ¬ GroupLaw 3 ⟨4, 3, 3, [0, 1, 2, 3]⟩ [⟨[1, 2, 3], 0⟩, ⟨[1, 2], 0⟩] := by
  intro h
  have hsecond := h.included.2.1.pesInGroup
  revert hsecond
  decide

theorem groupLaw_first :
    GroupLaw 1 ⟨4, 1, 1, [0, 1, 2, 3]⟩ [⟨[2, 0, 1], 0⟩, ⟨[], 0⟩] := by
  refine (groupLaw_iff 1 _ _ ?_).mpr ⟨by decide, by decide, trivial⟩
  exact ⟨⟨by decide, by decide⟩, ⟨by decide, by decide⟩, trivial⟩

end MpiToShmem.Shmem
