import Mathlib.Order.Bounds.Basic
import MpiToShmem.Mdhim.Cursor

/-!
# The slice of a cursor operation

The statistics are a hash of entries with different slices. A cursor operation stays in the current
slice if the entry of it has a key on the far side of the value, and goes to the nearest slice on
that side otherwise.

1. `IsChosen`: the slice an operation asks for, with no regard to the order of the entries.
2. `getSliceFromIstat_spec`: that slice is returned if there is one, and slice 0 if not.
3. `choosesSlice_iff`: slice 0 has a server, and is taken for a slice that was found.
-/

namespace MpiToShmem

open Kit

/-- What `get_range_server_from_stats` makes of the slice it gets. -/
def serverOfSlice (md : Mdhim) (stats : List (MdhimStat ℕ)) (sliceNum : ℤ) : Option RangesrvInfo :=
  if stats = [] then none
  else if sliceNum = mdhimError then none
  else getRangeServerBySlice md sliceNum

theorem getRangeServerFromStats_eq {o : IntOptions} (md : Mdhim) (stats : List (MdhimStat ℕ))
    (key : IntKey o) (op : CursorOp) :
    getRangeServerFromStats md stats (some key) op =
      if getSliceNum md.opts (some (keyBytes key)) = mdhimError then none
      else serverOfSlice md stats
        (getSliceFromIstat stats (getSliceNum md.opts (some (keyBytes key))) key op) := by
  unfold getRangeServerFromStats serverOfSlice
  by_cases hne : stats = []
  · rw [if_pos hne, if_pos hne, ite_self]
  · rw [if_neg hne, if_neg hne]

/-! ## The slice that is asked for -/

/-- The slices of the entries. -/
def slices (stats : List (MdhimStat ℕ)) : Set ℤ := {slice | ∃ stat ∈ stats, stat.key = slice}

/-- The entry of the slice has a limit with this property. -/
def CurHas (stats : List (MdhimStat ℕ)) (curSlice : ℤ) (p : MdhimStat ℕ → Prop) : Prop :=
  ∃ stat ∈ stats, stat.key = curSlice ∧ p stat

/-- The slice that an operation asks for. -/
def IsChosen (stats : List (MdhimStat ℕ)) (curSlice : ℤ) (istat : ℕ) (op : CursorOp) (slice : ℤ) :
    Prop :=
  match op with
  | .next =>
    CurHas stats curSlice (fun stat => istat < stat.max) ∧ slice = curSlice ∨
      ¬ CurHas stats curSlice (fun stat => istat < stat.max) ∧
        IsLeast {k | k ∈ slices stats ∧ curSlice < k} slice
  | .prev =>
    CurHas stats curSlice (fun stat => stat.min < istat) ∧ slice = curSlice ∨
      ¬ CurHas stats curSlice (fun stat => stat.min < istat) ∧
        IsGreatest {k | k ∈ slices stats ∧ k < curSlice} slice
  | .first => IsLeast (slices stats) slice
  | .last => IsGreatest (slices stats) slice

/-- There is a slice that the operation asks for. -/
def HasChoice (stats : List (MdhimStat ℕ)) (curSlice : ℤ) (istat : ℕ) (op : CursorOp) : Prop :=
  match op with
  | .next => ∃ stat ∈ stats, curSlice < stat.key ∨ stat.key = curSlice ∧ istat < stat.max
  | .prev => ∃ stat ∈ stats, stat.key < curSlice ∨ stat.key = curSlice ∧ stat.min < istat
  | .first | .last => stats ≠ []

/-- In every order of the entries the operation gets the slice it asks for, or else one that
`get_range_server_from_stats` has no server for. -/
def ChoosesSlice (md : Mdhim) (stats : List (MdhimStat ℕ)) (curSlice : ℤ) (istat : ℕ)
    (op : CursorOp) : Prop :=
  ∀ order, order.Perm stats →
    (∀ slice, IsChosen stats curSlice istat op slice →
      getSliceFromIstat order curSlice istat op = slice) ∧
    ((∀ slice, ¬ IsChosen stats curSlice istat op slice) →
      serverOfSlice md order (getSliceFromIstat order curSlice istat op) = none)

variable {stats order : List (MdhimStat ℕ)} {curSlice : ℤ} {istat : ℕ} {op : CursorOp}

theorem slices_of_perm (h : order.Perm stats) : slices order = slices stats := by
  ext slice
  unfold slices
  constructor
  · rintro ⟨stat, hmem, hk⟩
    exact ⟨stat, h.mem_iff.mp hmem, hk⟩
  · rintro ⟨stat, hmem, hk⟩
    exact ⟨stat, h.mem_iff.mpr hmem, hk⟩

theorem curHas_of_perm (h : order.Perm stats) (p : MdhimStat ℕ → Prop) :
    CurHas order curSlice p = CurHas stats curSlice p := by
  unfold CurHas
  exact propext (exists_congr fun stat => and_congr_left fun _ => h.mem_iff)

theorem isChosen_of_perm (h : order.Perm stats) (slice : ℤ) :
    IsChosen order curSlice istat op slice ↔ IsChosen stats curSlice istat op slice := by
  unfold IsChosen
  simp only [slices_of_perm h, curHas_of_perm h]

theorem IsChosen.unique {a b : ℤ} (ha : IsChosen stats curSlice istat op a)
    (hb : IsChosen stats curSlice istat op b) : a = b := by
  unfold IsChosen at ha hb
  cases op with
  | next =>
    rcases ha with ⟨hc, rfl⟩ | ⟨hc, ha⟩ <;> rcases hb with ⟨hc', rfl⟩ | ⟨hc', hb⟩
    · rfl
    · exact absurd hc hc'
    · exact absurd hc' hc
    · exact ha.unique hb
  | prev =>
    rcases ha with ⟨hc, rfl⟩ | ⟨hc, ha⟩ <;> rcases hb with ⟨hc', rfl⟩ | ⟨hc', hb⟩
    · rfl
    · exact absurd hc hc'
    · exact absurd hc' hc
    · exact ha.unique hb
  | first => exact IsLeast.unique ha hb
  | last => exact IsGreatest.unique ha hb

/-- Slices are different, so the entry that is found for a slice is the only one of it. -/
theorem find_has_iff (hd : HashTable.Distinct MdhimStat.key stats) (p : MdhimStat ℕ → Prop) :
    (∃ stat ∈ HashTable.find MdhimStat.key stats curSlice, p stat) ↔ CurHas stats curSlice p := by
  unfold CurHas
  refine exists_congr fun stat => ?_
  rw [Option.mem_def, HashTable.find_eq_some hd, and_assoc]

theorem isLeast_next {best : MdhimStat ℕ} (h : getNextSliceStat stats curSlice = some best) :
    best ∈ stats ∧ curSlice < best.key ∧
      IsLeast {k | k ∈ slices stats ∧ curSlice < k} best.key := by
  have hspec := @getNextSliceStat_spec _ stats curSlice
  rw [h] at hspec
  obtain ⟨hmem, hlt, hleast⟩ := hspec
  refine ⟨hmem, hlt, ⟨⟨best, hmem, rfl⟩, hlt⟩, ?_⟩
  rintro k ⟨⟨stat, hstat, rfl⟩, hk⟩
  exact hleast stat hstat hk

theorem isGreatest_prev {best : MdhimStat ℕ} (h : getPrevSliceStat stats curSlice = some best) :
    best ∈ stats ∧ best.key < curSlice ∧
      IsGreatest {k | k ∈ slices stats ∧ k < curSlice} best.key := by
  have hspec := @getPrevSliceStat_spec _ stats curSlice
  rw [h] at hspec
  obtain ⟨hmem, hlt, hgreatest⟩ := hspec
  refine ⟨hmem, hlt, ⟨⟨best, hmem, rfl⟩, hlt⟩, ?_⟩
  rintro k ⟨⟨stat, hstat, rfl⟩, hk⟩
  exact hgreatest stat hstat hk

theorem isLeast_first (hne : stats ≠ []) :
    IsLeast (slices stats) (foundSlice (getFirstSliceStat stats)) := by
  have hspec := @getFirstSliceStat_spec _ stats
  cases hf : getFirstSliceStat stats with
  | none =>
    rw [hf] at hspec
    exact absurd hspec hne
  | some best =>
    rw [hf] at hspec
    refine ⟨⟨best, hspec.1, rfl⟩, ?_⟩
    rintro k ⟨stat, hstat, rfl⟩
    exact hspec.2 stat hstat

theorem isGreatest_last (hne : stats ≠ []) :
    IsGreatest (slices stats) (foundSlice (getLastSliceStat stats)) := by
  have hspec := @getLastSliceStat_spec _ stats
  cases hf : getLastSliceStat stats with
  | none =>
    rw [hf] at hspec
    exact absurd hspec hne
  | some best =>
    rw [hf] at hspec
    refine ⟨⟨best, hspec.1, rfl⟩, ?_⟩
    rintro k ⟨stat, hstat, rfl⟩
    exact hspec.2 stat hstat

/-- The choice of `MDHIM_GET_NEXT` and `MDHIM_GET_PREV`: the current slice if its entry has a limit
on the right side of the value, otherwise the nearest slice on that side, or 0 without one. -/
theorem current_or_nearest (hd : HashTable.Distinct MdhimStat.key stats)
    (beyond extreme : ℤ → Prop) {p : MdhimStat ℕ → Prop} {nearest : Option (MdhimStat ℕ)}
    [Decidable (∃ stat ∈ HashTable.find MdhimStat.key stats curSlice, p stat)]
    (hnone : nearest = none → ∀ stat ∈ stats, ¬ beyond stat.key)
    (hsome : ∀ best, nearest = some best → best ∈ stats ∧ beyond best.key ∧ extreme best.key) :
    let slice := if ∃ stat ∈ HashTable.find MdhimStat.key stats curSlice, p stat then curSlice
      else foundSlice nearest
    ((∃ stat ∈ stats, beyond stat.key ∨ stat.key = curSlice ∧ p stat) ∧
        (CurHas stats curSlice p ∧ slice = curSlice ∨ ¬ CurHas stats curSlice p ∧ extreme slice)) ∨
      (¬ ∃ stat ∈ stats, beyond stat.key ∨ stat.key = curSlice ∧ p stat) ∧ slice = 0 := by
  intro slice
  by_cases hcur : CurHas stats curSlice p
  · have hslice : slice = curSlice := if_pos ((find_has_iff hd p).mpr hcur)
    obtain ⟨stat, hmem, hk⟩ := hcur
    exact Or.inl ⟨⟨stat, hmem, Or.inr hk⟩, Or.inl ⟨⟨stat, hmem, hk⟩, hslice⟩⟩
  · have hslice : slice = foundSlice nearest := if_neg fun h => hcur ((find_has_iff hd p).mp h)
    rw [hslice]
    cases hn : nearest with
    | none =>
      refine Or.inr ⟨?_, rfl⟩
      rintro ⟨stat, hmem, hbeyond | hk⟩
      · exact hnone hn stat hmem hbeyond
      · exact hcur ⟨stat, hmem, hk⟩
    | some best =>
      obtain ⟨hmem, hbeyond, hextreme⟩ := hsome best hn
      exact Or.inl ⟨⟨best, hmem, Or.inl hbeyond⟩, Or.inr ⟨hcur, hextreme⟩⟩

/-- The slice that is asked for is returned if there is one, and slice 0 otherwise. -/
theorem getSliceFromIstat_spec (hd : HashTable.Distinct MdhimStat.key stats) (hne : stats ≠ [])
    (curSlice : ℤ) (istat : ℕ) (op : CursorOp) :
    (HasChoice stats curSlice istat op ∧
        IsChosen stats curSlice istat op (getSliceFromIstat stats curSlice istat op)) ∨
      (¬ HasChoice stats curSlice istat op ∧ getSliceFromIstat stats curSlice istat op = 0) := by
  unfold getSliceFromIstat HasChoice IsChosen
  rw [if_neg hne]
  cases op with
  | next =>
    refine current_or_nearest hd (curSlice < ·) (IsLeast {k | k ∈ slices stats ∧ curSlice < k})
      (fun hn stat hmem => not_lt.mpr ?_) fun best => isLeast_next
    have hspec := @getNextSliceStat_spec _ stats curSlice
    rw [hn] at hspec
    exact hspec stat hmem
  | prev =>
    refine current_or_nearest hd (· < curSlice) (IsGreatest {k | k ∈ slices stats ∧ k < curSlice})
      (fun hn stat hmem => not_lt.mpr ?_) fun best => isGreatest_prev
    have hspec := @getPrevSliceStat_spec _ stats curSlice
    rw [hn] at hspec
    exact hspec stat hmem
  | first => exact Or.inl ⟨hne, isLeast_first hne⟩
  | last => exact Or.inl ⟨hne, isGreatest_last hne⟩

/-- There is a slice to ask for exactly if one is asked for. -/
theorem hasChoice_of_isChosen {slice : ℤ} (h : IsChosen stats curSlice istat op slice) :
    HasChoice stats curSlice istat op := by
  unfold IsChosen at h
  cases op with
  | next =>
    rcases h with ⟨⟨stat, hmem, hcur⟩, -⟩ | ⟨-, ⟨⟨stat, hmem, rfl⟩, hlt⟩, -⟩
    · exact ⟨stat, hmem, Or.inr hcur⟩
    · exact ⟨stat, hmem, Or.inl hlt⟩
  | prev =>
    rcases h with ⟨⟨stat, hmem, hcur⟩, -⟩ | ⟨-, ⟨⟨stat, hmem, rfl⟩, hlt⟩, -⟩
    · exact ⟨stat, hmem, Or.inr hcur⟩
    · exact ⟨stat, hmem, Or.inl hlt⟩
  | first =>
    obtain ⟨⟨stat, hmem, -⟩, -⟩ := h
    exact List.ne_nil_of_mem hmem
  | last =>
    obtain ⟨⟨stat, hmem, -⟩, -⟩ := h
    exact List.ne_nil_of_mem hmem

theorem HasChoice.ne_nil (h : HasChoice stats curSlice istat op) : stats ≠ [] := by
  unfold HasChoice at h
  cases op with
  | next | prev =>
    obtain ⟨stat, hmem, -⟩ := h
    exact List.ne_nil_of_mem hmem
  | first | last => exact h

theorem HasChoice.of_perm (h : HasChoice stats curSlice istat op) (hp : order.Perm stats) :
    HasChoice order curSlice istat op := by
  have hne := h.ne_nil
  unfold HasChoice at h ⊢
  cases op with
  | next | prev =>
    obtain ⟨stat, hmem, hstat⟩ := h
    exact ⟨stat, hp.mem_iff.mpr hmem, hstat⟩
  | first | last =>
    rintro rfl
    exact hne (List.nil_perm.mp hp)

theorem serverOfSlice_zero (md : Mdhim) (hne : stats ≠ []) :
    serverOfSlice md stats 0 = getRangeServerBySlice md 0 := by
  unfold serverOfSlice
  rw [if_neg hne, if_neg (by decide)]

/-- Without a slice to ask for, the operation goes to the server of slice 0. -/
theorem getRangeServerBySlice_of_choosesSlice {md : Mdhim}
    (hd : HashTable.Distinct MdhimStat.key stats) (hne : stats ≠ [])
    (hnone : ¬ HasChoice stats curSlice istat op) (h : ChoosesSlice md stats curSlice istat op) :
    getRangeServerBySlice md 0 = none := by
  rcases getSliceFromIstat_spec hd hne curSlice istat op with ⟨hsome, -⟩ | ⟨-, hzero⟩
  · exact absurd hsome hnone
  · have hserver := (h stats (List.Perm.refl _)).2 fun slice hs => hnone (hasChoice_of_isChosen hs)
    rwa [hzero, serverOfSlice_zero md hne] at hserver

theorem getRangeServerFromStats_of_no_choice {o : IntOptions} (md : Mdhim)
    (hd : HashTable.Distinct MdhimStat.key stats) (hne : stats ≠ []) (key : IntKey o)
    (hkey : getSliceNum md.opts (some (keyBytes key)) ≠ mdhimError)
    (hnone : ¬ HasChoice stats (getSliceNum md.opts (some (keyBytes key))) key op) :
    getRangeServerFromStats md stats (some key) op = getRangeServerBySlice md 0 := by
  rw [getRangeServerFromStats_eq, if_neg hkey]
  rcases getSliceFromIstat_spec hd hne _ _ op with ⟨hsome, -⟩ | ⟨-, hzero⟩
  · exact absurd hsome hnone
  · rw [hzero, serverOfSlice_zero md hne]

/-- An operation gets its slice exactly if the statistics are empty, or have such a slice, or slice 0
has no server. -/
theorem choosesSlice_iff (md : Mdhim) (hd : HashTable.Distinct MdhimStat.key stats) (curSlice : ℤ)
    (istat : ℕ) (op : CursorOp) :
    ChoosesSlice md stats curSlice istat op ↔
      stats = [] ∨ HasChoice stats curSlice istat op ∨ getRangeServerBySlice md 0 = none := by
  constructor
  · intro h
    by_cases hne : stats = []
    · exact Or.inl hne
    · by_cases hsome : HasChoice stats curSlice istat op
      · exact Or.inr (Or.inl hsome)
      · exact Or.inr (Or.inr (getRangeServerBySlice_of_choosesSlice hd hne hsome h))
  · intro h order hperm
    by_cases hempty : order = []
    · have hstats : stats = [] := List.nil_perm.mp (hempty ▸ hperm)
      refine ⟨fun slice hs => ?_, fun _ => by rw [serverOfSlice, if_pos hempty]⟩
      exact absurd hstats (hasChoice_of_isChosen hs).ne_nil
    · have hdo : HashTable.Distinct MdhimStat.key order := (hperm.map _).nodup_iff.mpr hd
      rcases getSliceFromIstat_spec hdo hempty curSlice istat op with
        ⟨-, hchosen⟩ | ⟨hnone, hzero⟩
      · rw [isChosen_of_perm hperm] at hchosen
        exact ⟨fun slice hs => hchosen.unique hs, fun hno => absurd hchosen (hno _)⟩
      · have hnot : ∀ slice, ¬ IsChosen stats curSlice istat op slice := fun slice hs =>
          hnone (hasChoice_of_isChosen ((isChosen_of_perm hperm slice).mpr hs))
        refine ⟨fun slice hs => absurd hs (hnot slice), fun _ => ?_⟩
        rw [hzero, serverOfSlice_zero md hempty]
        rcases h with hstats | hsome | hserver
        · exact absurd (List.perm_nil.mp (hstats ▸ hperm)) hempty
        · exact absurd (hsome.of_perm hperm) hnone
        · exact hserver

/-- From the last key of slice 0, the next slice is slice 3. -/
theorem choosesSlice_iff_two_slices :
    let o : IntOptions := ⟨⟨.int, 1, 10, by decide, by decide, by decide⟩, Or.inl rfl⟩
    ∃ md, mdhimInit o.toMdhimOptions 2 0 = some md ∧
      ChoosesSlice md [⟨3, 38, 31, 2⟩, ⟨0, 5, 1, 2⟩] 0 5 .next := by
  intro o
  refine ⟨_, mdhimInit_eq (by decide) 0, ?_⟩
  refine (choosesSlice_iff _ (by decide) 0 5 .next).mpr (Or.inr (Or.inl ?_))
  exact ⟨⟨3, 38, 31, 2⟩, by decide, Or.inl (by decide)⟩

/-- There is no slice after the last key of the only slice, and the value for that is slice 0, which
has a server. -/
theorem not_choosesSlice_no_next :
    let o : IntOptions := ⟨⟨.int, 1, 10, by decide, by decide, by decide⟩, Or.inl rfl⟩
    ∃ md, mdhimInit o.toMdhimOptions 2 0 = some md ∧
      ¬ ChoosesSlice md [⟨0, 5, 1, 2⟩] 0 5 .next := by
  intro o
  refine ⟨_, mdhimInit_eq (by decide) 0, fun h => ?_⟩
  have hnone : ¬ HasChoice [⟨0, 5, 1, 2⟩] 0 5 .next := by
    rintro ⟨stat, hmem, hstat⟩
    rw [List.mem_singleton.mp hmem] at hstat
    exact absurd hstat (by decide)
  exact absurd (getRangeServerBySlice_of_choosesSlice (by decide) (by decide) hnone h) (by decide)

end MpiToShmem
