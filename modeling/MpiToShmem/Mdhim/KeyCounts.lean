import MpiToShmem.Mdhim.StatsExact

/-!
# Counting many keys

What `update_all_stats` makes of the statistics when it is called for one key after the other. The
entry of a slice grows by the keys of that slice only (`find_countKeys`): its count by their number,
and its limits are the least and the greatest of the old limits and their numbers
(`growStat_spec`).
-/

namespace MpiToShmem

open Kit

variable {K S : Type} [LinearOrder S] (κ : Keying K S)

/-- `update_all_stats` for each of the keys. -/
def countKeys (stats : List (MdhimStat S)) (keys : List K) : List (MdhimStat S) :=
  keys.foldl (updateAllStats κ) stats

/-- The entry of a slice after keys of this slice are counted. -/
def growStat (os : Option (MdhimStat S)) (keys : List K) : Option (MdhimStat S) :=
  keys.foldl (fun os key => some (newStat κ key os)) os

/-- The old least number of a slice, if any, and the numbers of the keys. -/
def lows (os : Option (MdhimStat S)) (keys : List K) : Set S :=
  {v | (∃ stat ∈ os, v = stat.min) ∨ ∃ k ∈ keys, v = κ.stat k}

/-- The old greatest number of a slice, if any, and the numbers of the keys. -/
def highs (os : Option (MdhimStat S)) (keys : List K) : Set S :=
  {v | (∃ stat ∈ os, v = stat.max) ∨ ∃ k ∈ keys, v = κ.stat k}

variable {κ} {stats : List (MdhimStat S)} {os : Option (MdhimStat S)} {keys ls : List K} {key : K}
  {slice : ℤ}

theorem distinct_countKeys (hd : HashTable.Distinct MdhimStat.key stats) :
    HashTable.Distinct MdhimStat.key (countKeys κ stats keys) := by
  induction keys generalizing stats with
  | nil => exact hd
  | cons key keys ih => exact ih (distinct_updateAllStats hd)

/-- The keys of a slice change the entry of that slice. -/
theorem find_countKeys (hd : HashTable.Distinct MdhimStat.key stats) (slice : ℤ) :
    HashTable.find MdhimStat.key (countKeys κ stats keys) slice =
      growStat κ (HashTable.find MdhimStat.key stats slice)
        (keys.filter fun k => κ.slice k = slice) := by
  induction keys generalizing stats with
  | nil => rfl
  | cons key keys ih =>
    have hstep : countKeys κ stats (key :: keys) = countKeys κ (updateAllStats κ stats key) keys :=
      rfl
    rw [hstep, ih (distinct_updateAllStats hd), find_updateAllStats hd]
    by_cases hk : κ.slice key = slice
    · rw [if_pos hk.symm, List.filter_cons_of_pos (by simpa using hk), hk]
      rfl
    · rw [if_neg (Ne.symm hk), List.filter_cons_of_neg (by simpa using hk)]

omit [LinearOrder S] in
theorem lows_nil : lows κ os ([] : List K) = {v | ∃ stat ∈ os, v = stat.min} := by
  ext v
  simp [lows]

omit [LinearOrder S] in
theorem highs_nil : highs κ os ([] : List K) = {v | ∃ stat ∈ os, v = stat.max} := by
  ext v
  simp [highs]

omit [LinearOrder S] in
theorem lows_mono (h : ∀ k ∈ keys, k ∈ ls) : lows κ os keys ⊆ lows κ os ls := by
  rintro v (hv | ⟨k, hk, rfl⟩)
  · exact Or.inl hv
  · exact Or.inr ⟨k, h k hk, rfl⟩

omit [LinearOrder S] in
theorem highs_mono (h : ∀ k ∈ keys, k ∈ ls) : highs κ os keys ⊆ highs κ os ls := by
  rintro v (hv | ⟨k, hk, rfl⟩)
  · exact Or.inl hv
  · exact Or.inr ⟨k, h k hk, rfl⟩

/-- One more key takes part in the least number either way: before the entry grows, or in it. -/
theorem isLeast_lows_newStat {v : S} (h : IsLeast (lows κ (some (newStat κ key os)) keys) v) :
    IsLeast (lows κ os (key :: keys)) v := by
  have hmem : ∀ {u}, u ∈ lows κ (some (newStat κ key os)) keys → u ∈ lows κ os (key :: keys) := by
    rintro u (⟨stat, hstat, rfl⟩ | ⟨k, hk, rfl⟩)
    · rw [Option.mem_some_iff] at hstat
      subst hstat
      cases os with
      | none => exact Or.inr ⟨key, List.mem_cons_self, rfl⟩
      | some o =>
        show (if o.min > κ.stat key then κ.stat key else o.min) ∈ _
        split_ifs
        · exact Or.inr ⟨key, List.mem_cons_self, rfl⟩
        · exact Or.inl ⟨o, rfl, rfl⟩
    · exact Or.inr ⟨k, List.mem_cons_of_mem _ hk, rfl⟩
  have hnew : v ≤ (newStat κ key os).min := h.2 (Or.inl ⟨_, rfl, rfl⟩)
  refine ⟨hmem h.1, ?_⟩
  rintro u (⟨o, ho, rfl⟩ | ⟨k, hk, rfl⟩)
  · rw [Option.mem_def] at ho
    subst ho
    exact hnew.trans (newStat_min_le_old o)
  · rcases List.mem_cons.mp hk with rfl | hk
    · exact hnew.trans (newStat_min_le os)
    · exact h.2 (Or.inr ⟨k, hk, rfl⟩)

theorem isGreatest_highs_newStat {v : S} (h : IsGreatest (highs κ (some (newStat κ key os)) keys) v) :
    IsGreatest (highs κ os (key :: keys)) v := by
  have hmem : ∀ {u}, u ∈ highs κ (some (newStat κ key os)) keys → u ∈ highs κ os (key :: keys) := by
    rintro u (⟨stat, hstat, rfl⟩ | ⟨k, hk, rfl⟩)
    · rw [Option.mem_some_iff] at hstat
      subst hstat
      cases os with
      | none => exact Or.inr ⟨key, List.mem_cons_self, rfl⟩
      | some o =>
        show (if o.max < κ.stat key then κ.stat key else o.max) ∈ _
        split_ifs
        · exact Or.inr ⟨key, List.mem_cons_self, rfl⟩
        · exact Or.inl ⟨o, rfl, rfl⟩
    · exact Or.inr ⟨k, List.mem_cons_of_mem _ hk, rfl⟩
  have hnew : (newStat κ key os).max ≤ v := h.2 (Or.inl ⟨_, rfl, rfl⟩)
  refine ⟨hmem h.1, ?_⟩
  rintro u (⟨o, ho, rfl⟩ | ⟨k, hk, rfl⟩)
  · rw [Option.mem_def] at ho
    subst ho
    exact (old_le_newStat_max o).trans hnew
  · rcases List.mem_cons.mp hk with rfl | hk
    · exact (newStat_le_max os).trans hnew
    · exact h.2 (Or.inr ⟨k, hk, rfl⟩)

/-- What an entry is once the keys are counted; there is none if there was none and no key. -/
structure Grown (κ : Keying K S) (os : Option (MdhimStat S)) (keys : List K) (slice : ℤ)
    (stat : MdhimStat S) : Prop where
  key : stat.key = slice
  num : stat.num = (os.elim 0 MdhimStat.num) + keys.length
  min : IsLeast (lows κ os keys) stat.min
  max : IsGreatest (highs κ os keys) stat.max

theorem growStat_spec (hos : ∀ o ∈ os, o.key = slice) (hkeys : ∀ k ∈ keys, κ.slice k = slice) :
    (growStat κ os keys = none ∧ os = none ∧ keys = []) ∨
      ∃ stat, growStat κ os keys = some stat ∧ Grown κ os keys slice stat := by
  induction keys generalizing os with
  | nil =>
    cases os with
    | none => exact Or.inl ⟨rfl, rfl, rfl⟩
    | some o =>
      refine Or.inr ⟨o, rfl, hos o rfl, rfl, ?_, ?_⟩
      · rw [lows_nil]
        simp
      · rw [highs_nil]
        simp
  | cons key keys ih =>
    right
    have hkey : κ.slice key = slice := hkeys key List.mem_cons_self
    have hnew : ∀ o ∈ some (newStat κ key os), o.key = slice := by
      rintro o ho
      rw [Option.mem_some_iff] at ho
      rw [← ho, newStat_key, hkey]
    rcases ih hnew (fun k hk => hkeys k (List.mem_cons_of_mem _ hk)) with h | ⟨stat, hstat, hgrown⟩
    · cases h.2.1
    · refine ⟨stat, hstat, hgrown.key, ?_, isLeast_lows_newStat hgrown.min,
        isGreatest_highs_newStat hgrown.max⟩
      rw [hgrown.num, List.length_cons]
      cases os with
      | none => simp only [newStat, Option.elim_some, Option.elim_none]; omega
      | some o => simp only [newStat, Option.elim_some]; omega

/-- When two lists of keys of a slice, one of them with all the keys of the other, make the same of
an entry: they are equally long, and no key of the larger set is outside the limits that the smaller
one sets. -/
theorem growStat_eq_iff (hos : ∀ o ∈ os, o.key = slice) (hkeys : ∀ k ∈ keys, κ.slice k = slice)
    (hls : ∀ k ∈ ls, κ.slice k = slice) (hsub : ∀ k ∈ keys, k ∈ ls) :
    growStat κ os keys = growStat κ os ls ↔ keys.length = ls.length ∧
      ∀ k ∈ ls, (∃ v ∈ lows κ os keys, v ≤ κ.stat k) ∧ ∃ v ∈ highs κ os keys, κ.stat k ≤ v := by
  rcases growStat_spec hos hkeys with ⟨hnone, rfl, rfl⟩ | ⟨a, ha, hga⟩
  · rcases growStat_spec hos hls with ⟨hnone', -, rfl⟩ | ⟨b, hb, hgb⟩
    · simp
    · have hne : ls ≠ [] := by
        rintro rfl
        cases hb
      rw [hnone, hb]
      simp [eq_comm, hne]
  · rcases growStat_spec hos hls with ⟨hnone', rfl, rfl⟩ | ⟨b, hb, hgb⟩
    · have hnil : keys = [] := List.eq_nil_iff_forall_not_mem.mpr fun k hk => by cases hsub k hk
      subst hnil
      simp
    · rw [ha, hb, Option.some.injEq]
      constructor
      · rintro rfl
        refine ⟨?_, fun k hk => ?_⟩
        · have := hga.num
          rw [hgb.num] at this
          omega
        · exact ⟨⟨a.min, hga.min.1, hgb.min.2 (Or.inr ⟨k, hk, rfl⟩)⟩,
            ⟨a.max, hga.max.1, hgb.max.2 (Or.inr ⟨k, hk, rfl⟩)⟩⟩
      · rintro ⟨hlen, hlimits⟩
        have hmin : a.min = b.min := by
          refine le_antisymm ?_ (hgb.min.2 (lows_mono hsub hga.min.1))
          rcases hgb.min.1 with hold | ⟨k, hk, hbk⟩
          · exact hga.min.2 (Or.inl hold)
          · obtain ⟨v, hv, hle⟩ := (hlimits k hk).1
            exact (hga.min.2 hv).trans (hbk ▸ hle)
        have hmax : a.max = b.max := by
          refine le_antisymm (hgb.max.2 (highs_mono hsub hga.max.1)) ?_
          rcases hgb.max.1 with hold | ⟨k, hk, hbk⟩
          · exact hga.max.2 (Or.inl hold)
          · obtain ⟨v, hv, hle⟩ := (hlimits k hk).2
            exact (hbk ▸ hle).trans (hga.max.2 hv)
        ext
        · rw [hga.key, hgb.key]
        · exact hmax
        · exact hmin
        · rw [hga.num, hgb.num, hlen]

end MpiToShmem
