import MpiToShmem.Mdhim.SliceOrder
import MpiToShmem.Mdhim.KeyCounts
import MpiToShmem.Mdhim.Cursor

/-!
# Slices of string keys from the statistics

`get_slice_from_fstat` stays in the slice of a key when the statistics of the slice have a number
beyond that of the key, and otherwise goes to the next slice that has statistics, or to slice 0 if
there is none.

1. `sliceFromStat_next`, `sliceFromStat_prev`: when it stays, for keys of any type.
2. `picks_iff`: for string keys it should stay when there is a key beyond. It does, except that
   `'0'`s behind a key do not change its number, and that slice 0 also says that there is no slice.
-/

namespace MpiToShmem

open Kit

/-! ## Staying in a slice -/

section Stay

variable {K S : Type} [LinearOrder S]

/-- `get_slice_from_fstat` and `get_slice_from_istat`, which differ in the type of the numbers. -/
def getSliceFromStat (stats : List (MdhimStat S)) (curSlice : ℤ) (num : S) (op : CursorOp) : ℤ :=
  let found (newStat : Option (MdhimStat S)) : ℤ := (newStat.map MdhimStat.key).getD 0
  if stats = [] then 0
  else
    let curStat := HashTable.find MdhimStat.key stats curSlice
    match op with
    | .next =>
      if ∃ stat ∈ curStat, stat.max > num then curSlice
      else found (getNextSliceStat stats curSlice)
    | .prev =>
      if ∃ stat ∈ curStat, stat.min < num then curSlice
      else found (getPrevSliceStat stats curSlice)
    | .first => found (getFirstSliceStat stats)
    | .last => found (getLastSliceStat stats)

theorem getSliceFromIstat_eq (stats : List (MdhimStat ℕ)) (curSlice : ℤ) (istat : ℕ)
    (op : CursorOp) :
    getSliceFromIstat stats curSlice istat op = getSliceFromStat stats curSlice istat op := by
  have hfound : ∀ stat : Option (MdhimStat ℕ), foundSlice stat = (stat.map MdhimStat.key).getD 0 := by
    rintro (_ | stat)
    · rfl
    · rfl
  refine ite_congr rfl (fun _ => rfl) fun _ => ?_
  cases op with
  | next => exact ite_congr rfl (fun _ => rfl) fun _ => hfound _
  | prev => exact ite_congr rfl (fun _ => rfl) fun _ => hfound _
  | first => exact hfound _
  | last => exact hfound _

variable {κ : Keying K S} {stats : List (MdhimStat S)} {keys : List K} {slice : ℤ}

/-- Keys of a slice leave the entries of the others alone. -/
theorem mem_countKeys_iff (hd : HashTable.Distinct MdhimStat.key stats)
    (hkeys : ∀ k ∈ keys, κ.slice k = slice) {stat : MdhimStat S} (hne : stat.key ≠ slice) :
    stat ∈ countKeys κ stats keys ↔ stat ∈ stats := by
  have hnone : keys.filter (fun k => κ.slice k = stat.key) = [] := by
    refine List.filter_eq_nil_iff.mpr fun k hk => ?_
    rw [decide_eq_true_eq, hkeys k hk]
    exact hne.symm
  have hfind : HashTable.find MdhimStat.key (countKeys κ stats keys) stat.key =
      HashTable.find MdhimStat.key stats stat.key := by
    rw [find_countKeys hd, hnone]
    rfl
  constructor
  · intro hmem
    have hnew := (HashTable.find_eq_some (distinct_countKeys hd)).mpr ⟨hmem, rfl⟩
    rw [hfind] at hnew
    exact (HashTable.find_some hnew).1
  · intro hmem
    have hold := (HashTable.find_eq_some hd).mpr ⟨hmem, rfl⟩
    rw [← hfind] at hold
    exact (HashTable.find_some hold).1

section

variable (hd : HashTable.Distinct MdhimStat.key stats)
  (hnone : HashTable.find MdhimStat.key stats slice = none) (hkeys : ∀ k ∈ keys, κ.slice k = slice)

include hd hnone hkeys

/-- Another slice is picked, which is this one only if it is slice 0 and no other one qualifies. -/
theorem picked_eq_iff (among : ℤ → Prop) (hself : ¬ among slice) {picked : Option (MdhimStat S)}
    (hsome : ∀ best ∈ picked, best ∈ countKeys κ stats keys ∧ among best.key)
    (hnext : picked = none → ∀ stat ∈ countKeys κ stats keys, ¬ among stat.key) :
    (picked.map MdhimStat.key).getD 0 = slice ↔
      slice = 0 ∧ ∀ stat ∈ stats, ¬ among stat.key := by
  have hother : ∀ stat ∈ stats, stat.key ≠ slice := HashTable.find_eq_none.mp hnone
  cases picked with
  | none =>
    rw [Option.map_none, Option.getD_none]
    constructor
    · rintro rfl
      exact ⟨rfl, fun e he => hnext rfl e ((mem_countKeys_iff hd hkeys (hother e he)).mpr he)⟩
    · exact fun h => h.1.symm
  | some best =>
    obtain ⟨hmem, hbest⟩ := hsome best rfl
    have hne : best.key ≠ slice := fun h => hself (h ▸ hbest)
    rw [Option.map_some, Option.getD_some]
    exact iff_of_false hne fun h => h.2 best ((mem_countKeys_iff hd hkeys hne).mp hmem) hbest

variable (hne : keys ≠ [])

include hne

/-- The entry of the slice, whose limits are numbers of keys. -/
theorem exists_stat : ∃ stat, HashTable.find MdhimStat.key (countKeys κ stats keys) slice = some stat ∧
    (∀ num, stat.max > num ↔ ∃ k ∈ keys, num < κ.stat k) ∧
    ∀ num, stat.min < num ↔ ∃ k ∈ keys, κ.stat k < num := by
  have hfilter : keys.filter (fun k => κ.slice k = slice) = keys :=
    List.filter_eq_self.mpr fun k hk => by simpa using hkeys k hk
  rw [find_countKeys hd slice, hnone, hfilter]
  have hold : ∀ o ∈ (none : Option (MdhimStat S)), o.key = slice := fun o ho => by cases ho
  rcases growStat_spec hold hkeys with ⟨-, -, hnil⟩ | ⟨stat, hstat, hg⟩
  · exact absurd hnil hne
  · refine ⟨stat, hstat, fun num => ?_, fun num => ?_⟩
    · constructor
      · intro h
        obtain ⟨o, ho, -⟩ | ⟨k, hk, hmax⟩ := hg.max.1
        · cases ho
        · exact ⟨k, hk, hmax ▸ h⟩
      · rintro ⟨k, hk, h⟩
        exact lt_of_lt_of_le h (hg.max.2 (Or.inr ⟨k, hk, rfl⟩))
    · constructor
      · intro h
        obtain ⟨o, ho, -⟩ | ⟨k, hk, hmin⟩ := hg.min.1
        · cases ho
        · exact ⟨k, hk, hmin ▸ h⟩
      · rintro ⟨k, hk, h⟩
        exact lt_of_le_of_lt (hg.min.2 (Or.inr ⟨k, hk, rfl⟩)) h

/-- The slice of the key is picked when it has a greater number, or when slice 0 is the last. -/
theorem sliceFromStat_next (num : S) :
    getSliceFromStat (countKeys κ stats keys) slice num .next = slice ↔
      (∃ k ∈ keys, num < κ.stat k) ∨ (slice = 0 ∧ ∀ stat ∈ stats, stat.key ≤ 0) := by
  obtain ⟨stat, hfind, hmax, -⟩ := exists_stat hd hnone hkeys hne
  have hnil : countKeys κ stats keys ≠ [] := List.ne_nil_of_mem (HashTable.find_some hfind).1
  have hspec := @getNextSliceStat_spec S (countKeys κ stats keys) slice
  have hpicked : ((getNextSliceStat (countKeys κ stats keys) slice).map MdhimStat.key).getD 0 =
      slice ↔ slice = 0 ∧ ∀ stat ∈ stats, ¬ slice < stat.key := by
    refine picked_eq_iff hd hnone hkeys (fun j => slice < j) (lt_irrefl slice)
      (fun best hbest => ?_) fun hn e he => ?_
    · rw [hbest] at hspec
      exact ⟨hspec.1, hspec.2.1⟩
    · rw [hn] at hspec
      exact not_lt.mpr (hspec e he)
  unfold getSliceFromStat
  simp only [if_neg hnil, hfind, Option.mem_some_iff, exists_eq_left', hmax]
  split_ifs with hgreater
  · exact iff_of_true rfl (Or.inl hgreater)
  · rw [hpicked, or_iff_right hgreater]
    exact and_congr_right fun h => by simp only [h, not_lt]

/-- The same towards smaller numbers. -/
theorem sliceFromStat_prev (num : S) :
    getSliceFromStat (countKeys κ stats keys) slice num .prev = slice ↔
      (∃ k ∈ keys, κ.stat k < num) ∨ (slice = 0 ∧ ∀ stat ∈ stats, 0 ≤ stat.key) := by
  obtain ⟨stat, hfind, -, hmin⟩ := exists_stat hd hnone hkeys hne
  have hnil : countKeys κ stats keys ≠ [] := List.ne_nil_of_mem (HashTable.find_some hfind).1
  have hspec := @getPrevSliceStat_spec S (countKeys κ stats keys) slice
  have hpicked : ((getPrevSliceStat (countKeys κ stats keys) slice).map MdhimStat.key).getD 0 =
      slice ↔ slice = 0 ∧ ∀ stat ∈ stats, ¬ stat.key < slice := by
    refine picked_eq_iff hd hnone hkeys (fun j => j < slice) (lt_irrefl slice)
      (fun best hbest => ?_) fun hn e he => ?_
    · rw [hbest] at hspec
      exact ⟨hspec.1, hspec.2.1⟩
    · rw [hn] at hspec
      exact not_lt.mpr (hspec e he)
  unfold getSliceFromStat
  simp only [if_neg hnil, hfind, Option.mem_some_iff, exists_eq_left', hmin]
  split_ifs with hsmaller
  · exact iff_of_true rfl (Or.inl hsmaller)
  · rw [hpicked, or_iff_right hsmaller]
    exact and_congr_right fun h => by simp only [h, not_lt]

end

end Stay

/-! ## String keys -/

/-- Options with string keys. -/
structure StrOptions extends MdhimOptions where
  isStr : dbKeyType = .string

/-- A string key that `verify_key` accepts. -/
abbrev StrKey (o : StrOptions) : Type :=
  {k : List UInt8 // verifyKey o.toMdhimOptions (some k) = mdhimSuccess}

/-- String keys in the statistics. -/
def strKeying (o : StrOptions) : Keying (StrKey o) ℚ where
  slice k := getSliceNum o.toMdhimOptions (some k.1)
  stat k := getStrNum k.1
  slice_isInt k := by
    rw [getSliceNum_eq k.2, ← wrapInt_natCast (keyNum_div_lt k.2).le]
    exact isInt_wrapInt _

/-- `get_slice_from_fstat`. -/
def getSliceFromFstat (stats : List (MdhimStat ℚ)) (curSlice : ℤ) (fstat : ℚ) (op : CursorOp) : ℤ :=
  getSliceFromStat stats curSlice fstat op

section

variable {o : StrOptions} (stats : List (MdhimStat ℚ)) (keys : List (StrKey o)) (k : StrKey o)

/-- The slice that is picked for a key, after `keys` have been counted. -/
def pickedSlice (op : CursorOp) : ℤ :=
  getSliceFromFstat (countKeys (strKeying o) stats keys) ((strKeying o).slice k) (getStrNum k.1) op

/-- One of the keys is greater. -/
def HasGreater : Prop := ∃ s ∈ keys, strChars k.1 < strChars s.1

/-- One of the keys is smaller. -/
def HasSmaller : Prop := ∃ s ∈ keys, strChars s.1 < strChars k.1

/-- For `MDHIM_GET_NEXT`: behind slice 0, when no higher slice has an entry, there has to be a greater
key; otherwise, if there is one, then one that is not `k` with `'0'`s behind it. -/
def NextTold : Prop :=
  ((strKeying o).slice k = 0 ∧ (∀ stat ∈ stats, stat.key ≤ 0) → HasGreater keys k) ∧
    (¬ ((strKeying o).slice k = 0 ∧ ∀ stat ∈ stats, stat.key ≤ 0) → HasGreater keys k →
      ∃ s ∈ keys, BeforeZeros k.1 s.1)

/-- For `MDHIM_GET_PREV`: the same towards smaller keys. -/
def PrevTold : Prop :=
  ((strKeying o).slice k = 0 ∧ (∀ stat ∈ stats, 0 ≤ stat.key) → HasSmaller keys k) ∧
    (¬ ((strKeying o).slice k = 0 ∧ ∀ stat ∈ stats, 0 ≤ stat.key) → HasSmaller keys k →
      ∃ s ∈ keys, BeforeZeros s.1 k.1)

end

section

variable {o : StrOptions}

theorem strKey_lt_iff (j k : StrKey o) : (strKeying o).stat j < (strKeying o).stat k ↔
    BeforeZeros j.1 k.1 :=
  getStrNum_lt_iff (isSome_of_verifyKey o.isStr j.2) (isSome_of_verifyKey o.isStr k.2)

/-- Staying for one of two reasons is right when one of them is. -/
theorem stays_iff {told last beyond : Prop} (h : told → beyond) :
    ((told ∨ last) ↔ beyond) ↔ (last → beyond) ∧ (¬ last → beyond → told) := by
  tauto

/-- The slice of a key is picked exactly when there is a key beyond, if and only if there is one that
differs by more than `'0'`s behind it, or slice 0 is picked for the lack of another one, with or
without reason. -/
theorem picks_iff {stats : List (MdhimStat ℚ)} (hd : HashTable.Distinct MdhimStat.key stats)
    {keys : List (StrKey o)} (hne : keys ≠ []) (k : StrKey o)
    (hkeys : ∀ s ∈ keys, (strKeying o).slice s = (strKeying o).slice k)
    (hnone : HashTable.find MdhimStat.key stats ((strKeying o).slice k) = none) :
    ((pickedSlice stats keys k .next = (strKeying o).slice k ↔ HasGreater keys k) ↔
        NextTold stats keys k) ∧
      ((pickedSlice stats keys k .prev = (strKeying o).slice k ↔ HasSmaller keys k) ↔
        PrevTold stats keys k) := by
  have hnext := sliceFromStat_next hd hnone hkeys hne (getStrNum k.1)
  have hprev := sliceFromStat_prev hd hnone hkeys hne (getStrNum k.1)
  have hgreater : (∃ s ∈ keys, BeforeZeros k.1 s.1) → HasGreater keys k :=
    fun ⟨s, hs, h⟩ => ⟨s, hs, h.1⟩
  have hsmaller : (∃ s ∈ keys, BeforeZeros s.1 k.1) → HasSmaller keys k :=
    fun ⟨s, hs, h⟩ => ⟨s, hs, h.1⟩
  have hlt (s : StrKey o) : getStrNum k.1 < (strKeying o).stat s ↔ BeforeZeros k.1 s.1 :=
    strKey_lt_iff k s
  have hgt (s : StrKey o) : (strKeying o).stat s < getStrNum k.1 ↔ BeforeZeros s.1 k.1 :=
    strKey_lt_iff s k
  simp only [hlt] at hnext
  simp only [hgt] at hprev
  constructor
  · rw [pickedSlice, getSliceFromFstat, hnext]
    exact stays_iff hgreater
  · rw [pickedSlice, getSliceFromFstat, hprev]
    exact stays_iff hsmaller

/-- `A` is in a slice other than 0. -/
theorem slice_letter (h : verifyKey (⟨.string, 1, 10, by decide, by decide, by decide⟩ : MdhimOptions)
    (some [65]) = mdhimSuccess) :
    (strKeying ⟨⟨.string, 1, 10, by decide, by decide, by decide⟩, rfl⟩).slice ⟨[65], h⟩ ≠ 0 := by
  have hnum : getStrNum [65] = 5 / 32 := by
    have hchars : strChars [65] = [65] := rfl
    have hdigit : charDigit 65 = 10 := by decide
    norm_num [getStrNum_eq, hchars, hdigit, expand, expandFrom, weight, mdhimAlphabetExponent]
  have htotal : totalKeys ⟨.string, 1, 10, by decide, by decide, by decide⟩ = 21474836470 := rfl
  have hfloor : ⌊(5 / 32 : ℚ) * (21474836470 : ℕ)⌋ = 3355443198 := by
    rw [Int.floor_eq_iff]
    norm_num
  have hslice := strSlice_eq rfl h
  rw [hnum, htotal, hfloor] at hslice
  unfold strKeying
  dsimp only
  rw [hslice]
  norm_num

/-- Counting `A` says that nothing is behind it. -/
theorem picks_letter :
    let o : StrOptions := ⟨⟨.string, 1, 10, by decide, by decide, by decide⟩, rfl⟩
    let k : StrKey o := ⟨[65], by decide⟩
    pickedSlice [] [k] k .next = (strKeying o).slice k ↔ HasGreater [k] k := by
  intro o k
  have hself : ∀ s ∈ [k], (strKeying o).slice s = (strKeying o).slice k := by simp
  refine (picks_iff HashTable.distinct_nil (by simp) k hself rfl).1.mpr ⟨?_, fun _ hg => ?_⟩
  · exact fun h => absurd h.1 (slice_letter k.2)
  · obtain ⟨s, hs, hlt⟩ := hg
    rw [List.mem_singleton.mp hs] at hlt
    exact absurd hlt (List.lt_irrefl _)

/-- `A0` is behind `A`, and has the same number. -/
theorem not_picks_zero :
    let o : StrOptions := ⟨⟨.string, 1, 10, by decide, by decide, by decide⟩, rfl⟩
    let k : StrKey o := ⟨[65], by decide⟩
    let s : StrKey o := ⟨[65, 48], by decide⟩
    ¬ (pickedSlice [] [s] k .next = (strKeying o).slice k ↔ HasGreater [s] k) := by
  intro o k s h
  have hnum : getStrNum s.1 = getStrNum k.1 := by
    have hs : strChars s.1 = [65, 48] := rfl
    have hk : strChars k.1 = [65] := rfl
    have hzero : charDigit 48 = 0 := by decide
    simp [getStrNum_eq, hs, hk, hzero, expand, expandFrom]
  have hslice : (strKeying o).slice s = (strKeying o).slice k := by
    have h₁ := strSlice_eq o.isStr s.2
    rw [hnum, ← strSlice_eq o.isStr k.2] at h₁
    exact h₁
  have hgreater : HasGreater [s] k := ⟨s, List.mem_cons_self, by decide⟩
  have hkeys : ∀ r ∈ [s], (strKeying o).slice r = (strKeying o).slice k := by simpa using hslice
  have hpicked := h.mpr hgreater
  rw [pickedSlice, getSliceFromFstat,
    sliceFromStat_next HashTable.distinct_nil rfl hkeys (by simp)] at hpicked
  rcases hpicked with ⟨r, hr, hlt⟩ | ⟨hzero, -⟩
  · rw [List.mem_singleton.mp hr] at hlt
    exact absurd hlt hnum.le.not_gt
  · exact slice_letter k.2 hzero

end

end MpiToShmem
