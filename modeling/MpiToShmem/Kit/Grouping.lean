import Mathlib.Data.List.Induction
import Mathlib.Data.List.Nodup
import Mathlib.Data.List.Perm.Basic
import Mathlib.Data.List.ReduceOption
import Mathlib.Logic.Function.Basic
import Mathlib.Tactic.Common

/-!
# Grouping records by destination

Records are taken one by one, and each joins the group of its destination, which is created for its
first record. A record without a destination joins none.

1. `groups_eq`: the group of a destination is built from the records for it, in order.
2. `perm_flatMap_recordsFor`: over all destinations these are the records that have one, each once.
3. `nodup_map_reduceOption`: the occupied entries of an array with one entry for each destination.
-/

namespace Kit

variable {R D M : Type*} [DecidableEq D] (dest : R → Option D) (create : D → M) (push : M → R → M)

/-- One record joins its group. -/
def joinGroup (f : D → Option M) (r : R) : D → Option M :=
  match dest r with
  | none => f
  | some d => Function.update f d (some (push ((f d).getD (create d)) r))

/-- The groups of all records. -/
def groups (recs : List R) : D → Option M :=
  recs.foldl (joinGroup dest create push) fun _ => none

/-- The records for a destination, in order. -/
def recordsFor (recs : List R) (d : D) : List R := recs.filter fun r => dest r = some d

variable {dest create push} {recs : List R} {d : D} {r : R}

theorem mem_recordsFor : r ∈ recordsFor dest recs d ↔ r ∈ recs ∧ dest r = some d := by
  simp [recordsFor]

theorem recordsFor_concat_of_eq (h : dest r = some d) :
    recordsFor dest (recs ++ [r]) d = recordsFor dest recs d ++ [r] := by
  simp [recordsFor, h]

theorem recordsFor_concat_of_ne (h : dest r ≠ some d) :
    recordsFor dest (recs ++ [r]) d = recordsFor dest recs d := by
  simp [recordsFor, h]

theorem groups_concat : groups dest create push (recs ++ [r]) =
    joinGroup dest create push (groups dest create push recs) r := by
  rw [groups, List.foldl_append]
  rfl

/-- A group holds the records for its destination, and there is none without records. -/
theorem groups_eq (recs : List R) (d : D) : groups dest create push recs d =
    if recordsFor dest recs d = [] then none
    else some ((recordsFor dest recs d).foldl push (create d)) := by
  induction recs using List.reverseRecOn with
  | nil => rfl
  | append_singleton recs r ih =>
    rw [groups_concat, joinGroup]
    cases hr : dest r with
    | none =>
      dsimp only
      rw [recordsFor_concat_of_ne (by rw [hr]; simp), ih]
    | some d' =>
      dsimp only
      by_cases hd : d = d'
      · subst hd
        rw [Function.update_self, recordsFor_concat_of_eq hr, if_neg (by simp), List.foldl_append, ih]
        split_ifs with hnil
        · rw [hnil]
          rfl
        · rfl
      · rw [Function.update_of_ne hd, ih, recordsFor_concat_of_ne]
        rw [hr]
        simpa using Ne.symm hd

/-- The records for one destination are not among those for the others. -/
theorem recordsFor_filter_ne {d' : D} (h : d' ≠ d) (recs : List R) :
    recordsFor dest (recs.filter fun r => ¬ dest r = some d) d' = recordsFor dest recs d' := by
  unfold recordsFor
  rw [List.filter_filter]
  apply List.filter_congr
  intro r _
  by_cases hr : dest r = some d'
  · simp [hr, h]
  · simp [hr]

/-- The records with a destination are those for `d` and those for another one. -/
theorem perm_recordsFor_append (recs : List R) (d : D) :
    (recordsFor dest recs d ++
      (recs.filter fun r => ¬ dest r = some d).filter fun r => (dest r).isSome).Perm
    (recs.filter fun r => (dest r).isSome) := by
  have hhead : recordsFor dest recs d =
      (recs.filter fun r => (dest r).isSome).filter fun r => dest r = some d := by
    unfold recordsFor
    rw [List.filter_filter]
    apply List.filter_congr
    intro r _
    by_cases hr : dest r = some d <;> simp [hr]
  have htail : (recs.filter fun r => ¬ dest r = some d).filter (fun r => (dest r).isSome) =
      (recs.filter fun r => (dest r).isSome).filter fun r => !decide (dest r = some d) := by
    rw [List.filter_filter, List.filter_filter]
    apply List.filter_congr
    intro r _
    by_cases hr : dest r = some d <;> simp [hr]
  rw [hhead, htail]
  exact List.filter_append_perm _ _

/-- The records for several destinations, each record once. -/
theorem perm_flatMap_recordsFor {ds : List D} (hds : ds.Nodup)
    (hcover : ∀ r ∈ recs, ∀ d, dest r = some d → d ∈ ds) :
    (ds.flatMap (recordsFor dest recs)).Perm (recs.filter fun r => (dest r).isSome) := by
  induction ds generalizing recs with
  | nil =>
    have hnil : recs.filter (fun r => (dest r).isSome) = [] := by
      rw [List.filter_eq_nil_iff]
      intro r hr hsome
      obtain ⟨d, hd⟩ := Option.isSome_iff_exists.mp hsome
      cases hcover r hr d hd
    rw [hnil]
    exact .nil
  | cons d ds ih =>
    obtain ⟨hnot, hds⟩ := List.nodup_cons.mp hds
    -- the records with another destination are those of the other groups
    have hrest := @ih (recs.filter fun r => ¬ dest r = some d) hds (by
      intro r hr d' hd'
      obtain ⟨hmem, hne⟩ := List.mem_filter.mp hr
      rcases List.mem_cons.mp (hcover r hmem d' hd') with rfl | h
      · simp [hd'] at hne
      · exact h)
    have hsame : ds.flatMap (recordsFor dest (recs.filter fun r => ¬ dest r = some d)) =
        ds.flatMap (recordsFor dest recs) := by
      apply List.flatMap_congr
      intro d' hd'
      have hne : d' ≠ d := fun e => hnot (e ▸ hd')
      exact recordsFor_filter_ne hne recs
    rw [hsame] at hrest
    rw [List.flatMap_cons]
    exact (List.Perm.append_left _ hrest).trans (perm_recordsFor_append recs d)

omit [DecidableEq D] in
/-- Where a name tells the place of an entry, no two entries of an array have one name. -/
theorem nodup_map_reduceOption {l : List (Option M)} {name : M → D}
    (h : ∀ (i j : ℕ) (m m' : M), l[i]? = some (some m) → l[j]? = some (some m') →
      name m = name m' → i = j) :
    (l.reduceOption.map name).Nodup := by
  have hpair : l.Pairwise fun a b => ∀ m, a = some m → ∀ m', b = some m' → name m ≠ name m' := by
    rw [List.pairwise_iff_getElem]
    intro i j hi hj hij m hm m' hm' heq
    have hij' := h i j m m' (by rw [List.getElem?_eq_getElem hi, hm])
      (by rw [List.getElem?_eq_getElem hj, hm']) heq
    omega
  rw [List.Nodup, List.pairwise_map, List.reduceOption]
  exact hpair.filterMap id fun a b hab m hm m' hm' => hab m hm m' hm'

end Kit
