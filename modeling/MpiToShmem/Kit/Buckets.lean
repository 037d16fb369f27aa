import Mathlib.Data.List.AList
import Mathlib.Logic.Function.Basic

/-!
# Chained hash tables

An array of chains, with the chain of a key given by a hash function. A chain has no key twice.

1. `lookup`, `update`, `insert` and `remove` walk the chain of their key.
2. `lookup_of_update`, `lookup_insert` and `lookup_of_remove`: they change the table as a function
   of the key, whatever the hash function and the number of buckets.
-/

namespace Kit

variable {κ ν : Type*} [DecidableEq κ]

/-! ## Chains -/

theorem dlookup_kreplace {k k' : κ} {v : ν} (l : List (Sigma fun _ : κ => ν)) :
    (l.kreplace k v).dlookup k' = if k' = k ∧ k ∈ l.keys then some v else l.dlookup k' := by
  induction l with
  | nil => simp [List.kreplace]
  | cons e l ih =>
    obtain ⟨a, b⟩ := e
    unfold List.kreplace at ih ⊢
    by_cases ha : k = a
    · subst ha
      rw [List.lookmap_cons_some _ l (if_pos rfl)]
      by_cases hk : k' = k
      · subst hk
        rw [List.dlookup_cons_eq, if_pos ⟨rfl, List.mem_cons_self⟩]
      · rw [List.dlookup_cons_ne _ _ hk, if_neg fun h => hk h.1, List.dlookup_cons_ne _ _ hk]
    · rw [List.lookmap_cons_none _ l (if_neg ha)]
      by_cases hk : k' = a
      · subst hk
        rw [List.dlookup_cons_eq, if_neg fun h => ha h.1.symm, List.dlookup_cons_eq]
      · rw [List.dlookup_cons_ne _ _ hk, ih, List.dlookup_cons_ne _ _ hk]
        have hmem : k ∈ List.keys (⟨a, b⟩ :: l) ↔ k ∈ l.keys := by
          rw [List.keys_cons, List.mem_cons]
          exact or_iff_right ha
        exact if_congr (and_congr_right fun _ => hmem.symm) rfl rfl

theorem lookup_replace {s : AList fun _ : κ => ν} {k : κ} (hk : k ∈ s) (v : ν) (k' : κ) :
    (s.replace k v).lookup k' = if k' = k then some v else s.lookup k' := by
  refine (dlookup_kreplace s.entries).trans ?_
  have hmem : k' = k ∧ k ∈ s.entries.keys ↔ k' = k := and_iff_left hk
  rw [if_congr hmem rfl rfl]
  rfl

/-! ## Tables -/

/-- A table of `size` chains. -/
structure Buckets (κ ν : Type*) where
  size : ℕ
  size_pos : 0 < size
  hashfunc : κ → ℕ
  nodes : Fin size → AList fun _ : κ => ν

namespace Buckets

def create (size : ℕ) (size_pos : 0 < size) (hashfunc : κ → ℕ) : Buckets κ ν :=
  ⟨size, size_pos, hashfunc, fun _ => ∅⟩

variable (t : Buckets κ ν) (k : κ) (v : ν)

/-- The bucket of a key. -/
def hash : Fin t.size := ⟨t.hashfunc k % t.size, Nat.mod_lt _ t.size_pos⟩

/-- The table with another chain for the bucket of `k`. -/
def setChain (s : AList fun _ : κ => ν) : Buckets κ ν :=
  { t with nodes := Function.update t.nodes (t.hash k) s }

/-- The data of a key. -/
def lookup : Option ν := (t.nodes (t.hash k)).lookup k

/-- New data for a key that is there. -/
def update : Option (Buckets κ ν) :=
  let s := t.nodes (t.hash k)
  if k ∈ s then some (t.setChain k (s.replace k v)) else none

/-- New data for a key, at the head of its chain if it is not there. -/
def insert : Buckets κ ν :=
  let s := t.nodes (t.hash k)
  t.setChain k (if k ∈ s then s.replace k v else s.insert k v)

/-- The table without a key that is there. -/
def remove : Option (Buckets κ ν) :=
  let s := t.nodes (t.hash k)
  if k ∈ s then some (t.setChain k (s.erase k)) else none

variable {t k v} {t' : Buckets κ ν}

@[simp] theorem lookup_create {size : ℕ} {size_pos : 0 < size} {hashfunc : κ → ℕ} :
    (create size size_pos hashfunc : Buckets κ ν).lookup k = none := rfl

theorem mem_iff_lookup : k ∈ t.nodes (t.hash k) ↔ t.lookup k ≠ none := by
  unfold lookup
  rw [Ne, AList.lookup_eq_none, not_not]

/-- A chain that differs at `k` only. -/
theorem lookup_setChain {s : AList fun _ : κ => ν} {o : Option ν}
    (hs : ∀ k', s.lookup k' = if k' = k then o else (t.nodes (t.hash k)).lookup k') :
    (t.setChain k s).lookup = Function.update t.lookup k o := by
  funext k'
  have hhash : (t.setChain k s).hash k' = t.hash k' := rfl
  unfold lookup
  rw [hhash]
  unfold setChain
  dsimp only
  by_cases hb : t.hash k' = t.hash k
  · rw [hb, Function.update_self, hs]
    by_cases hk : k' = k
    · subst hk
      rw [if_pos rfl, Function.update_self]
    · rw [if_neg hk, Function.update_of_ne hk, hb]
  · have hk : k' ≠ k := fun hk => hb (by rw [hk])
    rw [Function.update_of_ne hb, Function.update_of_ne hk]

theorem update_eq_none : t.update k v = none ↔ t.lookup k = none := by
  unfold update
  rw [ite_eq_right_iff, mem_iff_lookup]
  simp

theorem lookup_of_update (h : t.update k v = some t') :
    t'.lookup = Function.update t.lookup k (some v) := by
  unfold update at h
  dsimp only at h
  split_ifs at h with hk
  obtain rfl := Option.some.inj h
  exact lookup_setChain (lookup_replace hk v)

theorem lookup_insert : (t.insert k v).lookup = Function.update t.lookup k (some v) := by
  unfold insert
  dsimp only
  apply lookup_setChain
  intro k'
  by_cases hk : k ∈ t.nodes (t.hash k)
  · rw [if_pos hk, lookup_replace hk]
  · rw [if_neg hk]
    by_cases hk' : k' = k
    · subst hk'
      rw [AList.lookup_insert, if_pos rfl]
    · rw [AList.lookup_insert_ne hk', if_neg hk']

theorem remove_eq_none : t.remove k = none ↔ t.lookup k = none := by
  unfold remove
  rw [ite_eq_right_iff, mem_iff_lookup]
  simp

theorem lookup_of_remove (h : t.remove k = some t') :
    t'.lookup = Function.update t.lookup k none := by
  unfold remove at h
  dsimp only at h
  split_ifs at h with hk
  obtain rfl := Option.some.inj h
  apply lookup_setChain
  intro k'
  by_cases hk' : k' = k
  · subst hk'
    rw [AList.lookup_erase, if_pos rfl]
  · rw [AList.lookup_erase_ne hk', if_neg hk']

end Buckets

end Kit
