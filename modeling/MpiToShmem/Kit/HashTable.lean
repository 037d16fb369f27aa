import Mathlib.Data.List.Nodup
import Mathlib.Data.List.Perm.Basic
import Mathlib.Tactic.Common

/-!
# Hash tables of entries that carry their key

An intrusive hash table, as the list of its entries in the order of their insertion. Adding does
not look for an entry with the same key; replacing deletes such an entry and adds at the end.

1. `find_eq_some`: with distinct keys, finding is membership.
2. `find_upsert`: find, then replace or add, updates a table as a function is updated.
3. `find_foldl_upsert`: merging the entries of one table into another.
4. `perm_of_find_eq`: tables with distinct keys that find the same are permutations of each other.
5. `find_map`, `upsert_map`: tables whose entries have other forms.
-/

namespace Kit.HashTable

variable {E κ : Type*}

section Distinct

/-- No two entries have one key. -/
def Distinct (key : E → κ) (l : List E) : Prop := (l.map key).Nodup

variable {key : E → κ} {l : List E}

instance [DecidableEq κ] : Decidable (Distinct key l) := inferInstanceAs (Decidable (List.Nodup _))

theorem distinct_nil : Distinct key ([] : List E) := List.nodup_nil

theorem Distinct.tail {a : E} (h : Distinct key (a :: l)) : Distinct key l :=
  (List.nodup_cons.mp h).2

theorem Distinct.eq_of_key_eq {a b : E} (h : Distinct key l) (ha : a ∈ l) (hb : b ∈ l)
    (hk : key a = key b) : a = b := List.inj_on_of_nodup_map h ha hb hk

end Distinct

variable [DecidableEq κ] (key : E → κ)

/-- The entry with key `k`. -/
def find (l : List E) (k : κ) : Option E := l.find? fun e => key e = k

/-- A new entry, at the end. -/
def add (l : List E) (e : E) : List E := l ++ [e]

/-- The table without the entry with key `k`. -/
def delete (l : List E) (k : κ) : List E := l.eraseP fun e => key e = k

/-- A new entry, at the end, in place of the one with its key. -/
def replace (l : List E) (e : E) : List E := add (delete key l (key e)) e

/-- Replace or add, as the key is there or not. -/
def upsert (l : List E) (e : E) : List E :=
  if (find key l (key e)).isSome then replace key l e else add l e

variable {key} {l : List E} {e : E} {k : κ}

@[simp] theorem find_nil : find key ([] : List E) k = none := rfl

theorem find_some (h : find key l k = some e) : e ∈ l ∧ key e = k :=
  ⟨List.mem_of_find?_eq_some h, by simpa using List.find?_some h⟩

theorem find_eq_some (hd : Distinct key l) : find key l k = some e ↔ e ∈ l ∧ key e = k := by
  refine ⟨find_some, fun ⟨he, hk⟩ => ?_⟩
  cases hf : find key l k with
  | none =>
    unfold find at hf
    rw [List.find?_eq_none] at hf
    exact absurd (decide_eq_true hk) (hf e he)
  | some e' =>
    obtain ⟨he', hk'⟩ := find_some hf
    rw [hd.eq_of_key_eq he' he (hk'.trans hk.symm)]

theorem find_eq_none : find key l k = none ↔ ∀ e ∈ l, key e ≠ k := by
  unfold find
  rw [List.find?_eq_none]
  simp

/-! ## Adding and replacing -/

theorem mem_delete (hd : Distinct key l) : e ∈ delete key l k ↔ e ∈ l ∧ key e ≠ k := by
  induction l with
  | nil => simp [delete]
  | cons a l ih =>
    by_cases ha : key a = k
    · have hdel : delete key (a :: l) k = l := by simp [delete, ha]
      rw [hdel]
      have hnot : ∀ e ∈ l, key e ≠ k := fun e he hk =>
        (List.nodup_cons.mp hd).1 (ha ▸ hk ▸ List.mem_map_of_mem he)
      constructor
      · exact fun he => ⟨List.mem_cons_of_mem _ he, hnot e he⟩
      · rintro ⟨he, hk⟩
        rcases List.mem_cons.mp he with rfl | he
        · exact absurd ha hk
        · exact he
    · have hdel : delete key (a :: l) k = a :: delete key l k := by simp [delete, ha]
      rw [hdel, List.mem_cons, ih hd.tail, List.mem_cons]
      constructor
      · rintro (rfl | ⟨he, hk⟩)
        · exact ⟨Or.inl rfl, ha⟩
        · exact ⟨Or.inr he, hk⟩
      · rintro ⟨rfl | he, hk⟩
        · exact Or.inl rfl
        · exact Or.inr ⟨he, hk⟩

theorem distinct_delete (hd : Distinct key l) (k : κ) : Distinct key (delete key l k) :=
  hd.sublist ((List.eraseP_sublist).map key)

theorem distinct_add (hd : Distinct key l) (h : find key l (key e) = none) :
    Distinct key (add l e) := by
  unfold Distinct add
  rw [List.map_append, List.nodup_append]
  refine ⟨hd, List.nodup_singleton _, ?_⟩
  intro a ha b hb
  obtain ⟨e', he', rfl⟩ := List.mem_map.mp ha
  rw [List.map_singleton, List.mem_singleton] at hb
  exact hb ▸ find_eq_none.mp h e' he'

theorem distinct_replace (hd : Distinct key l) : Distinct key (replace key l e) := by
  refine distinct_add (distinct_delete hd _) (find_eq_none.mpr fun e' he' => ?_)
  exact ((mem_delete hd).mp he').2

theorem distinct_upsert (hd : Distinct key l) : Distinct key (upsert key l e) := by
  unfold upsert
  split_ifs with h
  · exact distinct_replace hd
  · exact distinct_add hd (Option.not_isSome_iff_eq_none.mp h)

theorem mem_upsert (hd : Distinct key l) {e' : E} :
    e' ∈ upsert key l e ↔ e' = e ∨ (e' ∈ l ∧ key e' ≠ key e) := by
  unfold upsert
  split_ifs with h
  · rw [replace, add, List.mem_append, mem_delete hd, List.mem_singleton, or_comm]
  · rw [Option.not_isSome_iff_eq_none, find_eq_none] at h
    rw [add, List.mem_append, List.mem_singleton, or_comm]
    constructor
    · rintro (rfl | he')
      · exact Or.inl rfl
      · exact Or.inr ⟨he', h e' he'⟩
    · rintro (rfl | ⟨he', _⟩)
      · exact Or.inl rfl
      · exact Or.inr he'

theorem find_upsert (hd : Distinct key l) :
    find key (upsert key l e) k = if k = key e then some e else find key l k := by
  apply Option.ext
  intro e'
  rw [find_eq_some (distinct_upsert hd), mem_upsert hd]
  by_cases hk : k = key e
  · subst hk
    rw [if_pos rfl, Option.some.injEq]
    constructor
    · rintro ⟨rfl | ⟨_, hne⟩, hk'⟩
      · rfl
      · exact absurd hk' hne
    · rintro rfl
      exact ⟨Or.inl rfl, rfl⟩
  · rw [if_neg hk, find_eq_some hd]
    constructor
    · rintro ⟨rfl | ⟨he', _⟩, hk'⟩
      · exact absurd hk'.symm hk
      · exact ⟨he', hk'⟩
    · rintro ⟨he', hk'⟩
      exact ⟨Or.inr ⟨he', fun e => hk (hk'.symm.trans e)⟩, hk'⟩

/-- Entries merged one after the other hide the older ones with their keys. -/
theorem find_foldl_upsert {es : List E} (hd : Distinct key l) (hes : Distinct key es) :
    Distinct key (es.foldl (upsert key) l) ∧
      find key (es.foldl (upsert key) l) k = (find key es k).or (find key l k) := by
  induction es generalizing l with
  | nil => exact ⟨hd, rfl⟩
  | cons e es ih =>
    obtain ⟨hdist, hfind⟩ := ih (distinct_upsert (e := e) hd) hes.tail
    refine ⟨hdist, ?_⟩
    rw [List.foldl_cons, hfind, find_upsert hd]
    by_cases hk : k = key e
    · have hnone : find key es k = none := by
        rw [find_eq_none]
        intro e' he' hk'
        exact (List.nodup_cons.mp hes).1 (hk ▸ hk' ▸ List.mem_map_of_mem he')
      have hsome : find key (e :: es) k = some e := by simp [find, hk]
      rw [hnone, hsome, if_pos hk]
      rfl
    · have htail : find key (e :: es) k = find key es k :=
        List.find?_cons_of_neg (by simpa using fun h => hk h.symm)
      rw [htail, if_neg hk]

theorem find_eq_of_perm {m : List E} (hl : Distinct key l) (hm : Distinct key m) (h : l.Perm m) :
    find key l k = find key m k := by
  apply Option.ext
  intro e
  rw [find_eq_some hl, find_eq_some hm, h.mem_iff]

theorem perm_of_find_eq {m : List E} (hl : Distinct key l) (hm : Distinct key m)
    (h : ∀ k, find key l k = find key m k) : l.Perm m := by
  rw [List.perm_ext_iff_of_nodup hl.of_map hm.of_map]
  intro e
  have := h (key e)
  constructor
  · intro he
    exact (find_some (this ▸ (find_eq_some hl).mpr ⟨he, rfl⟩)).1
  · intro he
    exact (find_some (this.symm ▸ (find_eq_some hm).mpr ⟨he, rfl⟩)).1

/-! ## Entries in another form -/

section Map

variable {E' : Type*} {key' : E' → κ} {g : E → E'}

theorem find_map (h : ∀ e ∈ l, key' (g e) = key e) :
    find key' (l.map g) k = (find key l k).map g := by
  induction l with
  | nil => rfl
  | cons a l ih =>
    have ih := ih fun e he => h e (List.mem_cons_of_mem _ he)
    unfold find at ih ⊢
    rw [List.map_cons, List.find?_cons, List.find?_cons, ih, h a List.mem_cons_self]
    cases decide (key a = k) <;> rfl

theorem delete_map (h : ∀ e ∈ l, key' (g e) = key e) :
    delete key' (l.map g) k = (delete key l k).map g := by
  induction l with
  | nil => rfl
  | cons a l ih =>
    have ih := ih fun e he => h e (List.mem_cons_of_mem _ he)
    unfold delete at ih ⊢
    rw [List.map_cons, List.eraseP_cons, List.eraseP_cons, ih, h a List.mem_cons_self]
    cases decide (key a = k) <;> rfl

theorem upsert_map (h : ∀ e' ∈ l, key' (g e') = key e') (he : key' (g e) = key e) :
    upsert key' (l.map g) (g e) = (upsert key l e).map g := by
  unfold upsert replace add
  rw [he, find_map h, delete_map h, Option.isSome_map]
  split_ifs <;> rw [List.map_append] <;> rfl

end Map

end Kit.HashTable
