import Mathlib.Data.List.Sort
import Mathlib.Order.Bounds.Basic
import Mathlib.Tactic.Common

/-!
# Ordered maps with cursors

A finite map over a linear order, held as the list of its bindings in key order, with the cursor
operations of an ordered key/value store: seek to the first key at or above a target, step
forward, step back.

1. `get`, `insert`, `erase` behave as on functions (`get_insert`, `get_erase`).
2. `Cursor` is a position between the bindings before it and those from it on.
3. `seek_next_of_mem` and `seek_next_of_not_mem` say where a cursor lands that seeks a key and then
   steps forward, when the key is bound and when it is not; `seek_prev_entry` where it lands one
   step back.
4. `head?_filter_eq_some` and `getLast?_filter_eq_some`: the first and the last of the bindings that
   a predicate on keys keeps.
5. `filter_above_of_cons` and `filter_below_of_cons`: one move of a walk through the map.
-/

namespace Kit

/-- A finite map: bindings in strictly increasing key order. -/
structure OrdMap (K V : Type*) [LinearOrder K] where
  toList : List (K × V)
  sorted : toList.Pairwise fun a b => a.1 < b.1

namespace OrdMap

variable {K V : Type*} [LinearOrder K]

@[ext] theorem ext {m n : OrdMap K V} (h : m.toList = n.toList) : m = n := by
  cases m; cases n; cases h; rfl

/-- The empty map. -/
def empty : OrdMap K V := ⟨[], .nil⟩

/-- The value of the first binding of `k`. -/
def lookup (k : K) : List (K × V) → Option V
  | [] => none
  | (k', v) :: l => if k' = k then some v else lookup k l

/-- The value bound to `k`. -/
def get (m : OrdMap K V) (k : K) : Option V := lookup k m.toList

/-- The keys in order. -/
def keys (m : OrdMap K V) : List K := m.toList.map Prod.fst

@[simp] theorem get_empty (k : K) : (empty : OrdMap K V).get k = none := rfl

theorem keys_sorted (m : OrdMap K V) : m.keys.Pairwise (· < ·) :=
  List.pairwise_map.mpr m.sorted

theorem keys_nodup (m : OrdMap K V) : m.keys.Nodup := m.keys_sorted.imp ne_of_lt

/-! ## Lookup -/

theorem lookup_eq_none {k : K} {l : List (K × V)} : lookup k l = none ↔ k ∉ l.map Prod.fst := by
  induction l with
  | nil => simp [lookup]
  | cons p l ih =>
    obtain ⟨k', v⟩ := p
    by_cases h : k' = k
    · simp [lookup, h]
    · simp [lookup, h, ih, Ne.symm h]

theorem mem_of_lookup {k : K} {v : V} {l : List (K × V)} (h : lookup k l = some v) :
    (k, v) ∈ l := by
  induction l with
  | nil => simp [lookup] at h
  | cons p l ih =>
    obtain ⟨k', v'⟩ := p
    unfold lookup at h
    by_cases hk : k' = k
    · rw [if_pos hk, Option.some.injEq] at h
      subst hk h
      exact List.mem_cons_self
    · rw [if_neg hk] at h
      exact List.mem_cons_of_mem _ (ih h)

theorem lookup_of_mem {k : K} {v : V} {l : List (K × V)}
    (hs : l.Pairwise fun a b => a.1 < b.1) (h : (k, v) ∈ l) : lookup k l = some v := by
  induction l with
  | nil => cases h
  | cons p l ih =>
    obtain ⟨k', v'⟩ := p
    rw [List.pairwise_cons] at hs
    rcases List.mem_cons.mp h with h | h
    · cases h
      simp [lookup]
    · have hlt : k' < k := hs.1 _ h
      rw [lookup, if_neg hlt.ne]
      exact ih hs.2 h

theorem get_eq_some {m : OrdMap K V} {k : K} {v : V} : m.get k = some v ↔ (k, v) ∈ m.toList :=
  ⟨mem_of_lookup, lookup_of_mem m.sorted⟩

theorem get_eq_none {m : OrdMap K V} {k : K} : m.get k = none ↔ k ∉ m.keys := lookup_eq_none

theorem mem_keys {m : OrdMap K V} {k : K} : k ∈ m.keys ↔ m.get k ≠ none := by
  rw [Ne, get_eq_none, not_not]

theorem mem_keys_of_mem {m : OrdMap K V} {p : K × V} (h : p ∈ m.toList) : p.1 ∈ m.keys :=
  List.mem_map_of_mem h

/-! ## Insertion -/

/-- Ordered insertion, replacing the binding of an equal key. -/
def insertList (k : K) (v : V) : List (K × V) → List (K × V)
  | [] => [(k, v)]
  | (k', v') :: l =>
    if k < k' then (k, v) :: (k', v') :: l
    else if k = k' then (k, v) :: l
    else (k', v') :: insertList k v l

theorem mem_insertList {k : K} {v : V} {l : List (K × V)} {p : K × V}
    (h : p ∈ insertList k v l) : p = (k, v) ∨ p ∈ l := by
  induction l with
  | nil => simpa [insertList] using h
  | cons q l ih =>
    obtain ⟨k', v'⟩ := q
    unfold insertList at h
    split_ifs at h with h₁ h₂
    · exact List.mem_cons.mp h
    · rcases List.mem_cons.mp h with h | h
      · exact Or.inl h
      · exact Or.inr (List.mem_cons_of_mem _ h)
    · rcases List.mem_cons.mp h with h | h
      · exact Or.inr (h ▸ List.mem_cons_self)
      · exact (ih h).imp_right (List.mem_cons_of_mem _)

theorem sorted_insertList {k : K} {v : V} {l : List (K × V)}
    (hs : l.Pairwise fun a b => a.1 < b.1) :
    (insertList k v l).Pairwise fun a b => a.1 < b.1 := by
  induction l with
  | nil => exact List.pairwise_singleton _ _
  | cons q l ih =>
    obtain ⟨k', v'⟩ := q
    have hs' := List.pairwise_cons.mp hs
    unfold insertList
    split_ifs with h₁ h₂
    · refine List.pairwise_cons.mpr ⟨fun p hp => ?_, hs⟩
      rcases List.mem_cons.mp hp with rfl | hp
      · exact h₁
      · exact h₁.trans (hs'.1 p hp)
    · subst h₂
      exact List.pairwise_cons.mpr ⟨hs'.1, hs'.2⟩
    · refine List.pairwise_cons.mpr ⟨fun p hp => ?_, ih hs'.2⟩
      rcases mem_insertList hp with rfl | hp
      · exact lt_of_le_of_ne (not_lt.mp h₁) (Ne.symm h₂)
      · exact hs'.1 p hp

/-- The map that binds `k` to `v` and agrees with `m` elsewhere. -/
def insert (m : OrdMap K V) (k : K) (v : V) : OrdMap K V :=
  ⟨insertList k v m.toList, sorted_insertList m.sorted⟩

theorem lookup_cons_self (k : K) (v : V) (l : List (K × V)) :
    lookup k ((k, v) :: l) = some v := by rw [lookup, if_pos rfl]

theorem lookup_cons_of_ne {j k : K} (h : j ≠ k) (v : V) (l : List (K × V)) :
    lookup j ((k, v) :: l) = lookup j l := by rw [lookup, if_neg (Ne.symm h)]

theorem lookup_insertList_self (k : K) (v : V) (l : List (K × V)) :
    lookup k (insertList k v l) = some v := by
  induction l with
  | nil => exact lookup_cons_self k v []
  | cons q l ih =>
    obtain ⟨k', v'⟩ := q
    unfold insertList
    by_cases h₁ : k < k'
    · rw [if_pos h₁, lookup_cons_self]
    · rw [if_neg h₁]
      by_cases h₂ : k = k'
      · rw [if_pos h₂, lookup_cons_self]
      · rw [if_neg h₂, lookup_cons_of_ne h₂, ih]

theorem lookup_insertList_of_ne {j k : K} (h : j ≠ k) (v : V) (l : List (K × V)) :
    lookup j (insertList k v l) = lookup j l := by
  induction l with
  | nil => exact lookup_cons_of_ne h v []
  | cons q l ih =>
    obtain ⟨k', v'⟩ := q
    unfold insertList
    by_cases h₁ : k < k'
    · rw [if_pos h₁, lookup_cons_of_ne h]
    · rw [if_neg h₁]
      by_cases h₂ : k = k'
      · subst h₂
        rw [if_pos rfl, lookup_cons_of_ne h, lookup_cons_of_ne h]
      · rw [if_neg h₂, lookup, lookup, ih]

theorem lookup_insertList (k : K) (v : V) (l : List (K × V)) (j : K) :
    lookup j (insertList k v l) = if j = k then some v else lookup j l := by
  by_cases h : j = k
  · rw [if_pos h, h, lookup_insertList_self]
  · rw [if_neg h, lookup_insertList_of_ne h]

theorem get_insert (m : OrdMap K V) (k : K) (v : V) (j : K) :
    (m.insert k v).get j = if j = k then some v else m.get j :=
  lookup_insertList k v m.toList j

theorem mem_keys_insert {m : OrdMap K V} {k j : K} {v : V} :
    j ∈ (m.insert k v).keys ↔ j = k ∨ j ∈ m.keys := by
  rw [mem_keys, mem_keys, get_insert]
  by_cases h : j = k <;> simp [h]

/-- Insertion at a bound key leaves the keys as they are. -/
theorem keys_insert_perm_of_mem {m : OrdMap K V} {k : K} (h : k ∈ m.keys) (v : V) :
    (m.insert k v).keys.Perm m.keys := by
  rw [List.perm_ext_iff_of_nodup (keys_nodup _) (keys_nodup _)]
  intro j
  rw [mem_keys_insert]
  exact ⟨fun hj => hj.elim (fun e => e ▸ h) id, Or.inr⟩

/-- Insertion at a new key adds that key. -/
theorem keys_insert_perm_of_not_mem {m : OrdMap K V} {k : K} (h : k ∉ m.keys) (v : V) :
    (m.insert k v).keys.Perm (k :: m.keys) := by
  rw [List.perm_ext_iff_of_nodup (keys_nodup _) (List.nodup_cons.mpr ⟨h, keys_nodup m⟩)]
  intro j
  rw [mem_keys_insert, List.mem_cons]

/-! ## Deletion -/

/-- The map without a binding of `k`. -/
def erase (m : OrdMap K V) (k : K) : OrdMap K V :=
  ⟨m.toList.filter fun p => p.1 ≠ k, m.sorted.filter _⟩

theorem get_erase (m : OrdMap K V) (k j : K) :
    (m.erase k).get j = if j = k then none else m.get j := by
  by_cases h : j = k
  · rw [if_pos h, get_eq_none]
    intro hj
    obtain ⟨p, hp, rfl⟩ := List.mem_map.mp hj
    simp [erase, h] at hp
  · rw [if_neg h]
    apply Option.ext
    intro v
    rw [get_eq_some, get_eq_some]
    simp [erase, h]

theorem mem_keys_erase {m : OrdMap K V} {k j : K} :
    j ∈ (m.erase k).keys ↔ j ≠ k ∧ j ∈ m.keys := by
  rw [mem_keys, mem_keys, get_erase]
  by_cases h : j = k <;> simp [h]

/-- Erasing a key that is not bound changes nothing. -/
theorem erase_of_get_none {m : OrdMap K V} {k : K} (h : m.get k = none) : m.erase k = m := by
  apply ext
  show m.toList.filter (fun p => p.1 ≠ k) = m.toList
  rw [List.filter_eq_self]
  intro p hp
  have hk : p.1 ∈ m.keys := mem_keys_of_mem hp
  rw [get_eq_none] at h
  simp only [decide_eq_true_eq]
  rintro rfl
  exact h hk

/-! ## Cursors -/

/-- A position in a map: the bindings before it, nearest first, and those from it on. -/
structure Cursor (K V : Type*) where
  before : List (K × V)
  after : List (K × V)

/-- The binding at the cursor; `none` where the cursor is not valid. -/
def Cursor.entry (c : Cursor K V) : Option (K × V) := c.after.head?

/-- One binding forward. -/
def Cursor.next : Cursor K V → Cursor K V
  | ⟨b, []⟩ => ⟨b, []⟩
  | ⟨b, p :: l⟩ => ⟨p :: b, l⟩

/-- One binding back; not valid before the first. -/
def Cursor.prev : Cursor K V → Cursor K V
  | ⟨[], _⟩ => ⟨[], []⟩
  | ⟨p :: b, l⟩ => ⟨b, p :: l⟩

/-- The cursor at the first binding. -/
def seekToFirst (m : OrdMap K V) : Cursor K V := ⟨[], m.toList⟩

/-- The cursor at the last binding. -/
def seekToLast (m : OrdMap K V) : Cursor K V :=
  match m.toList.reverse with
  | [] => ⟨[], []⟩
  | p :: l => ⟨l, [p]⟩

/-- The cursor at the first binding whose key is at least `k`. -/
def seek (m : OrdMap K V) (k : K) : Cursor K V :=
  ⟨(m.toList.takeWhile fun p => p.1 < k).reverse, m.toList.dropWhile fun p => p.1 < k⟩

omit [LinearOrder K] in
@[simp] theorem next_after (c : Cursor K V) : c.next.after = c.after.tail := by
  obtain ⟨b, l⟩ := c
  cases l <;> rfl

theorem dropWhile_lt_eq_filter {l : List (K × V)} {k : K}
    (hs : l.Pairwise fun a b => a.1 < b.1) :
    l.dropWhile (fun p => p.1 < k) = l.filter fun p => k ≤ p.1 := by
  induction l with
  | nil => rfl
  | cons p l ih =>
    rw [List.pairwise_cons] at hs
    by_cases h : p.1 < k
    · rw [List.dropWhile_cons_of_pos (by simpa using h), ih hs.2,
        List.filter_cons_of_neg (by simpa using h)]
    · rw [List.dropWhile_cons_of_neg (by simpa using h)]
      symm
      rw [List.filter_eq_self]
      intro q hq
      have hk : k ≤ p.1 := not_lt.mp h
      rcases List.mem_cons.mp hq with rfl | hq
      · simpa using hk
      · simpa using hk.trans (hs.1 q hq).le

/-- From a sought key on there are the bindings at or above it, in order. -/
theorem seek_after (m : OrdMap K V) (k : K) :
    (m.seek k).after = m.toList.filter fun p => k ≤ p.1 :=
  dropWhile_lt_eq_filter m.sorted

theorem takeWhile_lt_eq_filter {l : List (K × V)} {k : K}
    (hs : l.Pairwise fun a b => a.1 < b.1) :
    l.takeWhile (fun p => p.1 < k) = l.filter fun p => p.1 < k := by
  induction l with
  | nil => rfl
  | cons p l ih =>
    rw [List.pairwise_cons] at hs
    by_cases h : p.1 < k
    · rw [List.takeWhile_cons_of_pos (by simpa using h), ih hs.2,
        List.filter_cons_of_pos (by simpa using h)]
    · rw [List.takeWhile_cons_of_neg (by simpa using h),
        List.filter_cons_of_neg (by simpa using h)]
      symm
      rw [List.filter_eq_nil_iff]
      intro q hq
      have hk : k ≤ q.1 := (not_lt.mp h).trans (hs.1 q hq).le
      simpa using hk

/-- One step back from a sought key is the last binding below it. -/
theorem seek_prev_entry (m : OrdMap K V) (k : K) :
    (m.seek k).prev.entry = (m.toList.filter fun p => p.1 < k).getLast? := by
  unfold seek Cursor.entry
  rw [takeWhile_lt_eq_filter m.sorted, List.getLast?_eq_head?_reverse]
  cases (m.toList.filter fun p => p.1 < k).reverse with
  | nil => rfl
  | cons p l => rfl

/-- In a sorted list, the binding of `k` heads those at or above it. -/
theorem filter_le_of_mem {l : List (K × V)} {k : K} {v : V}
    (hs : l.Pairwise fun a b => a.1 < b.1) (h : (k, v) ∈ l) :
    l.filter (fun p => k ≤ p.1) = (k, v) :: l.filter fun p => k < p.1 := by
  induction l with
  | nil => cases h
  | cons p l ih =>
    rw [List.pairwise_cons] at hs
    rcases List.mem_cons.mp h with h | h
    · subst h
      rw [List.filter_cons_of_pos (by simp), List.filter_cons_of_neg (by simp)]
      congr 1
      apply List.filter_congr
      intro q hq
      have : k < q.1 := hs.1 q hq
      simp [this, this.le]
    · have hlt : p.1 < k := hs.1 _ h
      rw [List.filter_cons_of_neg (by simpa using hlt),
        List.filter_cons_of_neg (by simpa using hlt.le), ih hs.2 h]

/-- Past the binding of a sought key there are the bindings above it, in order. -/
theorem seek_next_of_mem {m : OrdMap K V} {k : K} (h : k ∈ m.keys) :
    (m.seek k).next.after = m.toList.filter fun p => k < p.1 := by
  obtain ⟨⟨k', v⟩, hp, rfl⟩ := List.mem_map.mp h
  rw [next_after, seek_after, filter_le_of_mem m.sorted hp, List.tail_cons]

/-- Seeking a key that is not bound lands above it, and the step then passes one binding over. -/
theorem seek_next_of_not_mem {m : OrdMap K V} {k : K} (h : k ∉ m.keys) :
    (m.seek k).next.after = (m.toList.filter fun p => k < p.1).tail := by
  rw [next_after, seek_after]
  congr 1
  apply List.filter_congr
  intro p hp
  have hne : k ≠ p.1 := fun e => h (e ▸ mem_keys_of_mem hp)
  simp only [decide_eq_decide]
  exact ⟨fun h => lt_of_le_of_ne h hne, le_of_lt⟩

/-- The least of the keys that a predicate keeps comes first. -/
theorem head?_filter_of_isLeast {m : OrdMap K V} {q : K → Bool} {j : K}
    (h : IsLeast {k | k ∈ m.keys ∧ q k} j) :
    ∃ v, (m.toList.filter fun p => q p.1).head? = some (j, v) ∧ m.get j = some v := by
  obtain ⟨⟨hj, hq⟩, hle⟩ := h
  obtain ⟨⟨k, v⟩, hp, rfl⟩ := List.mem_map.mp hj
  have hmem : (k, v) ∈ m.toList.filter fun p => q p.1 := List.mem_filter.mpr ⟨hp, hq⟩
  have hs : (m.toList.filter fun p => q p.1).Pairwise fun a b => a.1 < b.1 := m.sorted.filter _
  refine ⟨v, ?_, get_eq_some.mpr hp⟩
  cases hl : m.toList.filter fun p => q p.1 with
  | nil =>
    rw [hl] at hmem
    cases hmem
  | cons p l =>
    rw [hl] at hmem hs
    rcases List.mem_cons.mp hmem with rfl | hmem
    · rfl
    · have hhead : p ∈ m.toList.filter fun p => q p.1 := by rw [hl]; exact List.mem_cons_self
      obtain ⟨hpm, hqp⟩ := List.mem_filter.mp hhead
      exact absurd ((List.pairwise_cons.mp hs).1 _ hmem)
        (not_lt.mpr (hle ⟨mem_keys_of_mem hpm, hqp⟩))

/-- A predicate on keys keeps no binding when it keeps no key. -/
theorem filter_eq_nil {m : OrdMap K V} {q : K → Bool} :
    (m.toList.filter fun p => q p.1) = [] ↔ ∀ k ∈ m.keys, ¬ q k := by
  rw [List.filter_eq_nil_iff]
  constructor
  · intro h k hk
    obtain ⟨p, hp, rfl⟩ := List.mem_map.mp hk
    exact h p hp
  · exact fun h p hp => h p.1 (mem_keys_of_mem hp)

/-- What comes first among the bindings that a predicate on keys keeps. -/
theorem head?_filter_eq_some {m : OrdMap K V} {q : K → Bool} {j : K} {v : V} :
    (m.toList.filter fun p => q p.1).head? = some (j, v) ↔
      IsLeast {k | k ∈ m.keys ∧ q k} j ∧ m.get j = some v := by
  constructor
  · intro h
    have hs : (m.toList.filter fun p => q p.1).Pairwise fun a b => a.1 < b.1 := m.sorted.filter _
    cases hl : m.toList.filter fun p => q p.1 with
    | nil =>
      rw [hl] at h
      cases h
    | cons p l =>
      rw [hl] at h hs
      obtain rfl : p = (j, v) := Option.some.inj h
      have hmem : (j, v) ∈ m.toList.filter fun p => q p.1 := by rw [hl]; exact List.mem_cons_self
      obtain ⟨hp, hq⟩ := List.mem_filter.mp hmem
      refine ⟨⟨⟨mem_keys_of_mem hp, hq⟩, ?_⟩, get_eq_some.mpr hp⟩
      rintro k ⟨hk, hqk⟩
      obtain ⟨⟨k, u⟩, hku, rfl⟩ := List.mem_map.mp hk
      have hmem' : (k, u) ∈ m.toList.filter fun p => q p.1 := List.mem_filter.mpr ⟨hku, hqk⟩
      rw [hl] at hmem'
      rcases List.mem_cons.mp hmem' with he | hmem'
      · exact (congrArg Prod.fst he).ge
      · exact ((List.pairwise_cons.mp hs).1 _ hmem').le
  · rintro ⟨hleast, hget⟩
    obtain ⟨u, hhead, hu⟩ := head?_filter_of_isLeast hleast
    rw [hget] at hu
    rw [hhead, Option.some.inj hu]

/-- What comes last among them. -/
theorem getLast?_filter_eq_some {m : OrdMap K V} {q : K → Bool} {j : K} {v : V} :
    (m.toList.filter fun p => q p.1).getLast? = some (j, v) ↔
      IsGreatest {k | k ∈ m.keys ∧ q k} j ∧ m.get j = some v := by
  have hs : (m.toList.filter fun p => q p.1).Pairwise fun a b => a.1 < b.1 := m.sorted.filter _
  -- the last of a split list is above all the others
  have habove : ∀ {l p}, m.toList.filter (fun p => q p.1) = l ++ [p] →
      ∀ r ∈ m.toList.filter fun p => q p.1, r.1 ≤ p.1 := by
    intro l p hl r hr
    rw [hl] at hr hs
    rcases List.mem_append.mp hr with hr | hr
    · exact ((List.pairwise_append.mp hs).2.2 r hr p (List.mem_singleton.mpr rfl)).le
    · exact (congrArg Prod.fst (List.mem_singleton.mp hr)).le
  constructor
  · intro h
    obtain ⟨l, hl⟩ := List.getLast?_eq_some_iff.mp h
    have hmem : (j, v) ∈ m.toList.filter fun p => q p.1 := List.mem_of_getLast? h
    obtain ⟨hp, hq⟩ := List.mem_filter.mp hmem
    refine ⟨⟨⟨mem_keys_of_mem hp, hq⟩, ?_⟩, get_eq_some.mpr hp⟩
    rintro k ⟨hk, hqk⟩
    obtain ⟨⟨k, u⟩, hku, rfl⟩ := List.mem_map.mp hk
    exact habove hl _ (List.mem_filter.mpr ⟨hku, hqk⟩)
  · rintro ⟨⟨⟨hj, hq⟩, hle⟩, hget⟩
    have hmem : (j, v) ∈ m.toList.filter fun p => q p.1 :=
      List.mem_filter.mpr ⟨get_eq_some.mp hget, hq⟩
    cases hlast : (m.toList.filter fun p => q p.1).getLast? with
    | none =>
      rw [List.getLast?_eq_none_iff.mp hlast] at hmem
      cases hmem
    | some p =>
      obtain ⟨l, hl⟩ := List.getLast?_eq_some_iff.mp hlast
      obtain ⟨hp, hqp⟩ := List.mem_filter.mp (List.mem_of_getLast? hlast)
      obtain rfl : p.1 = j := le_antisymm (hle ⟨mem_keys_of_mem hp, hqp⟩) (habove hl _ hmem)
      rw [get_eq_some.mpr hp, Option.some.injEq] at hget
      rw [← hget]

/-! ## Walking through a map -/

/-- The bindings above a key begin with the next one and go on with those above that. -/
theorem filter_above_of_cons {m : OrdMap K V} {k : K} {p : K × V} {l : List (K × V)}
    (h : (m.toList.filter fun q => k < q.1) = p :: l) :
    p.1 ∈ m.keys ∧ (m.toList.filter fun q => p.1 < q.1) = l := by
  have hs : (m.toList.filter fun q => k < q.1).Pairwise fun a b => a.1 < b.1 := m.sorted.filter _
  have hp : p ∈ m.toList.filter fun q => k < q.1 := by rw [h]; exact List.mem_cons_self
  obtain ⟨hpm, hkp⟩ := List.mem_filter.mp hp
  rw [decide_eq_true_eq] at hkp
  refine ⟨mem_keys_of_mem hpm, ?_⟩
  have hsub : (m.toList.filter fun q => p.1 < q.1) =
      (m.toList.filter fun q => k < q.1).filter fun q => p.1 < q.1 := by
    rw [List.filter_filter]
    apply List.filter_congr
    intro q _
    by_cases hq : p.1 < q.1
    · simp [hq, hkp.trans hq]
    · simp [hq]
  rw [hsub, h, List.filter_cons_of_neg (by simp), List.filter_eq_self]
  intro q hq
  rw [h] at hs
  simpa using (List.pairwise_cons.mp hs).1 q hq

/-- The bindings below a key, backwards, go on with those below the previous one. -/
theorem filter_below_of_cons {m : OrdMap K V} {k : K} {p : K × V} {l : List (K × V)}
    (h : (m.toList.filter fun q => q.1 < k).reverse = p :: l) :
    p.1 ∈ m.keys ∧ (m.toList.filter fun q => q.1 < p.1).reverse = l := by
  rw [List.reverse_eq_cons_iff] at h
  have hs : (m.toList.filter fun q => q.1 < k).Pairwise fun a b => a.1 < b.1 := m.sorted.filter _
  have hp : p ∈ m.toList.filter fun q => q.1 < k := by simp [h]
  obtain ⟨hpm, hpk⟩ := List.mem_filter.mp hp
  rw [decide_eq_true_eq] at hpk
  refine ⟨mem_keys_of_mem hpm, ?_⟩
  have hsub : (m.toList.filter fun q => q.1 < p.1) =
      (m.toList.filter fun q => q.1 < k).filter fun q => q.1 < p.1 := by
    rw [List.filter_filter]
    apply List.filter_congr
    intro q _
    by_cases hq : q.1 < p.1
    · simp [hq, hq.trans hpk]
    · simp [hq]
  have hkept : l.reverse.filter (fun q => q.1 < p.1) = l.reverse := by
    rw [List.filter_eq_self]
    intro q hq
    rw [h] at hs
    simpa using (List.pairwise_append.mp hs).2.2 q hq p (List.mem_singleton.mpr rfl)
  rw [hsub, h, List.filter_append, hkept, List.filter_cons_of_neg (by simp), List.filter_nil,
    List.append_nil, List.reverse_reverse]

/-- In a sorted list, the binding of `k` ends those at or below it. -/
theorem filter_ge_of_mem {m : OrdMap K V} {k : K} {v : V} (h : m.get k = some v) :
    (m.toList.filter fun p => p.1 ≤ k) = (m.toList.filter fun p => p.1 < k) ++ [(k, v)] := by
  have hsplit : ∀ {l : List (K × V)}, (l.Pairwise fun a b => a.1 < b.1) → (k, v) ∈ l →
      (l.filter fun p => p.1 ≤ k) = (l.filter fun p => p.1 < k) ++ [(k, v)] := by
    intro l hs hmem
    induction l with
    | nil => cases hmem
    | cons p l ih =>
      rw [List.pairwise_cons] at hs
      rcases List.mem_cons.mp hmem with rfl | hmem
      · have hnil : ∀ q ∈ l, ¬ q.1 ≤ k := fun q hq => not_le.mpr (hs.1 q hq)
        have hnil' : ∀ q ∈ l, ¬ q.1 < k := fun q hq => (hs.1 q hq).asymm
        rw [List.filter_cons_of_pos (by simp), List.filter_cons_of_neg (by simp),
          List.filter_eq_nil_iff.mpr (by simpa using hnil),
          List.filter_eq_nil_iff.mpr (by simpa using hnil')]
        rfl
      · have hlt : p.1 < k := hs.1 _ hmem
        rw [List.filter_cons_of_pos (by simpa using hlt.le),
          List.filter_cons_of_pos (by simpa using hlt), ih hs.2 hmem]
        rfl
  exact hsplit m.sorted (get_eq_some.mp h)

end OrdMap

end Kit
