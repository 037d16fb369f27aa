import Mathlib.Data.Sum.Basic
import MpiToShmem.Kit.Runs
import MpiToShmem.Pftool.Chains
import MpiToShmem.Pftool.Cmp

/-!
# The chunk table in memory

An array of chains of allocated entries; the chain of a key is given by a hash function. A table is
resized by inserting each entry into a new array of chains, and removing it from the chain that is
being gone through.

1. `fchunktblInsert` and the others are written with their accesses to memory; `none` is an access to
   an entry that is not there, or a loop that does not end.
2. `IsTable`: the chains of a table, with each key once and in the chain of its hash.
3. `insert_spec`, `remove_spec`, `resize_spec`: what they do to the bindings.
4. `chunkTable_refines`: a table is a finite map.
-/

namespace MpiToShmem.ChunkTable

open Kit

/-- `FchunkTbl`. -/
structure FchunkTbl (κ : Type) where
  size : ℕ
  size_pos : 0 < size
  nodes : ℕ → Option Addr
  hashfunc : κ → ℕ

variable {κ : Type}

/-- The bucket of a key. -/
def FchunkTbl.hash (t : FchunkTbl κ) (key : κ) : ℕ := t.hashfunc key % t.size

def fchunktblCreate (size : ℕ) (size_pos : 0 < size) (hashfunc : κ → ℕ) : FchunkTbl κ :=
  ⟨size, size_pos, fun _ => none, hashfunc⟩

section Functions

variable [DecidableEq κ] (m : Malloc)

/-- The entry of a key, and the one before it. -/
def FchunkTbl.find (t : FchunkTbl κ) (mem : Memory κ) (key : κ) :
    Option (Option (Addr × Option Addr)) :=
  findNode mem key mem.live.length none (t.nodes (t.hash key))

def fchunktblInsert (mem : Memory κ) (t : FchunkTbl κ) (key : κ) (data : ℤ) :
    Option (ℤ × Memory κ × FchunkTbl κ) := do
  match ← t.find mem key with
  | some (node, _) =>
    let entry ← mem.nodes node
    return (0, mem.write node { entry with data := data }, t)
  | none =>
    let (node, mem) := mem.malloc m ⟨key, data, t.nodes (t.hash key)⟩
    return (0, mem, { t with nodes := Function.update t.nodes (t.hash key) (some node) })

def fchunktblRemove (mem : Memory κ) (t : FchunkTbl κ) (key : κ) :
    Option (ℤ × Memory κ × FchunkTbl κ) := do
  match ← t.find mem key with
  | some (node, prevnode) =>
    let entry ← mem.nodes node
    match prevnode with
    | some prevnode =>
      let before ← mem.nodes prevnode
      return (0, (mem.write prevnode { before with next := entry.next }).free node, t)
    | none =>
      return (0, mem.free node,
        { t with nodes := Function.update t.nodes (t.hash key) entry.next })
  | none => return (-1, mem, t)

def fchunktblGet (mem : Memory κ) (t : FchunkTbl κ) (key : κ) : Option ℤ := do
  match ← t.find mem key with
  | some (node, _) =>
    let entry ← mem.nodes node
    return entry.data
  | none => return -1

def fchunktblUpdate (mem : Memory κ) (t : FchunkTbl κ) (key : κ) (data : ℤ) :
    Option (ℤ × Memory κ × FchunkTbl κ) := do
  match ← t.find mem key with
  | some (node, _) =>
    let entry ← mem.nodes node
    return (0, mem.write node { entry with data := data }, t)
  | none => return (-1, mem, t)

/-- A table that is being resized. -/
structure Resizing (κ : Type) where
  mem : Memory κ
  tbl : FchunkTbl κ
  newtbl : FchunkTbl κ

/-- The inner loop of `fchunktbl_resize`, `n` entries far at most; the link to the next entry is read
before the entry is removed. -/
def moveChain : ℕ → Option Addr → Resizing κ → Option (Resizing κ)
  | _, none, s => some s
  | 0, some _, _ => none
  | n + 1, some node, s => do
    let entry ← s.mem.nodes node
    let (_, mem, newtbl) ← fchunktblInsert m s.mem s.newtbl entry.key entry.data
    let moved ← mem.nodes node
    let (_, mem, tbl) ← fchunktblRemove mem s.tbl moved.key
    moveChain n entry.next ⟨mem, tbl, newtbl⟩

def fchunktblResize (mem : Memory κ) (t : FchunkTbl κ) (size : ℕ) (size_pos : 0 < size) :
    Option (ℤ × Memory κ × FchunkTbl κ) := do
  let s ← (List.range t.size).foldlM
    (fun s n => moveChain m s.mem.live.length (s.tbl.nodes n) s)
    ⟨mem, t, fchunktblCreate size size_pos t.hashfunc⟩
  return (0, s.mem, ⟨s.newtbl.size, s.newtbl.size_pos, s.newtbl.nodes, s.tbl.hashfunc⟩)

end Functions

/-! ## Bindings -/

variable [DecidableEq κ]

/-- The data of a key in a chain. -/
def lookup (l : List (Node κ)) (key : κ) : Option ℤ :=
  (l.find? fun x => x.key = key).map Node.data

/-- The data of a key in the chains of a table. -/
def bindings (hash : κ → ℕ) (c : ℕ → List (Node κ)) (key : κ) : Option ℤ :=
  lookup (c (hash key)) key

variable {hash : κ → ℕ} {c d : ℕ → List (Node κ)} {l l₁ l₂ : List (Node κ)} {x : Node κ}
  {key key' : κ} {data : ℤ}

theorem lookup_cons :
    lookup (x :: l) key = if x.key = key then some x.data else lookup l key := by
  unfold lookup
  rw [List.find?_cons]
  by_cases h : x.key = key <;> simp [h]

theorem lookup_append : lookup (l₁ ++ l₂) key = (lookup l₁ key).or (lookup l₂ key) := by
  unfold lookup
  rw [List.find?_append]
  cases l₁.find? fun x => x.key = key <;> rfl

theorem lookup_eq_none : lookup l key = none ↔ ∀ x ∈ l, x.key ≠ key := by
  unfold lookup
  rw [Option.map_eq_none_iff, List.find?_eq_none]
  simp

theorem lookup_setData (hfirst : ∀ y ∈ l₁, y.key ≠ x.key) :
    lookup (l₁ ++ { x with data := data } :: l₂) key =
      if key = x.key then some data else lookup (l₁ ++ x :: l₂) key := by
  rw [lookup_append, lookup_append, lookup_cons, lookup_cons]
  by_cases h : x.key = key
  · subst h
    rw [if_pos rfl, if_pos rfl, lookup_eq_none.mpr hfirst]
    rfl
  · rw [if_neg h, if_neg h, if_neg fun he => h he.symm]

theorem lookup_unlink (hkeys : ((l₁ ++ x :: l₂).map Node.key).Nodup) :
    lookup (l₁ ++ l₂) key = if key = x.key then none else lookup (l₁ ++ x :: l₂) key := by
  rw [List.map_append, List.map_cons, List.nodup_middle, List.nodup_cons, ← List.map_append] at hkeys
  by_cases h : key = x.key
  · subst h
    rw [if_pos rfl, lookup_eq_none]
    exact fun y hy he => hkeys.1 (he ▸ List.mem_map_of_mem hy)
  · rw [if_neg h, lookup_append, lookup_append, lookup_cons, if_neg fun he => h he.symm]

/-- A chain that differs at one key only. -/
theorem bindings_update {o : Option ℤ}
    (h : ∀ key', lookup l key' = if key' = key then o else lookup (c (hash key)) key') :
    bindings hash (Function.update c (hash key) l) = Function.update (bindings hash c) key o := by
  funext key'
  unfold bindings
  by_cases hk : key' = key
  · subst hk
    rw [Function.update_self, Function.update_self, h, if_pos rfl]
  · rw [Function.update_of_ne hk]
    by_cases hh : hash key' = hash key
    · rw [hh, Function.update_self, h, if_neg hk]
    · rw [Function.update_of_ne hh]

/-! ## Tables -/

/-- Each key is once in the chains, and in the chain of its hash. -/
structure Keyed (hash : κ → ℕ) (c : ℕ → List (Node κ)) : Prop where
  hash_eq : ∀ n, ∀ x ∈ c n, hash x.key = n
  nodup : ∀ n, ((c n).map Node.key).Nodup

omit [DecidableEq κ] in
theorem Keyed.update (h : Keyed hash c) (n : ℕ) (hl : ∀ x ∈ l, hash x.key = n)
    (hnodup : (l.map Node.key).Nodup) : Keyed hash (Function.update c n l) where
  hash_eq k y hy := by
    by_cases hk : k = n
    · subst hk
      rw [Function.update_self] at hy
      exact hl y hy
    · rw [Function.update_of_ne hk] at hy
      exact h.hash_eq k y hy
  nodup k := by
    by_cases hk : k = n
    · subst hk
      rw [Function.update_self]
      exact hnodup
    · rw [Function.update_of_ne hk]
      exact h.nodup k

/-- The bindings are those of the entries. -/
theorem Keyed.bindings_iff (h : Keyed hash c) :
    bindings hash c key = some data ↔ ∃ n, ∃ x ∈ c n, x.key = key ∧ x.data = data := by
  constructor
  · intro hb
    obtain ⟨x, hfind, hdata⟩ := Option.map_eq_some_iff.mp hb
    exact ⟨_, x, List.mem_of_find?_eq_some hfind, by simpa using List.find?_some hfind, hdata⟩
  · rintro ⟨n, x, hx, rfl, rfl⟩
    have hnodup := h.nodup n
    obtain ⟨l₁, l₂, hc⟩ := List.append_of_mem hx
    rw [hc, List.map_append, List.map_cons, List.nodup_middle, List.nodup_cons, List.mem_append]
      at hnodup
    have hfirst : ∀ y ∈ l₁, y.key ≠ x.key := fun y hy he =>
      hnodup.1 (Or.inl (he ▸ List.mem_map_of_mem hy))
    unfold bindings
    rw [h.hash_eq n x hx, hc, lookup_append, lookup_eq_none.mpr hfirst, lookup_cons, if_pos rfl]
    rfl

/-- The chains `c` of a table, in a memory that has the chains `d` as well. -/
structure IsTable (mem : Memory κ) (t : FchunkTbl κ) (c : ℕ → List (Node κ))
    (heads : ℕ → Option Addr) (d : ℕ → List (Node κ)) : Prop where
  chains : Chains mem (Sum.elim t.nodes heads) (Sum.elim c d)
  keyed : Keyed t.hash c

variable {mem mem' : Memory κ} {t t' : FchunkTbl κ} {heads : ℕ → Option Addr} {m : Malloc}

namespace IsTable

omit [DecidableEq κ] in
theorem chain (h : IsTable mem t c heads d) (n : ℕ) : IsChain mem (t.nodes n) (c n) :=
  h.chains.chain (Sum.inl n)

omit [DecidableEq κ] in
theorem entry (h : IsTable mem t c heads d) {n : ℕ} (hx : x ∈ c n) :
    mem.nodes x.addr = some ⟨x.key, x.data, mem.next x.addr⟩ := (h.chain n).entry x hx

/-- The loop finds the first entry of a key, and the one before it. -/
theorem find_eq (h : IsTable mem t c heads d) (hc : c (t.hash key) = l₁ ++ x :: l₂)
    (hkey : x.key = key) (hfirst : ∀ y ∈ l₁, y.key ≠ key) :
    t.find mem key = some (some (x.addr, l₁.getLast?.map Node.addr)) := by
  have hchain := h.chain (t.hash key)
  have hlen := hchain.length_le (h.chains.live (Sum.inl (t.hash key)))
  rw [hc] at hchain hlen
  unfold FchunkTbl.find
  rw [findNode_some _ none hchain hlen hkey hfirst, Option.or_none]

/-- The loop finds the first entry of a key, or none if the key is not there. -/
theorem find_cases (h : IsTable mem t c heads d) (key : κ) :
    (bindings t.hash c key = none ∧ t.find mem key = some none) ∨
      ∃ l₁ x l₂, c (t.hash key) = l₁ ++ x :: l₂ ∧ x.key = key ∧ (∀ y ∈ l₁, y.key ≠ key) ∧
        t.find mem key = some (some (x.addr, l₁.getLast?.map Node.addr)) := by
  rcases first_or_none key (c (t.hash key)) with hno | ⟨l₁, x, l₂, hc, hkey, hfirst⟩
  · have hchain := h.chain (t.hash key)
    have hlen := hchain.length_le (h.chains.live (Sum.inl (t.hash key)))
    exact Or.inl ⟨lookup_eq_none.mpr hno, findNode_none _ _ hchain hlen hno⟩
  · exact Or.inr ⟨l₁, x, l₂, hc, hkey, hfirst, h.find_eq hc hkey hfirst⟩

/-- The data of the first entry of a key. -/
theorem bindings_eq (hc : c (t.hash key) = l₁ ++ x :: l₂) (hkey : x.key = key)
    (hfirst : ∀ y ∈ l₁, y.key ≠ key) : bindings t.hash c key = some x.data := by
  unfold bindings
  rw [hc, lookup_append, lookup_eq_none.mpr hfirst, lookup_cons, if_pos hkey]
  rfl

theorem setData (h : IsTable mem t c heads d) (hc : c (t.hash key) = l₁ ++ x :: l₂)
    (hkey : x.key = key) (hfirst : ∀ y ∈ l₁, y.key ≠ key) (data : ℤ) :
    ∃ c', IsTable (mem.write x.addr ⟨x.key, data, mem.next x.addr⟩) t c' heads d ∧
      bindings t.hash c' = Function.update (bindings t.hash c) key (some data) := by
  refine ⟨Function.update c (t.hash key) (l₁ ++ { x with data := data } :: l₂), ⟨?_, ?_⟩, ?_⟩
  · have hset := h.chains.setData (i := Sum.inl (t.hash key)) hc data
    rwa [Sum.update_elim_inl] at hset
  · have hnodup := h.keyed.nodup (t.hash key)
    rw [hc] at hnodup
    refine h.keyed.update _ (fun y hy => ?_) (by simpa using hnodup)
    have hmem : ∀ z, z ∈ l₁ ++ x :: l₂ → t.hash z.key = t.hash key := fun z hz =>
      h.keyed.hash_eq _ z (hc ▸ hz)
    rcases List.mem_append.mp hy with hy | hy
    · exact hmem y (List.mem_append_left _ hy)
    · rcases List.mem_cons.mp hy with rfl | hy
      · exact congrArg _ hkey
      · exact hmem y (List.mem_append_right _ (List.mem_cons_of_mem _ hy))
  · apply bindings_update
    intro key'
    rw [hc, lookup_setData fun y hy => hkey ▸ hfirst y hy, hkey]

/-- A new key gets an entry at the head of its chain. -/
theorem push (h : IsTable mem t c heads d) (hno : bindings t.hash c key = none) (m : Malloc)
    (data : ℤ) :
    ∃ c', IsTable (mem.malloc m ⟨key, data, t.nodes (t.hash key)⟩).2
        { t with nodes := Function.update t.nodes (t.hash key) (some (m.addr mem.live)) } c' heads
        d ∧
      bindings t.hash c' = Function.update (bindings t.hash c) key (some data) := by
  refine ⟨Function.update c (t.hash key) (⟨m.addr mem.live, key, data⟩ :: c (t.hash key)), ⟨?_, ?_⟩,
    ?_⟩
  · have hpush := h.chains.push m (Sum.inl (t.hash key)) key data
    rwa [Sum.update_elim_inl, Sum.update_elim_inl] at hpush
  · refine h.keyed.update (t.hash key) (fun y hy => ?_) ?_
    · rcases List.mem_cons.mp hy with rfl | hy
      · rfl
      · exact h.keyed.hash_eq _ y hy
    · rw [List.map_cons, List.nodup_cons]
      refine ⟨fun hmem => ?_, h.keyed.nodup _⟩
      obtain ⟨y, hy, hk⟩ := List.mem_map.mp hmem
      exact lookup_eq_none.mp hno y hy hk
  · apply bindings_update
    intro key'
    rw [lookup_cons]
    exact if_congr eq_comm rfl rfl

/-- An entry is taken out of its chain. -/
theorem unlinked {nodes : ℕ → Option Addr} (h : IsTable mem t c heads d)
    (hc : c (t.hash key) = l₁ ++ x :: l₂) (hkey : x.key = key)
    (hchains : Chains mem' (Sum.elim nodes heads)
      (Sum.elim (Function.update c (t.hash key) (l₁ ++ l₂)) d)) :
    IsTable mem' { t with nodes := nodes } (Function.update c (t.hash key) (l₁ ++ l₂)) heads d ∧
      bindings t.hash (Function.update c (t.hash key) (l₁ ++ l₂)) =
        Function.update (bindings t.hash c) key none := by
  have hnodup := h.keyed.nodup (t.hash key)
  rw [hc] at hnodup
  have hsub : (l₁ ++ l₂).Sublist (l₁ ++ x :: l₂) :=
    List.Sublist.append_left (List.sublist_cons_self x l₂) l₁
  refine ⟨⟨hchains, h.keyed.update (t.hash key) (fun y hy => ?_) (hnodup.sublist (hsub.map _))⟩, ?_⟩
  · exact h.keyed.hash_eq _ y (hc ▸ hsub.subset hy)
  · apply bindings_update
    intro key'
    rw [hc, lookup_unlink hnodup, hkey]

end IsTable

/-! ## The functions -/

theorem get_spec (h : IsTable mem t c heads d) (key : κ) :
    fchunktblGet mem t key = some ((bindings t.hash c key).getD (-1)) := by
  unfold fchunktblGet
  rcases h.find_cases key with ⟨hno, hfind⟩ | ⟨l₁, x, l₂, hc, hkey, hfirst, hfind⟩
  · rw [hfind, hno]
    rfl
  · have hx : x ∈ c (t.hash key) := by
      rw [hc]
      exact List.mem_append_right _ List.mem_cons_self
    rw [hfind, IsTable.bindings_eq hc hkey hfirst, Option.bind_eq_bind, Option.bind_some]
    dsimp only
    rw [h.entry hx]
    rfl

theorem insert_spec (h : IsTable mem t c heads d) (m : Malloc) (key : κ) (data : ℤ) :
    ∃ mem' nodes c', fchunktblInsert m mem t key data = some (0, mem', { t with nodes := nodes }) ∧
      IsTable mem' { t with nodes := nodes } c' heads d ∧
      bindings t.hash c' = Function.update (bindings t.hash c) key (some data) := by
  unfold fchunktblInsert
  rcases h.find_cases key with ⟨hno, hfind⟩ | ⟨l₁, x, l₂, hc, hkey, hfirst, hfind⟩
  · obtain ⟨c', htable, hbind⟩ := h.push hno m data
    refine ⟨_, _, c', ?_, htable, hbind⟩
    rw [hfind]
    rfl
  · have hx : x ∈ c (t.hash key) := by
      rw [hc]
      exact List.mem_append_right _ List.mem_cons_self
    obtain ⟨c', htable, hbind⟩ := h.setData hc hkey hfirst data
    refine ⟨_, t.nodes, c', ?_, htable, hbind⟩
    rw [hfind, Option.bind_eq_bind, Option.bind_some]
    dsimp only
    rw [h.entry hx]
    rfl

theorem update_spec (h : IsTable mem t c heads d) (key : κ) (data : ℤ) :
    ∃ r mem' c', fchunktblUpdate mem t key data = some (r, mem', t) ∧
      (r = 0 ∧ bindings t.hash c key ≠ none ∧
          bindings t.hash c' = Function.update (bindings t.hash c) key (some data) ∨
        r = -1 ∧ bindings t.hash c key = none ∧ bindings t.hash c' = bindings t.hash c) ∧
      IsTable mem' t c' heads d := by
  unfold fchunktblUpdate
  rcases h.find_cases key with ⟨hno, hfind⟩ | ⟨l₁, x, l₂, hc, hkey, hfirst, hfind⟩
  · refine ⟨-1, mem, c, ?_, Or.inr ⟨rfl, hno, rfl⟩, h⟩
    rw [hfind]
    rfl
  · have hx : x ∈ c (t.hash key) := by
      rw [hc]
      exact List.mem_append_right _ List.mem_cons_self
    obtain ⟨c', htable, hbind⟩ := h.setData hc hkey hfirst data
    refine ⟨0, _, c', ?_, Or.inl ⟨rfl, ?_, hbind⟩, htable⟩
    · rw [hfind, Option.bind_eq_bind, Option.bind_some]
      dsimp only
      rw [h.entry hx]
      rfl
    · rw [IsTable.bindings_eq hc hkey hfirst]
      exact Option.some_ne_none _

/-- What `fchunktbl_remove` does to the chain of the key. -/
theorem remove_some (h : IsTable mem t c heads d) (hc : c (t.hash key) = l₁ ++ x :: l₂)
    (hkey : x.key = key) (hfirst : ∀ y ∈ l₁, y.key ≠ key) :
    ∃ mem' nodes, fchunktblRemove mem t key = some (0, mem', { t with nodes := nodes }) ∧
      IsTable mem' { t with nodes := nodes } (Function.update c (t.hash key) (l₁ ++ l₂)) heads d ∧
      bindings t.hash (Function.update c (t.hash key) (l₁ ++ l₂)) =
        Function.update (bindings t.hash c) key none := by
  have hx : x ∈ c (t.hash key) := by
    rw [hc]
    exact List.mem_append_right _ List.mem_cons_self
  unfold fchunktblRemove
  rw [h.find_eq hc hkey hfirst, Option.bind_eq_bind, Option.bind_some]
  dsimp only
  rw [h.entry hx, Option.bind_eq_bind, Option.bind_some]
  rcases List.eq_nil_or_concat l₁ with rfl | ⟨l, y, rfl⟩
  · have hcut := h.chains.unlinkFirst (i := Sum.inl (t.hash key)) hc
    rw [Sum.update_elim_inl, Sum.update_elim_inl] at hcut
    exact ⟨_, _, rfl, h.unlinked hc hkey hcut⟩
  · rw [List.concat_eq_append] at hc hfirst ⊢
    have hy : y ∈ c (t.hash key) := by
      rw [hc]
      simp
    have hc' : c (t.hash key) = l ++ y :: x :: l₂ := by
      rw [hc, List.append_assoc]
      rfl
    have hcut := h.chains.unlink (i := Sum.inl (t.hash key)) hc'
    rw [Sum.update_elim_inl] at hcut
    have hjoin : l ++ y :: l₂ = (l ++ [y]) ++ l₂ := by
      rw [List.append_assoc]
      rfl
    rw [hjoin] at hcut
    refine ⟨_, t.nodes, ?_, h.unlinked hc hkey hcut⟩
    rw [List.getLast?_concat, Option.map_some]
    dsimp only
    rw [h.entry hy]
    rfl

theorem remove_spec (h : IsTable mem t c heads d) (key : κ) :
    ∃ r mem' nodes c', fchunktblRemove mem t key = some (r, mem', { t with nodes := nodes }) ∧
      (r = 0 ∧ bindings t.hash c key ≠ none ∧
          bindings t.hash c' = Function.update (bindings t.hash c) key none ∨
        r = -1 ∧ bindings t.hash c key = none ∧ bindings t.hash c' = bindings t.hash c) ∧
      IsTable mem' { t with nodes := nodes } c' heads d := by
  rcases h.find_cases key with ⟨hno, hfind⟩ | ⟨l₁, x, l₂, hc, hkey, hfirst, -⟩
  · refine ⟨-1, mem, t.nodes, c, ?_, Or.inr ⟨rfl, hno, rfl⟩, h⟩
    rw [fchunktblRemove, hfind]
    rfl
  · obtain ⟨mem', nodes, hremove, htable, hbind⟩ := remove_some h hc hkey hfirst
    refine ⟨0, mem', nodes, _, hremove, Or.inl ⟨rfl, ?_, hbind⟩, htable⟩
    rw [IsTable.bindings_eq hc hkey hfirst]
    exact Option.some_ne_none _

/-! ## Resizing -/

omit [DecidableEq κ] in
/-- Two tables in one memory. -/
theorem IsTable.swap {t' : FchunkTbl κ} (h : IsTable mem t c t'.nodes d) (hd : Keyed t'.hash d) :
    IsTable mem t' d t.nodes c where
  chains := {
    chain := by
      rintro (n | n)
      · exact h.chains.chain (Sum.inr n)
      · exact h.chains.chain (Sum.inl n)
    live := by
      rintro (n | n)
      · exact h.chains.live (Sum.inr n)
      · exact h.chains.live (Sum.inl n)
    disjoint := by
      rintro (i | i) (j | j) hij
      · exact h.chains.disjoint (Sum.inr i) (Sum.inr j) (by simpa using hij)
      · exact h.chains.disjoint (Sum.inr i) (Sum.inl j) (by simp)
      · exact h.chains.disjoint (Sum.inl i) (Sum.inr j) (by simp)
      · exact h.chains.disjoint (Sum.inl i) (Sum.inl j) (by simpa using hij) }
  keyed := hd

/-- The bindings `b` are in the chains of the old and the new table. -/
structure Moving (s : Resizing κ) (c d : ℕ → List (Node κ)) (b : κ → Option ℤ) : Prop where
  old : IsTable s.mem s.tbl c s.newtbl.nodes d
  new : Keyed s.newtbl.hash d
  merged : ∀ key, b key = (bindings s.tbl.hash c key).or (bindings s.newtbl.hash d key)

variable {s s' : Resizing κ} {b : κ → Option ℤ} {n : ℕ} {rest : List (Node κ)}

/-- One turn of the inner loop: the first entry of a chain moves to the new table. -/
theorem Moving.move (h : Moving s c d b) (m : Malloc) (hc : c n = x :: rest) :
    ∃ mem₁ nodes mem₂ nodes' d',
      fchunktblInsert m s.mem s.newtbl x.key x.data =
        some (0, mem₁, { s.newtbl with nodes := nodes }) ∧
      (mem₁.nodes x.addr).map FchunkTblEntry.key = some x.key ∧
      fchunktblRemove mem₁ s.tbl x.key = some (0, mem₂, { s.tbl with nodes := nodes' }) ∧
      Moving ⟨mem₂, { s.tbl with nodes := nodes' }, { s.newtbl with nodes := nodes }⟩
        (Function.update c n rest) d' b := by
  have hx : x ∈ c n := by
    rw [hc]
    exact List.mem_cons_self
  have hn : s.tbl.hash x.key = n := h.old.keyed.hash_eq n x hx
  obtain ⟨mem₁, nodes, d', hinsert, htable, hbind⟩ :=
    insert_spec (h.old.swap h.new) m x.key x.data
  have hold : IsTable mem₁ s.tbl c nodes d' := htable.swap h.old.keyed
  have hc' : c (s.tbl.hash x.key) = [] ++ x :: rest := by
    rw [hn, hc]
    rfl
  obtain ⟨mem₂, nodes', hremove, htable₂, hbind₂⟩ :=
    remove_some hold hc' rfl (List.forall_mem_nil _)
  rw [List.nil_append, hn] at htable₂ hbind₂
  refine ⟨mem₁, nodes, mem₂, nodes', d', hinsert, ?_, hremove, htable₂, htable.keyed, fun key => ?_⟩
  · rw [hold.entry hx]
    rfl
  · have hmerged := h.merged key
    have hdata : bindings s.tbl.hash c x.key = some x.data :=
      IsTable.bindings_eq hc' rfl (List.forall_mem_nil _)
    have hold' : bindings ({ s.tbl with nodes := nodes' } : FchunkTbl κ).hash
        (Function.update c n rest) key =
          Function.update (bindings s.tbl.hash c) x.key none key := congrFun hbind₂ key
    have hnew' : bindings ({ s.newtbl with nodes := nodes } : FchunkTbl κ).hash d' key =
        Function.update (bindings s.newtbl.hash d) x.key (some x.data) key := congrFun hbind key
    dsimp only
    rw [hold', hnew']
    by_cases hk : key = x.key
    · subst hk
      rw [Function.update_self, Function.update_self, hmerged, hdata]
      rfl
    · rw [Function.update_of_ne hk, Function.update_of_ne hk, hmerged]

/-- The inner loop empties a chain of the old table. -/
theorem moveChain_spec (m : Malloc) (fuel : ℕ) (h : Moving s c d b) (hc : c n = rest)
    (hfuel : rest.length ≤ fuel) :
    ∃ s' d', moveChain m fuel (s.tbl.nodes n) s = some s' ∧
      Moving s' (Function.update c n []) d' b ∧ s'.tbl.size = s.tbl.size ∧
      s'.tbl.hashfunc = s.tbl.hashfunc ∧ s'.newtbl.size = s.newtbl.size ∧
      s'.newtbl.hashfunc = s.newtbl.hashfunc := by
  induction rest generalizing s c d fuel with
  | nil =>
    have hnone : s.tbl.nodes n = none := isChain_nil.mp (hc ▸ h.old.chain n)
    refine ⟨s, d, ?_, ?_, rfl, rfl, rfl, rfl⟩
    · rw [hnone]
      cases fuel <;> rfl
    · rwa [← hc, Function.update_eq_self]
  | cons x rest ih =>
    obtain ⟨fuel, rfl⟩ := Nat.exists_eq_add_of_le' (Nat.le_trans (Nat.succ_pos rest.length) hfuel)
    obtain ⟨mem₁, nodes, mem₂, nodes', d', hinsert, hkey, hremove, hmoving⟩ := h.move m hc
    have hchain : IsChain s.mem (s.tbl.nodes n) (x :: rest) := hc ▸ h.old.chain n
    have hchain' : IsChain mem₂ (nodes' n) rest := by
      have hn := hmoving.old.chain n
      rwa [Function.update_self] at hn
    -- the saved link leads to what is left of the chain
    have hnext : s.mem.next x.addr = nodes' n := hchain.tail.head_eq.trans hchain'.head_eq.symm
    obtain ⟨entry, hentry, hek⟩ := Option.map_eq_some_iff.mp hkey
    obtain ⟨s', d'', hmove, hmoving', hsame⟩ :=
      ih fuel hmoving (Function.update_self _ _ _) (Nat.le_of_succ_le_succ hfuel)
    rw [Function.update_idem] at hmoving'
    refine ⟨s', d'', ?_, hmoving', hsame⟩
    rw [hchain.head, moveChain, hchain.entry x List.mem_cons_self, Option.bind_eq_bind,
      Option.bind_some, hinsert, Option.bind_eq_bind, Option.bind_some]
    dsimp only
    rw [hentry, Option.bind_some, hek, hremove, Option.bind_some, hnext]
    exact hmove

/-- The outer loop empties the chains below `n`. -/
theorem moveChains_spec (m : Malloc) (n : ℕ) (h : Moving s c d b) :
    ∃ s' c' d', (List.range n).foldlM
        (fun s n => moveChain m s.mem.live.length (s.tbl.nodes n) s) s = some s' ∧
      Moving s' c' d' b ∧ (∀ k < n, c' k = []) ∧ s'.tbl.size = s.tbl.size ∧
      s'.tbl.hashfunc = s.tbl.hashfunc ∧ s'.newtbl.size = s.newtbl.size ∧
      s'.newtbl.hashfunc = s.newtbl.hashfunc := by
  induction n with
  | zero => exact ⟨s, c, d, rfl, h, fun k hk => absurd hk (Nat.not_lt_zero k), rfl, rfl, rfl, rfl⟩
  | succ n ih =>
    obtain ⟨s₁, c₁, d₁, hfold, h₁, hempty, htsize, htfunc, hnsize, hnfunc⟩ := ih
    have hlen : (c₁ n).length ≤ s₁.mem.live.length :=
      (h₁.old.chain n).length_le (h₁.old.chains.live (Sum.inl n))
    obtain ⟨s₂, d₂, hmove, h₂, htsize₂, htfunc₂, hnsize₂, hnfunc₂⟩ := moveChain_spec m _ h₁ rfl hlen
    refine ⟨s₂, Function.update c₁ n [], d₂, ?_, h₂, fun k hk => ?_, htsize₂.trans htsize,
      htfunc₂.trans htfunc, hnsize₂.trans hnsize, hnfunc₂.trans hnfunc⟩
    · rw [List.range_succ, List.foldlM_append, hfold, Option.bind_eq_bind, Option.bind_some,
        List.foldlM_cons, hmove]
      rfl
    · by_cases hkn : k = n
      · rw [hkn, Function.update_self]
      · rw [Function.update_of_ne hkn]
        exact hempty k (by omega)

/-- A table with nothing else in the memory. -/
abbrev IsOnlyTable (mem : Memory κ) (t : FchunkTbl κ) (c : ℕ → List (Node κ)) : Prop :=
  IsTable mem t c (fun _ => none) fun _ => []

omit [DecidableEq κ] in
/-- Next to an array of empty chains. -/
theorem IsTable.withNew (h : IsTable mem t c heads d) : IsOnlyTable mem t c where
  chains := {
    chain := by
      rintro (n | n)
      · exact h.chain n
      · exact isChain_nil.mpr rfl
    live := by
      rintro (n | n)
      · exact h.chains.live (Sum.inl n)
      · exact List.forall_mem_nil _
    disjoint := by
      rintro (i | i) (j | j) hij
      · exact h.chains.disjoint (Sum.inl i) (Sum.inl j) (by simpa using hij)
      · exact fun _ _ => List.forall_mem_nil _
      · exact List.forall_mem_nil _
      · exact List.forall_mem_nil _ }
  keyed := h.keyed

/-- Resizing keeps the bindings. -/
theorem resize_spec (h : IsOnlyTable mem t c) (m : Malloc) (size : ℕ) (size_pos : 0 < size) :
    ∃ mem' t' c', fchunktblResize m mem t size size_pos = some (0, mem', t') ∧
      IsOnlyTable mem' t' c' ∧ t'.size = size ∧ t'.hashfunc = t.hashfunc ∧
      bindings t'.hash c' = bindings t.hash c := by
  have hstart : Moving ⟨mem, t, fchunktblCreate size size_pos t.hashfunc⟩ c (fun _ => [])
      (bindings t.hash c) := by
    refine ⟨h, ⟨fun _ => List.forall_mem_nil _, fun _ => List.nodup_nil⟩, fun key => ?_⟩
    exact (Option.or_none).symm
  obtain ⟨s, c', d', hfold, hmoving, hempty, htsize, htfunc, hnsize, hnfunc⟩ :=
    moveChains_spec m t.size hstart
  -- the chains past the end of the old table were empty
  have hnil : c' = fun _ => [] := by
    funext n
    by_cases hn : n < t.size
    · exact hempty n hn
    · cases hc : c' n with
      | nil => rfl
      | cons x l =>
        have hx := hmoving.old.keyed.hash_eq n x (by rw [hc]; exact List.mem_cons_self)
        unfold FchunkTbl.hash at hx
        have hlt := Nat.mod_lt (s.tbl.hashfunc x.key) s.tbl.size_pos
        rw [hx, htsize] at hlt
        exact absurd hlt hn
  have hnew : IsOnlyTable s.mem s.newtbl d' := (hmoving.old.swap hmoving.new).withNew
  have hfunc : s.newtbl.hashfunc = s.tbl.hashfunc := hnfunc.trans htfunc.symm
  refine ⟨s.mem, ⟨s.newtbl.size, s.newtbl.size_pos, s.newtbl.nodes, s.tbl.hashfunc⟩, d', ?_, ?_,
    hnsize, htfunc, ?_⟩
  · rw [fchunktblResize, hfold]
    rfl
  · rw [← hfunc]
    exact hnew
  · rw [← hfunc]
    funext key
    have hmerged := hmoving.merged key
    rw [hnil] at hmerged
    exact hmerged.symm

/-! ## Runs -/

inductive TableOp (κ : Type) where
  | insert (key : κ) (data : ℤ)
  | update (key : κ) (data : ℤ)
  | remove (key : κ)
  | get (key : κ)
  | resize (size : ℕ) (size_pos : 0 < size)

/-- A table, the memory it is in, and what the calls have returned. -/
structure TableState (κ : Type) where
  mem : Memory κ
  tbl : FchunkTbl κ
  returned : List ℤ

/-- A table from `fchunktbl_create`. -/
def TableState.create (size : ℕ) (size_pos : 0 < size) (hashfunc : κ → ℕ) : TableState κ :=
  ⟨⟨fun _ => none, []⟩, fchunktblCreate size size_pos hashfunc, []⟩

/-- What a call returns and leaves behind. -/
def TableState.after (s : TableState κ) (r : ℤ × Memory κ × FchunkTbl κ) : TableState κ :=
  ⟨r.2.1, r.2.2, s.returned ++ [r.1]⟩

def tableStep (m : Malloc) (s : TableState κ) : TableOp κ → Option (TableState κ)
  | .insert key data => (fchunktblInsert m s.mem s.tbl key data).map s.after
  | .update key data => (fchunktblUpdate s.mem s.tbl key data).map s.after
  | .remove key => (fchunktblRemove s.mem s.tbl key).map s.after
  | .get key => (fchunktblGet s.mem s.tbl key).map fun data => s.after (data, s.mem, s.tbl)
  | .resize size size_pos => (fchunktblResize m s.mem s.tbl size size_pos).map s.after

/-- A finite map, and what the calls on it have returned. -/
structure MapState (κ : Type) where
  map : κ → Option ℤ
  returned : List ℤ

def MapState.empty : MapState κ := ⟨fun _ => none, []⟩

/-- The calls on a map: `update` and `remove` return 0 if the key is there. -/
def mapStep (s : MapState κ) : TableOp κ → MapState κ
  | .insert key data => ⟨Function.update s.map key (some data), s.returned ++ [0]⟩
  | .update key data =>
    if s.map key = none then { s with returned := s.returned ++ [-1] }
    else ⟨Function.update s.map key (some data), s.returned ++ [0]⟩
  | .remove key =>
    if s.map key = none then { s with returned := s.returned ++ [-1] }
    else ⟨Function.update s.map key none, s.returned ++ [0]⟩
  | .get key => { s with returned := s.returned ++ [(s.map key).getD (-1)] }
  | .resize _ _ => { s with returned := s.returned ++ [0] }

/-- The table has the bindings of the map, and its calls have returned the same. -/
def Simulates (s : TableState κ) (a : MapState κ) : Prop :=
  s.returned = a.returned ∧ ∃ c, IsOnlyTable s.mem s.tbl c ∧ bindings s.tbl.hash c = a.map

theorem simulates_create (size : ℕ) (size_pos : 0 < size) (hashfunc : κ → ℕ) :
    Simulates (.create size size_pos hashfunc) .empty := by
  refine ⟨rfl, fun _ => [], ⟨⟨?_, ?_, ?_⟩, fun _ => List.forall_mem_nil _, fun _ => List.nodup_nil⟩,
    rfl⟩
  · rintro (n | n) <;> exact isChain_nil.mpr rfl
  · rintro (n | n) <;> exact List.forall_mem_nil _
  · rintro (i | i) (j | j) hij <;> exact List.forall_mem_nil _

/-- Every call goes through, and does to the table what it does to the map. -/
theorem simulates_step {s : TableState κ} {a : MapState κ} (m : Malloc) (h : Simulates s a)
    (op : TableOp κ) : ∃ s', tableStep m s op = some s' ∧ Simulates s' (mapStep a op) := by
  obtain ⟨hret, c, htable, hmap⟩ := h
  cases op with
  | insert key data =>
    obtain ⟨mem', nodes, c', hop, htable', hbind⟩ := insert_spec htable m key data
    refine ⟨_, by rw [tableStep, hop]; rfl, ?_, c', htable', ?_⟩
    · exact congrArg (· ++ [0]) hret
    · rw [hmap] at hbind
      exact hbind
  | update key data =>
    obtain ⟨r, mem', c', hop, hcases, htable'⟩ := update_spec htable key data
    refine ⟨_, by rw [tableStep, hop]; rfl, ?_⟩
    rw [hmap] at hcases
    dsimp only [mapStep]
    rcases hcases with ⟨rfl, hsome, hbind⟩ | ⟨rfl, hnone, hbind⟩
    · rw [if_neg hsome]
      exact ⟨congrArg (· ++ [0]) hret, c', htable', hbind⟩
    · rw [if_pos hnone]
      exact ⟨congrArg (· ++ [-1]) hret, c', htable', hbind⟩
  | remove key =>
    obtain ⟨r, mem', nodes, c', hop, hcases, htable'⟩ := remove_spec htable key
    refine ⟨_, by rw [tableStep, hop]; rfl, ?_⟩
    rw [hmap] at hcases
    dsimp only [mapStep]
    rcases hcases with ⟨rfl, hsome, hbind⟩ | ⟨rfl, hnone, hbind⟩
    · rw [if_neg hsome]
      exact ⟨congrArg (· ++ [0]) hret, c', htable', hbind⟩
    · rw [if_pos hnone]
      exact ⟨congrArg (· ++ [-1]) hret, c', htable', hbind⟩
  | get key =>
    have hop := get_spec htable key
    rw [hmap] at hop
    refine ⟨s.after ((a.map key).getD (-1), s.mem, s.tbl), ?_, ?_, c, htable, hmap⟩
    · rw [tableStep, hop]
      rfl
    · exact congrArg (· ++ [(a.map key).getD (-1)]) hret
  | resize size size_pos =>
    obtain ⟨mem', t', c', hop, htable', -, -, hbind⟩ := resize_spec htable m size size_pos
    refine ⟨_, by rw [tableStep, hop]; rfl, ?_, c', htable', hbind.trans hmap⟩
    exact congrArg (· ++ [0]) hret

theorem simulates_run {s : TableState κ} {a : MapState κ} (m : Malloc) (h : Simulates s a)
    (ops : List (TableOp κ)) :
    ∃ s', exec (tableStep m) s ops = some s' ∧ Simulates s' (ops.foldl mapStep a) := by
  induction ops generalizing s a with
  | nil => exact ⟨s, rfl, h⟩
  | cons op ops ih =>
    obtain ⟨s₁, hs₁, h₁⟩ := simulates_step m h op
    obtain ⟨s₂, hs₂, h₂⟩ := ih h₁
    exact ⟨s₂, exec_cons_eq_some.mpr ⟨s₁, hs₁, hs₂⟩, h₂⟩

/-! ## The chunk table of the manager -/

section Manager

variable {s : TableState Cmp.Path} {b : Cmp.FchunkTbl} {key : Cmp.Path}

/-- A table in memory and a table of lists have the same bindings. -/
def SameBindings (s : TableState Cmp.Path) (b : Cmp.FchunkTbl) : Prop :=
  ∃ c, IsOnlyTable s.mem s.tbl c ∧ bindings s.tbl.hash c = b.lookup

theorem sameBindings_get (h : SameBindings s b) (key : Cmp.Path) :
    fchunktblGet s.mem s.tbl key = some (Cmp.fchunktblGet b key) := by
  obtain ⟨c, htable, hbind⟩ := h
  rw [get_spec htable, hbind]
  rfl

theorem sameBindings_insert (h : SameBindings s b) (m : Malloc) (key : Cmp.Path) (data : ℤ) :
    ∃ s', tableStep m s (.insert key data) = some s' ∧
      SameBindings s' (Cmp.fchunktblInsert b key data) := by
  obtain ⟨c, htable, hbind⟩ := h
  obtain ⟨mem', nodes, c', hop, htable', hbind'⟩ := insert_spec htable m key data
  refine ⟨_, by rw [tableStep, hop]; rfl, c', htable', ?_⟩
  rw [hbind] at hbind'
  exact hbind'.trans Buckets.lookup_insert.symm

theorem sameBindings_update (h : SameBindings s b) (m : Malloc) (key : Cmp.Path) (data : ℤ) :
    ∃ s', tableStep m s (.update key data) = some s' ∧
      s'.returned = s.returned ++ [(Cmp.fchunktblUpdate b key data).2] ∧
      SameBindings s' (Cmp.fchunktblUpdate b key data).1 := by
  obtain ⟨c, htable, hbind⟩ := h
  obtain ⟨r, mem', c', hop, hcases, htable'⟩ := update_spec htable key data
  rw [hbind] at hcases
  refine ⟨_, by rw [tableStep, hop]; rfl, ?_, c', htable', ?_⟩
  · unfold Cmp.fchunktblUpdate
    rcases hcases with ⟨rfl, hsome, -⟩ | ⟨rfl, hnone, -⟩
    · cases hu : b.update key data with
      | none => exact absurd (Buckets.update_eq_none.mp hu) hsome
      | some _ => rfl
    · rw [Buckets.update_eq_none.mpr hnone]
      rfl
  · rw [Cmp.lookup_fchunktblUpdate]
    rcases hcases with ⟨rfl, hsome, hbind'⟩ | ⟨rfl, hnone, hbind'⟩
    · obtain ⟨old, hold⟩ := Option.ne_none_iff_exists'.mp hsome
      rw [hold]
      exact hbind'
    · rw [hnone, Option.map_none, ← hnone, Function.update_eq_self]
      exact hbind'

theorem sameBindings_remove (h : SameBindings s b) (m : Malloc) (key : Cmp.Path) :
    ∃ s', tableStep m s (.remove key) = some s' ∧
      s'.returned = s.returned ++ [(Cmp.fchunktblRemove b key).2] ∧
      SameBindings s' (Cmp.fchunktblRemove b key).1 := by
  obtain ⟨c, htable, hbind⟩ := h
  obtain ⟨r, mem', nodes, c', hop, hcases, htable'⟩ := remove_spec htable key
  rw [hbind] at hcases
  refine ⟨_, by rw [tableStep, hop]; rfl, ?_, c', htable', ?_⟩
  · unfold Cmp.fchunktblRemove
    rcases hcases with ⟨rfl, hsome, -⟩ | ⟨rfl, hnone, -⟩
    · cases hu : b.remove key with
      | none => exact absurd (Buckets.remove_eq_none.mp hu) hsome
      | some _ => rfl
    · rw [Buckets.remove_eq_none.mpr hnone]
      rfl
  · rw [Cmp.lookup_fchunktblRemove]
    rcases hcases with ⟨rfl, hsome, hbind'⟩ | ⟨rfl, hnone, hbind'⟩
    · exact hbind'
    · rw [← hnone, Function.update_eq_self]
      exact hbind'

end Manager

/-- The table is a finite map: for every size, hash function and sequence of calls, each call returns
what it returns on the map, the chains have the bindings of the map and no others, and each key is once
in them, in the chain of its hash. -/
theorem chunkTable_refines (m : Malloc) (size : ℕ) (size_pos : 0 < size) (hashfunc : κ → ℕ)
    (ops : List (TableOp κ)) :
    ∃ (s : TableState κ) (c : ℕ → List (Node κ)),
      exec (tableStep m) (.create size size_pos hashfunc) ops = some s ∧
      s.returned = (ops.foldl mapStep .empty).returned ∧
      (∀ n, IsChain s.mem (s.tbl.nodes n) (c n)) ∧
      (∀ n, ∀ x ∈ c n, s.tbl.hash x.key = n) ∧
      (∀ n, ((c n).map Node.key).Nodup) ∧
      ∀ key data, (ops.foldl mapStep .empty).map key = some data ↔
        ∃ n, ∃ x ∈ c n, x.key = key ∧ x.data = data := by
  obtain ⟨s, hs, hret, c, htable, hmap⟩ :=
    simulates_run m (simulates_create size size_pos hashfunc) ops
  refine ⟨s, c, hs, hret, htable.chain, htable.keyed.hash_eq, htable.keyed.nodup, fun key data => ?_⟩
  rw [← hmap, htable.keyed.bindings_iff]

/-- Keys of one chain, in a table that is resized twice. -/
theorem chunkTable_refines_colliding :
    ∃ s : TableState ℕ, exec (tableStep .above) (.create 2 (by decide) id)
        [.insert 1 10, .insert 3 30, .insert 5 50, .resize 3 (by decide), .remove 3, .get 3, .get 5,
          .update 3 31, .update 1 11, .resize 1 (by decide), .get 1, .insert 5 51, .get 5] = some s ∧
      s.returned = [0, 0, 0, 0, 0, -1, 50, -1, 0, 0, 11, 0, 51] := by
  obtain ⟨s, -, hs, hret, -⟩ := chunkTable_refines Malloc.above 2 (by decide) id
    [.insert 1 10, .insert 3 30, .insert 5 50, .resize 3 (by decide), .remove 3, .get 3, .get 5,
      .update 3 31, .update 1 11, .resize 1 (by decide), .get 1, .insert 5 51, .get 5]
  exact ⟨s, hs, hret.trans (by decide)⟩

end MpiToShmem.ChunkTable
