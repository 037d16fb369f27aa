import Mathlib.Data.Int.Notation
import Mathlib.Data.List.Perm.Subperm
import MpiToShmem.Kit.Linked

/-!
# The entries of chunk tables in memory

The entries of a chunk table are allocated one by one and linked to the chains of its buckets.
`malloc` gives any address that is not allocated, also one that was freed.

1. `findNode`: the loop over a chain that looks for a key.
2. `Chains`: a family of chains in one memory that have no entry in common.
3. `Chains.setData`, `Chains.push`, `Chains.unlink`: the changes of one chain leave the others alone.
-/

namespace MpiToShmem.ChunkTable

open Kit Linked

abbrev Addr := ℕ

/-- `FchunkTblEntry`, with its copy of the key. -/
structure FchunkTblEntry (κ : Type) where
  key : κ
  data : ℤ
  next : Option Addr

/-- The entries, and the addresses that are allocated. -/
structure Memory (κ : Type) where
  nodes : Addr → Option (FchunkTblEntry κ)
  live : List Addr

/-- An allocator that does not fail. -/
structure Malloc where
  addr : List Addr → Addr
  addr_notMem : ∀ live, addr live ∉ live

/-- The allocator that gives the address after all that are allocated. -/
def Malloc.above : Malloc where
  addr live := live.foldr (fun a b => max (a + 1) b) 0
  addr_notMem live := by
    have hlt : ∀ a ∈ live, a < live.foldr (fun a b => max (a + 1) b) 0 := by
      induction live with
      | nil => exact List.forall_mem_nil _
      | cons b live ih =>
        intro a ha
        rw [List.foldr_cons]
        rcases List.mem_cons.mp ha with rfl | ha
        · exact Nat.le_max_left _ _
        · exact Nat.lt_of_lt_of_le (ih a ha) (Nat.le_max_right _ _)
    exact fun hmem => Nat.lt_irrefl _ (hlt _ hmem)

variable {κ : Type}

namespace Memory

def write (mem : Memory κ) (a : Addr) (entry : FchunkTblEntry κ) : Memory κ :=
  { mem with nodes := Function.update mem.nodes a (some entry) }

def malloc (m : Malloc) (mem : Memory κ) (entry : FchunkTblEntry κ) : Addr × Memory κ :=
  (m.addr mem.live, { mem.write (m.addr mem.live) entry with live := m.addr mem.live :: mem.live })

def free (mem : Memory κ) (a : Addr) : Memory κ :=
  ⟨Function.update mem.nodes a none, mem.live.filter fun b => b ≠ a⟩

def next (mem : Memory κ) (a : Addr) : Option Addr := (mem.nodes a).bind FchunkTblEntry.next

variable {mem : Memory κ} {a b : Addr} {entry : FchunkTblEntry κ}

theorem nodes_write_self : (mem.write a entry).nodes a = some entry := Function.update_self _ _ _

theorem nodes_write_of_ne (h : b ≠ a) : (mem.write a entry).nodes b = mem.nodes b :=
  Function.update_of_ne h _ _

/-- A link is part of its entry. -/
theorem next_congr {mem' : Memory κ} (h : mem'.nodes a = mem.nodes a) :
    mem'.next a = mem.next a := by
  rw [next, h]
  rfl

theorem next_write_self : (mem.write a entry).next a = entry.next := by
  rw [next, nodes_write_self]
  rfl

theorem next_write_of_ne (h : b ≠ a) : (mem.write a entry).next b = mem.next b :=
  next_congr (nodes_write_of_ne h)

/-- A write that keeps the link. -/
theorem next_write_eq (h : entry.next = mem.next a) : (mem.write a entry).next = mem.next := by
  funext b
  by_cases hb : b = a
  · rw [hb, next_write_self, h]
  · exact next_write_of_ne hb

theorem nodes_free_of_ne (h : b ≠ a) : (mem.free a).nodes b = mem.nodes b :=
  Function.update_of_ne h _ _

end Memory

/-- The loop of all functions of the table: the entry with a key, and the entry before it. It gets `n`
entries far at most; `none` is an entry that is not there, or a longer chain. -/
def findNode [DecidableEq κ] (mem : Memory κ) (key : κ) :
    ℕ → Option Addr → Option Addr → Option (Option (Addr × Option Addr))
  | _, _, none => some none
  | 0, _, some _ => none
  | n + 1, prevnode, some node => do
    let entry ← mem.nodes node
    if entry.key = key then return some (node, prevnode)
    else findNode mem key n (some node) entry.next

/-! ## Chains -/

/-- An entry at its address. -/
structure Node (κ : Type) where
  addr : Addr
  key : κ
  data : ℤ

/-- The chain from `p` on has these entries. -/
structure IsChain (mem : Memory κ) (p : Option Addr) (l : List (Node κ)) : Prop where
  seg : Seg mem.next p (l.map Node.addr) none
  entry : ∀ x ∈ l, mem.nodes x.addr = some ⟨x.key, x.data, mem.next x.addr⟩

variable {mem mem' : Memory κ} {p : Option Addr} {l l₁ l₂ : List (Node κ)} {x : Node κ} {a : Addr}

theorem isChain_nil : IsChain mem p [] ↔ p = none :=
  ⟨fun h => h.seg, fun h => ⟨h, List.forall_mem_nil _⟩⟩

namespace IsChain

theorem head (h : IsChain mem p (x :: l)) : p = some x.addr := h.seg.1

theorem head_eq (h : IsChain mem p l) : p = l.head?.map Node.addr := by
  cases l with
  | nil => exact isChain_nil.mp h
  | cons x l => exact h.head

theorem tail (h : IsChain mem p (x :: l)) : IsChain mem (mem.next x.addr) l :=
  ⟨h.seg.2, fun y hy => h.entry y (List.mem_cons_of_mem _ hy)⟩

theorem nodup (h : IsChain mem p l) : (l.map Node.addr).Nodup := h.seg.nodup

/-- Other entries do not matter. -/
theorem congr (h : IsChain mem p l) (hnodes : ∀ x ∈ l, mem'.nodes x.addr = mem.nodes x.addr) :
    IsChain mem' p l where
  seg := h.seg.congr fun a ha => by
    obtain ⟨x, hx, rfl⟩ := List.mem_map.mp ha
    exact Memory.next_congr (hnodes x hx)
  entry x hx := by
    rw [Memory.next_congr (hnodes x hx), hnodes x hx]
    exact h.entry x hx

/-- The entries of a chain are no more than those allocated. -/
theorem length_le (h : IsChain mem p l) (hlive : ∀ x ∈ l, x.addr ∈ mem.live) :
    l.length ≤ mem.live.length := by
  rw [← List.length_map (f := Node.addr)]
  refine (List.subperm_of_subset h.nodup fun a ha => ?_).length_le
  obtain ⟨x, hx, rfl⟩ := List.mem_map.mp ha
  exact hlive x hx

theorem addr_ne (h : IsChain mem p (l₁ ++ x :: l₂)) {y : Node κ} (hy : y ∈ l₁ ∨ y ∈ l₂) :
    y.addr ≠ x.addr := by
  have hnodup := h.nodup
  rw [List.map_append, List.map_cons, List.nodup_middle, List.nodup_cons, List.mem_append] at hnodup
  intro he
  rw [← he] at hnodup
  rcases hy with hy | hy
  · exact hnodup.1 (Or.inl (List.mem_map_of_mem hy))
  · exact hnodup.1 (Or.inr (List.mem_map_of_mem hy))

/-- New data for an entry. -/
theorem setData (h : IsChain mem p (l₁ ++ x :: l₂)) (data : ℤ) :
    IsChain (mem.write x.addr ⟨x.key, data, mem.next x.addr⟩) p
      (l₁ ++ { x with data := data } :: l₂) := by
  have hnext : (mem.write x.addr ⟨x.key, data, mem.next x.addr⟩).next = mem.next :=
    Memory.next_write_eq rfl
  have hother : ∀ y : Node κ, y ∈ l₁ ∨ y ∈ l₂ →
      (mem.write x.addr ⟨x.key, data, mem.next x.addr⟩).nodes y.addr = mem.nodes y.addr :=
    fun y hy => Memory.nodes_write_of_ne (h.addr_ne hy)
  constructor
  · rw [hnext, List.map_append, List.map_cons]
    have hseg := h.seg
    rwa [List.map_append, List.map_cons] at hseg
  · intro y hy
    rw [hnext]
    rcases List.mem_append.mp hy with hy | hy
    · rw [hother y (Or.inl hy)]
      exact h.entry y (List.mem_append_left _ hy)
    · rcases List.mem_cons.mp hy with rfl | hy
      · exact Memory.nodes_write_self
      · rw [hother y (Or.inr hy)]
        exact h.entry y (List.mem_append_right _ (List.mem_cons_of_mem _ hy))

/-- A new entry at the head of a chain. -/
theorem push (h : IsChain mem p l) (m : Malloc) (hlive : ∀ x ∈ l, x.addr ∈ mem.live) (key : κ)
    (data : ℤ) :
    IsChain (mem.malloc m ⟨key, data, p⟩).2 (some (m.addr mem.live))
      (⟨m.addr mem.live, key, data⟩ :: l) := by
  have hne : ∀ y ∈ l, y.addr ≠ m.addr mem.live := fun y hy he =>
    m.addr_notMem mem.live (he ▸ hlive y hy)
  have htail : IsChain (mem.malloc m ⟨key, data, p⟩).2 p l :=
    h.congr fun y hy => Memory.nodes_write_of_ne (hne y hy)
  have hnext : (mem.malloc m ⟨key, data, p⟩).2.next (m.addr mem.live) = p :=
    Memory.next_write_self
  refine ⟨⟨rfl, by rw [hnext]; exact htail.seg⟩, fun y hy => ?_⟩
  rcases List.mem_cons.mp hy with rfl | hy
  · rw [hnext]
    exact Memory.nodes_write_self
  · exact htail.entry y hy

/-- The first entry of a chain is freed. -/
theorem unlinkFirst (h : IsChain mem p (x :: l)) :
    IsChain (mem.free x.addr) (mem.next x.addr) l := by
  have hne : ∀ y ∈ l, y.addr ≠ x.addr := fun y hy =>
    IsChain.addr_ne (show IsChain mem p ([] ++ x :: l) from h) (Or.inr hy)
  exact h.tail.congr fun y hy => Memory.nodes_free_of_ne (hne y hy)

/-- A memory in which the entry `y` is linked to the one after `x` has a chain without `x`. -/
theorem without {y : Node κ} (h : IsChain mem p (l₁ ++ y :: x :: l₂))
    (hy : mem'.nodes y.addr = some ⟨y.key, y.data, mem.next x.addr⟩)
    (hother : ∀ z, z ∈ l₁ ∨ z ∈ l₂ → mem'.nodes z.addr = mem.nodes z.addr) :
    IsChain mem' p (l₁ ++ y :: l₂) := by
  have hsplit : l₁ ++ y :: x :: l₂ = (l₁ ++ [y]) ++ x :: l₂ := by simp
  have hnexty : mem'.next y.addr = mem.next x.addr := by
    rw [Memory.next, hy]
    rfl
  have hlast : ((l₁ ++ [y]).map Node.addr).getLast? = some y.addr := by simp
  have hseg := h.seg
  rw [hsplit, List.map_append, List.map_cons] at hseg
  have hbefore : ∀ b, ((l₁ ++ [y]).map Node.addr).getLast? = some b →
      mem'.next b = mem.next x.addr := by
    intro b hb
    obtain rfl := Option.some.inj (hlast.symm.trans hb)
    exact hnexty
  have hrest : ∀ b ∈ (l₁ ++ [y]).map Node.addr,
      ((l₁ ++ [y]).map Node.addr).getLast? ≠ some b → mem'.next b = mem.next b := by
    intro b hb hne
    obtain ⟨z, hz, rfl⟩ := List.mem_map.mp hb
    rcases List.mem_append.mp hz with hz | hz
    · exact Memory.next_congr (hother z (Or.inl hz))
    · rw [List.mem_singleton.mp hz] at hne
      exact absurd hlast hne
  have hafter : ∀ b ∈ l₂.map Node.addr, mem'.next b = mem.next b := by
    intro b hb
    obtain ⟨z, hz, rfl⟩ := List.mem_map.mp hb
    exact Memory.next_congr (hother z (Or.inr hz))
  have hcut := hseg.unlink hbefore hrest hafter
  rw [if_neg (by simp), ← List.map_append, List.append_assoc, List.singleton_append] at hcut
  refine ⟨hcut, fun z hz => ?_⟩
  have hold : ∀ z, z ∈ l₁ ∨ z ∈ l₂ →
      mem'.nodes z.addr = some ⟨z.key, z.data, mem'.next z.addr⟩ := by
    intro z hz
    rw [hother z hz, Memory.next_congr (hother z hz)]
    refine h.entry z ?_
    simp only [List.mem_append, List.mem_cons]
    exact hz.imp_right fun hz => Or.inr (Or.inr hz)
  rcases List.mem_append.mp hz with hz | hz
  · exact hold z (Or.inl hz)
  · rcases List.mem_cons.mp hz with rfl | hz
    · rw [hnexty]
      exact hy
    · exact hold z (Or.inr hz)

/-- An entry with one before it is unlinked and freed. -/
theorem unlink {y : Node κ} (h : IsChain mem p (l₁ ++ y :: x :: l₂)) :
    IsChain ((mem.write y.addr ⟨y.key, y.data, mem.next x.addr⟩).free x.addr) p
      (l₁ ++ y :: l₂) := by
  have hsplit : l₁ ++ y :: x :: l₂ = (l₁ ++ [y]) ++ x :: l₂ := by simp
  have hx : ∀ z, z ∈ l₁ ++ [y] ∨ z ∈ l₂ → z.addr ≠ x.addr := fun z hz =>
    (hsplit ▸ h).addr_ne hz
  have hyx : y.addr ≠ x.addr := hx y (Or.inl (by simp))
  refine h.without ((Memory.nodes_free_of_ne hyx).trans Memory.nodes_write_self) fun z hz => ?_
  have hzx : z.addr ≠ x.addr := hx z (hz.imp_left (List.mem_append_left _))
  have hzy : z.addr ≠ y.addr := h.addr_ne (hz.imp_right (List.mem_cons_of_mem _))
  exact (Memory.nodes_free_of_ne hzx).trans (Memory.nodes_write_of_ne hzy)

end IsChain

/-! ## The loop -/

section Find

variable [DecidableEq κ] {key : κ}

theorem findNode_none (n : ℕ) (prevnode : Option Addr) (h : IsChain mem p l) (hn : l.length ≤ n)
    (hkey : ∀ x ∈ l, x.key ≠ key) : findNode mem key n prevnode p = some none := by
  induction l generalizing n prevnode p with
  | nil =>
    rw [isChain_nil.mp h]
    cases n <;> rfl
  | cons y l ih =>
    obtain ⟨n, rfl⟩ := Nat.exists_eq_add_of_le' (Nat.le_trans (Nat.succ_pos l.length) hn)
    rw [h.head, findNode, h.entry y List.mem_cons_self, Option.bind_eq_bind, Option.bind_some,
      if_neg (hkey y List.mem_cons_self)]
    exact ih n (some y.addr) h.tail (Nat.le_of_succ_le_succ hn) fun z hz =>
      hkey z (List.mem_cons_of_mem _ hz)

/-- The loop stops at the first entry with the key, and has the one before it. -/
theorem findNode_some (n : ℕ) (prevnode : Option Addr) (h : IsChain mem p (l₁ ++ x :: l₂))
    (hn : (l₁ ++ x :: l₂).length ≤ n) (hkey : x.key = key) (hfirst : ∀ y ∈ l₁, y.key ≠ key) :
    findNode mem key n prevnode p =
      some (some (x.addr, (l₁.getLast?.map Node.addr).or prevnode)) := by
  induction l₁ generalizing n prevnode p with
  | nil =>
    obtain ⟨n, rfl⟩ := Nat.exists_eq_add_of_le' (Nat.le_trans (Nat.succ_pos l₂.length) hn)
    rw [List.nil_append] at h
    rw [h.head, findNode, h.entry x List.mem_cons_self, Option.bind_eq_bind, Option.bind_some,
      if_pos hkey]
    rfl
  | cons y l₁ ih =>
    rw [List.cons_append] at h hn
    obtain ⟨n, rfl⟩ :=
      Nat.exists_eq_add_of_le' (Nat.le_trans (Nat.succ_pos (l₁ ++ x :: l₂).length) hn)
    rw [h.head, findNode, h.entry y List.mem_cons_self, Option.bind_eq_bind, Option.bind_some,
      if_neg (hfirst y List.mem_cons_self)]
    dsimp only
    rw [ih n (some y.addr) h.tail (Nat.le_of_succ_le_succ hn) fun z hz =>
      hfirst z (List.mem_cons_of_mem _ hz)]
    rw [List.getLast?_cons]
    cases l₁.getLast? <;> rfl

/-- A key is in no entry of a chain, or in a first one. -/
theorem first_or_none (key : κ) (l : List (Node κ)) :
    (∀ x ∈ l, x.key ≠ key) ∨
      ∃ l₁ x l₂, l = l₁ ++ x :: l₂ ∧ x.key = key ∧ ∀ y ∈ l₁, y.key ≠ key := by
  cases hf : l.find? fun x => x.key = key with
  | none => exact Or.inl fun x hx => by simpa using List.find?_eq_none.mp hf x hx
  | some x =>
    obtain ⟨hx, l₁, l₂, hl, hfirst⟩ := List.find?_eq_some_iff_append.mp hf
    exact Or.inr ⟨l₁, x, l₂, hl, by simpa using hx, fun y hy => by simpa using hfirst y hy⟩

end Find

/-! ## Families of chains -/

/-- Chains in one memory without a common entry. -/
structure Chains {ι : Type} (mem : Memory κ) (heads : ι → Option Addr) (c : ι → List (Node κ)) :
    Prop where
  chain : ∀ i, IsChain mem (heads i) (c i)
  live : ∀ i, ∀ x ∈ c i, x.addr ∈ mem.live
  disjoint : ∀ i j, i ≠ j → ∀ x ∈ c i, ∀ y ∈ c j, x.addr ≠ y.addr

namespace Chains

variable {ι : Type} [DecidableEq ι] {heads : ι → Option Addr} {c : ι → List (Node κ)} {i : ι}

/-- A change of one chain that leaves the entries of the others alone. -/
theorem update (h : Chains mem heads c) (hi : IsChain mem' p l)
    (hlive : ∀ x ∈ l, x.addr ∈ mem'.live)
    (hother : ∀ j, j ≠ i → ∀ y ∈ c j,
      mem'.nodes y.addr = mem.nodes y.addr ∧ y.addr ∈ mem'.live ∧ ∀ x ∈ l, x.addr ≠ y.addr) :
    Chains mem' (Function.update heads i p) (Function.update c i l) where
  chain j := by
    by_cases hj : j = i
    · subst hj
      rw [Function.update_self, Function.update_self]
      exact hi
    · rw [Function.update_of_ne hj, Function.update_of_ne hj]
      exact (h.chain j).congr fun y hy => (hother j hj y hy).1
  live j x hx := by
    by_cases hj : j = i
    · subst hj
      rw [Function.update_self] at hx
      exact hlive x hx
    · rw [Function.update_of_ne hj] at hx
      exact (hother j hj x hx).2.1
  disjoint j k hjk x hx y hy := by
    by_cases hj : j = i
    · subst hj
      rw [Function.update_self] at hx
      rw [Function.update_of_ne hjk.symm] at hy
      exact (hother k hjk.symm y hy).2.2 x hx
    · rw [Function.update_of_ne hj] at hx
      by_cases hk : k = i
      · subst hk
        rw [Function.update_self] at hy
        exact ((hother j hj x hx).2.2 y hy).symm
      · rw [Function.update_of_ne hk] at hy
        exact h.disjoint j k hjk x hx y hy

theorem setData (h : Chains mem heads c) (hi : c i = l₁ ++ x :: l₂) (data : ℤ) :
    Chains (mem.write x.addr ⟨x.key, data, mem.next x.addr⟩) heads
      (Function.update c i (l₁ ++ { x with data := data } :: l₂)) := by
  have hchain := h.chain i
  rw [hi] at hchain
  have hmem : ∀ y : Node κ, y ∈ l₁ ++ { x with data := data } :: l₂ →
      ∃ z ∈ c i, z.addr = y.addr := by
    intro y hy
    rw [hi]
    rcases List.mem_append.mp hy with hy | hy
    · exact ⟨y, List.mem_append_left _ hy, rfl⟩
    · rcases List.mem_cons.mp hy with rfl | hy
      · exact ⟨x, List.mem_append_right _ List.mem_cons_self, rfl⟩
      · exact ⟨y, List.mem_append_right _ (List.mem_cons_of_mem _ hy), rfl⟩
  have hx : x ∈ c i := by
    rw [hi]
    exact List.mem_append_right _ List.mem_cons_self
  have hupdate := h.update (i := i) (hchain.setData data)
    (fun y hy => by
      obtain ⟨z, hz, he⟩ := hmem y hy
      exact he ▸ h.live i z hz)
    (fun j hj y hy => ⟨Memory.nodes_write_of_ne (h.disjoint j i hj y hy x hx), h.live j y hy,
      fun z hz => by
        obtain ⟨z', hz', he⟩ := hmem z hz
        exact he ▸ h.disjoint i j hj.symm z' hz' y hy⟩)
  rwa [Function.update_eq_self] at hupdate

theorem push (h : Chains mem heads c) (m : Malloc) (i : ι) (key : κ) (data : ℤ) :
    Chains (mem.malloc m ⟨key, data, heads i⟩).2
      (Function.update heads i (some (m.addr mem.live)))
      (Function.update c i (⟨m.addr mem.live, key, data⟩ :: c i)) := by
  have hne : ∀ j, ∀ y ∈ c j, y.addr ≠ m.addr mem.live := fun j y hy he =>
    m.addr_notMem mem.live (he ▸ h.live j y hy)
  refine h.update ((h.chain i).push m (h.live i) key data) (fun y hy => ?_) fun j hj y hy => ⟨?_, ?_,
    fun z hz => ?_⟩
  · rcases List.mem_cons.mp hy with rfl | hy
    · exact List.mem_cons_self
    · exact List.mem_cons_of_mem _ (h.live i y hy)
  · exact Memory.nodes_write_of_ne (hne j y hy)
  · exact List.mem_cons_of_mem _ (h.live j y hy)
  · rcases List.mem_cons.mp hz with rfl | hz
    · exact (hne j y hy).symm
    · exact h.disjoint i j hj.symm z hz y hy

/-- An entry that is out of its chain is freed. -/
theorem unlinked (h : Chains mem heads c) (hi : c i = l₁ ++ x :: l₂)
    (hmem : IsChain (mem'.free x.addr) p (l₁ ++ l₂)) (hlive : mem'.live = mem.live)
    (hother : ∀ j, j ≠ i → ∀ y ∈ c j, mem'.nodes y.addr = mem.nodes y.addr) :
    Chains (mem'.free x.addr) (Function.update heads i p) (Function.update c i (l₁ ++ l₂)) := by
  have hchain := h.chain i
  rw [hi] at hchain
  have hx : x ∈ c i := by
    rw [hi]
    exact List.mem_append_right _ List.mem_cons_self
  have hsub : ∀ y ∈ l₁ ++ l₂, y ∈ c i := by
    intro y hy
    rw [hi]
    rcases List.mem_append.mp hy with hy | hy
    · exact List.mem_append_left _ hy
    · exact List.mem_append_right _ (List.mem_cons_of_mem _ hy)
  have hkept : ∀ y : Node κ, y.addr ∈ mem.live → y.addr ≠ x.addr →
      y.addr ∈ (mem'.free x.addr).live := by
    intro y hy hne
    refine List.mem_filter.mpr ⟨?_, decide_eq_true hne⟩
    rwa [hlive]
  refine h.update hmem (fun y hy => ?_) fun j hj y hy => ⟨?_, ?_, fun z hz => ?_⟩
  · exact hkept y (h.live i y (hsub y hy)) (hchain.addr_ne (List.mem_append.mp hy))
  · exact (Memory.nodes_free_of_ne (h.disjoint j i hj y hy x hx)).trans (hother j hj y hy)
  · exact hkept y (h.live j y hy) (h.disjoint j i hj y hy x hx)
  · exact h.disjoint i j hj.symm z (hsub z hz) y hy

theorem unlinkFirst (h : Chains mem heads c) (hi : c i = x :: l) :
    Chains (mem.free x.addr) (Function.update heads i (mem.next x.addr))
      (Function.update c i l) := by
  have hchain := h.chain i
  rw [hi] at hchain
  have hsplit : c i = [] ++ x :: l := hi
  exact h.unlinked hsplit hchain.unlinkFirst rfl fun _ _ _ _ => rfl

theorem unlink {y : Node κ} (h : Chains mem heads c) (hi : c i = l₁ ++ y :: x :: l₂) :
    Chains ((mem.write y.addr ⟨y.key, y.data, mem.next x.addr⟩).free x.addr) heads
      (Function.update c i (l₁ ++ y :: l₂)) := by
  have hchain := h.chain i
  rw [hi] at hchain
  have hsplit : c i = (l₁ ++ [y]) ++ x :: l₂ := by
    rw [hi, List.append_assoc]
    rfl
  have hjoin : (l₁ ++ [y]) ++ l₂ = l₁ ++ y :: l₂ := by
    rw [List.append_assoc]
    rfl
  have hy : y ∈ c i := by
    rw [hi]
    exact List.mem_append_right _ List.mem_cons_self
  have hcut := hchain.unlink
  rw [← hjoin] at hcut ⊢
  have hunlinked := h.unlinked hsplit hcut rfl fun j hj z hz =>
    Memory.nodes_write_of_ne (h.disjoint j i hj z hz y hy)
  rwa [Function.update_eq_self] at hunlinked

end Chains

end MpiToShmem.ChunkTable
