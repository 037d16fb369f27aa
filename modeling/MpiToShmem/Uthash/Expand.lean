import MpiToShmem.Uthash.Chains
import Mathlib.Algebra.BigOperators.Group.Finset.Basic

/-!
# Bucket expansion

1. `expanding_run`: the loop over the elements, in any order.
2. `expandBuckets_spec`: what `HASH_EXPAND_BUCKETS` does to a table that is in order.
-/

namespace MpiToShmem.Uthash

open Kit.Linked

variable {A κ : Type} {h : Hash A κ} {ideal num : ℕ} {done : List A} {l : List A}

theorem hashToBkt_eq (hashv k : ℕ) : hashToBkt hashv (2 ^ k) = hashv % 2 ^ k :=
  Nat.and_two_pow_sub_one_eq_mod hashv k

theorem hashToBkt_lt (hashv : ℕ) {k : ℕ} (hnum : num = 2 ^ k) : hashToBkt hashv num < num := by
  subst hnum
  rw [hashToBkt_eq]
  exact Nat.mod_lt _ (Nat.two_pow_pos k)

/-- The number of items by the number of new buckets, rounded up. -/
theorem newIdealChainMaxlen_eq {t : Table A} (hnum : t.numBuckets = 2 ^ t.log2NumBuckets) :
    newIdealChainMaxlen t = (t.numItems + (t.numBuckets * 2 - 1)) / (t.numBuckets * 2) := by
  unfold newIdealChainMaxlen
  rw [hnum, ← pow_succ, Nat.and_two_pow_sub_one_eq_mod, Nat.shiftRight_eq_div_pow]
  have hpos := Nat.two_pow_pos (t.log2NumBuckets + 1)
  generalize 2 ^ (t.log2NumBuckets + 1) = m at hpos
  have hdiv := Nat.div_add_mod' t.numItems m
  have hmod := Nat.mod_lt t.numItems hpos
  symm
  split_ifs with h
  · refine Nat.div_eq_of_lt_le ?_ ?_
    · rw [Nat.add_mul, Nat.one_mul]
      omega
    · rw [Nat.add_mul, Nat.add_mul, Nat.one_mul]
      omega
  · refine Nat.div_eq_of_lt_le ?_ ?_
    · rw [Nat.add_zero]
      omega
    · rw [Nat.add_zero, Nat.add_mul, Nat.one_mul]
      omega

theorem newIdealChainMaxlen_pos {t : Table A} (hnum : t.numBuckets = 2 ^ t.log2NumBuckets)
    (hitems : 0 < t.numItems) : 0 < newIdealChainMaxlen t := by
  rw [newIdealChainMaxlen_eq hnum]
  exact Nat.div_pos (by omega) (by rw [hnum]; exact Nat.mul_pos (Nat.two_pow_pos _) Nat.two_pos)

/-- The sum over the buckets, when one of them is another one. -/
theorem sum_update {buckets : ℕ → Bucket A} {i : ℕ} (hi : i < num) (b : Bucket A) (g : Bucket A → ℕ) :
    ∑ j ∈ Finset.range num, g (Function.update buckets i b j) + g (buckets i) =
      ∑ j ∈ Finset.range num, g (buckets j) + g b := by
  have hmem : i ∈ Finset.range num := Finset.mem_range.mpr hi
  have hrest : ∑ j ∈ (Finset.range num).erase i, g (Function.update buckets i b j) =
      ∑ j ∈ (Finset.range num).erase i, g (buckets j) :=
    Finset.sum_congr rfl fun j hj => by rw [Function.update_of_ne (Finset.ne_of_mem_erase hj)]
  rw [← Finset.add_sum_erase _ _ hmem, ← Finset.add_sum_erase _ (fun j => g (buckets j)) hmem, hrest,
    Function.update_self]
  ac_rfl

variable [DecidableEq A] {s s' : Expansion A κ} {a : A}

/-- In the loop: `done` are the elements that are in their new buckets. -/
structure Expanding (h : Hash A κ) (ideal num : ℕ) (done : List A) (s : Expansion A κ) : Prop where
  chained : Chained s.hh s.buckets num done
  app : SameApp s.hh h.hh
  ahead : ∀ a ∉ done, (s.hh.get a).hhNext = (h.hh.get a).hhNext
  mult : ∀ i, (s.buckets i).expandMult =
    if ideal < (s.buckets i).count then (s.buckets i).count / ideal else 0
  nonideal : s.nonidealItems = ∑ i ∈ Finset.range num, ((s.buckets i).count - ideal)

omit [DecidableEq A] in
theorem expanding_start : Expanding h ideal num [] ⟨h.hh, fun _ => Bucket.zero, 0⟩ where
  chained := chained_nil
  app _ := ⟨rfl, rfl, rfl, rfl⟩
  ahead _ _ := rfl
  mult _ := rfl
  nonideal := by simp [Bucket.zero]

theorem expandItem_hhNext (hs : expandItem ideal num s a = some s') {b : A} (hb : b ≠ a) :
    (s'.hh.get b).hhNext = (s.hh.get b).hhNext := by
  unfold expandItem at hs
  dsimp only at hs
  rw [Option.ite_none_right_eq_some] at hs
  obtain rfl := Option.some.inj hs.2
  simp [hb]

theorem Expanding.step (hs : Expanding h ideal num done s) (ha : a ∉ done) (hideal : 0 < ideal) {k : ℕ}
    (hnum : num = 2 ^ k) :
    ∃ s', expandItem ideal num s a = some s' ∧ Expanding h ideal num (a :: done) s' := by
  have hlt : hashToBkt (s.hh.get a).hashv num < num := hashToBkt_lt _ hnum
  unfold expandItem
  dsimp only
  rw [if_pos ⟨hlt, fun _ => hideal.ne'⟩]
  generalize hi : hashToBkt (s.hh.get a).hashv num = i at hlt
  refine ⟨_, rfl, hs.chained.linkFront ha hi _, sameApp_linkFront.trans hs.app, fun b hb => ?_,
    fun j => ?_, ?_⟩
  · rw [List.mem_cons, not_or] at hb
    simp [hb.1, hs.ahead b hb.2]
  · by_cases hij : j = i
    · subst hij
      have hm := hs.mult j
      simp only [Function.update_self]
      by_cases hc : ideal < (s.buckets j).count + 1
      · rw [if_pos hc, if_pos hc]
      · rw [if_neg hc, if_neg hc, hm, if_neg (by omega)]
    · simpa [Function.update_of_ne hij] using hs.mult j
  · have hsum := @sum_update A num s.buckets i hlt ⟨some a, (s.buckets i).count + 1,
      if ideal < (s.buckets i).count + 1 then ((s.buckets i).count + 1) / ideal
      else (s.buckets i).expandMult⟩ fun b => b.count - ideal
    dsimp only at hsum ⊢
    rw [← hs.nonideal] at hsum
    split_ifs with hc
    · rw [if_pos hc] at hsum
      omega
    · rw [if_neg hc] at hsum
      omega

theorem Expanding.run (todo : List A) (hs : Expanding h ideal num done s)
    (hnd : (todo ++ done).Nodup) (hideal : 0 < ideal) {k : ℕ} (hnum : num = 2 ^ k) :
    ∃ s', todo.foldlM (expandItem ideal num) s = some s' ∧
      Expanding h ideal num (todo.reverse ++ done) s' := by
  induction todo generalizing done s with
  | nil => exact ⟨s, rfl, hs⟩
  | cons a todo ih =>
    obtain ⟨hnot, hnd'⟩ := List.nodup_cons.mp hnd
    obtain ⟨s₁, hs₁, h₁⟩ := hs.step (fun ha => hnot (List.mem_append_right _ ha)) hideal hnum
    obtain ⟨s', hs', h'⟩ := ih h₁ (List.nodup_middle.mpr hnd)
    refine ⟨s', ?_, ?_⟩
    · rw [List.foldlM_cons, hs₁]
      exact hs'
    · rw [List.reverse_cons, List.append_assoc]
      exact h'

/-! ## The two loops -/

section Loops

variable {hashFcn : κ → ℕ} (ht : TableHolds hashFcn h l) (hnd : l.Nodup) {c : ℕ → List A}
  (hc : ∀ i < h.tbl.numBuckets, Chain h.hh (h.tbl.buckets i) (c i) ∧
    (c i).Perm (l.filter fun a => hashToBkt (h.hh.get a).hashv h.tbl.numBuckets = i))

omit [DecidableEq A] in
include hc in
theorem mem_chain {i : ℕ} (hi : i < h.tbl.numBuckets) {a : A} :
    a ∈ c i ↔ a ∈ l ∧ hashToBkt (h.hh.get a).hashv h.tbl.numBuckets = i := by
  rw [(hc i hi).2.mem_iff]
  simp

omit [DecidableEq A] in
include hc in
theorem nodup_chains {n : ℕ} (hn : n ≤ h.tbl.numBuckets) : ((List.range n).flatMap c).Nodup := by
  have hlt : ∀ i ∈ List.range n, i < h.tbl.numBuckets := fun i hi =>
    (List.mem_range.mp hi).trans_le hn
  refine List.nodup_flatMap.mpr ⟨fun i hi => (hc i (hlt i hi)).1.nodup, ?_⟩
  refine List.nodup_range.imp_of_mem fun {i j} hi hj hij a hai haj => ?_
  rw [mem_chain hc (hlt i hi)] at hai
  rw [mem_chain hc (hlt j hj)] at haj
  exact hij (hai.2.symm.trans haj.2)

omit [DecidableEq A] in
include ht hnd hc in
theorem chains_perm : ((List.range h.tbl.numBuckets).flatMap c).Perm l := by
  rw [List.perm_ext_iff_of_nodup (nodup_chains hc le_rfl) hnd]
  intro a
  rw [List.mem_flatMap]
  constructor
  · rintro ⟨i, hi, ha⟩
    exact ((mem_chain hc (List.mem_range.mp hi)).mp ha).1
  · intro ha
    have hlt := hashToBkt_lt (h.hh.get a).hashv ht.numBuckets
    exact ⟨_, List.mem_range.mpr hlt, (mem_chain hc hlt).mpr ⟨ha, rfl⟩⟩

include ht hc in
theorem expanding_loop (hideal : 0 < ideal) {n : ℕ} (hn : n ≤ h.tbl.numBuckets) :
    ∃ s, (List.range n).foldlM (fun s i => do
        let b ← h.tbl.bucket i
        follow (fun s a => (s.hh.get a).hhNext) (expandItem ideal (h.tbl.numBuckets * 2))
          h.tbl.numItems s b.hhHead) ⟨h.hh, fun _ => Bucket.zero, 0⟩ = some s ∧
      Expanding h ideal (h.tbl.numBuckets * 2) ((List.range n).flatMap c).reverse s := by
  induction n with
  | zero => exact ⟨_, rfl, expanding_start⟩
  | succ n ih =>
    obtain ⟨s, hs, hexp⟩ := ih (Nat.le_of_succ_le hn)
    have hnum : h.tbl.numBuckets * 2 = 2 ^ (h.tbl.log2NumBuckets + 1) := by
      rw [ht.numBuckets, pow_succ]
    have hnd' := nodup_chains hc hn
    rw [List.range_succ, List.flatMap_append, List.flatMap_singleton] at hnd' ⊢
    obtain ⟨s', hs', hexp'⟩ := hexp.run (c n)
      (List.nodup_append_comm.mp (hnd'.perm ((List.reverse_perm _).symm.append_right _))) hideal hnum
    refine ⟨s', ?_, ?_⟩
    · obtain ⟨⟨⟨tail, hlinks⟩, -⟩, hperm⟩ := hc n hn
      -- the elements of the bucket are still linked as they were
      have hseg : Seg (fun a => (s.hh.get a).hhNext) (h.tbl.buckets n).hhHead (c n) none :=
        hlinks.forward.congr fun a ha => hexp.ahead a fun hdone =>
          (List.nodup_append.mp hnd').2.2 a (List.mem_reverse.mp hdone) a ha rfl
      have hlen : (c n).length ≤ h.tbl.numItems := by
        rw [ht.numItems, hperm.length_eq]
        exact List.length_filter_le _ _
      have hfollow : follow (fun s a => (s.hh.get a).hhNext) (expandItem ideal (h.tbl.numBuckets * 2))
          h.tbl.numItems s (h.tbl.buckets n).hhHead = some s' := by
        refine (follow_eq (fun s a s' hs b hb => ?_) hseg hlen).trans hs'
        exact expandItem_hhNext hs hb
      rw [List.foldlM_append, hs, Option.bind_eq_bind, Option.bind_some, List.foldlM_cons,
        Table.bucket_of_lt hn, Option.bind_eq_bind, Option.bind_eq_bind, Option.bind_some, hfollow]
      rfl
    · rw [List.reverse_append]
      exact hexp'

end Loops

/-! ## The macro -/

/-- What `HASH_EXPAND_BUCKETS` leaves as it is, and what it writes into the table. -/
structure Expanded (h h' : Hash A κ) : Prop where
  head : h'.head = h.head
  app : SameApp h'.hh h.hh
  tail : h'.tbl.tail = h.tbl.tail
  numItems : h'.tbl.numItems = h.tbl.numItems
  numBuckets : h'.tbl.numBuckets = h.tbl.numBuckets * 2
  ideal : h'.tbl.idealChainMaxlen =
    (h'.tbl.numItems + (h'.tbl.numBuckets - 1)) / h'.tbl.numBuckets
  mult : ∀ i, (h'.tbl.buckets i).expandMult =
    if h'.tbl.idealChainMaxlen < (h'.tbl.buckets i).count then
      (h'.tbl.buckets i).count / h'.tbl.idealChainMaxlen else 0
  nonideal : h'.tbl.nonidealItems =
    ∑ i ∈ Finset.range h'.tbl.numBuckets, ((h'.tbl.buckets i).count - h'.tbl.idealChainMaxlen)

/-- A table that is in order, with an element in it, is so after the expansion, and has the same
elements. -/
theorem expandBuckets_spec {hashFcn : κ → ℕ} (ht : TableHolds hashFcn h l) (hnd : l.Nodup)
    (hne : l ≠ []) :
    ∃ h', hashExpandBuckets h = some h' ∧ TableHolds hashFcn h' l ∧ Expanded h h' := by
  have hpos : 0 < h.tbl.numItems := by
    rw [ht.numItems]
    exact List.length_pos_of_ne_nil hne
  choose! c hc using ht.chained
  obtain ⟨s, hs, hexp⟩ := expanding_loop ht hc (newIdealChainMaxlen_pos ht.numBuckets hpos) le_rfl
  have hdone : (((List.range h.tbl.numBuckets).flatMap c).reverse).Perm l :=
    (List.reverse_perm _).trans (chains_perm ht hnd hc)
  have hloop : expandLoop h (newIdealChainMaxlen h.tbl) = some s := hs
  refine ⟨_, by unfold hashExpandBuckets; dsimp only; rw [hloop]; rfl, ?_, ?_⟩
  · refine ⟨?_, ht.numItems, fun a ha => ?_, hexp.chained.perm hdone⟩
    · show h.tbl.numBuckets * 2 = 2 ^ (h.tbl.log2NumBuckets + 1)
      rw [ht.numBuckets, pow_succ]
    · obtain ⟨-, -, hkey, hhashv⟩ := hexp.app a
      exact hhashv.trans ((ht.hashed a ha).trans (congrArg hashFcn hkey.symm))
  · exact ⟨rfl, hexp.app, rfl, rfl, rfl, newIdealChainMaxlen_eq ht.numBuckets, hexp.mult,
      hexp.nonideal⟩

end MpiToShmem.Uthash
