import Mathlib.Data.List.Nodup
import Mathlib.Data.List.Basic
import Mathlib.Tactic.Common

/-!
# Linked lists in memory

The links of a memory are a function from addresses to pointers, where `none` is the null pointer.
`Seg link p l q`: following the links from `p` passes the addresses `l` and gets to `q`. A list ends
at the null pointer.

1. `seg_append`: segments are put together and taken apart.
2. `Seg.unique`, `Seg.nodup`: the addresses of a list are determined by its first, and are different.
3. `Seg.snoc`, `Seg.unlink`: a last node is linked in, and any node is taken out.
4. `Doubly.pushFront`, `Doubly.popBack`: the two ends of a doubly linked list.
5. `Doubly.unlink`: any node of a doubly linked list is taken out.
-/

namespace Kit.Linked

variable {α : Type*}

/-- The addresses `l` are on the way from `p` to `q`. -/
def Seg (link : α → Option α) : Option α → List α → Option α → Prop
  | p, [], q => p = q
  | p, a :: l, q => p = some a ∧ Seg link (link a) l q

variable {link link' : α → Option α} {p q : Option α} {l m : List α} {a b : α}

theorem seg_nil : Seg link p [] q ↔ p = q := Iff.rfl

theorem seg_cons : Seg link p (a :: l) q ↔ p = some a ∧ Seg link (link a) l q := Iff.rfl

theorem seg_append : Seg link p (l ++ m) q ↔ ∃ r, Seg link p l r ∧ Seg link r m q := by
  induction l generalizing p with
  | nil => simp [Seg]
  | cons a l ih =>
    rw [List.cons_append, seg_cons, ih]
    constructor
    · rintro ⟨rfl, r, hl, hm⟩
      exact ⟨r, ⟨rfl, hl⟩, hm⟩
    · rintro ⟨r, ⟨rfl, hl⟩, hm⟩
      exact ⟨rfl, r, hl, hm⟩

theorem seg_concat : Seg link p (l ++ [a]) q ↔ Seg link p l (some a) ∧ link a = q := by
  rw [seg_append]
  constructor
  · rintro ⟨r, hl, rfl, hq⟩
    exact ⟨hl, hq⟩
  · rintro ⟨hl, hq⟩
    exact ⟨some a, hl, rfl, hq⟩

/-- Only the links of the addresses on the way matter. -/
theorem Seg.congr (h : Seg link p l q) (hlink : ∀ a ∈ l, link' a = link a) : Seg link' p l q := by
  induction l generalizing p with
  | nil => exact h
  | cons a l ih =>
    refine ⟨h.1, ?_⟩
    rw [hlink a List.mem_cons_self]
    exact ih h.2 fun b hb => hlink b (List.mem_cons_of_mem _ hb)

/-! ## Lists -/

theorem Seg.unique (hl : Seg link p l none) (hm : Seg link p m none) : l = m := by
  induction l generalizing p m with
  | nil =>
    cases m with
    | nil => rfl
    | cons b m =>
      rw [seg_nil.mp hl] at hm
      cases hm.1
  | cons a l ih =>
    cases m with
    | nil =>
      rw [seg_nil.mp hm] at hl
      cases hl.1
    | cons b m =>
      obtain ⟨rfl, hl⟩ := hl
      obtain ⟨hab, hm⟩ := hm
      obtain rfl := Option.some.inj hab
      rw [ih hl hm]

theorem Seg.eq_nil_iff (h : Seg link p l none) : l = [] ↔ p = none := by
  constructor
  · rintro rfl
    exact h
  · rintro rfl
    exact h.unique (m := []) rfl

/-- A list that comes back to an address does not end. -/
theorem Seg.nodup (h : Seg link p l none) : l.Nodup := by
  induction l generalizing p with
  | nil => exact List.nodup_nil
  | cons a l ih =>
    obtain ⟨rfl, htail⟩ := h
    refine List.nodup_cons.mpr ⟨fun ha => ?_, ih htail⟩
    obtain ⟨l₁, l₂, rfl⟩ := List.append_of_mem ha
    obtain ⟨r, -, rfl, hback⟩ := seg_append.mp htail
    have heq := htail.unique hback
    have hlen := congrArg List.length heq
    rw [List.length_append, List.length_cons] at hlen
    omega

theorem Seg.getLast_ne (h : Seg link p (l ++ [b]) none) (ha : a ∈ l) : a ≠ b := by
  rintro rfl
  exact (List.nodup_append.mp h.nodup).2.2 a ha a (List.mem_singleton_self a) rfl

/-- A node becomes the last of a list. -/
theorem Seg.snoc (h : Seg link p l none) (ha : link' a = none)
    (hlast : ∀ b, l.getLast? = some b → link' b = some a)
    (hrest : ∀ b ∈ l, l.getLast? ≠ some b → link' b = link b) :
    Seg link' (p.or (some a)) (l ++ [a]) none := by
  rw [seg_concat]
  refine ⟨?_, ha⟩
  rcases List.eq_nil_or_concat l with rfl | ⟨l, b, rfl⟩
  · rw [seg_nil.mp h]
    rfl
  · rw [List.concat_eq_append] at h hlast hrest ⊢
    have hor : p.or (some a) = p := by
      cases p with
      | none => exact absurd (h.eq_nil_iff.mpr rfl) (by simp)
      | some _ => rfl
    rw [hor, seg_concat]
    refine ⟨(seg_concat.mp h).1.congr fun c hc => ?_, hlast b (by simp)⟩
    have hne := h.getLast_ne hc
    exact hrest c (List.mem_append_left _ hc) (by simpa using hne.symm)

/-- A node is taken out of a list. -/
theorem Seg.unlink (h : Seg link p (l ++ a :: m) none)
    (hbefore : ∀ b, l.getLast? = some b → link' b = link a)
    (hrest : ∀ b ∈ l, l.getLast? ≠ some b → link' b = link b) (hm : ∀ b ∈ m, link' b = link b) :
    Seg link' (if l = [] then link a else p) (l ++ m) none := by
  obtain ⟨r, hl, rfl, htail⟩ := seg_append.mp h
  have hm' : Seg link' (link a) m none := htail.congr hm
  rcases List.eq_nil_or_concat l with rfl | ⟨l, b, rfl⟩
  · rw [if_pos rfl]
    exact hm'
  · rw [List.concat_eq_append] at h hl hbefore hrest ⊢
    rw [if_neg (by simp)]
    refine seg_append.mpr ⟨link a, seg_concat.mpr ⟨?_, hbefore b (by simp)⟩, hm'⟩
    refine (seg_concat.mp hl).1.congr fun c hc => ?_
    rw [List.append_assoc] at h
    have hne := (List.nodup_append.mp h.nodup).2.2 c hc b List.mem_cons_self
    exact hrest c (List.mem_append_left _ hc) (by simpa using hne.symm)

/-- The last node of a list is cut off. -/
theorem Seg.dropLast (h : Seg link p (l ++ [a]) none)
    (hlast : ∀ b, l.getLast? = some b → link' b = none)
    (hrest : ∀ b ∈ l, l.getLast? ≠ some b → link' b = link b) :
    Seg link' (if l = [] then none else p) l none := by
  have ha : link a = none := (seg_concat.mp h).2
  have hcut := h.unlink (fun b hb => (hlast b hb).trans ha.symm) hrest (List.forall_mem_nil _)
  rwa [ha, List.append_nil] at hcut

/-! ## Doubly linked lists -/

/-- From the head by `next` and from the tail by `prev`, the same nodes in opposite orders. -/
structure Doubly (next prev : α → Option α) (head tail : Option α) (l : List α) : Prop where
  forward : Seg next head l none
  backward : Seg prev tail l.reverse none

variable {next prev next' prev' : α → Option α} {head tail : Option α}

theorem doubly_nil : Doubly next prev none none [] := ⟨rfl, rfl⟩

theorem Doubly.congr (h : Doubly next prev head tail l) (hnext : ∀ a ∈ l, next' a = next a)
    (hprev : ∀ a ∈ l, prev' a = prev a) : Doubly next' prev' head tail l where
  forward := h.forward.congr hnext
  backward := h.backward.congr fun a ha => hprev a (List.mem_reverse.mp ha)

/-- A node becomes the head. -/
theorem Doubly.pushFront (h : Doubly next prev head tail l) (hanext : next' a = head)
    (haprev : prev' a = none) (hnext : ∀ b ∈ l, next' b = next b)
    (hhead : ∀ b, head = some b → prev' b = some a)
    (hprev : ∀ b ∈ l, head ≠ some b → prev' b = prev b) :
    Doubly next' prev' (some a) (tail.or (some a)) (a :: l) where
  forward := ⟨rfl, by rw [hanext]; exact h.forward.congr hnext⟩
  backward := by
    have hfirst : ∀ b, l.reverse.getLast? = some b ↔ head = some b := by
      intro b
      rw [List.getLast?_reverse]
      cases l with
      | nil => rw [seg_nil.mp h.forward]; rfl
      | cons c l => rw [h.forward.1]; rfl
    rw [List.reverse_cons]
    refine h.backward.snoc haprev (fun b hb => hhead b ((hfirst b).mp hb)) fun b hb hne => ?_
    exact hprev b (List.mem_reverse.mp hb) fun he => hne ((hfirst b).mpr he)

/-- The tail is cut off. -/
theorem Doubly.popBack (h : Doubly next prev head tail (l ++ [a]))
    (htail : ∀ b, prev a = some b → next' b = none)
    (hnext : ∀ b ∈ l, prev a ≠ some b → next' b = next b)
    (hprev : ∀ b ∈ l, prev' b = prev b) :
    tail = some a ∧ Doubly next' prev' (if l = [] then none else head) (prev a) l := by
  have hback := h.backward
  rw [List.reverse_append, List.reverse_singleton, List.singleton_append] at hback
  obtain ⟨htaila, hback⟩ := hback
  have hlast : ∀ b, l.getLast? = some b ↔ prev a = some b := by
    intro b
    rw [← List.head?_reverse]
    cases hrev : l.reverse with
    | nil =>
      rw [hrev] at hback
      rw [seg_nil.mp hback]
      rfl
    | cons c r =>
      rw [hrev] at hback
      rw [hback.1]
      rfl
  refine ⟨htaila, h.forward.dropLast (fun b hb => htail b ((hlast b).mp hb)) fun b hb hne => ?_,
    hback.congr fun b hb => hprev b (List.mem_reverse.mp hb)⟩
  exact hnext b hb fun he => hne ((hlast b).mpr he)

/-! ## Any node of a doubly linked list -/

theorem Seg.head?_eq (h : Seg link p l none) : p = l.head? := by
  cases l with
  | nil => exact h
  | cons a l => exact h.1

theorem Doubly.swap (h : Doubly next prev head tail l) : Doubly prev next tail head l.reverse where
  forward := h.backward
  backward := by
    rw [List.reverse_reverse]
    exact h.forward

theorem Doubly.tail_eq (h : Doubly next prev head tail l) : tail = l.getLast? := by
  rw [h.backward.head?_eq, List.head?_reverse]

theorem Doubly.next_eq (h : Doubly next prev head tail (l ++ a :: m)) : next a = m.head? := by
  obtain ⟨r, -, -, hm⟩ := seg_append.mp h.forward
  exact hm.head?_eq

theorem Doubly.prev_eq (h : Doubly next prev head tail (l ++ a :: m)) : prev a = l.getLast? := by
  have hs := h.swap
  rw [List.reverse_append, List.reverse_cons, List.append_assoc, List.singleton_append] at hs
  rw [hs.next_eq, List.head?_reverse]

/-- A node becomes the tail. -/
theorem Doubly.pushBack (h : Doubly next prev head tail l) (hanext : next' a = none)
    (haprev : prev' a = tail) (hprev : ∀ b ∈ l, prev' b = prev b)
    (htail : ∀ b, tail = some b → next' b = some a)
    (hnext : ∀ b ∈ l, tail ≠ some b → next' b = next b) :
    Doubly next' prev' (head.or (some a)) (some a) (l ++ [a]) := by
  have hs := (h.swap.pushFront haprev hanext (fun b hb => hprev b (List.mem_reverse.mp hb)) htail
    fun b hb => hnext b (List.mem_reverse.mp hb)).swap
  rwa [List.reverse_cons, List.reverse_reverse] at hs

variable [DecidableEq α]

/-- The links over a node, once it is out: the node before it takes its link. -/
theorem Doubly.unlink_forward (h : Doubly next prev head tail (l ++ a :: m))
    (hnext : ∀ b ∈ l ++ m, next' b = if prev a = some b then next a else next b) :
    Seg next' (if prev a = none then next a else head) (l ++ m) none := by
  have hseg : Seg next' (if l = [] then next a else head) (l ++ m) none :=
    h.forward.unlink (fun b hb => ?_) (fun b hb hne => ?_) fun b hb => ?_
  · rw [h.prev_eq]
    simpa using hseg
  · have hmem := List.mem_append_left m (List.mem_of_getLast? hb)
    rw [hnext b hmem, if_pos (h.prev_eq.trans hb)]
  · rw [hnext b (List.mem_append_left _ hb), if_neg fun he => hne (h.prev_eq.symm.trans he)]
  · refine (hnext b (List.mem_append_right _ hb)).trans (if_neg fun he => ?_)
    have hl := List.mem_of_getLast? (h.prev_eq.symm.trans he)
    exact (List.nodup_append.mp h.forward.nodup).2.2 b hl b (List.mem_cons_of_mem _ hb) rfl

/-- A node is taken out. -/
theorem Doubly.unlink (h : Doubly next prev head tail (l ++ a :: m))
    (hnext : ∀ b ∈ l ++ m, next' b = if prev a = some b then next a else next b)
    (hprev : ∀ b ∈ l ++ m, prev' b = if next a = some b then prev a else prev b) :
    Doubly next' prev' (if prev a = none then next a else head)
      (if next a = none then prev a else tail) (l ++ m) where
  forward := h.unlink_forward hnext
  backward := by
    have hs := h.swap
    rw [List.reverse_append, List.reverse_cons, List.append_assoc, List.singleton_append] at hs
    rw [List.reverse_append]
    refine hs.unlink_forward fun b hb => hprev b ?_
    rwa [← List.reverse_append, List.mem_reverse] at hb

end Kit.Linked
