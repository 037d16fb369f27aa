import Mathlib.Logic.Function.Basic
import Mathlib.Tactic.Common

/-!
# Families of first-in first-out channels

One queue of messages in flight for each peer. `push` sends to a peer, `pop` takes the oldest
message of a peer; neither touches the queues of the others (`push_apply`, `pop_eq_some`).

`forPeer` selects what a list of addressed items holds for one peer, which is what a queue is
compared with.
-/

namespace Kit.Fifo

variable {ι α : Type*} [DecidableEq ι]

/-- A message joins the queue of its peer. -/
def push (c : ι → List α) (i : ι) (a : α) : ι → List α := Function.update c i (c i ++ [a])

/-- The oldest message of a peer, and the queues without it. -/
def pop (c : ι → List α) (i : ι) : Option (α × (ι → List α)) :=
  match c i with
  | [] => none
  | a :: l => some (a, Function.update c i l)

variable {c c' : ι → List α} {i : ι} {a : α}

theorem push_apply (j : ι) : push c i a j = c j ++ if i = j then [a] else [] := by
  unfold push
  by_cases h : i = j
  · subst h
    rw [Function.update_self, if_pos rfl]
  · rw [Function.update_of_ne (Ne.symm h), if_neg h, List.append_nil]

/-- What was popped headed the queue of its peer. -/
theorem pop_eq_some (h : pop c i = some (a, c')) (j : ι) :
    c j = (if i = j then [a] else []) ++ c' j := by
  unfold pop at h
  cases hc : c i with
  | nil =>
    rw [hc] at h
    cases h
  | cons b l =>
    rw [hc] at h
    obtain ⟨rfl, rfl⟩ := Prod.mk.inj (Option.some.inj h)
    by_cases hj : i = j
    · subst hj
      rw [if_pos rfl, Function.update_self, hc]
      rfl
    · rw [if_neg hj, Function.update_of_ne (Ne.symm hj), List.nil_append]

theorem pop_spec (h : pop c i = some (a, c')) : c i = a :: c' i ∧ ∀ j, j ≠ i → c' j = c j := by
  refine ⟨by simpa using pop_eq_some h i, fun j hj => ?_⟩
  have hj' := pop_eq_some h j
  rw [if_neg hj.symm, List.nil_append] at hj'
  exact hj'.symm

/-! ## Addressed items -/

/-- What the items hold for one peer, in order. -/
def forPeer (i : ι) (l : List (ι × α)) : List α := (l.filter fun p => p.1 = i).map Prod.snd

theorem forPeer_concat (j : ι) (l : List (ι × α)) :
    forPeer j (l ++ [(i, a)]) = forPeer j l ++ if i = j then [a] else [] := by
  unfold forPeer
  by_cases h : i = j <;> simp [h]

theorem forPeer_append (j : ι) (l m : List (ι × α)) :
    forPeer j (l ++ m) = forPeer j l ++ forPeer j m := by
  unfold forPeer
  rw [List.filter_append, List.map_append]

theorem forPeer_cons (j : ι) (p : ι × α) (l : List (ι × α)) :
    forPeer j (p :: l) = (if p.1 = j then [p.2] else []) ++ forPeer j l := by
  unfold forPeer
  by_cases h : p.1 = j <;> simp [h]

theorem mem_forPeer {l : List (ι × α)} : a ∈ forPeer i l ↔ (i, a) ∈ l := by
  unfold forPeer
  rw [List.mem_map]
  constructor
  · rintro ⟨p, hp, rfl⟩
    obtain ⟨hmem, hi⟩ := List.mem_filter.mp hp
    obtain rfl := of_decide_eq_true hi
    exact hmem
  · intro h
    exact ⟨(i, a), List.mem_filter.mpr ⟨h, decide_eq_true rfl⟩, rfl⟩

/-- Items of one sender. -/
theorem forPeer_map_mk (j : ι) (l : List α) :
    forPeer j (l.map (Prod.mk i)) = if i = j then l else [] := by
  induction l with
  | nil => exact (ite_self _).symm
  | cons b l ih =>
    rw [List.map_cons, forPeer_cons, ih]
    split_ifs <;> rfl

theorem forPeer_map {β : Type*} (f : α → β) (j : ι) (l : List (ι × α)) :
    forPeer j (l.map fun p => (p.1, f p.2)) = (forPeer j l).map f := by
  induction l with
  | nil => rfl
  | cons p l ih =>
    rw [List.map_cons, forPeer_cons, forPeer_cons, ih]
    dsimp only
    split_ifs <;> rfl

theorem forPeer_flatMap {β : Type*} (f : α → List β) (j : ι) (l : List (ι × α)) :
    forPeer j (l.flatMap fun p => (f p.2).map (Prod.mk p.1)) = (forPeer j l).flatMap f := by
  induction l with
  | nil => rfl
  | cons p l ih =>
    rw [List.flatMap_cons, forPeer_append, forPeer_map_mk, forPeer_cons, ih, List.flatMap_append]
    split_ifs
    · rw [List.flatMap_singleton]
    · rfl

theorem count_forPeer [BEq α] [LawfulBEq α] (l : List (ι × α)) :
    (forPeer i l).count a = l.count (i, a) := by
  induction l with
  | nil => rfl
  | cons p l ih =>
    rw [forPeer_cons, List.count_append, ih, List.count_cons]
    obtain ⟨j, b⟩ := p
    by_cases h : j = i
    · subst h
      by_cases hb : b = a
      · subst hb
        simp [Nat.add_comm]
      · simp [hb]
    · simp [h]

/-- Items that hold the same for every peer are the same in another order. -/
theorem perm_of_forPeer {l m : List (ι × α)} (h : ∀ i, forPeer i l = forPeer i m) : l.Perm m := by
  classical
  rw [List.perm_iff_count]
  intro p
  rw [← count_forPeer, ← count_forPeer, h]

/-- The first item for a peer heads what the items hold for it. -/
theorem forPeer_of_find? {l : List (ι × α)} {p : ι × α} (h : l.find? (fun p => p.1 = i) = some p)
    (j : ι) : forPeer j l = (if i = j then [p.2] else []) ++
      forPeer j (l.eraseP fun p => p.1 = i) := by
  induction l with
  | nil => cases h
  | cons q l ih =>
    unfold forPeer at ih ⊢
    by_cases hq : q.1 = i
    · rw [List.find?_cons_of_pos (by simpa using hq), Option.some.injEq] at h
      subst h
      rw [List.eraseP_cons_of_pos (by simpa using hq)]
      by_cases hj : i = j
      · rw [if_pos hj, List.filter_cons_of_pos (by simpa using hq.trans hj)]
        rfl
      · rw [if_neg hj, List.filter_cons_of_neg (by simpa using fun e => hj (hq.symm.trans e))]
        rfl
    · rw [List.find?_cons_of_neg (by simpa using hq)] at h
      rw [List.eraseP_cons_of_neg (by simpa using hq)]
      have hrec := ih h
      by_cases hj : q.1 = j
      · have hij : ¬ i = j := fun e => hq (hj.trans e.symm)
        rw [if_neg hij] at hrec ⊢
        rw [List.filter_cons_of_pos (by simpa using hj), List.filter_cons_of_pos (by simpa using hj),
          List.map_cons, List.map_cons, hrec]
        rfl
      · rw [List.filter_cons_of_neg (by simpa using hj), List.filter_cons_of_neg (by simpa using hj)]
        exact hrec

/-- A queue that holds what the items hold for each peer does so after a message is taken for the
first item of a peer, and the two belong together. -/
theorem forPeer_of_pop {l : List (ι × α)} {p : ι × α} {rest : ι → List α}
    (hl : ∀ j, c j ++ rest j = forPeer j l) (hf : l.find? (fun p => p.1 = i) = some p)
    (hp : pop c i = some (a, c')) :
    p.2 = a ∧ ∀ j, c' j ++ rest j = forPeer j (l.eraseP fun p => p.1 = i) := by
  have heq : ∀ j, (if i = j then [a] else []) ++ (c' j ++ rest j) =
      (if i = j then [p.2] else []) ++ forPeer j (l.eraseP fun p => p.1 = i) := by
    intro j
    rw [← List.append_assoc, ← pop_eq_some hp j, hl j, ← forPeer_of_find? hf j]
  constructor
  · have hi := heq i
    rw [if_pos rfl, if_pos rfl] at hi
    exact (List.cons.inj hi).1.symm
  · intro j
    have hj := heq j
    by_cases hij : i = j
    · rw [if_pos hij, if_pos hij] at hj
      exact (List.cons.inj hj).2
    · rwa [if_neg hij, if_neg hij] at hj

end Kit.Fifo
