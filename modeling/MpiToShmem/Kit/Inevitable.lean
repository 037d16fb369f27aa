import Mathlib.Logic.Hydra
import Mathlib.Algebra.BigOperators.Group.Finset.Basic
import Mathlib.Algebra.Group.Prod
import Mathlib.Tactic.Abel
import Mathlib.Algebra.Order.Group.Nat

/-!
# What must happen

`Inevitable step P s`: every way to go on from `s` comes to a state with `P` after finitely many
steps, and until then there is a step to take.

1. `inevitable_of_wellFounded`: from an invariant under which something can be done until `P` holds,
   and a measure that every step makes smaller.
2. `Spent`: a measure for work that breaks up into smaller work. A multiset of pieces, of which each
   may be replaced by any number of smaller ones, and beside it the steps that replace none.
-/

namespace Kit

open Relation

variable {σ β : Type*} {step : σ → σ → Prop} {P I : σ → Prop} {s t : σ}

inductive Inevitable (step : σ → σ → Prop) (P : σ → Prop) : σ → Prop
  | now {s : σ} (h : P s) : Inevitable step P s
  | later {s : σ} (hsome : ∃ t, step s t) (hall : ∀ t, step s t → Inevitable step P t) :
    Inevitable step P s

/-- Something can be done until `P` holds, and not for ever. -/
theorem inevitable_of_wellFounded {r : β → β → Prop} (hwf : WellFounded r) (m : σ → β)
    (hstep : ∀ s t, I s → step s t → I t ∧ r (m t) (m s))
    (hprogress : ∀ s, I s → P s ∨ ∃ t, step s t) (hs : I s) : Inevitable step P s := by
  induction hm : m s using hwf.induction generalizing s with
  | _ b ih =>
    rcases hprogress s hs with hp | hsome
    · exact .now hp
    · refine .later hsome fun t ht => ?_
      obtain ⟨hI, hless⟩ := hstep s t hs ht
      exact ih (m t) (hm ▸ hless) hI rfl

theorem Inevitable.mono {Q : σ → Prop} (h : Inevitable step P s) (hpq : ∀ s, P s → Q s) :
    Inevitable step Q s := by
  induction h with
  | now h => exact .now (hpq _ h)
  | later hsome _ ih => exact .later hsome ih

/-! ## Work that breaks up -/

variable {α : Type*} {r : α → α → Prop}

/-- The pieces of work, and the steps that replace none of them. -/
abbrev Spent (α : Type*) := Multiset α × ℕ

/-- A piece is replaced by smaller ones, or a step is taken. -/
def Less (r : α → α → Prop) : Spent α → Spent α → Prop := Prod.Lex (CutExpand r) (· < ·)

theorem wellFounded_less (hr : WellFounded r) : WellFounded (Less r) := by
  have : Std.Irrefl r := ⟨fun a => hr.irrefl.irrefl a⟩
  exact WellFounded.prod_lex hr.cutExpand Nat.lt_wfRel.wf

/-- The pieces are the same, and steps have been taken. -/
theorem less_of_steps {m m' x y : Spent α} (h : m' + x = m + y) (hw : x.1 = y.1)
    (hn : y.2 < x.2) : Less r m' m := by
  obtain ⟨h1, h2⟩ := Prod.ext_iff.mp h
  obtain ⟨a, k⟩ := m
  obtain ⟨a', k'⟩ := m'
  change a' + x.1 = a + y.1 at h1
  change k' + x.2 = k + y.2 at h2
  rw [hw] at h1
  obtain rfl := add_right_cancel h1
  refine Prod.Lex.right _ ?_
  omega

/-- A piece is taken out and smaller ones put in. -/
theorem less_of_piece {m m' x y : Spent α} {a : α} (h : m' + x = m + y) (hx : x.1 = {a})
    (hl : ∀ b ∈ y.1, r b a) : Less r m' m := by
  obtain ⟨h1, -⟩ := Prod.ext_iff.mp h
  obtain ⟨u, k⟩ := m
  obtain ⟨u', k'⟩ := m'
  change u' + x.1 = u + y.1 at h1
  rw [hx] at h1
  exact Prod.Lex.left _ _ ⟨y.1, a, hl, h1⟩

/-- A sum in which one part has changed. -/
theorem sum_add_of_eq {M ι : Type*} [AddCommMonoid M] [DecidableEq ι] {u : Finset ι} {f g : ι → M}
    {i : ι} (hi : i ∈ u) (h : ∀ j ∈ u, j ≠ i → g j = f j) :
    ∑ j ∈ u, g j + f i = ∑ j ∈ u, f j + g i := by
  rw [← Finset.add_sum_erase u g hi, ← Finset.add_sum_erase u f hi,
    Finset.sum_congr rfl fun j hj => h j (Finset.mem_of_mem_erase hj) (Finset.ne_of_mem_erase hj),
    add_right_comm, add_comm (g i), add_right_comm]

/-- A sum in which one part has `x` more. -/
theorem sum_eq_add {M ι : Type*} [AddCancelCommMonoid M] [DecidableEq ι] {u : Finset ι}
    {f g : ι → M} {i : ι} {x : M} (hi : i ∈ u) (hself : g i = f i + x)
    (h : ∀ j ∈ u, j ≠ i → g j = f j) : ∑ j ∈ u, g j = ∑ j ∈ u, f j + x := by
  have hsum := sum_add_of_eq hi h
  rw [hself, ← add_assoc, add_right_comm] at hsum
  exact add_right_cancel hsum

end Kit
