import Mathlib.Logic.Basic
import Mathlib.Data.Option.Basic

/-!
# Runs of a partial step function

A system is a function `f : σ → α → Option σ`: `f s a` is the state after the step labelled `a`,
or `none` where the step is not possible in `s`. All nondeterminism (interleaving, delivery,
failures of the environment) is in the labels, so a run is a list of labels.

1. `exec f s ls` is the state after the labels `ls`.
2. `Meets f G s ls` says that every step of the run is taken in a state where the guard `G` holds.
3. `exec_inv` and `exec_inv_meets` are the invariant rules; `exec_rel` relates a run to the run of
   a second system that takes the same labels, and `exec_bisim` says that neither can take a step
   that the other cannot.
-/

namespace Kit

variable {σ τ α : Type*} {f : σ → α → Option σ} {G : σ → α → Prop} {s t u : σ} {a : α}
  {ls ms : List α}

/-- The state after the labels `ls`, when every step is possible. -/
def exec (f : σ → α → Option σ) (s : σ) : List α → Option σ
  | [] => some s
  | a :: ls => (f s a).bind fun t => exec f t ls

@[simp] theorem exec_nil : exec f s [] = some s := rfl

theorem exec_cons : exec f s (a :: ls) = (f s a).bind fun t => exec f t ls := rfl

theorem exec_cons_eq_some :
    exec f s (a :: ls) = some u ↔ ∃ t, f s a = some t ∧ exec f t ls = some u := by
  rw [exec_cons, Option.bind_eq_some_iff]

theorem exec_append : exec f s (ls ++ ms) = (exec f s ls).bind fun t => exec f t ms := by
  induction ls generalizing s with
  | nil => rfl
  | cons a ls ih =>
    rw [List.cons_append, exec_cons, exec_cons, Option.bind_assoc]
    congr 1
    funext t
    exact ih

/-- A step invariant holds after every run. -/
theorem exec_inv {I : σ → Prop} (hstep : ∀ s a t, I s → f s a = some t → I t) (hs : I s)
    (h : exec f s ls = some t) : I t := by
  induction ls generalizing s with
  | nil => cases h; exact hs
  | cons a ls ih =>
    obtain ⟨s', hf, h⟩ := exec_cons_eq_some.mp h
    exact ih (hstep s a s' hs hf) h

/-- An invariant kept by the steps with labels of one kind holds after every run of such labels. -/
theorem exec_inv_labels {I : σ → Prop} {P : α → Prop}
    (hstep : ∀ s a t, I s → P a → f s a = some t → I t) (hs : I s) (hP : ∀ a ∈ ls, P a)
    (h : exec f s ls = some t) : I t := by
  induction ls generalizing s with
  | nil => cases h; exact hs
  | cons a ls ih =>
    obtain ⟨s', hf, h⟩ := exec_cons_eq_some.mp h
    exact ih (hstep s a s' hs (hP a List.mem_cons_self) hf)
      (fun b hb => hP b (List.mem_cons_of_mem _ hb)) h

/-- Every step of the run `ls` from `s` is taken in a state where the guard holds. -/
def Meets (f : σ → α → Option σ) (G : σ → α → Prop) (s : σ) : List α → Prop
  | [] => True
  | a :: ls => G s a ∧ match f s a with
    | none => True
    | some t => Meets f G t ls

@[simp] theorem meets_nil : Meets f G s [] := trivial

theorem meets_true : Meets f (fun _ _ => True) s ls := by
  induction ls generalizing s with
  | nil => trivial
  | cons a ls ih =>
    refine ⟨trivial, ?_⟩
    cases f s a with
    | none => trivial
    | some t => exact ih

theorem Meets.head (h : Meets f G s (a :: ls)) : G s a := h.1

theorem Meets.tail (h : Meets f G s (a :: ls)) (hf : f s a = some t) : Meets f G t ls := by
  have h2 := h.2
  rw [hf] at h2
  exact h2

instance Meets.decidable [∀ s a, Decidable (G s a)] :
    ∀ (ls : List α) (s : σ), Decidable (Meets f G s ls)
  | [], _ => .isTrue trivial
  | a :: ls, s =>
    let rest : Decidable (match f s a with
        | none => True
        | some t => Meets f G t ls) :=
      match f s a with
      | none => .isTrue trivial
      | some t => Meets.decidable ls t
    @instDecidableAnd _ _ _ rest

/-- An invariant kept by the steps that meet the guard holds after every run that meets it. -/
theorem exec_inv_meets {I : σ → Prop} (hstep : ∀ s a t, I s → G s a → f s a = some t → I t)
    (hs : I s) (hG : Meets f G s ls) (h : exec f s ls = some t) : I t := by
  induction ls generalizing s with
  | nil => cases h; exact hs
  | cons a ls ih =>
    obtain ⟨s', hf, h⟩ := exec_cons_eq_some.mp h
    exact ih (hstep s a s' hs hG.head hf) (hG.tail hf) h

/-- Two systems in step: a relation kept by every pair of steps with one label holds after a run
of the first that meets the guard, and the second can take the same run. -/
theorem exec_rel {g : τ → α → Option τ} {R : σ → τ → Prop}
    (hstep : ∀ s a s' t, R s t → G s a → f s a = some s' → ∃ t', g t a = some t' ∧ R s' t')
    {s s' : σ} {t : τ} (hR : R s t) (hG : Meets f G s ls) (h : exec f s ls = some s') :
    ∃ t', exec g t ls = some t' ∧ R s' t' := by
  induction ls generalizing s t with
  | nil => cases h; exact ⟨t, rfl, hR⟩
  | cons a ls ih =>
    obtain ⟨s₁, hf, h⟩ := exec_cons_eq_some.mp h
    obtain ⟨t₁, hg, hR₁⟩ := hstep s a s₁ t hR hG.head hf
    obtain ⟨t', ht', hR'⟩ := ih hR₁ (hG.tail hf) h
    exact ⟨t', exec_cons_eq_some.mpr ⟨t₁, hg, ht'⟩, hR'⟩

/-- Two systems that take or refuse every label together, as long as the first meets the guard. -/
theorem exec_bisim {g : τ → α → Option τ} {R : σ → τ → Prop}
    (hstep : ∀ s t a, R s t → G s a → Option.Rel R (f s a) (g t a)) {s : σ} {t : τ} (hR : R s t)
    (hG : Meets f G s ls) : Option.Rel R (exec f s ls) (exec g t ls) := by
  induction ls generalizing s t with
  | nil => exact .some hR
  | cons a ls ih =>
    have hrel := hstep s t a hR hG.head
    rw [exec_cons, exec_cons]
    generalize hf : f s a = x at hrel ⊢
    generalize g t a = y at hrel ⊢
    cases hrel with
    | none => exact .none
    | some hR₁ => exact ih hR₁ (hG.tail hf)

end Kit
