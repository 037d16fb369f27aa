import Mathlib.Data.List.Basic

/-!
# A partial function that does more than another

The first computes what the second does, with something added, and may fail where the second does
not. `Related p R a b` holds of two results when what the first gives is matched by the second, and,
if `p` holds, nothing is missing.

1. `related_bind`: what goes on after related results.
2. `related_foldlM`: two loops over one list, whose states are related after every step.
-/

namespace Kit

variable {α α' β β' γ : Type*} {p : Prop}

def Related (p : Prop) (R : α → β → Prop) (a : Option α) (b : Option β) : Prop :=
  (∀ x, a = some x → ∃ y, b = some y ∧ R x y) ∧ (p → ∀ y, b = some y → ∃ x, a = some x)

theorem related_some {R : α → β → Prop} {x : α} {y : β} (h : R x y) :
    Related p R (some x) (some y) :=
  ⟨fun _ hx => ⟨y, rfl, Option.some.inj hx ▸ h⟩, fun _ _ _ => ⟨x, rfl⟩⟩

theorem related_none {R : α → β → Prop} : Related p R none none :=
  ⟨fun _ hx => absurd hx (Option.some_ne_none _).symm, fun _ _ hy => absurd hy (Option.some_ne_none _).symm⟩

theorem related_bind {R : α → β → Prop} {S : α' → β' → Prop} {a : Option α} {b : Option β}
    (h : Related p R a b) {f : α → Option α'} {g : β → Option β'}
    (hfg : ∀ x y, R x y → Related p S (f x) (g y)) : Related p S (a.bind f) (b.bind g) := by
  constructor
  · intro z hz
    obtain ⟨x, hx, hz⟩ := Option.bind_eq_some_iff.mp hz
    obtain ⟨y, hy, hR⟩ := h.1 x hx
    rw [hy]
    exact (hfg x y hR).1 z hz
  · intro hp z hz
    obtain ⟨y, hy, hz⟩ := Option.bind_eq_some_iff.mp hz
    obtain ⟨x, hx⟩ := h.2 hp y hy
    obtain ⟨y', hy', hR⟩ := h.1 x hx
    obtain rfl := Option.some.inj (hy'.symm.trans hy)
    rw [hx]
    exact (hfg x y' hR).2 hp z hz

/-- The relation may depend on the number of steps that have been taken. -/
theorem related_foldlM {R : ℕ → α → β → Prop} {f : α → γ → Option α} {g : β → γ → Option β}
    {l : List γ} (hfg : ∀ c ∈ l, ∀ n a b, R n a b → Related p (R (n + 1)) (f a c) (g b c)) {n : ℕ}
    {a : α} {b : β} (h : R n a b) :
    Related p (R (n + l.length)) (l.foldlM f a) (l.foldlM g b) := by
  induction l generalizing n a b with
  | nil => exact related_some h
  | cons c l ih =>
    rw [List.foldlM_cons, List.foldlM_cons, List.length_cons, Nat.add_comm l.length, ← Nat.add_assoc]
    exact related_bind (hfg c List.mem_cons_self n a b h)
      fun _ _ h' => ih (fun c' hc => hfg c' (List.mem_cons_of_mem _ hc)) h'

end Kit
