import Mathlib.Data.List.Nodup
import Mathlib.Data.List.Perm.Basic

/-!
# Lists whose entries have keys

1. `filter_flatMap_key`: of what is made for a list, the part with a key.
2. `filter_key`: the one entry with a key.
3. `perm_of_filter_key`: a list is known, but for the order of different keys, from its parts.
-/

namespace Kit

variable {α β κ : Type*} [DecidableEq κ]

/-- Of what is made for a list, the part with a key comes from what has the key. -/
theorem filter_flatMap_key {f : α → List β} {key : β → κ} {k : α → κ}
    (hkey : ∀ a, ∀ b ∈ f a, key b = k a) (l : List α) (x : κ) :
    (l.flatMap f).filter (fun b => key b = x) = (l.filter fun a => k a = x).flatMap f := by
  induction l with
  | nil => rfl
  | cons a l ih =>
    rw [List.flatMap_cons, List.filter_append, ih]
    by_cases hx : k a = x
    · rw [List.filter_cons_of_pos (by simpa using hx), List.flatMap_cons,
        List.filter_eq_self.mpr fun b hb => decide_eq_true ((hkey a b hb).trans hx)]
    · rw [List.filter_cons_of_neg (by simpa using hx),
        List.filter_eq_nil_iff.mpr fun b hb => by simpa [hkey a b hb] using hx]
      rfl

/-- Where all keys are different, what has a key is one entry at most. -/
theorem filter_key {k : α → κ} {l : List α} (hl : (l.map k).Nodup) (x : κ) :
    (∃ a ∈ l, (l.filter fun a => k a = x) = [a]) ∨ (l.filter fun a => k a = x) = [] := by
  induction l with
  | nil => exact Or.inr rfl
  | cons a l ih =>
    rw [List.map_cons, List.nodup_cons] at hl
    by_cases hx : k a = x
    · have hnone : (l.filter fun a => k a = x) = [] := by
        refine List.filter_eq_nil_iff.mpr fun b hb => ?_
        simpa using fun hb' => hl.1 (List.mem_map.mpr ⟨b, hb, hb'.trans hx.symm⟩)
      refine Or.inl ⟨a, List.mem_cons_self, ?_⟩
      rw [List.filter_cons_of_pos (by simpa using hx), hnone]
    · rw [List.filter_cons_of_neg (by simpa using hx)]
      exact (ih hl.2).imp_left fun ⟨b, hb, he⟩ => ⟨b, List.mem_cons_of_mem _ hb, he⟩

theorem perm_of_filter_key (key : α → κ) {l l' : List α}
    (h : ∀ x, (l.filter fun a => key a = x) = l'.filter fun a => key a = x) : l.Perm l' := by
  classical
  refine List.perm_iff_count.mpr fun a => ?_
  have hcount : ∀ l : List α, (l.filter fun b => key b = key a).count a = l.count a :=
    fun l => List.count_filter (by simp)
  rw [← hcount l, ← hcount l', h]

end Kit
