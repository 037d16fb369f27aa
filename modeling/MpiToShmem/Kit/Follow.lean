import MpiToShmem.Kit.Linked

/-!
# Loops along the links

Loops that go from a pointer along the links of a memory, with a bound on the number of rounds; `none`
is a loop that goes on after that, or a body that fails. A list in memory that the body leaves alone
ahead of the loop is gone through from its first node to its last.

1. `follow_eq`: the next node is read before the body.
2. `search_eq`: the loop stops at the first node that passes a test.
3. `iterate_eq`: the body may take its node out, as the next one has been read a round before.
-/

namespace Kit.Linked

variable {α σ : Type*}

/-- `while (p) { nxt = p->next; body(p); p = nxt; }` -/
def follow (next : σ → α → Option α) (body : σ → α → Option σ) : ℕ → σ → Option α → Option σ
  | _, s, none => some s
  | 0, _, some _ => none
  | n + 1, s, some a => (body s a).bind fun s' => follow next body n s' (next s a)

/-- `while (p) { if (test(p)) break; p = p->next; }` -/
def search (link : α → Option α) (test : α → Bool) : ℕ → Option α → Option (Option α)
  | _, none => some none
  | 0, some _ => none
  | n + 1, some a => if test a then some (some a) else search link test n (link a)

/-- `for (el = p, tmp = p->next; el; el = tmp, tmp = tmp->next) body(el);` where `tmp` stays null once
it is. -/
def iterate (next : σ → α → Option α) (body : σ → α → Option σ) :
    ℕ → σ → Option α → Option α → Option σ
  | _, s, none, _ => some s
  | 0, _, some _, _ => none
  | n + 1, s, some el, tmp =>
    (body s el).bind fun s' => iterate next body n s' tmp (tmp.bind (next s'))

variable {next : σ → α → Option α} {body : σ → α → Option σ} {s : σ} {p : Option α} {l : List α} {n : ℕ}

theorem follow_eq (hkeep : ∀ s a s', body s a = some s' → ∀ b ≠ a, next s' b = next s b)
    (h : Seg (next s) p l none) (hn : l.length ≤ n) : follow next body n s p = l.foldlM body s := by
  induction l generalizing n s p with
  | nil =>
    rw [seg_nil.mp h]
    cases n <;> rfl
  | cons a l ih =>
    cases n with
    | zero => simp at hn
    | succ n =>
      obtain ⟨rfl, htail⟩ := id h
      rw [List.foldlM_cons, follow]
      refine Option.bind_congr fun s' hs' => ?_
      refine ih (htail.congr fun b hb => hkeep s a s' hs' b ?_) (Nat.le_of_succ_le_succ hn)
      rintro rfl
      exact (List.nodup_cons.mp h.nodup).1 hb

theorem search_eq {link : α → Option α} {test : α → Bool} (h : Seg link p l none)
    (hn : l.length ≤ n) : search link test n p = some (l.find? test) := by
  induction l generalizing n p with
  | nil =>
    rw [seg_nil.mp h]
    cases n <;> rfl
  | cons a l ih =>
    cases n with
    | zero => simp at hn
    | succ n =>
      obtain ⟨rfl, htail⟩ := h
      rw [search]
      cases ht : test a with
      | true => simp [ht]
      | false => simpa [ht] using ih htail (Nat.le_of_succ_le_succ hn)

/-- The list that is left is in memory before each round, and the body takes off its first node or
leaves it where it is. -/
theorem iterate_eq {I : List α → σ → Prop} (hseg : ∀ a l s, I (a :: l) s → next s a = l.head?)
    (hbody : ∀ a l s, I (a :: l) s → ∃ s', body s a = some s' ∧ I l s') (h : I l s)
    (hn : l.length ≤ n) :
    ∃ s', iterate next body n s l.head? (l.head?.bind (next s)) = some s' ∧
      l.foldlM body s = some s' ∧ I [] s' := by
  induction l generalizing n s with
  | nil => exact ⟨s, by cases n <;> rfl, rfl, h⟩
  | cons a l ih =>
    cases n with
    | zero => simp at hn
    | succ n =>
      obtain ⟨s₁, hs₁, h₁⟩ := hbody a l s h
      obtain ⟨s', hiter, hfold, hend⟩ := ih h₁ (Nat.le_of_succ_le_succ hn)
      refine ⟨s', ?_, ?_, hend⟩
      · show (body s a).bind _ = _
        rw [hs₁, Option.bind_some]
        show iterate next body n s₁ (next s a) ((next s a).bind (next s₁)) = _
        rw [hseg a l s h]
        exact hiter
      · rw [List.foldlM_cons, hs₁]
        exact hfold

end Kit.Linked
