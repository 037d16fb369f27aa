import MpiToShmem.Kit.OneSided

/-!
# Memory that nobody sees

Some regions hold, at first, whatever they hold. A program that reads there only what was written
before runs as it would with anything else there, and with room of another size.

1. `Op.reads`, `SeesStored`: what an operation reads, and that it was written.
2. `Alike`: two worlds that differ only where nothing has been written.
3. `exec_alike`: they take the same runs.
-/

namespace Kit.OneSided

variable {ρ : Type} [DecidableEq ρ] {S : ρ → Prop} {M M' : Machine ρ} {w w' : World ρ}
  {ls : List Label} {pe : ℕ}

/-! ## What is read -/

omit [DecidableEq ρ] in
/-- What an operation of `pe` reads: in whose memory, from where, and how many bytes. -/
def Op.reads (pe : ℕ) : Op ρ → List (ℕ × Ptr ρ × ℤ)
  | copy _ src n => [(pe, src, n)]
  | put _ _ src n => [(pe, src, n)]
  | putInt _ _ _ => []
  | get t _ src n => [(t, src, n)]
  | await t cell width (.lit _) => [(t, cell, width)]
  | await t cell width (.own src) => [(t, cell, width), (pe, src, width)]
  | barrier => []

omit [DecidableEq ρ] in
/-- The `n` bytes at `p` have been written. -/
def World.AllStored (w : World ρ) (pe : ℕ) (p : Ptr ρ) (n : ℤ) : Prop :=
  ∀ i ∈ List.range n.toNat, w.stored pe (p + (i : ℤ)) = true

instance (w : World ρ) (pe : ℕ) (p : Ptr ρ) (n : ℤ) : Decidable (w.AllStored pe p n) :=
  inferInstanceAs (Decidable (∀ _ ∈ _, _))

/-- What the operation reads in the regions `S` has been written. -/
def SeesStored (S : ρ → Prop) (w : World ρ) (pe : ℕ) (op : Op ρ) : Prop :=
  ∀ r ∈ op.reads pe, S r.2.1.region → w.AllStored r.1 r.2.1 r.2.2

instance [DecidablePred S] (w : World ρ) (pe : ℕ) (op : Op ρ) : Decidable (SeesStored S w pe op) :=
  inferInstanceAs (Decidable (∀ _ ∈ _, _))

/-- The next operation has a meaning on both machines or on none, and sees nothing unwritten. -/
def Guarded (S : ρ → Prop) (M M' : Machine ρ) (w : World ρ) : Label → Prop
  | .run pe => ∀ op ∈ (w.prog pe).head?, (op.Ok M ↔ op.Ok M') ∧ SeesStored S w pe op
  | .land _ => True
  | .barrier => True

instance [DecidablePred S] (w : World ρ) : (a : Label) → Decidable (Guarded S M M' w a)
  | .run _ => inferInstanceAs (Decidable (∀ _ ∈ _, _))
  | .land _ => isTrue trivial
  | .barrier => isTrue trivial

/-! ## Two worlds -/

/-- The worlds differ only in the regions `S`, where nothing has been written. -/
structure Alike (S : ρ → Prop) (w w' : World ρ) : Prop where
  prog : w.prog = w'.prog
  flight : w.flight = w'.flight
  stored : w.stored = w'.stored
  mem : ∀ pe q, (S q.region → w.stored pe q = true) → w.mem pe q = w'.mem pe q

namespace Alike

omit [DecidableEq ρ] in
theorem read (h : Alike S w w') {p : Ptr ρ} {n : ℤ} (hp : S p.region → w.AllStored pe p n) :
    read (w.mem pe) p n = read (w'.mem pe) p n := by
  rw [read_eq_read]
  intro i hi
  apply h.mem
  intro hS
  exact hp hS i (List.mem_range.mpr (by omega))

omit [DecidableEq ρ] in
theorem send (h : Alike S w w') (p : Put ρ) : Alike S (w.send p) (w'.send p) where
  prog := h.prog
  flight := by
    show w.flight ++ [p] = w'.flight ++ [p]
    rw [h.flight]
  stored := h.stored
  mem := h.mem

theorem store (h : Alike S w w') (pe : ℕ) (p : Ptr ρ) (bs : List UInt8) :
    Alike S (w.store pe p bs) (w'.store pe p bs) where
  prog := h.prog
  flight := h.flight
  stored := by
    show Function.update w.stored pe _ = Function.update w'.stored pe _
    rw [h.stored]
  mem i q hq := by
    unfold World.store at hq ⊢
    dsimp only at hq ⊢
    by_cases hi : i = pe
    · subst hi
      rw [Function.update_self] at hq
      rw [Function.update_self, Function.update_self]
      by_cases hc : p.Covers bs.length q
      · obtain ⟨k, hk, rfl⟩ := covers_iff.mp hc
        rw [write_add k (by omega), write_add k (by omega)]
      · rw [write_of_not_covers hc, write_of_not_covers hc]
        apply h.mem
        intro hS
        simpa [hc] using hq hS
    · rw [Function.update_of_ne hi] at hq
      rw [Function.update_of_ne hi, Function.update_of_ne hi]
      exact h.mem i q hq

theorem act (h : Alike S w w') {op : Op ρ} (hop : SeesStored S w pe op) :
    Option.Rel (Alike S) (w.act pe op) (w'.act pe op) := by
  cases op with
  | copy dst src n =>
    show Option.Rel (Alike S) (some (w.store pe dst _)) (some (w'.store pe dst _))
    rw [h.read (hop (pe, src, n) List.mem_cons_self)]
    exact .some (h.store pe dst _)
  | put t dst src n =>
    show Option.Rel (Alike S) (some (w.send ⟨t, dst, _⟩)) (some (w'.send ⟨t, dst, _⟩))
    rw [h.read (hop (pe, src, n) List.mem_cons_self)]
    exact .some (h.send _)
  | putInt t dst z => exact .some (h.send _)
  | get t dst src n =>
    show Option.Rel (Alike S) (some (w.store pe dst _)) (some (w'.store pe dst _))
    rw [h.read (hop (t, src, n) List.mem_cons_self)]
    exact .some (h.store pe dst _)
  | await t cell width e =>
    have hcell : OneSided.read (w.mem t) cell width = OneSided.read (w'.mem t) cell width := by
      apply h.read
      cases e with
      | lit z => exact hop (t, cell, width) List.mem_cons_self
      | own src => exact hop (t, cell, width) List.mem_cons_self
    have hexpects : w.expects pe width e = w'.expects pe width e := by
      cases e with
      | lit z => rfl
      | own src =>
        have hsrc := hop (pe, src, width) (List.mem_cons_of_mem _ List.mem_cons_self)
        show leInt (OneSided.read (w.mem pe) src width) = leInt _
        rw [h.read hsrc]
    dsimp only [World.act]
    rw [hcell, hexpects]
    split_ifs
    · exact .some h
    · exact .none
  | barrier => exact .none

/-- Both take the step, or none. -/
theorem step (hnpes : M.npes = M'.npes) (h : Alike S w w') {a : Label} (ha : Guarded S M M' w a) :
    Option.Rel (Alike S) (step M w a) (step M' w' a) := by
  cases a with
  | run pe =>
    unfold OneSided.step
    dsimp only
    rw [← h.prog, ← hnpes]
    cases hprog : w.prog pe with
    | nil => exact .none
    | cons op rest =>
      obtain ⟨hok, hsees⟩ := ha op (by rw [hprog]; rfl)
      simp only [← hok]
      split_ifs
      · have hact := h.act hsees
        generalize w.act pe op = x at hact ⊢
        generalize w'.act pe op = y at hact ⊢
        cases hact with
        | none => exact .none
        | some h₁ =>
          refine .some ⟨?_, h₁.flight, h₁.stored, h₁.mem⟩
          dsimp only
          rw [h₁.prog]
      · exact .none
  | land k =>
    unfold OneSided.step
    dsimp only
    rw [← h.flight]
    cases w.flight[k]? with
    | none => exact .none
    | some p =>
      have hless : Alike S { w with flight := w.flight.eraseIdx k }
          { w' with flight := w.flight.eraseIdx k } := ⟨h.prog, rfl, h.stored, h.mem⟩
      exact .some (hless.store p.pe p.dst p.bytes)
  | barrier =>
    have hat : ∀ pe, w'.atBarrier pe = w.atBarrier pe := by
      intro pe
      unfold World.atBarrier
      rw [h.prog]
    unfold OneSided.step
    simp only [← hnpes, hat, ← h.flight, ← h.prog]
    split_ifs
    · exact .some ⟨rfl, rfl, h.stored, h.mem⟩
    · exact .none

end Alike

/-- As long as what is read was written, it is not seen what was there before. -/
theorem exec_alike (hnpes : M.npes = M'.npes) (h : Alike S w w')
    (hG : Meets (step M) (Guarded S M M') w ls) :
    Option.Rel (Alike S) (exec (step M) w ls) (exec (step M') w' ls) := by
  refine exec_bisim (fun u u' a hR ha => ?_) h hG
  exact hR.step hnpes ha

end Kit.OneSided
