import MpiToShmem.Kit.Supersteps

/-!
# Supersteps in order

Of the runs of a superstep there is one in which nothing lands before everything has been put, and
then what was put lands in the order of the elements.

1. `landAll`: memory after everything has landed.
2. `exists_run_inOrder`: there is a run to the end with this memory after each superstep.
-/

namespace Kit.OneSided

variable {ρ : Type} [DecidableEq ρ]

/-! ## Landing in order -/

def landAll (m : ℕ → Mem ρ) : List (Put ρ) → ℕ → Mem ρ
  | [] => m
  | p :: ps => landAll (Function.update m p.pe (write (m p.pe) p.dst p.bytes)) ps

/-- A place has what it had, or a byte of what was put there. -/
theorem landAll_eq_or (m : ℕ → Mem ρ) (ps : List (Put ρ)) (t : ℕ) (q : Ptr ρ) :
    landAll m ps t q = m t q ∨ ∃ p ∈ ps, p.pe = t ∧ ∃ (k : ℕ) (h : k < p.bytes.length),
      q = p.dst + (k : ℤ) ∧ landAll m ps t q = p.bytes[k] := by
  induction ps generalizing m with
  | nil => exact Or.inl rfl
  | cons p ps ih =>
    rcases ih (Function.update m p.pe (write (m p.pe) p.dst p.bytes)) with hsame | hput
    · by_cases ht : p.pe = t
      · subst ht
        rw [Function.update_self] at hsame
        by_cases hc : p.dst.Covers p.bytes.length q
        · obtain ⟨k, hk, rfl⟩ := covers_iff.mp hc
          have hk : k < p.bytes.length := by omega
          rw [write_add k hk] at hsame
          exact Or.inr ⟨p, List.mem_cons_self, rfl, k, hk, rfl, hsame⟩
        · rw [write_of_not_covers hc] at hsame
          exact Or.inl hsame
      · rw [Function.update_of_ne (Ne.symm ht)] at hsame
        exact Or.inl hsame
    · obtain ⟨p', hp', hput⟩ := hput
      exact Or.inr ⟨p', List.mem_cons_of_mem _ hp', hput⟩

/-- Memory after one superstep in order. -/
def inOrder (npes : ℕ) (m : ℕ → Mem ρ) (seg : ℕ → List (Op ρ)) : ℕ → Mem ρ :=
  landAll (fun i => if i < npes then (localRun (m i) (seg i)).1 else m i)
    ((List.range npes).flatMap fun i => (localRun (m i) (seg i)).2)

theorem inOrder_of_copies {npes : ℕ} {seg : ℕ → List (Op ρ)}
    (h : ∀ i < npes, ∀ op ∈ seg i, op.target = none) (m : ℕ → Mem ρ) {t : ℕ} (ht : t < npes) :
    inOrder npes m seg t = (localRun (m t) (seg t)).1 := by
  have hnone : ((List.range npes).flatMap fun i => (localRun (m i) (seg i)).2) = [] := by
    rw [List.flatMap_eq_nil_iff]
    intro i hi
    rw [List.eq_nil_iff_forall_not_mem]
    intro p hp
    obtain ⟨op, hop, n, htarget, -⟩ := exists_op_of_put hp
    rw [h i (List.mem_range.mp hi) op hop] at htarget
    cases htarget
  unfold inOrder
  rw [hnone]
  exact if_pos ht

/-- Zeros that are overwritten by zeros only. -/
theorem localRun_zero {Z : Ptr ρ → Prop} {ops : List (Op ρ)}
    (hops : ∀ op ∈ ops, ∀ dst src n, op = .copy dst src n → ∀ i : ℕ, (i : ℤ) < n →
      Z (dst + (i : ℤ)) → Z (src + (i : ℤ))) {m : Mem ρ} (hm : ∀ q, Z q → m q = 0) (q : Ptr ρ)
    (hq : Z q) : (localRun m ops).1 q = 0 := by
  induction ops generalizing m with
  | nil => exact hm q hq
  | cons op ops ih =>
    have hrest : ∀ o ∈ ops, ∀ dst src n, o = .copy dst src n → ∀ i : ℕ, (i : ℤ) < n →
        Z (dst + (i : ℤ)) → Z (src + (i : ℤ)) := fun o ho => hops o (List.mem_cons_of_mem _ ho)
    cases op with
    | copy dst src n =>
      refine ih hrest fun q' hq' => ?_
      by_cases hc : dst.Covers n q'
      · obtain ⟨i, hi, rfl⟩ := covers_iff.mp hc
        rw [write_read _ _ _ hi]
        exact hm _ (hops _ List.mem_cons_self dst src n rfl i hi hq')
      · rw [write_read_of_not_covers _ _ hc]
        exact hm q' hq'
    | _ => exact ih hrest hm

/-! ## The run -/

variable {M : Machine ρ} {w : World ρ} {seg tail : ℕ → List (Op ρ)}

/-- One element runs its operations. -/
theorem exists_run_own {i : ℕ} (hi : i < M.npes) {ops rest : List (Op ρ)}
    (hprog : w.prog i = ops ++ rest) (hok : ∀ op ∈ ops, op.Ok M ∧ op.isLocal = true) :
    ∃ ls w', exec (step M) w ls = some w' ∧
      w'.mem = Function.update w.mem i (localRun (w.mem i) ops).1 ∧
      w'.prog = Function.update w.prog i rest ∧
      w'.flight = w.flight ++ (localRun (w.mem i) ops).2 := by
  induction ops generalizing w with
  | nil =>
    refine ⟨[], w, rfl, (Function.update_eq_self _ _).symm, ?_, (List.append_nil _).symm⟩
    rw [← show w.prog i = rest from hprog, Function.update_eq_self]
  | cons op ops ih =>
    obtain ⟨hop, hlocal⟩ := hok op List.mem_cons_self
    have hrest : ∀ o ∈ ops, o.Ok M ∧ o.isLocal = true := fun o ho =>
      hok o (List.mem_cons_of_mem _ ho)
    have hstep : ∀ w₁, w.act i op = some w₁ → step M w (.run i) =
        some { w₁ with prog := Function.update w.prog i (ops ++ rest) } := by
      intro w₁ hact
      unfold step
      dsimp only
      rw [hprog, List.cons_append]
      dsimp only
      rw [if_pos ⟨hi, hop⟩, hact, Option.map_some, prog_act hact]
    cases op with
    | copy dst src n =>
      obtain ⟨ls, w', hexec, hmem, hp, hf⟩ := @ih { w.store i dst (read (w.mem i) src n) with
        prog := Function.update w.prog i (ops ++ rest) } (Function.update_self _ _ _) hrest
      refine ⟨.run i :: ls, w', exec_cons_eq_some.mpr ⟨_, hstep _ rfl, hexec⟩, ?_, ?_, ?_⟩
      · rw [hmem]
        show Function.update (Function.update w.mem i _) i (localRun (Function.update w.mem i _ i)
          ops).1 = _
        rw [Function.update_idem, Function.update_self]
        rfl
      · rw [hp]
        exact Function.update_idem _ _ _
      · rw [hf]
        show w.flight ++ (localRun (Function.update w.mem i _ i) ops).2 = _
        rw [Function.update_self]
        rfl
    | put t dst src n =>
      obtain ⟨ls, w', hexec, hmem, hp, hf⟩ := @ih { w.send ⟨t, dst, read (w.mem i) src n⟩ with
        prog := Function.update w.prog i (ops ++ rest) } (Function.update_self _ _ _) hrest
      refine ⟨.run i :: ls, w', exec_cons_eq_some.mpr ⟨_, hstep _ rfl, hexec⟩, hmem, ?_, ?_⟩
      · rw [hp]
        exact Function.update_idem _ _ _
      · rw [hf]
        show (w.flight ++ [_]) ++ _ = _
        rw [List.append_assoc]
        rfl
    | _ => cases hlocal

theorem update_first {α : Type*} (f g : ℕ → α) (k : ℕ) :
    Function.update (fun i => if i < k then f i else g i) k (f k) =
      fun i => if i < k + 1 then f i else g i := by
  funext i
  by_cases hi : i = k
  · subst hi
    rw [Function.update_self, if_pos (Nat.lt_succ_self i)]
  · rw [Function.update_of_ne hi]
    by_cases hlt : i < k
    · rw [if_pos hlt, if_pos (by omega)]
    · rw [if_neg hlt, if_neg (by omega)]

/-- The first `k` elements run their operations. -/
theorem exists_run_first {k : ℕ} (hk : k ≤ M.npes)
    (hprog : ∀ i < M.npes, w.prog i = seg i ++ tail i)
    (hok : ∀ i < M.npes, ∀ op ∈ seg i, op.Ok M ∧ op.isLocal = true) :
    ∃ ls w', exec (step M) w ls = some w' ∧
      w'.mem = (fun i => if i < k then (localRun (w.mem i) (seg i)).1 else w.mem i) ∧
      w'.prog = (fun i => if i < k then tail i else w.prog i) ∧
      w'.flight = w.flight ++ (List.range k).flatMap fun i => (localRun (w.mem i) (seg i)).2 := by
  induction k with
  | zero => exact ⟨[], w, rfl, by simp, by simp, (List.append_nil _).symm⟩
  | succ k ih =>
    obtain ⟨ls, w₁, hexec, hmem, hp, hf⟩ := ih (by omega)
    have hk₁ : w₁.prog k = seg k ++ tail k :=
      ((congrFun hp k).trans (if_neg (lt_irrefl k))).trans (hprog k (by omega))
    obtain ⟨ls', w', hexec', hmem', hp', hf'⟩ := exists_run_own (by omega) hk₁ (hok k (by omega))
    rw [(congrFun hmem k).trans (if_neg (lt_irrefl k))] at hmem' hf'
    refine ⟨ls ++ ls', w', ?_, ?_, ?_, ?_⟩
    · rw [exec_append, hexec]
      exact hexec'
    · rw [hmem', hmem]
      exact update_first (fun i => (localRun (w.mem i) (seg i)).1) w.mem k
    · rw [hp', hp]
      exact update_first tail w.prog k
    · rw [hf', hf, List.range_succ, List.flatMap_append, List.flatMap_singleton, List.append_assoc]

/-- What is in flight lands. -/
theorem exists_run_land {ps : List (Put ρ)} (hf : w.flight = ps) :
    ∃ ls w', exec (step M) w ls = some w' ∧ w'.mem = landAll w.mem ps ∧ w'.prog = w.prog ∧
      w'.flight = [] := by
  induction ps generalizing w with
  | nil => exact ⟨[], w, rfl, rfl, rfl, hf⟩
  | cons p ps ih =>
    obtain ⟨ls, w', hexec, hmem, hp, hf'⟩ :=
      @ih ({ w with flight := ps }.store p.pe p.dst p.bytes) rfl
    refine ⟨.land 0 :: ls, w', exec_cons_eq_some.mpr ⟨_, ?_, hexec⟩, hmem, hp, hf'⟩
    unfold step
    dsimp only
    rw [hf]
    rfl

variable {segs : List (ℕ → List (Op ρ))}

/-- A superstep in order. -/
theorem exists_run_superstep (tail : ℕ → List (Op ρ))
    (hprog : ∀ i < M.npes, w.prog i = seg i ++ tail i)
    (hok : ∀ i < M.npes, ∀ op ∈ seg i, op.Ok M ∧ op.isLocal = true) (hf : w.flight = []) :
    ∃ ls w', exec (step M) w ls = some w' ∧ w'.mem = inOrder M.npes w.mem seg ∧
      w'.prog = (fun i => if i < M.npes then tail i else w.prog i) ∧ w'.flight = [] := by
  obtain ⟨ls, w₁, hexec, hmem, hp, hf₁⟩ := exists_run_first le_rfl hprog hok
  rw [hf, List.nil_append] at hf₁
  obtain ⟨ls', w', hexec', hmem', hp', hf'⟩ := exists_run_land hf₁
  refine ⟨ls ++ ls', w', ?_, ?_, hp'.trans hp, hf'⟩
  · rw [exec_append, hexec]
    exact hexec'
  · rw [hmem', hmem]
    rfl

/-- All supersteps in order. -/
theorem exists_run_inOrder (hprog : ∀ i < M.npes, w.prog i = joinSteps i (seg :: segs))
    (hout : ∀ i, M.npes ≤ i → w.prog i = []) (hf : w.flight = [])
    (hok : ∀ s ∈ seg :: segs, ∀ i < M.npes, ∀ op ∈ s i, op.Ok M ∧ op.isLocal = true) :
    ∃ ls w', exec (step M) w ls = some w' ∧ w'.Done ∧
      w'.mem = (seg :: segs).foldl (inOrder M.npes) w.mem := by
  induction segs generalizing w seg with
  | nil =>
    obtain ⟨ls, w', hexec, hmem, hp, hf'⟩ := exists_run_superstep (fun _ => [])
      (fun i hi => (hprog i hi).trans (List.append_nil _).symm) (hok seg List.mem_cons_self) hf
    refine ⟨ls, w', hexec, ⟨fun i => ?_, hf'⟩, hmem⟩
    rw [hp]
    by_cases hi : i < M.npes
    · exact if_pos hi
    · exact (if_neg hi).trans (hout i (by omega))
  | cons seg' segs ih =>
    obtain ⟨ls, w₁, hexec, hmem, hp, hf₁⟩ := exists_run_superstep
      (fun i => .barrier :: joinSteps i (seg' :: segs)) hprog (hok seg List.mem_cons_self) hf
    have hbarrier : step M w₁ .barrier = some { w₁ with
        prog := fun i => if i < M.npes then joinSteps i (seg' :: segs) else w.prog i } := by
      unfold step
      dsimp only
      rw [if_pos]
      · congr 2
        funext i
        rw [hp]
        by_cases hi : i < M.npes
        · simp only [if_pos hi, List.tail_cons]
        · simp only [if_neg hi]
      · refine ⟨fun i hi => ?_, hf₁⟩
        unfold World.atBarrier
        rw [(congrFun hp i).trans (if_pos hi)]
        rfl
    obtain ⟨ls', w', hexec', hdone, hmem'⟩ := @ih { w₁ with
        prog := fun i => if i < M.npes then joinSteps i (seg' :: segs) else w.prog i } seg'
      (fun i hi => if_pos hi) (fun i hi => (if_neg (by omega)).trans (hout i hi)) hf₁
      fun s hs => hok s (List.mem_cons_of_mem _ hs)
    refine ⟨ls ++ .barrier :: ls', w', ?_, hdone, ?_⟩
    · rw [exec_append, hexec]
      exact exec_cons_eq_some.mpr ⟨_, hbarrier, hexec'⟩
    · rw [hmem']
      show (seg' :: segs).foldl (inOrder M.npes) w₁.mem = _
      rw [hmem]
      rfl

end Kit.OneSided
