import MpiToShmem.Kit.InOrder

/-!
# Collective operations

All elements run their programs together, in supersteps, and have computed something when all are
done.

1. `putEach`: an element puts the same bytes to several others; what a superstep of these does, and
   one of single puts.
2. `Computes`: every run can be brought to its end, and there memory is as it should be.
3. `computes_of_follows` and `Computes.inOrder`: it follows from the supersteps, and says something
   about the run in which everything is done in order.
-/

namespace Kit.OneSided

variable {ρ : Type} [DecidableEq ρ]

/-! ## The same bytes to several elements -/

def putEach (ts : List ℕ) (dst src : Ptr ρ) (n : ℤ) : List (Op ρ) := ts.map fun t => .put t dst src n

omit [DecidableEq ρ] in
theorem mem_putEach {ts : List ℕ} {dst src : Ptr ρ} {n : ℤ} {op : Op ρ} :
    op ∈ putEach ts dst src n ↔ ∃ t ∈ ts, .put t dst src n = op := List.mem_map

theorem localRun_putEach (m : Mem ρ) (ts : List ℕ) (dst src : Ptr ρ) (n : ℤ) :
    localRun m (putEach ts dst src n) = (m, ts.map fun t => ⟨t, dst, read m src n⟩) := by
  induction ts with
  | nil => rfl
  | cons t ts ih =>
    show ((localRun m (putEach ts dst src n)).1, _ :: (localRun m (putEach ts dst src n)).2) = _
    rw [ih]
    rfl

variable {npes : ℕ} {ts : ℕ → List ℕ} {dst src : ℕ → Ptr ρ} {n : ℕ → ℤ} {m m' : ℕ → Mem ρ}

omit [DecidableEq ρ] in
/-- What meets at one element is apart: the places that are written, and they and what it puts, unless
that is the same put. -/
theorem raceFree_of_putEach (hnodup : ∀ i < npes, (ts i).Nodup)
    (hdst : ∀ i < npes, ∀ j < npes, i ≠ j → ∀ t ∈ ts i, t ∈ ts j →
      Apart (dst i) (n i) (dst j) (n j))
    (hsrc : ∀ i < npes, ∀ j ∈ ts i, ∀ t ∈ ts j, (i = j → t ≠ i) →
      Apart (dst i) (n i) (src j) (n j)) :
    RaceFree npes fun i => putEach (ts i) (dst i) (src i) (n i) where
  isLocal i _ op hop := by
    obtain ⟨t, -, rfl⟩ := mem_putEach.mp hop
    rfl
  uses i hi j _ hij op hop op' hop' d k htarget u hu := by
    obtain ⟨t, ht, rfl⟩ := mem_putEach.mp hop
    obtain ⟨t', ht', rfl⟩ := mem_putEach.mp hop'
    obtain ⟨rfl, rfl, rfl⟩ : t = j ∧ dst i = d ∧ n i = k := by simpa [Op.target] using htarget
    rw [List.mem_singleton.mp hu]
    exact hsrc i hi t ht t' ht' fun he => absurd he hij
  later i hi := by
    refine List.pairwise_map.mpr ((hnodup i hi).imp_of_mem fun {t t'} ht ht' hne => ?_)
    intro d k htarget u hu
    obtain ⟨rfl, rfl, rfl⟩ : t = i ∧ dst i = d ∧ n i = k := by simpa [Op.target] using htarget
    rw [List.mem_singleton.mp hu]
    exact hsrc t hi t ht t' ht' fun _ => hne.symm
  puts i hi j hj hij op hop op' hop' t d k d' k' htarget htarget' := by
    obtain ⟨t₁, ht₁, rfl⟩ := mem_putEach.mp hop
    obtain ⟨t₂, ht₂, rfl⟩ := mem_putEach.mp hop'
    obtain ⟨rfl, rfl, rfl⟩ : t₁ = t ∧ dst i = d ∧ n i = k := by simpa [Op.target] using htarget
    obtain ⟨rfl, rfl, rfl⟩ : t₂ = t₁ ∧ dst j = d' ∧ n j = k' := by simpa [Op.target] using htarget'
    exact hdst i hi j hj hij t₂ ht₁ ht₂
  own i hi := by
    refine List.pairwise_map.mpr ((hnodup i hi).imp fun {t t'} hne => ?_)
    intro t₁ d k d' k' htarget htarget'
    obtain ⟨rfl, -⟩ : t = t₁ ∧ _ := by simpa [Op.target] using htarget
    obtain ⟨rfl, -⟩ : t' = t ∧ _ := by simpa [Op.target] using htarget'
    exact absurd rfl hne

/-- Every target has what was put. -/
theorem After.hit_putEach (h : After npes (fun i => putEach (ts i) (dst i) (src i) (n i)) m m')
    {i t : ℕ} (hi : i < npes) (ht : t ∈ ts i) {k : ℕ} (hk : (k : ℤ) < n i) :
    m' t (dst i + (k : ℤ)) = m i (src i + (k : ℤ)) := by
  have hlen : k < (read (m i) (src i) (n i)).length := by
    rw [length_read]
    omega
  have hput : ⟨t, dst i, read (m i) (src i) (n i)⟩ ∈
      (localRun (m i) (putEach (ts i) (dst i) (src i) (n i))).2 := by
    rw [localRun_putEach]
    exact List.mem_map_of_mem ht
  rw [h.hit i hi _ hput k hlen]
  exact getElem_read hlen

/-- Elsewhere nothing has changed. -/
theorem After.miss_putEach (h : After npes (fun i => putEach (ts i) (dst i) (src i) (n i)) m m')
    {t : ℕ} (ht : t < npes) {q : Ptr ρ} (hq : ∀ i < npes, t ∈ ts i → ¬ (dst i).Covers (n i) q) :
    m' t q = m t q := by
  have hmiss := h.miss t ht q fun i hi p hp hpe hc => by
    rw [localRun_putEach] at hp
    obtain ⟨t', ht', rfl⟩ := List.mem_map.mp hp
    obtain rfl : t' = t := hpe
    dsimp only at hc
    rw [length_read] at hc
    exact hq i hi ht' (covers_toNat hc)
  rwa [localRun_putEach] at hmiss

/-- In order, a place has what it had or something that was put there. -/
theorem inOrder_putEach_eq_or (npes : ℕ) (ts : ℕ → List ℕ) (dst src : ℕ → Ptr ρ)
    (n : ℕ → ℤ) (m : ℕ → Mem ρ) (j : ℕ) (q : Ptr ρ) :
    let m' := inOrder npes m fun i => putEach (ts i) (dst i) (src i) (n i)
    m' j q = m j q ∨ ∃ i < npes, j ∈ ts i ∧ ∃ k : ℕ, (k : ℤ) < n i ∧ q = dst i + (k : ℤ) ∧
      m' j q = m i (src i + (k : ℤ)) := by
  intro m'
  have hsame : (fun i => if i < npes then (localRun (m i) (putEach (ts i) (dst i) (src i) (n i))).1
      else m i) = m := by
    funext i
    rw [localRun_putEach, ite_self]
  rcases landAll_eq_or (fun i => if i < npes then (localRun (m i) (putEach (ts i) (dst i) (src i)
    (n i))).1 else m i) _ j q with h | ⟨p, hp, rfl, k, hk, hq, h⟩
  · exact Or.inl (h.trans (congrFun (congrFun hsame j) q))
  · obtain ⟨i, hi, hp⟩ := List.mem_flatMap.mp hp
    rw [localRun_putEach] at hp
    obtain ⟨t, ht, rfl⟩ := List.mem_map.mp hp
    refine Or.inr ⟨i, List.mem_range.mp hi, ht, k, ?_, hq, h.trans (getElem_read hk)⟩
    rw [length_read] at hk
    omega

/-! ## One put -/

section Put

variable {t : ℕ}

omit [DecidableEq ρ] in
/-- One put of every element: the targets have nothing in common with each other and with what the
target itself puts to others. -/
theorem raceFree_of_put
    (hdst : ∀ i < npes, ∀ j < npes, i ≠ j → Apart (dst i) (n i) (dst j) (n j))
    (hsrc : ∀ i < npes, i ≠ t → Apart (dst i) (n i) (src t) (n t)) :
    RaceFree npes fun i => [.put t (dst i) (src i) (n i)] := by
  refine @raceFree_of_putEach ρ npes (fun _ => [t]) dst src n (fun _ _ => List.nodup_singleton t)
    (fun i hi j hj hij _ _ _ => hdst i hi j hj hij) fun i hi j hj t' ht' hne => ?_
  obtain rfl := List.mem_singleton.mp hj
  obtain rfl := List.mem_singleton.mp ht'
  exact hsrc i hi fun he => hne he he.symm

/-- The target has what was put. -/
theorem After.hit_put (h : After npes (fun i => [.put t (dst i) (src i) (n i)]) m m') {i : ℕ}
    (hi : i < npes) {k : ℕ} (hk : (k : ℤ) < n i) :
    m' t (dst i + (k : ℤ)) = m i (src i + (k : ℤ)) :=
  @After.hit_putEach ρ _ npes (fun _ => [t]) dst src n m m' h i t hi (List.mem_singleton_self t) k hk

/-- Elsewhere nothing has changed. -/
theorem After.miss_put (h : After npes (fun i => [.put t (dst i) (src i) (n i)]) m m') {j : ℕ}
    (hj : j < npes) {q : Ptr ρ} (hq : ∀ i < npes, j = t → ¬ (dst i).Covers (n i) q) :
    m' j q = m j q :=
  @After.miss_putEach ρ _ npes (fun _ => [t]) dst src n m m' h j hj q fun i hi hmem =>
    hq i hi (List.mem_singleton.mp hmem)

/-- In order, the target has what it had or something that was put there. -/
theorem inOrder_put_eq_or (npes t : ℕ) (dst src : ℕ → Ptr ρ) (n : ℕ → ℤ) (m : ℕ → Mem ρ) (j : ℕ)
    (q : Ptr ρ) :
    let m' := inOrder npes m fun i => [.put t (dst i) (src i) (n i)]
    m' j q = m j q ∨ j = t ∧ ∃ i < npes, ∃ k : ℕ, (k : ℤ) < n i ∧ q = dst i + (k : ℤ) ∧
      m' j q = m i (src i + (k : ℤ)) := by
  rcases inOrder_putEach_eq_or npes (fun _ => [t]) dst src n m j q with h | ⟨i, hi, hmem, hk⟩
  · exact Or.inl h
  · exact Or.inr ⟨List.mem_singleton.mp hmem, i, hi, hk⟩

end Put

/-! ## Programs that compute something -/

/-- The elements run their programs, and nothing is in flight. -/
def together (npes : ℕ) (prog : ℕ → List (Op ρ)) (mem : ℕ → Mem ρ) : World ρ :=
  ⟨mem, fun pe => if pe < npes then prog pe else [], [], fun _ _ => false⟩

omit [DecidableEq ρ] in
theorem mem_together {prog : ℕ → List (Op ρ)} {mem : ℕ → Mem ρ} {pe : ℕ} {op : Op ρ}
    (h : op ∈ (together npes prog mem).prog pe) : pe < npes ∧ op ∈ prog pe := by
  unfold together at h
  dsimp only at h
  split_ifs at h with hpe
  · exact ⟨hpe, h⟩
  · cases h

omit [DecidableEq ρ] in
theorem runnable_together {M : Machine ρ} {prog : ℕ → List (Op ρ)} {b : ℕ}
    (hok : ∀ pe < M.npes, ∀ op ∈ prog pe, op.Ok M ∧ op.isAwait = false)
    (hb : ∀ pe < M.npes, (prog pe).countP Op.isBarrier = b) (mem : ℕ → Mem ρ) :
    Runnable M (together M.npes prog mem) b where
  ok pe op hop := hok pe (mem_together hop).1 op (mem_together hop).2
  barriers pe hpe := (congrArg _ (if_pos hpe)).trans (hb pe hpe)
  outside _ hpe := if_neg (not_lt.mpr hpe)

/-- From any memory: from every state of a run the programs can come to their end, and there memory
is as `post` says. -/
structure Computes (M : Machine ρ) (prog : ℕ → List (Op ρ))
    (post : (ℕ → Mem ρ) → (ℕ → Mem ρ) → Prop) : Prop where
  completes : ∀ mem ls w, exec (step M) (together M.npes prog mem) ls = some w →
    ∃ ls' w', exec (step M) w ls' = some w' ∧ w'.Done
  correct : ∀ mem ls w, exec (step M) (together M.npes prog mem) ls = some w → w.Done →
    post mem w.mem

variable {M : Machine ρ} {prog : ℕ → List (Op ρ)} {post : (ℕ → Mem ρ) → (ℕ → Mem ρ) → Prop}
  {seg : ℕ → List (Op ρ)} {segs : List (ℕ → List (Op ρ))}

theorem computes_of_follows (hprog : ∀ i < M.npes, prog i = joinSteps i (seg :: segs))
    (hpos : 0 < M.npes) (hok : ∀ s ∈ seg :: segs, ∀ i < M.npes, ∀ op ∈ s i, op.Ok M)
    (hrf : ∀ s ∈ seg :: segs, RaceFree M.npes s)
    (hpost : ∀ m m', Follows M.npes (seg :: segs) m m' → post m m') : Computes M prog post := by
  have hjoin : ∀ mem, ∀ i < M.npes, (together M.npes prog mem).prog i = joinSteps i (seg :: segs) :=
    fun _ i hi => (if_pos hi).trans (hprog i hi)
  refine ⟨fun mem ls w hexec => ?_, fun mem ls w hexec hdone => ?_⟩
  · exact exists_run_done_of_run (runnable_joinSteps (hjoin mem)
      (fun i hi => if_neg (not_lt.mpr hi))
      fun s hs i hi op hop => ⟨hok s hs i hi op hop, (hrf s hs).isLocal i hi op hop⟩) hexec
  · exact hpost mem w.mem (follows_of_run hpos hrf (hjoin mem) rfl hexec hdone)

namespace Computes

variable (h : Computes M prog post)

include h

/-- What is run has a meaning. -/
theorem ok {i : ℕ} (hi : i < M.npes) {op : Op ρ} (hop : op ∈ prog i) : op.Ok M := by
  obtain ⟨ls, w, hexec, hnil, -⟩ := h.completes (fun _ _ => 0) [] _ rfl
  refine ok_of_run hexec (hnil i) op ?_
  show op ∈ if i < M.npes then prog i else []
  rwa [if_pos hi]

/-- What the run in order computes is right. -/
theorem inOrder (hprog : ∀ i < M.npes, prog i = joinSteps i (seg :: segs))
    (hlocal : ∀ s ∈ seg :: segs, ∀ i < M.npes, ∀ op ∈ s i, op.isLocal = true) (m : ℕ → Mem ρ) :
    post m ((seg :: segs).foldl (OneSided.inOrder M.npes) m) := by
  obtain ⟨ls, w, hexec, hdone, hmem⟩ := exists_run_inOrder (w := together M.npes prog m)
    (fun i hi => (if_pos hi).trans (hprog i hi)) (fun i hi => if_neg (not_lt.mpr hi)) rfl
    fun s hs i hi op hop => ⟨h.ok hi (hprog i hi ▸ mem_joinSteps_of_mem hs hop),
      hlocal s hs i hi op hop⟩
  exact hmem ▸ h.correct m ls w hexec hdone

end Computes

end Kit.OneSided
