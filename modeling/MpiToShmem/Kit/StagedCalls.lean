import MpiToShmem.Kit.Collective

/-!
# Calls in supersteps, one after the other

A call first copies to a hidden place, then has supersteps between barriers, and last copies back.
What one call copies back and what the next one copies first are in one superstep: an element can be
in the next call while another is still in the last.

1. `StagedCall`: a call, with what it is to do to the memory that is not hidden.
2. `StagedCall.Exact`: it does that, from any memory and after any copies.
3. `callSteps`: the calls in supersteps.
4. `exists_first`, `exists_stage`: what there is after some of the calls.
5. `completes_calls` and `mem_of_calls`: every run can be brought to its end, and an element that has
   come back from some of the calls has its memory as these leave it.
-/

namespace Kit.OneSided

variable {ρ : Type}

/-! ## A call -/

/-- What is before the first barrier, between the barriers and behind the last one. -/
structure StagedCall (ρ : Type) where
  stage : ℕ → List (Op ρ)
  middle : List (ℕ → List (Op ρ))
  back : ℕ → List (Op ρ)
  after : (ℕ → Mem ρ) → ℕ → Mem ρ

/-- Only copies. -/
def Copies (npes : ℕ) (seg : ℕ → List (Op ρ)) : Prop :=
  ∀ i < npes, ∀ op ∈ seg i, op.isLocal = true ∧ op.target = none

theorem copies_nil {npes : ℕ} : Copies npes fun _ => ([] : List (Op ρ)) :=
  fun _ _ _ hop => absurd hop List.not_mem_nil

theorem Copies.append {npes : ℕ} {seg seg' : ℕ → List (Op ρ)} (h : Copies npes seg)
    (h' : Copies npes seg') : Copies npes fun i => seg i ++ seg' i := fun i hi =>
  List.forall_mem_append.mpr ⟨h i hi, h' i hi⟩

namespace StagedCall

/-- The program of element `i`. -/
def prog (c : StagedCall ρ) (i : ℕ) : List (Op ρ) := joinSteps i (c.stage :: (c.middle ++ [c.back]))

def barriers (c : StagedCall ρ) : ℕ := c.middle.length + 1

end StagedCall

/-- The programs of the calls, one after the other. -/
def callsProg (calls : List (StagedCall ρ)) (i : ℕ) : List (Op ρ) := calls.flatMap fun c => c.prog i

def callsBarriers (calls : List (StagedCall ρ)) : ℕ := (calls.map StagedCall.barriers).sum

/-- What the calls do, one after the other. -/
def callsAfter (calls : List (StagedCall ρ)) (mem : ℕ → Mem ρ) : ℕ → Mem ρ :=
  calls.foldl (fun mem c => c.after mem) mem

/-! ## The calls in supersteps -/

/-- The supersteps of the calls, when `first` is still to be run before. -/
def callSteps (first : ℕ → List (Op ρ)) : List (StagedCall ρ) → List (ℕ → List (Op ρ))
  | [] => [first]
  | c :: calls => (fun i => first i ++ c.stage i) :: (c.middle ++ callSteps c.back calls)

variable {i : ℕ} {segs segs' : List (ℕ → List (Op ρ))} {calls : List (StagedCall ρ)}
  {first : ℕ → List (Op ρ)}

theorem tailOf_append : tailOf (segs ++ segs') i = tailOf segs i ++ tailOf segs' i := by
  induction segs with
  | nil => rfl
  | cons seg segs ih =>
    show Op.barrier :: joinSteps i (seg :: (segs ++ segs')) =
      (Op.barrier :: joinSteps i (seg :: segs)) ++ tailOf segs' i
    simp [joinSteps_cons, ih]

theorem tailOf_callSteps : tailOf (callSteps first calls) i =
    .barrier :: joinSteps i (callSteps first calls) := by
  cases calls <;> rfl

theorem joinSteps_callSteps : joinSteps i (callSteps first calls) = first i ++ callsProg calls i := by
  induction calls generalizing first with
  | nil => exact (List.append_nil _).symm
  | cons c calls ih =>
    have hcall : c.prog i = c.stage i ++ (tailOf c.middle i ++ .barrier :: c.back i) := by
      unfold StagedCall.prog
      rw [joinSteps_cons, tailOf_append]
      rfl
    unfold callSteps
    rw [joinSteps_cons, tailOf_append, tailOf_callSteps, ih]
    simp [callsProg, hcall]

theorem length_callSteps : (callSteps first calls).length = callsBarriers calls + 1 := by
  induction calls generalizing first with
  | nil => rfl
  | cons c calls ih =>
    unfold callSteps
    simp only [List.length_cons, List.length_append, ih, callsBarriers, List.map_cons, List.sum_cons,
      StagedCall.barriers]
    omega

theorem callSteps_ne_nil : callSteps first calls ≠ [] := by
  cases calls <;> exact List.cons_ne_nil _ _

theorem callsBarriers_take_add_drop (calls : List (StagedCall ρ)) (k : ℕ) :
    callsBarriers (calls.take k) + callsBarriers (calls.drop k) = callsBarriers calls := by
  simp only [callsBarriers, ← List.sum_append, ← List.map_append, List.take_append_drop]

variable [DecidableEq ρ]

/-- What is not hidden is `v`, once `first` has been run. -/
def Shows (npes : ℕ) (visible : Ptr ρ → Prop) (first : ℕ → List (Op ρ)) (m v : ℕ → Mem ρ) : Prop :=
  ∀ i < npes, ∀ q, visible q → (localRun (m i) (first i)).1 q = v i q

namespace StagedCall

/-- The call copies at its ends, first only to what is hidden; nothing races and all accesses have a
meaning; and it does what it is to do, also when some copies are still to be made. -/
structure Exact (M : Machine ρ) (visible : Ptr ρ → Prop) (c : StagedCall ρ) : Prop where
  stage : Copies M.npes c.stage
  back : Copies M.npes c.back
  hidden : ∀ i < M.npes, ∀ m q, visible q → (localRun m (c.stage i)).1 q = m q
  raceFree : ∀ s ∈ c.middle, RaceFree M.npes s
  ok : ∀ s ∈ c.stage :: (c.middle ++ [c.back]), ∀ i < M.npes, ∀ op ∈ s i, op.Ok M
  shows : ∀ first m m' v, Copies M.npes first → Shows M.npes visible first m v →
    Follows M.npes ((fun i => first i ++ c.stage i) :: c.middle) m m' →
    Shows M.npes visible c.back m' (c.after v)

end StagedCall

/-! ## All calls -/

variable {M : Machine ρ} {visible : Ptr ρ → Prop}

section Steps

variable (hcalls : ∀ c ∈ calls, c.Exact M visible)

include hcalls

theorem raceFree_callSteps (hfirst : Copies M.npes first) :
    ∀ s ∈ callSteps first calls, RaceFree M.npes s := by
  induction calls generalizing first with
  | nil => exact List.forall_mem_singleton.mpr (raceFree_of_copies hfirst)
  | cons c calls ih =>
    obtain ⟨hc, hrest⟩ := List.forall_mem_cons.mp hcalls
    exact List.forall_mem_cons.mpr ⟨raceFree_of_copies (hfirst.append hc.stage),
      List.forall_mem_append.mpr ⟨hc.raceFree, ih hrest hc.back⟩⟩

theorem ok_callSteps (hfirst : ∀ i < M.npes, ∀ op ∈ first i, op.Ok M) :
    ∀ s ∈ callSteps first calls, ∀ i < M.npes, ∀ op ∈ s i, op.Ok M := by
  induction calls generalizing first with
  | nil => exact List.forall_mem_singleton.mpr hfirst
  | cons c calls ih =>
    obtain ⟨hc, hrest⟩ := List.forall_mem_cons.mp hcalls
    obtain ⟨hstage, hok⟩ := List.forall_mem_cons.mp hc.ok
    obtain ⟨hmiddle, hback⟩ := List.forall_mem_append.mp hok
    refine List.forall_mem_cons.mpr ⟨fun i hi => ?_, List.forall_mem_append.mpr
      ⟨hmiddle, ih hrest (List.forall_mem_singleton.mp hback)⟩⟩
    exact List.forall_mem_append.mpr ⟨hfirst i hi, hstage i hi⟩

/-- The barriers that are to come. -/
theorem countP_callsProg (hi : i < M.npes) :
    (callsProg calls i).countP Op.isBarrier = callsBarriers calls := by
  have hjoin : joinSteps i (callSteps (fun _ => []) calls) = callsProg calls i := joinSteps_callSteps
  have hlen : (callSteps (fun _ => []) calls).length = callsBarriers calls + 1 := length_callSteps
  have hrf := raceFree_callSteps hcalls copies_nil
  rw [← hjoin]
  cases hsteps : callSteps (fun _ => []) calls with
  | nil => exact absurd hsteps callSteps_ne_nil
  | cons seg segs =>
    rw [hsteps] at hlen hrf
    rw [countP_joinSteps fun s hs op hop =>
      (Op.not_waiting_of_isLocal ((hrf s hs).isLocal i hi op hop)).2]
    exact Nat.succ.inj hlen

omit hcalls in
theorem follows_append_iff {npes : ℕ} {m m' : ℕ → Mem ρ} : Follows npes (segs ++ segs') m m' ↔
    ∃ m₁, Follows npes segs m m₁ ∧ Follows npes segs' m₁ m' := by
  refine ⟨fun h => ?_, fun ⟨_, h, h'⟩ => follows_append h h'⟩
  induction segs generalizing m with
  | nil => exact ⟨m, rfl, h⟩
  | cons seg segs ih =>
    obtain ⟨m₁, hafter, hrest⟩ := h
    obtain ⟨m₂, hsegs, hsegs'⟩ := ih hrest
    exact ⟨m₂, ⟨m₁, hafter, hsegs⟩, hsegs'⟩

/-- After the supersteps of `k` calls memory is as these leave it, when what is copied back at the end
of the last one has been. -/
theorem exists_first {k : ℕ} (hk : k ≤ calls.length) {passed : List (ℕ → List (Op ρ))}
    {m m' v : ℕ → Mem ρ} (hsteps : callSteps first calls = passed ++ segs)
    (hlen : passed.length = callsBarriers (calls.take k)) (hfirst : Copies M.npes first)
    (hshows : Shows M.npes visible first m v) (hfollows : Follows M.npes passed m m') :
    ∃ first', segs = callSteps first' (calls.drop k) ∧ Copies M.npes first' ∧
      Shows M.npes visible first' m' (callsAfter (calls.take k) v) := by
  induction k generalizing calls first passed m v with
  | zero =>
    obtain rfl := List.length_eq_zero_iff.mp hlen
    obtain rfl : m = m' := hfollows
    exact ⟨first, hsteps.symm, hfirst, hshows⟩
  | succ k ih =>
    obtain ⟨c, calls, rfl⟩ := List.exists_cons_of_length_pos (Nat.lt_of_lt_of_le k.succ_pos hk)
    obtain ⟨hc, hrest⟩ := List.forall_mem_cons.mp hcalls
    have hbarriers : passed.length = (c.middle.length + 1) + callsBarriers (calls.take k) := hlen
    -- the supersteps of the first call, and those of the others
    obtain ⟨passed₁, passed₂, rfl, hlen₁⟩ : ∃ passed₁ passed₂, passed = passed₁ ++ passed₂ ∧
        passed₁.length = c.middle.length + 1 :=
      ⟨_, _, (List.take_append_drop (c.middle.length + 1) passed).symm,
        List.length_take_of_le (by omega)⟩
    have hsplit : ((fun i => first i ++ c.stage i) :: c.middle) ++ callSteps c.back calls =
        passed₁ ++ (passed₂ ++ segs) := by
      rw [← List.append_assoc, ← hsteps]
      rfl
    obtain ⟨hcall, hothers⟩ := List.append_inj hsplit hlen₁.symm
    obtain ⟨m₁, hfollows₁, hfollows₂⟩ := follows_append_iff.mp hfollows
    rw [← hcall] at hfollows₁
    rw [List.length_append] at hbarriers
    exact ih hrest (Nat.le_of_succ_le_succ hk) hothers (by omega) hc.back
      (hc.shows first m m₁ v hfirst hshows hfollows₁) hfollows₂

/-- An element that is to begin with these calls makes its first copies next, which does not show. -/
theorem exists_stage {seg : ℕ → List (Op ρ)} (hsteps : seg :: segs = callSteps first calls)
    (hi : i < M.npes) :
    ∃ ops, seg i = first i ++ ops ∧ callsProg calls i = ops ++ tailOf segs i ∧
      (∀ op ∈ ops, op.target = none) ∧
      ∀ (m : Mem ρ) (q : Ptr ρ), visible q → (localRun m ops).1 q = m q := by
  have hjoin : joinSteps i (callSteps first calls) = _ := joinSteps_callSteps
  rw [← hsteps, joinSteps_cons] at hjoin
  cases calls with
  | nil =>
    obtain ⟨rfl, rfl⟩ := List.cons.inj hsteps
    exact ⟨[], (List.append_nil _).symm, rfl, fun _ hop => absurd hop List.not_mem_nil,
      fun _ _ _ => rfl⟩
  | cons c calls =>
    obtain ⟨rfl, rfl⟩ := List.cons.inj hsteps
    rw [List.append_assoc] at hjoin
    have hc := hcalls c List.mem_cons_self
    exact ⟨c.stage i, rfl, (List.append_cancel_left hjoin).symm,
      fun op hop => (hc.stage i hi op hop).2, hc.hidden i hi⟩

end Steps

/-! ## Every run -/

section Run

variable {w w' : World ρ} {ls : List Label}
  (hcalls : ∀ c ∈ calls, c.Exact M visible)
  (hprog : ∀ i < M.npes, w.prog i = callsProg calls i)

include hcalls hprog

/-- Every run can be brought to its end. -/
theorem completes_calls (hout : ∀ i, M.npes ≤ i → w.prog i = []) (hexec : exec (step M) w ls = some w') :
    ∃ ls' w'', exec (step M) w' ls' = some w'' ∧ w''.Done := by
  have hrf := raceFree_callSteps hcalls copies_nil
  have hok : ∀ s ∈ callSteps (fun _ => []) calls, ∀ i < M.npes, ∀ op ∈ s i, op.Ok M :=
    ok_callSteps hcalls fun _ _ _ hop => absurd hop List.not_mem_nil
  obtain ⟨seg, segs, hsteps⟩ := List.exists_cons_of_ne_nil
    (callSteps_ne_nil : callSteps (fun _ => []) calls ≠ [])
  rw [hsteps] at hrf hok
  refine exists_run_done_of_run (runnable_joinSteps (fun i hi => ?_) hout fun s hs i hi op hop =>
    ⟨hok s hs i hi op hop, (hrf s hs).isLocal i hi op hop⟩) hexec
  rw [hprog i hi, ← hsteps, joinSteps_callSteps]
  rfl

/-- An element that has come back from the first `k` calls has its memory as these leave it. -/
theorem mem_of_calls (hpos : 0 < M.npes) (hflight : w.flight = [])
    (hexec : exec (step M) w ls = some w') {k : ℕ} (hk : k ≤ calls.length) (hi : i < M.npes)
    (hback : w'.prog i = callsProg (calls.drop k) i) {q : Ptr ρ} (hq : visible q) :
    w'.mem i q = callsAfter (calls.take k) w.mem i q := by
  have hrf := raceFree_callSteps hcalls copies_nil
  obtain ⟨seg₀, segs₀, hsteps⟩ := List.exists_cons_of_ne_nil
    (callSteps_ne_nil : callSteps (fun _ => []) calls ≠ [])
  have hjoin : ∀ i < M.npes, w.prog i = joinSteps i (seg₀ :: segs₀) := fun i hi => by
    rw [hprog i hi, ← hsteps, joinSteps_callSteps]
    rfl
  obtain ⟨passed, seg, segs, m, md, todo, sent, landed, hsplit, hfollows, hinv⟩ :=
    exists_superInv_of_run hpos (hsteps ▸ hrf) hjoin hflight hexec
  rw [← hsteps] at hsplit
  have hrest : ∀ c ∈ calls.drop k, c.Exact M visible := fun c hc =>
    hcalls c (List.mem_of_mem_drop hc)
  have hrf' : ∀ s ∈ seg :: segs, RaceFree M.npes s := fun s hs =>
    hrf s (hsplit ▸ List.mem_append_right passed hs)
  -- the barriers that are left tell how many supersteps are over
  have hlen : passed.length = callsBarriers (calls.take k) := by
    have hcount := hinv.countP_eq hrf' hi
    rw [hback, countP_callsProg hrest hi] at hcount
    have hsum := congrArg List.length hsplit
    rw [length_callSteps, List.length_append, List.length_cons] at hsum
    have htake := callsBarriers_take_add_drop calls k
    omega
  obtain ⟨first, hfrom, hfirst, hshows⟩ := exists_first hcalls hk hsplit hlen copies_nil
    (fun _ _ _ _ => rfl) hfollows
  obtain ⟨ops, hseg, hnext, -, hops⟩ := exists_stage hrest hfrom hi
  have htodo : todo i = ops :=
    List.append_cancel_right ((hinv.prog i hi).symm.trans (hback.trans hnext))
  have hnone : ∀ j < M.npes, ∀ op ∈ seg j, op.target = none := by
    intro j hj op hop
    obtain ⟨ops', hseg', -, hnone', -⟩ := exists_stage hrest hfrom hj
    rw [hseg'] at hop
    exact (List.mem_append.mp hop).elim (fun hop => (hfirst j hj op hop).2) (hnone' op)
  have hmem := hinv.localRun_todo hnone hi
  rw [htodo, hseg, localRun_append] at hmem
  calc w'.mem i q = (localRun (w'.mem i) ops).1 q := (hops _ q hq).symm
    _ = (localRun (localRun (m i) (first i)).1 ops).1 q := by rw [hmem]
    _ = (localRun (m i) (first i)).1 q := hops _ q hq
    _ = callsAfter (calls.take k) w.mem i q := hshows i hi q hq

end Run

end Kit.OneSided
