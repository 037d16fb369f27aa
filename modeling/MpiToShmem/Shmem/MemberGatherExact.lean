import MpiToShmem.Shmem.MemberGather

/-!
# When `MPI_Gather` respects its communicator

The condition of `respected_of_collects` is exact. If the gather is right over every communicator of
the members and from any memory, then in particular in the run that takes the supersteps in order,
with a block of ones from one PE and zeros everywhere else.

1. `members_of_respected`: a PE that is not a member would be missed at the barrier.
2. `put_there`: the ones have come from the put of their PE.
3. `placed_of_right`: so every block is put at the place of its rank.
4. `respected_iff`: the gather is right exactly when everything is in place.
-/

namespace MpiToShmem.Shmem

open Kit OneSided

variable {a : GatherArgs} {npes : ℕ} {bufBytes : ℤ} {ranks : List ℕ} {comm : ℕ → MpidComm}

/-! ## Who takes part -/

theorem exists_comms (npes : ℕ) (ranks : List ℕ) (offset : ℕ → ℤ) :
    ∃ comm : ℕ → MpidComm, ∀ pe < npes, Created npes ranks pe (comm pe) ∧
      (comm pe).bufferPtr = sharedBuffer ∧ (comm pe).offset = offset pe := by
  have hall : ∀ pe, ∃ comm : MpidComm, pe < npes → Created npes ranks pe comm ∧
      comm.bufferPtr = sharedBuffer ∧ comm.offset = offset pe := by
    intro pe
    by_cases hpe : pe < npes
    · obtain ⟨comm, hcomm⟩ := exists_created hpe ranks (offset pe)
      exact ⟨comm, fun _ => hcomm⟩
    · exact ⟨freshComm, fun h => absurd h hpe⟩
  choose comm hcomm using hall
  exact ⟨comm, hcomm⟩

theorem isSome_of_success {pe : ℕ} {comm : MpidComm} (h : (a.call npes pe comm).2 = .success) :
    (a.sendbuf pe).isSome ∧ (a.recvbuf pe).isSome := by
  unfold GatherArgs.call mpiGather at h
  cases hs : a.sendbuf pe with
  | none =>
    rw [hs] at h
    cases h
  | some s =>
    cases hv : a.recvbuf pe with
    | none =>
      rw [hs, hv] at h
      cases h
    | some v => exact ⟨rfl, rfl⟩

/-- A PE that is not a member does not come to the barrier. -/
theorem members_of_respected (hlt : ∀ pe ∈ ranks, pe < npes) (hroot : a.root < ranks.length)
    (h : GatherRespected npes bufBytes ranks a) : ∀ pe < npes, pe ∈ ranks := by
  intro idle hidle
  by_contra hout
  obtain ⟨comm, hcomm⟩ := exists_comms npes ranks fun _ => 0
  have hcreated : ∀ pe ∈ ranks, Created npes ranks pe (comm pe) := fun pe hpe =>
    (hcomm pe (hlt pe hpe)).1
  obtain ⟨ls, w, hexec, hdone⟩ := h.completes comm hcreated (fun _ _ => 0) [] _ rfl
  have hmem := List.getElem_mem hroot
  have hcount := count_barrier_of_idle (M := shmem npes bufBytes) hidle (if_neg hout) hexec
    ranks[a.root]
  rw [hdone.1, List.countP_nil] at hcount
  have hbar : Op.barrier ∈ (gatherWorld npes ranks a comm fun _ _ => 0).prog ranks[a.root] := by
    show _ ∈ if _ ∈ ranks then _ else _
    rw [if_pos hmem, a.call_eq npes comm (isSome_of_success (h.success comm hcreated _ hmem))]
    exact List.mem_append_right _ List.mem_cons_self
  exact List.countP_eq_zero.mp hcount.symm _ hbar rfl

/-! ## What the run in order says -/

/-- What holds of a gather that is right: over these communicators every operation has a meaning, and
after the supersteps in order the blocks are in the order of the ranks. -/
structure Right (npes : ℕ) (bufBytes : ℤ) (ranks : List ℕ) (a : GatherArgs) (comm : ℕ → MpidComm) :
    Prop where
  ok : ∀ s ∈ [a.stageStep comm, a.putStep comm, a.backStep npes comm], ∀ pe < npes, ∀ op ∈ s pe,
    op.Ok (shmem npes bufBytes)
  final : ∀ mem : ℕ → Mem Region, ∀ r, ranks[a.root]? = some r → ∀ pe < npes,
    read ([a.stageStep comm, a.putStep comm, a.backStep npes comm].foldl (inOrder npes) mem r)
      ((a.recv r).addr + a.block * (ranks.idxOf pe : ℤ)) a.block =
    read (mem pe) (a.send pe).addr a.block

theorem right_of_respected (hnodup : ranks.Nodup) (hlt : ∀ pe ∈ ranks, pe < npes)
    (hmembers : ∀ pe < npes, pe ∈ ranks) (h : GatherRespected npes bufBytes ranks a)
    (hcomm : ∀ pe < npes, Created npes ranks pe (comm pe)) : Right npes bufBytes ranks a comm := by
  have hcreated : ∀ pe ∈ ranks, Created npes ranks pe (comm pe) := fun pe hpe =>
    hcomm pe (hlt pe hpe)
  have hprog : ∀ mem, ∀ pe < npes, (gatherWorld npes ranks a comm mem).prog pe =
      joinSteps pe [a.stageStep comm, a.putStep comm, a.backStep npes comm] :=
    gatherWorld_prog hmembers fun pe hpe =>
      isSome_of_success (h.success comm hcreated pe (hmembers pe hpe))
  have hok : ∀ s ∈ [a.stageStep comm, a.putStep comm, a.backStep npes comm], ∀ pe < npes,
      ∀ op ∈ s pe, op.Ok (shmem npes bufBytes) := by
    obtain ⟨ls, w, hexec, hdone⟩ := h.completes comm hcreated (fun _ _ => 0) [] _ rfl
    intro s hs pe hpe op hop
    apply ok_of_run hexec (hdone.1 pe)
    rw [hprog _ pe hpe]
    exact mem_joinSteps_of_mem hs hop
  refine ⟨hok, fun mem r hr pe hpe => ?_⟩
  obtain ⟨ls, w, hexec, hdone, hmem⟩ := exists_run_inOrder (M := shmem npes bufBytes) (hprog mem)
    (gatherWorld_prog_of_ge hlt mem) rfl (local_steps hok)
  obtain ⟨hlt', hget⟩ := List.getElem?_eq_some_iff.mp hr
  have hrmem : r ∈ ranks := hget ▸ List.getElem_mem hlt'
  have hidx : ranks.idxOf r = a.root := by
    rw [← hget]
    exact hnodup.idxOf_getElem _ _
  have hordered := h.ordered comm hcreated mem ls w hexec hdone r hrmem
    (by rw [(rank_created hnodup hrmem (hcreated r hrmem)).1, hidx]) pe (hmembers pe hpe)
  rw [(rank_created hnodup (hmembers pe hpe) (hcomm pe hpe)).1, hmem] at hordered
  exact hordered

/-! ## One block of ones -/

/-- Ones in the block of `pe`, zeros elsewhere. -/
def oneBlock (a : GatherArgs) (pe : ℕ) : ℕ → Mem Region := fun t q =>
  if t = pe ∧ (a.send pe).addr.Covers a.block q then 1 else 0

theorem oneBlock_eq_one {pe t : ℕ} {q : Addr} (h : oneBlock a pe t q = 1) :
    t = pe ∧ (a.send pe).addr.Covers a.block q := by
  by_contra hne
  unfold oneBlock at h
  rw [if_neg hne] at h
  exact absurd h (by decide)

theorem oneBlock_of_ne {pe t : ℕ} (h : t ≠ pe) (q : Addr) : oneBlock a pe t q = 0 :=
  if_neg fun hp => h hp.1

theorem oneBlock_add {pe k : ℕ} (hk : (k : ℤ) < a.block) :
    oneBlock a pe pe ((a.send pe).addr + (k : ℤ)) = 1 :=
  if_pos ⟨rfl, covers_iff.mpr ⟨k, hk, rfl⟩⟩

theorem addr_add_region (buf : UserBuf) (i : ℤ) : (buf.addr + i).region ≠ .buffer :=
  addr_region_ne_buffer buf

theorem inOrder_stageStep (m : ℕ → Mem Region) {t : ℕ} (ht : t < npes) :
    inOrder npes m (a.stageStep comm) t = (localRun (m t) (a.stageStep comm t)).1 :=
  inOrder_of_copies (fun _ _ op hop => (stageStep_copies op hop).2) m ht

theorem inOrder_backStep (m : ℕ → Mem Region) {t : ℕ} (ht : t < npes) :
    inOrder npes m (a.backStep npes comm) t = (localRun (m t) (a.backStep npes comm t)).1 :=
  inOrder_of_copies (fun _ _ op hop => (backStep_copies op hop).2) m ht

/-- Nothing is put into memory of a process. -/
theorem dst_region (hbuf : ∀ pe < npes, (comm pe).bufferPtr = sharedBuffer) {pe : ℕ}
    (hpe : pe < npes) : (a.dst comm pe).region ≠ .process := by
  unfold GatherArgs.dst
  rw [add_region]
  unfold recvAddr symRecv getBufferOffset
  rw [hbuf pe hpe]
  cases a.recv pe with
  | heap o => exact nofun
  | process o =>
    unfold shmemAddrAccessible
    dsimp only
    rw [if_neg Bool.false_ne_true]
    split_ifs
    · exact nofun
    · exact nofun

section OneBlock

variable (hbuf : ∀ pe < npes, (comm pe).bufferPtr = sharedBuffer)
  (hright : Right npes bufBytes ranks a comm)
  (halias : ∀ r, ranks[a.root]? = some r →
    Apart (a.recv r).addr (a.block * npes) (a.send r).addr a.block)
  (hcount : 0 < a.count)

include hbuf

/-- After staging, the ones are at their PE only, and outside the communicator's buffer only where
they were. -/
theorem staged_eq_one {pe t : ℕ} {q : Addr} (ht : t < npes)
    (h : inOrder npes (oneBlock a pe) (a.stageStep comm) t q = 1) :
    t = pe ∧ (q.region ≠ .buffer → (a.send pe).addr.Covers a.block q) := by
  rw [inOrder_stageStep _ ht] at h
  have hpe : t = pe := by
    by_contra hne
    have hzero := (stage_zero_of_zero (oneBlock_of_ne hne) q).symm.trans h
    exact absurd hzero (by decide)
  refine ⟨hpe, fun hq => ?_⟩
  have hbefore := (stage_of_ne_buffer (hbuf t ht) hq).symm.trans h
  exact (oneBlock_eq_one hbefore).2

/-- Ones that staging has not left at the root have been put there by `pe`. -/
theorem put_by {pe : ℕ} {q : Addr}
    (hnot : inOrder npes (oneBlock a pe) (a.stageStep comm) a.root q ≠ 1)
    (hone : inOrder npes (inOrder npes (oneBlock a pe) (a.stageStep comm)) (a.putStep comm) a.root q =
      1) :
    ∃ i : ℕ, (i : ℤ) < a.block ∧ q = a.dst comm pe + (i : ℤ) ∧
      inOrder npes (oneBlock a pe) (a.stageStep comm) pe (a.src comm pe + (i : ℤ)) = 1 := by
  rcases inOrder_put_eq_or npes a.root (a.dst comm) (a.src comm) (fun _ => a.block)
    (inOrder npes (oneBlock a pe) (a.stageStep comm)) a.root q with
    hsame | ⟨-, j, hj, i, hi, hq, hput⟩
  · exact absurd (hsame.symm.trans hone) hnot
  · have hj₁ := hput.symm.trans hone
    obtain ⟨rfl, -⟩ := staged_eq_one hbuf hj hj₁
    exact ⟨i, hi, hq, hj₁⟩

/-- Where the root's send buffer is symmetric, staging leaves no ones in its buffer. -/
theorem symRecv_not_staged (hroot : a.root < npes) {pe : ℕ} (hknown : pe ≠ a.root ∨
      (shmemAddrAccessible (a.send pe) = false → shmemAddrAccessible (a.recv pe) = true))
    (hacc : shmemAddrAccessible (a.recv a.root) = false) (o : ℤ) :
    inOrder npes (oneBlock a pe) (a.stageStep comm) a.root
      (symRecv (comm a.root) (a.send a.root) a.count a.sendtype + o) ≠ 1 := by
  intro hone
  obtain ⟨rfl, -⟩ := staged_eq_one hbuf hroot hone
  have hsend := accessible_of_not_both (hknown.resolve_left fun h => h rfl) hacc
  rw [inOrder_stageStep _ hroot] at hone
  unfold symRecv at hone
  rw [localRun_stageStep, hsend, if_pos rfl, if_pos rfl, hbuf a.root hroot] at hone
  exact addr_region_ne_buffer _ (oneBlock_eq_one hone).2.1.symm

omit hbuf
include hright

/-- In the end the PE of rank `root` has the ones at the place of their rank. -/
theorem final_eq_one {r pe k : ℕ} (hr : ranks[a.root]? = some r) (hrlt : r < npes) (hpe : pe < npes)
    (hk : (k : ℤ) < a.block) :
    (localRun (inOrder npes (inOrder npes (oneBlock a pe) (a.stageStep comm)) (a.putStep comm) r)
      (a.backStep npes comm r)).1
      ((a.recv r).addr + (a.block * (ranks.idxOf pe : ℤ) + (k : ℤ))) = 1 := by
  have hfinal := read_eq_read.mp (hright.final (oneBlock a pe) r hr pe hpe) k hk
  rw [oneBlock_add hk, add_add] at hfinal
  rw [← inOrder_backStep _ hrlt]
  exact hfinal

include hbuf halias hcount

/-- The PE of rank `root` is the PE of that number: only there the code leaves something. -/
theorem root_eq (hnodup : ranks.Nodup) {r : ℕ} (hr : ranks[a.root]? = some r) (hrlt : r < npes)
    (hroot : a.root < npes) : r = a.root := by
  by_contra hne
  obtain ⟨hlt, hget⟩ := List.getElem?_eq_some_iff.mp hr
  have hidx : ranks.idxOf r = a.root := by
    rw [← hget]
    exact hnodup.idxOf_getElem _ _
  have hpos := GatherArgs.block_pos hcount
  have hfinal := final_eq_one hright hr hrlt hrlt (k := 0) hpos
  have hnone : a.backStep npes comm r = [] := if_neg hne
  rw [hidx, hnone] at hfinal
  rcases inOrder_put_eq_or npes a.root (a.dst comm) (a.src comm) (fun _ => a.block)
    (inOrder npes (oneBlock a r) (a.stageStep comm)) r
    ((a.recv r).addr + (a.block * (a.root : ℤ) + ((0 : ℕ) : ℤ))) with hsame | ⟨hput, -⟩
  · have hone := hsame.symm.trans hfinal
    rw [inOrder_stageStep _ hrlt] at hone
    have hbefore :=
      (stage_of_ne_buffer (hbuf r hrlt) (addr_add_region (a.recv r) _)).symm.trans hone
    exact halias r hr _ (GatherArgs.covers_block hcount hroot hpos) (oneBlock_eq_one hbefore).2
  · exact hne hput

/-- What the root has at the place of a block has been put there by the PE of that rank, and taken
out of the communicator's buffer if the root's buffer is not symmetric. -/
theorem put_there (hr : ranks[a.root]? = some a.root) (hroot : a.root < npes)
    (hidx : ∀ pe < npes, ranks.idxOf pe < npes) {pe : ℕ} (hpe : pe < npes)
    (hknown : pe ≠ a.root ∨
      (shmemAddrAccessible (a.send pe) = false → shmemAddrAccessible (a.recv pe) = true))
    {k : ℕ} (hk : (k : ℤ) < a.block) :
    (∃ i : ℕ, (i : ℤ) < a.block ∧
      recvAddr (comm a.root) (a.send a.root) (a.recv a.root) a.count a.sendtype +
        (a.block * (ranks.idxOf pe : ℤ) + (k : ℤ)) = a.dst comm pe + (i : ℤ) ∧
      inOrder npes (oneBlock a pe) (a.stageStep comm) pe (a.src comm pe + (i : ℤ)) = 1) ∧
    (shmemAddrAccessible (a.recv a.root) = false →
      a.block * (ranks.idxOf pe : ℤ) + (k : ℤ) < a.back npes) := by
  have hfinal := final_eq_one hright hr hroot hpe hk
  have hcovers := GatherArgs.covers_block hcount (v := (a.recv a.root).addr) (hidx pe hpe) hk
  generalize a.block * (ranks.idxOf pe : ℤ) + (k : ℤ) = o at hfinal hcovers ⊢
  have hrecv : inOrder npes (oneBlock a pe) (a.stageStep comm) a.root ((a.recv a.root).addr + o) ≠
      1 := by
    intro hone
    obtain ⟨rfl, hsend⟩ := staged_eq_one hbuf hroot hone
    exact halias _ hr _ hcovers (hsend (addr_add_region _ o))
  unfold GatherArgs.backStep unstage copyMyData at hfinal
  rw [if_pos rfl] at hfinal
  unfold recvAddr
  cases hacc : shmemAddrAccessible (a.recv a.root) with
  | true =>
    rw [hacc, if_pos rfl] at hfinal
    rw [if_pos rfl]
    exact ⟨put_by hbuf hrecv hfinal, nofun⟩
  | false =>
    rw [hacc, if_neg Bool.false_ne_true] at hfinal
    rw [if_neg Bool.false_ne_true]
    change write _ (a.recv a.root).addr (read _ (symRecv _ _ _ _) (a.back npes)) _ = 1 at hfinal
    have hle : 0 ≤ o := by
      have hle := hcovers.2.1
      rw [add_offset] at hle
      omega
    by_cases ho : o < a.back npes
    · refine ⟨put_by hbuf (symRecv_not_staged hbuf hroot hknown hacc o) ?_, fun _ => ho⟩
      have hnat : ((o.toNat : ℕ) : ℤ) = o := Int.toNat_of_nonneg hle
      rw [← hnat] at hfinal ⊢
      rw [write_read _ _ _ (by omega)] at hfinal
      exact hfinal
    · rw [write_of_not_covers] at hfinal
      · obtain ⟨i, -, hq, -⟩ := put_by hbuf hrecv hfinal
        have hprocess : (a.recv a.root).addr.region = .process := by
          cases hv : a.recv a.root with
          | heap => rw [hv] at hacc; cases hacc
          | process => rfl
        exact absurd ((congrArg Ptr.region hq).symm.trans hprocess) (dst_region hbuf hpe)
      · rintro ⟨-, -, hc⟩
        rw [length_read, add_offset] at hc
        omega

/-- The block of a PE is put where the root wants the block of its rank. -/
theorem dst_eq_of_right (hr : ranks[a.root]? = some a.root) (hroot : a.root < npes)
    (hidx : ∀ pe < npes, ranks.idxOf pe < npes) {pe : ℕ} (hpe : pe < npes)
    (hknown : pe ≠ a.root ∨
      (shmemAddrAccessible (a.send pe) = false → shmemAddrAccessible (a.recv pe) = true)) :
    a.dst comm pe = recvAddr (comm a.root) (a.send a.root) (a.recv a.root) a.count a.sendtype +
      a.block * (ranks.idxOf pe : ℤ) ∧
    ∀ k : ℕ, (k : ℤ) < a.block →
      inOrder npes (oneBlock a pe) (a.stageStep comm) pe (a.src comm pe + (k : ℤ)) = 1 := by
  have hpos := GatherArgs.block_pos hcount
  have hthere := fun k hk => (put_there hbuf hright halias hcount hr hroot hidx hpe hknown
    (k := k) hk).1
  generalize recvAddr (comm a.root) (a.send a.root) (a.recv a.root) a.count a.sendtype = base
    at hthere ⊢
  obtain ⟨i, hi, hq, -⟩ := hthere 0 hpos
  obtain ⟨i', hi', hq', -⟩ := hthere (a.block - 1).toNat (by omega)
  have hoff := congrArg Ptr.offset hq
  have hoff' := congrArg Ptr.offset hq'
  simp only [add_offset] at hoff hoff'
  have hdst : a.dst comm pe = base + a.block * (ranks.idxOf pe : ℤ) := by
    cases hd : a.dst comm pe with
    | mk region offset =>
      rw [hd] at hoff hoff'
      have hregion : base.region = region := by
        rw [hd] at hq
        exact congrArg Ptr.region hq
      show _ = Ptr.mk _ _
      rw [hregion]
      congr 1
      dsimp only at hoff hoff'
      omega
  refine ⟨hdst, fun k hk => ?_⟩
  obtain ⟨j, -, hq, hone⟩ := hthere k hk
  have hoff := congrArg Ptr.offset hq
  rw [hdst] at hoff
  simp only [add_offset] at hoff
  obtain rfl : k = j := by omega
  exact hone

end OneBlock

/-! ## The condition -/

theorem recvAddr_congr {c c' : MpidComm} (hbuf : c.bufferPtr = c'.bufferPtr)
    (hoff : c.offset = c'.offset) (send recv : UserBuf) (count : ℤ) (dataType : MpiDatatype) :
    recvAddr c send recv count dataType = recvAddr c' send recv count dataType := by
  unfold recvAddr symRecv getBufferOffset
  rw [hbuf, hoff]

/-- Behind a copy the receive side is wherever the offset says. -/
theorem recvAddr_private {c : MpidComm} (hbuf : c.bufferPtr = sharedBuffer) {send recv : UserBuf}
    (hs : shmemAddrAccessible send = false) (hv : shmemAddrAccessible recv = false) {count z : ℤ}
    {dataType : MpiDatatype} (hoff : c.offset = z - getNumBytes count dataType) (hz : IsInt z) :
    recvAddr c send recv count dataType = ⟨.buffer, z⟩ := by
  unfold recvAddr symRecv getBufferOffset
  rw [hs, hv, if_neg Bool.false_ne_true, if_neg Bool.false_ne_true, hbuf, hoff, sub_add_cancel,
    wrapInt_of_isInt hz]
  show Ptr.mk _ _ = _
  rw [sharedBuffer, zero_add]

/-- Communicators that put the receive side of `pe`, which is behind a copy, at `z`. -/
theorem exists_comms_at (ranks : List ℕ) {pe : ℕ} (hpe : pe < npes)
    (hs : shmemAddrAccessible (a.send pe) = false) (hv : shmemAddrAccessible (a.recv pe) = false)
    {z : ℤ} (hz : IsInt z) :
    ∃ comm : ℕ → MpidComm, (∀ t < npes, Created npes ranks t (comm t)) ∧
      (∀ t < npes, (comm t).bufferPtr = sharedBuffer) ∧ (∀ t < npes, t ≠ pe → (comm t).offset = 0) ∧
      recvAddr (comm pe) (a.send pe) (a.recv pe) a.count a.sendtype = ⟨.buffer, z⟩ := by
  obtain ⟨comm, hcomm⟩ := exists_comms npes ranks fun t =>
    if t = pe then z - getNumBytes a.count a.sendtype else 0
  refine ⟨comm, fun t ht => (hcomm t ht).1, fun t ht => (hcomm t ht).2.1, fun t ht hne => ?_, ?_⟩
  · rw [(hcomm t ht).2.2, if_neg hne]
  · refine recvAddr_private (hcomm pe hpe).2.1 hs hv ?_ hz
    rw [(hcomm pe hpe).2.2, if_pos rfl]

/-- No PE has two buffers that are not symmetric: its block, or the root's place for the blocks,
would be where an offset says that nobody has set. -/
theorem not_both_private
    (hright : ∀ comm : ℕ → MpidComm, (∀ pe < npes, Created npes ranks pe (comm pe)) →
      Right npes bufBytes ranks a comm)
    (halias : ∀ r, ranks[a.root]? = some r →
      Apart (a.recv r).addr (a.block * npes) (a.send r).addr a.block)
    (hcount : 0 < a.count) (hr : ranks[a.root]? = some a.root) (hroot : a.root < npes)
    (hidx : ∀ pe < npes, ranks.idxOf pe < npes) {pe : ℕ} (hpe : pe < npes)
    (hs : shmemAddrAccessible (a.send pe) = false) : shmemAddrAccessible (a.recv pe) = true := by
  by_contra hv
  have hv := Bool.eq_false_iff.mpr hv
  have hpos := GatherArgs.block_pos hcount
  -- where another PE has its receive side does not depend on `z`
  have hsame : ∀ {comm comm' : ℕ → MpidComm}, (∀ t < npes, (comm t).bufferPtr = sharedBuffer) →
      (∀ t < npes, (comm' t).bufferPtr = sharedBuffer) →
      (∀ t < npes, t ≠ pe → (comm t).offset = 0) → (∀ t < npes, t ≠ pe → (comm' t).offset = 0) →
      ∀ t < npes, t ≠ pe → recvAddr (comm t) (a.send t) (a.recv t) a.count a.sendtype =
        recvAddr (comm' t) (a.send t) (a.recv t) a.count a.sendtype := by
    intro comm comm' hbuf hbuf' hoff hoff' t ht hne
    exact recvAddr_congr ((hbuf t ht).trans (hbuf' t ht).symm)
      ((hoff t ht hne).trans (hoff' t ht hne).symm) _ _ _ _
  obtain ⟨comm, hcreated, hbuf, hoff, hz⟩ :=
    exists_comms_at ranks hpe hs hv (z := 0) (by decide)
  obtain ⟨comm', hcreated', hbuf', hoff', hz'⟩ :=
    exists_comms_at ranks hpe hs hv (z := 1) (by decide)
  have hright₀ := hright comm hcreated
  have hright₁ := hright comm' hcreated'
  by_cases hne : pe = a.root
  · subst hne
    by_cases hone : ∃ q < npes, q ≠ a.root
    · obtain ⟨q, hq, hqr⟩ := hone
      have hd := (dst_eq_of_right hbuf hright₀ halias hcount hr hroot hidx hq (Or.inl hqr)).1
      have hd' := (dst_eq_of_right hbuf' hright₁ halias hcount hr hroot hidx hq (Or.inl hqr)).1
      unfold GatherArgs.dst at hd hd'
      rw [hsame hbuf hbuf' hoff hoff' q hq hqr, hd', hz, hz'] at hd
      have hoffset : (1 : ℤ) + _ = 0 + _ := congrArg Ptr.offset hd
      omega
    · obtain ⟨comm₂, hcreated₂, -, -, hz₂⟩ :=
        exists_comms_at ranks hpe hs hv (z := -1) (by decide)
      have hok : _ ∧ (shmem npes bufBytes).Inside (a.dst comm₂ a.root) a.block ∧ _ :=
        (hright comm₂ hcreated₂).ok (a.putStep comm₂) (by simp) a.root hroot _ List.mem_cons_self
      have hzero : a.root = 0 := by
        by_contra h0
        exact hone ⟨0, by omega, fun h => h0 h.symm⟩
      have hdst : a.dst comm₂ a.root = ⟨.buffer, -1⟩ := by
        unfold GatherArgs.dst
        rw [hz₂, hzero]
        show Ptr.mk _ (-1 + wrapInt (a.count * 0) * _) = _
        rw [mul_zero, wrapInt_zero, zero_mul, add_zero]
      rw [hdst, inside_buffer hpos.ne'] at hok
      omega
  · have hd := (dst_eq_of_right hbuf hright₀ halias hcount hr hroot hidx hpe (Or.inl hne)).1
    have hd' := (dst_eq_of_right hbuf' hright₁ halias hcount hr hroot hidx hpe (Or.inl hne)).1
    unfold GatherArgs.dst at hd hd'
    rw [hsame hbuf hbuf' hoff hoff' a.root hroot fun h => hne h.symm, ← hd', hz, hz'] at hd
    have hoffset : (0 : ℤ) + _ = 1 + _ := congrArg Ptr.offset hd
    omega

/-- A block that does not fit an `int` is cut off in its copy. -/
theorem block_le_of_right (h : Right npes bufBytes ranks a comm) {pe : ℕ} (hpe : pe < npes)
    (hbuf : (comm pe).bufferPtr = sharedBuffer) (hs : shmemAddrAccessible (a.send pe) = false)
    (hones : ∀ k : ℕ, (k : ℤ) < a.block →
      inOrder npes (oneBlock a pe) (a.stageStep comm) pe (a.src comm pe + (k : ℤ)) = 1) :
    a.block ≤ intMax := by
  by_contra hlarge
  have hcopy : _ ∧ _ := h.ok (a.stageStep comm) (by simp) pe hpe
    (copyMyData (comm pe).bufferPtr (a.send pe).addr a.count a.sendtype) (by
      unfold GatherArgs.stageStep stage
      rw [hs, if_neg Bool.false_ne_true]
      exact List.mem_singleton.mpr rfl)
  have hn : 0 ≤ getNumBytes a.count a.sendtype := by
    rcases hcopy.2 with hzero | ⟨hn, -⟩
    · exact hzero.ge
    · exact hn
  have hlarge : getNumBytes a.count a.sendtype < a.block := by
    have := (isInt_getNumBytes a.count a.sendtype).2
    omega
  have hone := hones (getNumBytes a.count a.sendtype).toNat (by omega)
  rw [inOrder_stageStep _ hpe, localRun_stageStep] at hone
  unfold GatherArgs.src sendAddr at hone
  rw [hs, if_neg Bool.false_ne_true, if_neg Bool.false_ne_true, hbuf, write_of_not_covers] at hone
  · exact addr_region_ne_buffer (a.send pe) (oneBlock_eq_one hone).2.1.symm
  · rintro ⟨-, -, hc⟩
    rw [length_read, add_offset] at hc
    exact lt_irrefl _ hc

/-- The root takes all blocks out of the communicator's buffer, where they have room. -/
theorem copied_of_right (h : Right npes bufBytes ranks a comm) (hnodup : ranks.Nodup)
    (hlt : ∀ pe ∈ ranks, pe < npes) (hlen : ranks.length = npes) (hroot : a.root < npes)
    (hbuf : (comm a.root).bufferPtr = sharedBuffer) (hcount : 0 < a.count)
    (hs : shmemAddrAccessible (a.send a.root) = true)
    (hv : shmemAddrAccessible (a.recv a.root) = false)
    (hall : ∀ pe < npes, ∀ k : ℕ, (k : ℤ) < a.block →
      a.block * (ranks.idxOf pe : ℤ) + (k : ℤ) < a.back npes) :
    a.block * npes ≤ a.back npes ∧ a.back npes ≤ bufBytes := by
  have hpos := GatherArgs.block_pos hcount
  -- the last byte of the last block
  have hlast : npes - 1 < ranks.length := by omega
  have hend := hall ranks[npes - 1] (hlt _ (List.getElem_mem hlast)) (a.block - 1).toNat (by omega)
  rw [hnodup.idxOf_getElem] at hend
  have hblocks : a.block * ((npes - 1 : ℕ) : ℤ) + a.block = a.block * npes := by
    rw [Nat.cast_sub (by omega)]
    push_cast
    ring
  have hle : a.block * npes ≤ a.back npes := by omega
  have hback : _ ∧ (shmem npes bufBytes).Inside _ (a.back npes) :=
    h.ok (a.backStep npes comm) (by simp) a.root hroot (copyMyData (a.recv a.root).addr
      (symRecv (comm a.root) (a.send a.root) a.count a.sendtype) (wrapInt (a.count * npes))
      a.recvtype) (by
        unfold GatherArgs.backStep unstage
        rw [if_pos rfl, hv, if_neg Bool.false_ne_true]
        exact List.mem_singleton.mpr rfl)
  have hback := hback.2
  have hnonneg : 0 < a.block * (npes : ℤ) := Int.mul_pos hpos (by omega)
  unfold symRecv at hback
  rw [hs, if_pos rfl, hbuf, sharedBuffer, inside_buffer (by omega)] at hback
  exact ⟨hle, by omega⟩

/-- What the gather of the blocks takes. -/
theorem placed_of_right (hnodup : ranks.Nodup) (hlt : ∀ pe ∈ ranks, pe < npes)
    (hmembers : ∀ pe < npes, pe ∈ ranks) (hroot : a.root < ranks.length)
    (halias : ∀ r, ranks[a.root]? = some r →
      Apart (a.recv r).addr (a.block * npes) (a.send r).addr a.block)
    (hright : ∀ comm : ℕ → MpidComm, (∀ pe < npes, Created npes ranks pe (comm pe)) →
      Right npes bufBytes ranks a comm)
    (hcount : 0 < a.count) : a.Placed npes bufBytes ranks := by
  have hpos := GatherArgs.block_pos hcount
  have hlen : ranks.length = npes := length_of_members hnodup hlt hmembers
  have hroot' : a.root < npes := hlen ▸ hroot
  have hidx : ∀ pe < npes, ranks.idxOf pe < npes := fun _ => idxOf_lt hnodup hlt hmembers
  obtain ⟨comm, hcomm⟩ := exists_comms npes ranks fun _ => 0
  have hbuf : ∀ pe < npes, (comm pe).bufferPtr = sharedBuffer := fun pe hpe => (hcomm pe hpe).2.1
  have h := hright comm fun pe hpe => (hcomm pe hpe).1
  have hr : ranks[a.root]? = some a.root := by
    have hget := List.getElem?_eq_getElem hroot
    rw [root_eq hbuf h halias hcount hnodup hget (hlt _ (List.getElem_mem hroot)) hroot'] at hget
    exact hget
  have hpriv : ∀ pe < npes, shmemAddrAccessible (a.send pe) = false →
      shmemAddrAccessible (a.recv pe) = true := fun pe hpe =>
    not_both_private hright halias hcount hr hroot' hidx hpe
  have hdst := fun pe hpe => dst_eq_of_right hbuf h halias hcount hr hroot' hidx hpe
    (Or.inr (hpriv pe hpe))
  refine ⟨hcount, hr, fun pe hpe => ?_, fun pe hpe hs => ⟨hpriv pe hpe hs, ?_, ?_⟩, fun hv => ?_⟩
  · have hd := (hdst pe hpe).1
    unfold GatherArgs.dst at hd
    rwa [recvAddr_eq (hbuf pe hpe) (hpriv pe hpe),
      recvAddr_eq (hbuf _ hroot') (hpriv _ hroot')] at hd
  · exact block_le_of_right h hpe (hbuf pe hpe) hs (hdst pe hpe).2
  · have hput : _ ∧ _ ∧ (shmem npes bufBytes).Inside (a.src comm pe) a.block :=
      h.ok (a.putStep comm) (by simp) pe hpe _ List.mem_cons_self
    have hsrc := hput.2.2
    unfold GatherArgs.src sendAddr at hsrc
    rw [hs, if_neg Bool.false_ne_true, hbuf pe hpe, sharedBuffer, inside_buffer hpos.ne'] at hsrc
    omega
  · exact copied_of_right h hnodup hlt hlen hroot' (hbuf _ hroot') hcount
      (accessible_of_not_both (hpriv _ hroot') hv) hv fun pe hpe k hk =>
        (put_there hbuf h halias hcount hr hroot' hidx hpe (Or.inr (hpriv pe hpe)) hk).2 hv

theorem collects_of_respected (hnodup : ranks.Nodup) (hlt : ∀ pe ∈ ranks, pe < npes)
    (hroot : a.root < ranks.length) (halias : a.NoAlias ranks)
    (h : GatherRespected npes bufBytes ranks a) : a.Collects npes bufBytes ranks := by
  have hmembers := members_of_respected hlt hroot h
  have hright : ∀ comm : ℕ → MpidComm, (∀ pe < npes, Created npes ranks pe (comm pe)) →
      Right npes bufBytes ranks a comm := fun _ => right_of_respected hnodup hlt hmembers h
  obtain ⟨comm, hcomm⟩ := exists_comms npes ranks fun _ => 0
  have hcreated : ∀ pe ∈ ranks, Created npes ranks pe (comm pe) := fun pe hpe =>
    (hcomm pe (hlt pe hpe)).1
  have hbuffers : ∀ pe < npes, (a.sendbuf pe).isSome ∧ (a.recvbuf pe).isSome := fun pe hpe =>
    isSome_of_success (h.success comm hcreated pe (hmembers pe hpe))
  have halias' : ∀ r, ranks[a.root]? = some r →
      Apart (a.recv r).addr (a.block * npes) (a.send r).addr a.block := by
    intro r hr
    have hr' := hbuffers r (hlt r (List.mem_of_getElem? hr))
    have h := halias r _ _ hr (GatherArgs.send_eq hr'.1) (GatherArgs.recv_eq hr'.2)
    rwa [length_of_members hnodup hlt hmembers] at h
  refine ⟨hmembers, hbuffers, ?_⟩
  have hput : _ ∧ _ ∧ (shmem npes bufBytes).Inside (a.src comm a.root) a.block :=
    (hright comm fun pe hpe => (hcomm pe hpe).1).ok (a.putStep comm) (by simp) a.root
      (length_of_members hnodup hlt hmembers ▸ hroot) _ List.mem_cons_self
  have hsize := size_pos a.sendtype
  have hnonneg : 0 ≤ a.count := by
    by_contra hneg
    have hblock : a.block < 0 := Int.mul_neg_of_neg_of_pos (by omega) hsize
    rcases hput.2.2 with hzero | ⟨hn, -⟩
    · omega
    · omega
  rcases hnonneg.eq_or_lt with hzero | hpos
  · exact Or.inl hzero.symm
  · exact Or.inr (placed_of_right hnodup hlt hmembers hroot halias' hright hpos)

/-- Over communicators of some of the PEs `MPI_Gather` is right exactly when all PEs are members, no
buffer is `NULL`, and there is nothing to gather or every block is put at the place of its rank. -/
theorem respected_iff (npes : ℕ) (bufBytes : ℤ) (ranks : List ℕ) (a : GatherArgs)
    (hnodup : ranks.Nodup) (hlt : ∀ pe ∈ ranks, pe < npes) (hroot : a.root < ranks.length)
    (halias : a.NoAlias ranks) :
    GatherRespected npes bufBytes ranks a ↔ a.Collects npes bufBytes ranks :=
  ⟨collects_of_respected hnodup hlt hroot halias, respected_of_collects hnodup hlt hroot halias⟩

/-- PE 1 of 2 cannot gather from itself alone, and in the order 1, 0 the blocks go to the wrong PE. -/
theorem not_respected_two_pes :
    let a : GatherArgs := ⟨fun _ => some (.heap 0), fun _ => some (.heap 4), 1, .int, .int, 0⟩
    ¬ GatherRespected 2 200000 [1] a ∧ ¬ GatherRespected 2 200000 [1, 0] a := by
  intro a
  constructor
  · intro h
    exact absurd (members_of_respected (by decide) (by decide) h 0 (by decide)) (by decide)
  · intro h
    have halias : a.NoAlias [1, 0] := by
      rintro r s v - hs hv q ⟨-, hle, -⟩ ⟨-, -, hlt⟩
      obtain rfl := Option.some.inj hs
      obtain rfl := Option.some.inj hv
      have hsend : q.offset < 0 + 4 := hlt
      have hrecv : 4 ≤ q.offset := hle
      omega
    rcases (collects_of_respected (by decide) (by decide) (by decide) halias h).blocks with
      hzero | hplaced
    · cases hzero
    · have hroot : some 1 = some 0 := hplaced.root
      cases hroot

theorem respected_two_pes :
    GatherRespected 2 200000 [0, 1]
      ⟨fun _ => some (.heap 0), fun _ => some (.heap 4), 1, .int, .int, 0⟩ := by
  refine (respected_iff 2 200000 [0, 1] _ (by decide) (by decide) (by decide) ?_).mpr
    ⟨by decide, fun _ _ => ⟨rfl, rfl⟩, Or.inr ⟨by decide, rfl, by decide, nofun, nofun⟩⟩
  rintro r s v - hs hv q ⟨-, hle, -⟩ ⟨-, -, hlt⟩
  obtain rfl := Option.some.inj hs
  obtain rfl := Option.some.inj hv
  have hsend : q.offset < 0 + 4 := hlt
  have hrecv : 4 ≤ q.offset := hle
  omega

end MpiToShmem.Shmem
