import MpiToShmem.Kit.StagedCalls
import MpiToShmem.Shmem.Allgather
import MpiToShmem.Shmem.Broadcast
import MpiToShmem.Shmem.GatherRuns

/-!
# Collectives one after the other

All collectives of a communicator go through one buffer, each from its beginning. A PE that has left a
call stages for the next one, whichever that is, while another still copies out of the buffer.

1. `mpiBarrier`, and `CollectiveCall`: a call with what it is to do outside the buffer.
2. `CollectiveCall.Allowed`: what MPI demands, and what the calls need besides to be right.
3. `Staged`: what has been staged.
4. `shows_bcast`, `shows_allgather`: what these do, after what the last call copies back.
5. `collectives_exact`: no matter how far each PE is, the calls are exact.
6. `gather_bcast_eq_allgather`: to gather at a root and to broadcast from there is to gather everywhere.
-/

namespace MpiToShmem.Shmem

open Kit OneSided

/-! ## The calls -/

/-- `MPI_Barrier`. -/
def mpiBarrier : List (Op Region) × MpiRet := ([.barrier], .success)

/-- Every PE has the elements of the root, and nothing else has changed. -/
def BcastArgs.after (a : BcastArgs) (mem : ℕ → Mem Region) (pe : ℕ) : Mem Region :=
  if pe = a.root then mem pe
  else write (mem pe) (a.source pe).addr (read (mem a.root) (a.source a.root).addr a.bytes)

/-- The blocks of the PEs in their order. -/
def AllgatherArgs.blocks (a : AllgatherArgs) (npes : ℕ) (mem : ℕ → Mem Region) : List UInt8 :=
  (List.range npes).flatMap fun pe => read (mem pe) (a.sendbuf pe).addr a.block

/-- Every PE has the blocks, and nothing else has changed. -/
def AllgatherArgs.after (a : AllgatherArgs) (npes : ℕ) (mem : ℕ → Mem Region) (pe : ℕ) :
    Mem Region := write (mem pe) (a.recvbuf pe).addr (a.blocks npes mem)

/-- A collective with the arguments of all PEs. -/
inductive CollectiveCall where
  | barrier
  | bcast (a : BcastArgs)
  | allgather (a : AllgatherArgs)
  | gather (c : GatherCall)

namespace CollectiveCall

/-- The call on PE `pe`. -/
def call (c : CollectiveCall) (npes : ℕ) (comm : ℕ → MpidComm) (pe : ℕ) : List (Op Region) :=
  match c with
  | barrier => mpiBarrier.1
  | bcast a => a.call npes comm pe
  | allgather a => a.call npes comm pe
  | gather c => (c.call npes comm pe).1

/-- What the call is to do to memory outside the communicator's buffer. -/
def after (c : CollectiveCall) (npes : ℕ) (mem : ℕ → Mem Region) : ℕ → Mem Region :=
  match c with
  | barrier => mem
  | bcast a => a.after mem
  | allgather a => a.after npes mem
  | gather c => c.after npes mem

/-- What MPI demands, room in the buffer, and sizes that an `int` can count; elements of at most 8
bytes are broadcast, and those that are gathered everywhere have 8. -/
def Allowed (c : CollectiveCall) (npes : ℕ) (bufBytes : ℤ) : Prop :=
  match c with
  | barrier => True
  | bcast a => a.root < npes ∧ 0 ≤ a.count ∧ a.SameChoice npes ∧ a.room ≤ bufBytes ∧ a.Moved npes
  | allgather a => a.SameChoice npes ∧ a.NoAlias npes ∧ a.room npes ≤ bufBytes ∧
      (a.count = 0 ∨ a.Aligned npes ∧
        (shmemAddrAccessible (a.recvbuf 0) = true → (a.dataType.size : ℤ) = 8))
  | gather c => c.Allowed npes bufBytes ∧ c.Counted npes

/-- The calls on PE `pe`, one after the other. -/
def program (npes : ℕ) (comm : ℕ → MpidComm) (calls : List CollectiveCall) (pe : ℕ) :
    List (Op Region) := calls.flatMap fun c => c.call npes comm pe

end CollectiveCall

/-- In any memory: every run of the calls can be brought to its end, and a PE that has come back from
the first `k` calls has its memory as these calls are to leave it. -/
structure ExactCollectives (npes : ℕ) (bufBytes : ℤ) (comm : ℕ → MpidComm)
    (calls : List CollectiveCall) : Prop where
  completes : ∀ mem ls w,
    exec (OneSided.step (shmem npes bufBytes))
      (together npes (CollectiveCall.program npes comm calls) mem) ls = some w →
    ∃ ls' w', exec (OneSided.step (shmem npes bufBytes)) w ls' = some w' ∧ w'.Done
  correct : ∀ mem ls w,
    exec (OneSided.step (shmem npes bufBytes))
      (together npes (CollectiveCall.program npes comm calls) mem) ls = some w →
    ∀ k ≤ calls.length, ∀ pe < npes,
      w.prog pe = CollectiveCall.program npes comm (calls.drop k) pe →
    ∀ q, q.region ≠ .buffer →
      w.mem pe q = (calls.take k).foldl (fun mem c => c.after npes mem) mem pe q

/-! ## What has been staged -/

/-- Outside the communicator's buffer. -/
def OutsideBuffer (q : Addr) : Prop := q.region ≠ .buffer

/-- Memory is `v` outside the buffer, and the send side reads what is in `buf` there. -/
structure Staged (comm : MpidComm) (buf : UserBuf) (bytes : ℤ) (v m : Mem Region) : Prop where
  outside : ∀ q, OutsideBuffer q → m q = v q
  send : ∀ k : ℕ, (shmemAddrAccessible buf = false → (k : ℤ) < bytes) →
    m (sendAddr comm buf + (k : ℤ)) = v (buf.addr + (k : ℤ))

variable {npes : ℕ} {comm : ℕ → MpidComm} {bufBytes : ℤ} {first : ℕ → List (Op Region)}
  {m m₁ m₂ v : ℕ → Mem Region}
  (hcomm : ∀ pe < npes, (comm pe).bufferPtr = sharedBuffer ∧ (comm pe).offset = 0)

include hcomm

theorem staged_of_after {buf : ℕ → UserBuf} {count : ℤ} {dataType : MpiDatatype}
    (hfirst : Copies npes first) (hshows : Shows npes OutsideBuffer first m v)
    (hstage : After npes (fun pe => first pe ++ stage (comm pe) (buf pe) count dataType) m m₁)
    {pe : ℕ} (hpe : pe < npes) :
    Staged (comm pe) (buf pe) (getNumBytes count dataType) (v pe) (m₁ pe) := by
  have hm₁ : m₁ pe = (localRun (localRun (m pe) (first pe)).1
      (stage (comm pe) (buf pe) count dataType)).1 := by
    have hcopies : Copies npes fun pe => first pe ++ stage (comm pe) (buf pe) count dataType :=
      hfirst.append fun _ _ => stage_copies
    rw [hstage.eq_of_copies (fun i hi op hop => (hcopies i hi op hop).2) hpe, localRun_append]
  constructor
  · intro q hq
    rw [hm₁, ← hshows pe hpe q hq]
    exact stage_of_ne_buffer (hcomm pe hpe).1 hq
  · intro k hk
    rw [hm₁, ← hshows pe hpe ((buf pe).addr + (k : ℤ)) (addr_region_ne_buffer (buf pe))]
    exact stage_sendAddr hk

/-! ## `MPI_Bcast` -/

section Bcast

variable {a : BcastArgs} (hroot : a.root < npes) (hcount : 0 ≤ a.count)

include hroot hcount

theorem shows_bcast (h : a.Moved npes) (hfirst : Copies npes first)
    (hshows : Shows npes OutsideBuffer first m v)
    (hstage : After npes (fun pe => first pe ++ a.stageStep comm pe) m m₁)
    (hput : After npes (a.putStep npes comm) m₁ m₂) :
    Shows npes OutsideBuffer a.backStep m₂ (a.after v) := by
  have hstaged : ∀ {pe}, pe < npes → Staged (comm pe) (a.source pe)
      (getNumBytes a.count a.dataType) (v pe) (m₁ pe) := staged_of_after hcomm hfirst hshows hstage
  intro pe hpe q hq
  -- what is put is put to the buffer
  have hm₂ : m₂ pe q = v pe q := by
    rw [hput.miss_putEach hpe fun i _ _ hc => hq hc.1]
    exact (hstaged hpe).outside q hq
  unfold BcastArgs.after BcastArgs.backStep
  by_cases hr : pe = a.root
  · rw [if_pos hr, if_pos hr]
    exact hm₂
  rw [if_neg hr, if_neg hr]
  rcases h.cases hroot hcount with ⟨halone, -⟩ | ⟨hall, hle⟩
  · exact absurd (halone pe hpe) hr
  show write (m₂ pe) (a.source pe).addr (read (m₂ pe) a.target (getNumBytes a.count a.dataType)) q = _
  rw [hall]
  by_cases hc : (a.source pe).addr.Covers a.bytes q
  · obtain ⟨k, hk, rfl⟩ := covers_iff.mp hc
    rw [write_read _ _ _ hk, write_read _ _ _ hk,
      hput.hit_putEach hroot (BcastArgs.mem_others.mpr ⟨rfl, hpe, hr⟩) (by omega)]
    exact (hstaged hroot).send k fun _ => by omega
  · rw [write_read_of_not_covers _ _ hc, write_read_of_not_covers _ _ hc, hm₂]

end Bcast

/-! ## `MPI_Allgather` -/

section Allgather

variable {a : AllgatherArgs} (hsame : a.SameChoice npes) (h : a.Aligned npes)
  (hsize : shmemAddrAccessible (a.recvbuf 0) = true → (a.dataType.size : ℤ) = 8)
  (hfirst : Copies npes first) (hshows : Shows npes OutsideBuffer first m v)
  (hstage : After npes (fun pe => first pe ++ a.stageStep comm pe) m m₁)
  (hput : After npes (a.putStep npes comm) m₁ m₂)

include hsame h hfirst hshows hstage hput

/-- The blocks have come to every PE. -/
theorem blocks_of_put {pe : ℕ} (hpe : pe < npes) :
    a.blocks npes v = read (m₂ pe) (a.start pe) (a.block * npes) := by
  rw [read_mul h.block_pos.le]
  refine List.flatMap_congr fun j hj => read_eq_read.mpr fun k hk => ?_
  have hj := List.mem_range.mp hj
  rw [h.start_eq hpe hj, h.block_mul hj, hput.hit_putEach hj (List.mem_range.mpr hpe)
    (lt_of_lt_of_le hk h.block_le)]
  refine ((staged_of_after hcomm hfirst hshows hstage hj).send k fun hpriv => ?_).symm
  rw [(hsame j hj).1] at hpriv
  exact lt_of_lt_of_eq hk (h.stageBytes_eq hpriv).symm

include hsize

omit hsame in
/-- Elsewhere nothing has changed. -/
theorem unchanged_of_put {pe : ℕ} (hpe : pe < npes) {q : Addr} (hq : OutsideBuffer q)
    (hmiss : ¬ (a.start pe).Covers (a.block * npes) q) : m₂ pe q = v pe q := by
  rw [← (staged_of_after hcomm hfirst hshows hstage hpe).outside q hq]
  refine hput.miss_putEach hpe fun i hi _ hc => ?_
  rcases accessible_or (a.recvbuf 0) with hr | hr
  · have hblock : 8 * a.count = a.block := by
      unfold AllgatherArgs.block
      rw [hsize hr, mul_comm]
    obtain ⟨hnonneg, hle⟩ := mul_add_le h.block_pos.le hi
    rw [hblock, h.start_eq hi hpe] at hc
    obtain ⟨hregion, hstart, hend⟩ := hc
    rw [add_offset] at hstart hend
    exact hmiss ⟨hregion, by omega, by omega⟩
  · unfold AllgatherArgs.start at hc
    rw [hr, if_neg Bool.false_ne_true] at hc
    exact hq hc.1

theorem shows_allgather : Shows npes OutsideBuffer (a.backStep npes) m₂ (a.after npes v) := by
  intro pe hpe q hq
  have hunchanged := unchanged_of_put hcomm h hsize hfirst hshows hstage hput hpe hq
  unfold AllgatherArgs.after AllgatherArgs.backStep unstage copyMyData
  rw [blocks_of_put hcomm hsame h hfirst hshows hstage hput hpe, (hsame pe hpe).2]
  unfold AllgatherArgs.start at hunchanged ⊢
  rcases accessible_or (a.recvbuf 0) with hr | hr
  · rw [hr, if_pos rfl] at hunchanged ⊢
    rw [if_pos rfl]
    by_cases hc : (a.recvbuf pe).addr.Covers (a.block * npes) q
    · obtain ⟨i, hi, rfl⟩ := covers_iff.mp hc
      exact (write_read _ _ _ hi).symm
    · rw [write_read_of_not_covers _ _ hc]
      exact hunchanged hc
  · rw [hr, if_neg Bool.false_ne_true] at hunchanged ⊢
    rw [if_neg Bool.false_ne_true]
    change write (m₂ pe) (a.recvbuf pe).addr (read (m₂ pe) a.area (a.backBytes npes)) q = _
    rw [h.backBytes_eq hr]
    by_cases hc : (a.recvbuf pe).addr.Covers (a.block * npes) q
    · obtain ⟨i, hi, rfl⟩ := covers_iff.mp hc
      rw [write_read _ _ _ hi, write_read _ _ _ hi]
    · rw [write_read_of_not_covers _ _ hc, write_read_of_not_covers _ _ hc]
      exact hunchanged fun hc' => hq hc'.1

end Allgather

/-- With nothing to send nothing changes. -/
theorem shows_allgather_zero {a : AllgatherArgs} (hzero : a.count = 0) (hfirst : Copies npes first)
    (hshows : Shows npes OutsideBuffer first m v)
    (hstage : After npes (fun pe => first pe ++ a.stageStep comm pe) m m₁)
    (hput : After npes (a.putStep npes comm) m₁ m₂) :
    Shows npes OutsideBuffer (a.backStep npes) m₂ (a.after npes v) := by
  intro pe hpe q hq
  have hm₂ : m₂ pe q = v pe q := by
    rw [hput.miss_putEach hpe fun i _ _ hc => ?_]
    · exact (staged_of_after hcomm hfirst hshows hstage hpe).outside q hq
    · obtain ⟨-, hle, hlt⟩ := hc
      omega
  have hblocks : a.blocks npes v = [] := by
    refine List.flatMap_eq_nil_iff.mpr fun j _ => ?_
    unfold AllgatherArgs.block
    rw [hzero, zero_mul]
    rfl
  unfold AllgatherArgs.after AllgatherArgs.backStep unstage copyMyData getNumBytes
  rw [hblocks, write_nil, hzero, zero_mul, wrapInt_zero, zero_mul, wrapInt_zero, ← hm₂]
  split_ifs
  · rfl
  · exact congrFun (write_read_zero _ _) q

/-! ## All calls -/

namespace CollectiveCall

omit hcomm in
/-- The call as supersteps. -/
def staged (c : CollectiveCall) (npes : ℕ) (comm : ℕ → MpidComm) : StagedCall Region :=
  match c with
  | barrier => ⟨fun _ => [], [], fun _ => [], id⟩
  | bcast a => ⟨a.stageStep comm, [a.putStep npes comm], a.backStep, a.after⟩
  | allgather a => ⟨a.stageStep comm, [a.putStep npes comm], a.backStep npes, a.after npes⟩
  | gather c => ⟨c.stageStep comm, [c.putStep comm], c.backStep npes, c.after npes⟩

variable {c : CollectiveCall}

theorem call_eq_prog (h : c.Allowed npes bufBytes) {pe : ℕ} (hpe : pe < npes) :
    c.call npes comm pe = (c.staged npes comm).prog pe := by
  cases c with
  | barrier => rfl
  | bcast a => exact BcastArgs.call_eq hcomm h.2.2.1 hpe
  | allgather a => exact AllgatherArgs.call_eq hcomm h.1 hpe
  | gather c => exact GatherCall.call_eq hcomm h.1 hpe

theorem exact_bcast {a : BcastArgs} (h : (bcast a).Allowed npes bufBytes) :
    ((bcast a).staged npes comm).Exact (shmem npes bufBytes) OutsideBuffer := by
  obtain ⟨hroot, hcount, hsame, hroom, hmoved⟩ := h
  constructor
  case stage => exact fun _ _ => stage_copies
  case back => exact fun _ _ => BcastArgs.backStep_copies
  case hidden => exact fun pe hpe m q hq => stage_of_ne_buffer (hcomm pe hpe).1 hq
  case raceFree =>
    have hrf := @BcastArgs.raceFree a npes comm
    exact fun s hs => hrf s (List.mem_cons_of_mem _ (List.mem_append_left _ hs))
  case ok =>
    refine List.forall_mem_cons.mpr ⟨fun _ => BcastArgs.ok_stageStep hroot hcount hcomm hsame hroom
      hmoved, List.forall_mem_cons.mpr ⟨fun _ => ?_, List.forall_mem_singleton.mpr fun _ => ?_⟩⟩
    · exact BcastArgs.ok_putStep hroot hcount hcomm hroom hmoved
    · exact BcastArgs.ok_backStep hroot hcount hroom hmoved
  case shows =>
    rintro first m _ v hfirst hshows ⟨m₁, hstage, m₂, hput, rfl⟩
    exact shows_bcast hcomm hroot hcount hmoved hfirst hshows hstage hput

theorem exact_allgather {a : AllgatherArgs} (hpos : 0 < npes)
    (h : (allgather a).Allowed npes bufBytes) :
    ((allgather a).staged npes comm).Exact (shmem npes bufBytes) OutsideBuffer := by
  obtain ⟨hsame, halias, hroom, haligned⟩ := h
  have hweak : a.count = 0 ∨ a.Aligned npes := haligned.imp_right And.left
  constructor
  case stage => exact fun _ _ => stage_copies
  case back => exact fun _ _ => unstage_copies
  case hidden => exact fun pe hpe m q hq => stage_of_ne_buffer (hcomm pe hpe).1 hq
  case raceFree =>
    have hrf := AllgatherArgs.raceFree hcomm hsame halias hweak
    exact fun s hs => hrf s (List.mem_cons_of_mem _ (List.mem_append_left _ hs))
  case ok =>
    refine List.forall_mem_cons.mpr ⟨fun _ => AllgatherArgs.ok_stageStep hpos hcomm hsame hroom hweak,
      List.forall_mem_cons.mpr ⟨fun _ => ?_, List.forall_mem_singleton.mpr fun _ => ?_⟩⟩
    · exact AllgatherArgs.ok_putStep hpos hcomm hsame hroom hweak
    · exact AllgatherArgs.ok_backStep hpos hsame hroom hweak
  case shows =>
    rintro first m _ v hfirst hshows ⟨m₁, hstage, m₂, hput, rfl⟩
    rcases haligned with hzero | ⟨halign, hsize⟩
    · exact shows_allgather_zero hcomm hzero hfirst hshows hstage hput
    · exact shows_allgather hcomm hsame halign hsize hfirst hshows hstage hput

theorem exact_gather {c : GatherCall} (h : (gather c).Allowed npes bufBytes) :
    ((gather c).staged npes comm).Exact (shmem npes bufBytes) OutsideBuffer := by
  obtain ⟨ha, hc⟩ := h
  constructor
  case stage => exact fun _ _ => stage_copies
  case back => exact fun _ _ => GatherCall.backStep_copies
  case hidden => exact fun pe hpe m q hq => stage_of_ne_buffer (hcomm pe hpe).1 hq
  case raceFree => exact List.forall_mem_singleton.mpr (GatherCall.raceFree_putStep hcomm ha hc)
  case ok =>
    refine List.forall_mem_cons.mpr ⟨fun _ => GatherCall.ok_stageStep hcomm ha hc,
      List.forall_mem_cons.mpr ⟨fun _ => ?_, List.forall_mem_singleton.mpr fun _ _ => ?_⟩⟩
    · exact GatherCall.ok_putStep hcomm ha hc
    · exact GatherCall.ok_backStep ha hc
  case shows =>
    rintro first m _ v hfirst hshows ⟨m₁, hstage, m₂, hput, rfl⟩
    exact GatherCall.Shows.after hcomm ha hc hshows hfirst hstage hput

omit hcomm in
/-- A barrier leaves what has been copied back. -/
theorem exact_barrier :
    (barrier.staged npes comm).Exact (shmem npes bufBytes) OutsideBuffer := by
  constructor
  case stage => exact copies_nil
  case back => exact copies_nil
  case hidden => exact fun _ _ _ _ _ => rfl
  case raceFree => exact fun _ hs => absurd hs List.not_mem_nil
  case ok => simp [staged]
  case shows =>
    rintro first m _ v hfirst hshows ⟨m₁, hstage, rfl⟩ pe hpe q hq
    have hcopies := hfirst.append copies_nil
    rw [hstage.eq_of_copies (fun i hi op hop => (hcopies i hi op hop).2) hpe, localRun_append]
    exact hshows pe hpe q hq

theorem exact_staged (hpos : 0 < npes) (h : c.Allowed npes bufBytes) :
    (c.staged npes comm).Exact (shmem npes bufBytes) OutsideBuffer := by
  cases c with
  | barrier => exact exact_barrier
  | bcast a => exact exact_bcast hcomm h
  | allgather a => exact exact_allgather hcomm hpos h
  | gather c => exact exact_gather hcomm h

theorem program_eq {calls : List CollectiveCall} (h : ∀ c ∈ calls, c.Allowed npes bufBytes) {pe : ℕ}
    (hpe : pe < npes) :
    program npes comm calls pe = callsProg (calls.map fun c => c.staged npes comm) pe := by
  unfold program callsProg
  rw [List.flatMap_map]
  exact List.flatMap_congr fun c hc => call_eq_prog hcomm (h c hc) hpe

omit hcomm in
theorem callsAfter_staged (calls : List CollectiveCall) (mem : ℕ → Mem Region) :
    callsAfter (calls.map fun c => c.staged npes comm) mem =
      calls.foldl (fun mem c => c.after npes mem) mem := by
  have hafter : ∀ (c : CollectiveCall) (mem : ℕ → Mem Region),
      (c.staged npes comm).after mem = c.after npes mem := by
    intro c mem
    cases c <;> rfl
  unfold callsAfter
  simp only [List.foldl_map, hafter]

end CollectiveCall

/-! ## Every run -/

section Runs

variable {calls : List CollectiveCall} {mem : ℕ → Mem Region} {ls : List OneSided.Label}
  {w : OneSided.World Region} (hpos : 0 < npes)
  (hallowed : ∀ c ∈ calls, c.Allowed npes bufBytes)
  (hexec : exec (OneSided.step (shmem npes bufBytes))
    (together npes (CollectiveCall.program npes comm calls) mem) ls = some w)

include hpos hallowed hexec

theorem exists_run_of_collectives :
    ∃ ls' w', exec (OneSided.step (shmem npes bufBytes)) w ls' = some w' ∧ w'.Done :=
  completes_calls (List.forall_mem_map.mpr fun c hc =>
      CollectiveCall.exact_staged hcomm hpos (hallowed c hc))
    (fun _ hpe => (if_pos hpe).trans (CollectiveCall.program_eq hcomm hallowed hpe))
    (fun _ hpe => if_neg (not_lt.mpr hpe)) hexec

theorem mem_of_collectives {k : ℕ} (hk : k ≤ calls.length) {pe : ℕ} (hpe : pe < npes)
    (hback : w.prog pe = CollectiveCall.program npes comm (calls.drop k) pe) {q : Addr}
    (hq : q.region ≠ .buffer) :
    w.mem pe q = (calls.take k).foldl (fun mem c => c.after npes mem) mem pe q := by
  have hexact : ∀ c ∈ calls.map fun c => c.staged npes comm,
      c.Exact (shmem npes bufBytes) OutsideBuffer :=
    List.forall_mem_map.mpr fun c hc => CollectiveCall.exact_staged hcomm hpos (hallowed c hc)
  have hprog : ∀ pe < npes, (together npes (CollectiveCall.program npes comm calls) mem).prog pe =
      callsProg (calls.map fun c => c.staged npes comm) pe := fun pe hpe =>
    (if_pos hpe).trans (CollectiveCall.program_eq hcomm hallowed hpe)
  rw [← @CollectiveCall.callsAfter_staged npes comm, List.map_take]
  apply mem_of_calls hexact hprog hpos rfl hexec _ hpe _ hq
  · simpa using hk
  · rw [← List.map_drop, hback]
    exact CollectiveCall.program_eq hcomm (fun c hc => hallowed c (List.mem_of_mem_drop hc)) hpe

end Runs

omit hcomm in
theorem read_write_self (m : Mem Region) (p : Addr) (bs : List UInt8) {n : ℤ} (hn : bs.length = n) :
    read (write m p bs) p n = bs := by
  apply List.ext_getElem
  · rw [length_read]
    omega
  · intro i hi hi'
    rw [getElem_read, write_add i hi']

/-- A gather at the root. -/
def AllgatherArgs.gatherAt (a : AllgatherArgs) (root : ℕ) : GatherCall :=
  ⟨a.sendbuf, a.recvbuf, a.count, a.dataType, root⟩

/-- A broadcast of what has been gathered. -/
def AllgatherArgs.bcastFrom (a : AllgatherArgs) (npes root : ℕ) : BcastArgs :=
  ⟨a.recvbuf, a.count * npes, a.dataType, root⟩

omit hcomm in
theorem after_gather_bcast {a : AllgatherArgs} {root : ℕ} (hcount : 0 ≤ a.count)
    (mem : ℕ → Mem Region) :
    (a.bcastFrom npes root).after ((a.gatherAt root).after npes mem) = a.after npes mem := by
  have hblocks : (a.gatherAt root).blocks npes mem = a.blocks npes mem := rfl
  have hlen : ((a.blocks npes mem).length : ℤ) = (a.bcastFrom npes root).bytes := by
    have hblock := AllgatherArgs.block_nonneg hcount
    have hsum : (a.blocks npes mem).length = npes * a.block.toNat := by
      unfold AllgatherArgs.blocks
      simp [List.length_flatMap, length_read]
    rw [hsum, Nat.cast_mul, Int.toNat_of_nonneg hblock]
    unfold BcastArgs.bytes AllgatherArgs.bcastFrom AllgatherArgs.block
    ring
  funext pe
  unfold BcastArgs.after GatherCall.after AllgatherArgs.after
  rw [hblocks]
  by_cases hr : pe = root
  · subst hr
    exact (if_pos rfl).trans (Function.update_self _ _ _)
  · refine (if_neg hr).trans ?_
    show write (Function.update mem root _ pe) _ (read (Function.update mem root _ root) _ _) = _
    rw [Function.update_of_ne hr, Function.update_self]
    exact congrArg _ (read_write_self _ _ _ hlen)

end MpiToShmem.Shmem
