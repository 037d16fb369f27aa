import MpiToShmem.Shmem.Copies

/-!
# Consecutive calls of `MPI_Gather`

Every call uses the communicator's buffer from its beginning: for the copy of the send buffer, and
at the root for the blocks of all PEs. A PE may stage its next block while the root still copies the
blocks of the last call back.

1. `GatherCall.after`: what a call is to do to memory outside the communicator's buffer.
2. `ExactRuns`: whoever has come back from some of the calls has its memory as these calls leave it.
3. `steps`: the calls in supersteps; what is copied back and what is staged next are in one.
4. `Shows.after`: what a call does.
5. `exact_of_all_counted`: no matter how far each PE is, the calls are exact.
-/

namespace MpiToShmem.Shmem

open Kit OneSided

/-! ## The calls -/

/-- The arguments that the PEs pass to a call; both types are the same. -/
structure GatherCall where
  sendbuf : ℕ → UserBuf
  recvbuf : ℕ → UserBuf
  count : ℤ
  dataType : MpiDatatype
  root : ℕ

namespace GatherCall

/-- The bytes of a block. -/
def block (c : GatherCall) : ℤ := c.count * c.dataType.size

/-- The call on PE `pe`. -/
def call (c : GatherCall) (npes : ℕ) (comm : ℕ → MpidComm) (pe : ℕ) : List (Op Region) × MpiRet :=
  mpiGather npes pe (some (c.sendbuf pe)) c.count c.dataType (some (c.recvbuf pe)) c.dataType c.root
    (comm pe)

/-- What the root is to receive: the blocks of the PEs in their order. -/
def blocks (c : GatherCall) (npes : ℕ) (mem : ℕ → Mem Region) : List UInt8 :=
  (List.range npes).flatMap fun pe => read (mem pe) (c.sendbuf pe).addr c.block

/-- The root has the blocks, and nothing else has changed. -/
def after (c : GatherCall) (npes : ℕ) (mem : ℕ → Mem Region) : ℕ → Mem Region :=
  Function.update mem c.root (write (mem c.root) (c.recvbuf c.root).addr (c.blocks npes mem))

/-- What MPI demands, the same choice of symmetric and other buffers on all PEs, and room for the
copy of the send buffer and for the blocks, where these are needed. -/
structure Allowed (c : GatherCall) (npes : ℕ) (bufBytes : ℤ) : Prop where
  root : c.root < npes
  count : 0 ≤ c.count
  same : ∀ pe < npes,
    shmemAddrAccessible (c.sendbuf pe) = shmemAddrAccessible (c.sendbuf c.root) ∧
      shmemAddrAccessible (c.recvbuf pe) = shmemAddrAccessible (c.recvbuf c.root)
  apart : Apart (c.recvbuf c.root).addr (c.block * npes) (c.sendbuf c.root).addr c.block
  room : copied (c.sendbuf c.root) c.block + copied (c.recvbuf c.root) (c.block * npes) ≤ bufBytes

/-- The elements before the last block, and the sizes of what is copied, fit an `int`; symmetric
receive buffers are at one address. -/
structure Counted (c : GatherCall) (npes : ℕ) : Prop where
  elements : c.count * ((npes : ℤ) - 1) ≤ intMax
  staged : shmemAddrAccessible (c.sendbuf c.root) = false → c.block ≤ intMax
  back : shmemAddrAccessible (c.recvbuf c.root) = false → c.block * npes ≤ intMax
  address : 0 < c.count → shmemAddrAccessible (c.recvbuf c.root) = true →
    ∀ pe < npes, c.recvbuf pe = c.recvbuf c.root

/-- The calls on PE `pe`, one after the other. -/
def program (npes : ℕ) (comm : ℕ → MpidComm) (calls : List GatherCall) (pe : ℕ) :
    List (Op Region) := calls.flatMap fun c => (c.call npes comm pe).1

/-- In any memory: the calls succeed, every run of them can be brought to its end, and a PE that has
come back from the first `k` calls has its memory as these calls are to leave it. -/
structure ExactRuns (npes : ℕ) (bufBytes : ℤ) (comm : ℕ → MpidComm) (calls : List GatherCall) :
    Prop where
  success : ∀ c ∈ calls, ∀ pe < npes, (c.call npes comm pe).2 = .success
  completes : ∀ mem ls w,
    exec (OneSided.step (shmem npes bufBytes)) (together npes (program npes comm calls) mem) ls =
      some w →
    ∃ ls' w', exec (OneSided.step (shmem npes bufBytes)) w ls' = some w' ∧ w'.Done
  correct : ∀ mem ls w,
    exec (OneSided.step (shmem npes bufBytes)) (together npes (program npes comm calls) mem) ls =
      some w →
    ∀ k ≤ calls.length, ∀ pe < npes, w.prog pe = program npes comm (calls.drop k) pe →
    ∀ q, q.region ≠ .buffer →
      w.mem pe q = (calls.take k).foldl (fun mem c => c.after npes mem) mem pe q

/-! ## The calls in supersteps -/

variable (c : GatherCall) (npes : ℕ) (comm : ℕ → MpidComm)

/-- Behind the copy of the send buffer, if there is one. -/
def area : Addr := ⟨.buffer, copied (c.sendbuf c.root) (getNumBytes c.count c.dataType)⟩

/-- Where PE `pe` takes the blocks to be collected. -/
def start (pe : ℕ) : Addr :=
  if shmemAddrAccessible (c.recvbuf c.root) then (c.recvbuf pe).addr else c.area

def place (pe : ℕ) : Addr := c.start pe + (wrapInt (c.count * pe) * c.dataType.size : ℤ)

def src (pe : ℕ) : Addr := sendAddr (comm pe) (c.sendbuf pe)

def stageStep (pe : ℕ) : List (Op Region) := stage (comm pe) (c.sendbuf pe) c.count c.dataType

def putStep (pe : ℕ) : List (Op Region) := [.put c.root (c.place pe) (c.src comm pe) c.block]

def backStep (pe : ℕ) : List (Op Region) :=
  if pe = c.root then unstage (c.recvbuf pe) c.area (wrapInt (c.count * npes)) c.dataType else []

/-- The supersteps of the calls, when `first` is still to be run before. -/
def steps (first : ℕ → List (Op Region)) : List GatherCall → List (ℕ → List (Op Region))
  | [] => [first]
  | c :: calls => (fun pe => first pe ++ c.stageStep comm pe) :: c.putStep comm ::
      steps (c.backStep npes) calls

variable {c npes comm}
variable (hcomm : ∀ pe < npes, (comm pe).bufferPtr = sharedBuffer ∧ (comm pe).offset = 0)
  {bufBytes : ℤ}

include hcomm in
theorem call_eq (ha : c.Allowed npes bufBytes) {pe : ℕ} (hpe : pe < npes) :
    (c.call npes comm pe).1 = c.stageStep comm pe ++ .barrier ::
      (c.putStep comm pe ++ .barrier :: c.backStep npes pe) := by
  have hsym : symRecv (comm pe) (c.sendbuf pe) c.count c.dataType = c.area := by
    rw [symRecv_eq (hcomm pe hpe).2 (hcomm pe hpe).1]
    unfold area copied
    rw [(ha.same pe hpe).1]
  have hrecv : recvAddr (comm pe) (c.sendbuf pe) (c.recvbuf pe) c.count c.dataType = c.start pe := by
    unfold recvAddr start
    rw [(ha.same pe hpe).2, hsym]
  unfold call mpiGather
  dsimp only
  rw [hsym, hrecv]
  rfl

theorem backStep_copies {pe : ℕ} :
    ∀ op ∈ c.backStep npes pe, op.isLocal = true ∧ op.target = none := by
  unfold backStep
  split_ifs
  · exact unstage_copies
  · exact fun _ hop => absurd hop List.not_mem_nil

include hcomm in
theorem joinSteps_steps (first : ℕ → List (Op Region)) {calls : List GatherCall}
    (ha : ∀ c ∈ calls, c.Allowed npes bufBytes) {pe : ℕ} (hpe : pe < npes) :
    joinSteps pe (steps npes comm first calls) = first pe ++ program npes comm calls pe := by
  induction calls generalizing first with
  | nil => exact (List.append_nil _).symm
  | cons c calls ih =>
    have hrest : joinSteps pe (steps npes comm (c.backStep npes) calls) =
        c.backStep npes pe ++ program npes comm calls pe :=
      ih (c.backStep npes) fun c hc => ha c (List.mem_cons_of_mem _ hc)
    have htail : tailOf (steps npes comm (c.backStep npes) calls) pe =
        .barrier :: joinSteps pe (steps npes comm (c.backStep npes) calls) := by
      cases calls <;> rfl
    unfold steps program
    rw [List.flatMap_cons, call_eq hcomm (ha c List.mem_cons_self) hpe, joinSteps_cons]
    show _ ++ .barrier :: joinSteps pe (c.putStep comm :: steps npes comm (c.backStep npes) calls) = _
    rw [joinSteps_cons, htail, hrest]
    simp only [List.append_assoc, List.cons_append]
    rfl

/-! ## One call -/

section Call

variable (ha : c.Allowed npes bufBytes) (h : c.Counted npes)

include ha

theorem Allowed.block_nonneg : 0 ≤ c.block := Int.mul_nonneg ha.count (size_pos c.dataType).le

theorem Allowed.count_pos (hblock : 0 < c.block) : 0 < c.count := by
  rcases ha.count.lt_or_eq with hpos | hzero
  · exact hpos
  · unfold block at hblock
    rw [← hzero, zero_mul] at hblock
    exact absurd hblock (lt_irrefl 0)

include h

theorem stageBytes_eq (hpriv : shmemAddrAccessible (c.sendbuf c.root) = false) :
    getNumBytes c.count c.dataType = c.block := getNumBytes_of_le ha.count (h.staged hpriv)

theorem backBytes_eq (hpriv : shmemAddrAccessible (c.recvbuf c.root) = false) :
    getNumBytes (wrapInt (c.count * npes)) c.dataType = c.block * npes :=
  getNumBytes_wrapInt_mul ha.count (h.back hpriv)

theorem copied_stageBytes : copied (c.sendbuf c.root) (getNumBytes c.count c.dataType) =
    copied (c.sendbuf c.root) c.block := by
  unfold copied
  rcases accessible_or (c.sendbuf c.root) with hs | hs
  · rw [if_pos hs, if_pos hs]
  · rw [stageBytes_eq ha h hs]

/-- The index of the block does not overflow. -/
theorem wrapInt_index {pe : ℕ} (hpe : pe < npes) :
    wrapInt (c.count * pe) * (c.dataType.size : ℤ) = c.block * pe := by
  have hle : c.count * pe ≤ c.count * ((npes : ℤ) - 1) :=
    Int.mul_le_mul_of_nonneg_left (by omega) ha.count
  have hnonneg : 0 ≤ c.count * pe := Int.mul_nonneg ha.count (by omega)
  have hint := h.elements
  rw [wrapInt_of_isInt ⟨by omega, by omega⟩]
  unfold block
  ring

/-- Where something is put, it is the place of the block. -/
theorem place_eq (hblock : 0 < c.block) {pe : ℕ} (hpe : pe < npes) :
    c.place pe = c.start c.root + (c.block * (pe : ℤ)) := by
  have hstart : c.start pe = c.start c.root := by
    unfold start
    split_ifs with hacc
    · rw [h.address (ha.count_pos hblock) hacc pe hpe]
    · rfl
  unfold place
  rw [hstart, wrapInt_index ha h hpe]

/-- The room for the copy and for the blocks behind it. -/
theorem room_le : (shmemAddrAccessible (c.sendbuf c.root) = false → c.block ≤ bufBytes) ∧
    (shmemAddrAccessible (c.recvbuf c.root) = false →
      0 ≤ copied (c.sendbuf c.root) (getNumBytes c.count c.dataType) ∧
      copied (c.sendbuf c.root) (getNumBytes c.count c.dataType) + c.block * npes ≤ bufBytes) := by
  have hroom := ha.room
  have hblock := ha.block_nonneg
  have hblocks : 0 ≤ c.block * npes := Int.mul_nonneg hblock (by omega)
  rw [copied_stageBytes ha h]
  unfold copied at hroom ⊢
  constructor
  · intro hs
    rw [hs, if_neg Bool.false_ne_true] at hroom
    split_ifs at hroom <;> omega
  · intro hr
    rw [hr, if_neg Bool.false_ne_true] at hroom
    split_ifs at hroom ⊢ <;> omega

/-! ### All accesses are inside -/

include hcomm in
theorem ok_stageStep {pe : ℕ} (hpe : pe < npes) :
    ∀ op ∈ c.stageStep comm pe, op.Ok (shmem npes bufBytes) := by
  refine (ok_stage (hcomm pe hpe).1).mpr fun hpriv => ?_
  rw [(ha.same pe hpe).1] at hpriv
  have hroom := (room_le ha h).1 hpriv
  rw [stageBytes_eq ha h hpriv]
  exact Or.inr ⟨ha.block_nonneg, le_rfl, by omega⟩

include hcomm in
theorem ok_putStep {pe : ℕ} (hpe : pe < npes) :
    ∀ op ∈ c.putStep comm pe, op.Ok (shmem npes bufBytes) := by
  refine List.forall_mem_singleton.mpr ⟨ha.root, ?_⟩
  rcases ha.block_nonneg.lt_or_eq with hblock | hzero
  · obtain ⟨hsend, hrecv⟩ := room_le ha h
    obtain ⟨hnonneg, hle⟩ := mul_add_le hblock.le hpe
    constructor
    · rw [place_eq ha h hblock hpe]
      unfold start
      rcases accessible_or (c.recvbuf c.root) with hr | hr
      · rw [hr, if_pos rfl]
        exact inside_of_ne_buffer (addr_region_ne_buffer (c.recvbuf c.root)) hblock.le
      · obtain ⟨hstart, hend⟩ := hrecv hr
        rw [hr, if_neg Bool.false_ne_true]
        have hin : InBuffer bufBytes (copied (c.sendbuf c.root) (getNumBytes c.count c.dataType) +
            c.block * pe) c.block := Or.inr ⟨hblock.le, by omega, by omega⟩
        exact inside_buffer_iff.mpr hin
    · unfold src sendAddr
      rw [(ha.same pe hpe).1]
      rcases accessible_or (c.sendbuf c.root) with hs | hs
      · rw [hs, if_pos rfl]
        exact inside_of_ne_buffer (addr_region_ne_buffer _) hblock.le
      · have hroom := hsend hs
        rw [hs, if_neg Bool.false_ne_true, (hcomm pe hpe).1]
        exact inside_buffer_iff.mpr (Or.inr ⟨hblock.le, le_rfl, by omega⟩)
  · exact ⟨Or.inl hzero.symm, Or.inl hzero.symm⟩

theorem ok_backStep {pe : ℕ} : ∀ op ∈ c.backStep npes pe, op.Ok (shmem npes bufBytes) := by
  unfold backStep
  split_ifs with hr
  · subst hr
    refine ok_unstage.mpr fun hpriv => ?_
    obtain ⟨hstart, hend⟩ := (room_le ha h).2 hpriv
    rw [backBytes_eq ha h hpriv]
    exact Or.inr ⟨Int.mul_nonneg ha.block_nonneg (by omega), hstart, by omega⟩
  · exact fun _ hop => absurd hop List.not_mem_nil

/-! ### Nothing races -/

/-- Nothing is put where the root itself sends from. -/
theorem apart_src (hbuf : (comm c.root).bufferPtr = sharedBuffer) {i : ℕ} (hi : i < npes) :
    Apart (c.place i) c.block (c.src comm c.root) c.block := by
  intro q hq hq'
  have hblock : 0 < c.block := by
    obtain ⟨-, hle, hlt⟩ := hq
    omega
  obtain ⟨hnonneg, hle⟩ := mul_add_le hblock.le hi
  rw [place_eq ha h hblock hi] at hq
  obtain ⟨hregion, hstart, hend⟩ := hq
  rw [add_offset] at hstart hend
  unfold src sendAddr at hq'
  unfold start at hregion hstart hend
  rcases accessible_or (c.sendbuf c.root) with hs | hs <;>
    rcases accessible_or (c.recvbuf c.root) with hr | hr
  · rw [hs, if_pos rfl] at hq'
    rw [hr, if_pos rfl] at hregion hstart hend
    exact ha.apart q ⟨hregion, by omega, by omega⟩ hq'
  · rw [hs, if_pos rfl] at hq'
    rw [hr, if_neg Bool.false_ne_true] at hregion
    exact addr_region_ne_buffer _ (hq'.1.symm.trans hregion)
  · rw [hs, if_neg Bool.false_ne_true, hbuf] at hq'
    rw [hr, if_pos rfl] at hregion
    exact addr_region_ne_buffer (c.recvbuf c.root) (hregion.symm.trans hq'.1)
  · rw [hs, if_neg Bool.false_ne_true, hbuf] at hq'
    rw [hr, if_neg Bool.false_ne_true] at hstart
    unfold area copied at hstart
    rw [hs, if_neg Bool.false_ne_true, stageBytes_eq ha h hs] at hstart
    obtain ⟨-, hle', hlt'⟩ := hq'
    unfold sharedBuffer at hlt'
    dsimp only at hstart hlt'
    omega

include hcomm in
theorem raceFree_putStep : RaceFree npes (c.putStep comm) := by
  refine raceFree_of_put (fun i hi j hj hij => ?_) fun i hi _ =>
    apart_src ha h (hcomm _ ha.root).1 hi
  intro q hq hq'
  have hblock : 0 < c.block := by
    obtain ⟨-, hle, hlt⟩ := hq
    omega
  rw [place_eq ha h hblock hi] at hq
  rw [place_eq ha h hblock hj] at hq'
  obtain ⟨-, hle, hlt⟩ := hq
  obtain ⟨-, hle', hlt'⟩ := hq'
  rw [add_offset] at hle hlt hle' hlt'
  rcases Nat.lt_or_gt_of_ne hij with hlt₁ | hlt₁
  · have := (mul_add_le hblock.le hlt₁).2
    omega
  · have := (mul_add_le hblock.le hlt₁).2
    omega

/-! ### What it does -/

variable {first : ℕ → List (Op Region)} {m m₁ m₂ v : ℕ → Mem Region}

/-- Outside the communicator's buffer memory is `v`, once `first` has been run. -/
def Shows (npes : ℕ) (first : ℕ → List (Op Region)) (m v : ℕ → Mem Region) : Prop :=
  ∀ pe < npes, ∀ q, q.region ≠ .buffer → (localRun (m pe) (first pe)).1 q = v pe q

section Effect

variable (hshows : Shows npes first m v)
  (hfirst : ∀ pe < npes, ∀ op ∈ first pe, op.isLocal = true ∧ op.target = none)
  (hstage : After npes (fun pe => first pe ++ c.stageStep comm pe) m m₁)
  (hput : After npes (c.putStep comm) m₁ m₂)

include hcomm hshows hfirst hstage

omit h in
/-- The blocks are where they are put from, and nothing else has changed. -/
theorem staged {pe : ℕ} (hpe : pe < npes) :
    (∀ q, q.region ≠ .buffer → m₁ pe q = v pe q) ∧
      ((shmemAddrAccessible (c.sendbuf c.root) = false →
          getNumBytes c.count c.dataType = c.block) →
        ∀ k : ℕ, (k : ℤ) < c.block →
          m₁ pe (c.src comm pe + (k : ℤ)) = v pe ((c.sendbuf pe).addr + (k : ℤ))) := by
  have hm₁ : m₁ pe = (localRun (localRun (m pe) (first pe)).1 (c.stageStep comm pe)).1 := by
    rw [hstage.eq_of_copies (fun i hi op hop => ?_) hpe, localRun_append]
    rcases List.mem_append.mp hop with hop | hop
    · exact (hfirst i hi op hop).2
    · exact (stage_copies op hop).2
  constructor
  · intro q hq
    rw [hm₁, ← hshows pe hpe q hq]
    exact stage_of_ne_buffer (hcomm pe hpe).1 hq
  · intro hbytes k hk
    rw [hm₁, ← hshows pe hpe ((c.sendbuf pe).addr + (k : ℤ)) (addr_region_ne_buffer (c.sendbuf pe))]
    refine stage_sendAddr fun hpriv => ?_
    rw [(ha.same pe hpe).1] at hpriv
    rwa [hbytes hpriv]

include h hput

/-- At the root there are the blocks. -/
theorem blocks_eq : c.blocks npes v = read (m₂ c.root) (c.start c.root) (c.block * npes) := by
  rw [read_mul ha.block_nonneg]
  refine List.flatMap_congr fun j hj => read_eq_read.mpr fun k hk => ?_
  have hj := List.mem_range.mp hj
  rw [← place_eq ha h (by omega) hj]
  rw [hput.hit_put hj hk]
  exact ((staged hcomm ha hshows hfirst hstage hj).2 (stageBytes_eq ha h) k hk).symm

/-- Elsewhere memory is as it was. -/
theorem unchanged {pe : ℕ} (hpe : pe < npes) {q : Addr} (hq : q.region ≠ .buffer)
    (hmiss : pe = c.root → ¬ (c.start c.root).Covers (c.block * npes) q) : m₂ pe q = v pe q := by
  rw [← (staged hcomm ha hshows hfirst hstage hpe).1 q hq]
  refine hput.miss_put hpe fun i hi hroot hc => ?_
  have hblock : 0 < c.block := by
    obtain ⟨-, hle, hlt⟩ := hc
    omega
  obtain ⟨hnonneg, hle⟩ := mul_add_le hblock.le hi
  rw [place_eq ha h hblock hi] at hc
  obtain ⟨hregion, hstart, hend⟩ := hc
  rw [add_offset] at hstart hend
  exact hmiss hroot ⟨hregion, by omega, by omega⟩

/-- When what is there is copied back, the call has done what it is to do. -/
theorem Shows.after : Shows npes (c.backStep npes) m₂ (c.after npes v) := by
  intro pe hpe q hq
  have hunchanged := fun hmiss => unchanged hcomm ha h hshows hfirst hstage hput hpe hq hmiss
  unfold GatherCall.after backStep
  by_cases hr : pe = c.root
  · subst hr
    rw [if_pos rfl, Function.update_self, blocks_eq hcomm ha h hshows hfirst hstage hput]
    unfold unstage copyMyData
    by_cases hc : (c.recvbuf c.root).addr.Covers (c.block * npes) q
    · obtain ⟨i, hi, rfl⟩ := covers_iff.mp hc
      rw [write_read _ _ _ hi]
      unfold start
      rcases accessible_or (c.recvbuf c.root) with hacc | hacc
      · rw [hacc, if_pos rfl, if_pos rfl]
        rfl
      · rw [hacc, if_neg Bool.false_ne_true, if_neg Bool.false_ne_true]
        exact write_read _ _ _ ((backBytes_eq ha h hacc).symm ▸ hi)
    · rw [write_read_of_not_covers _ _ hc]
      unfold start at hunchanged
      rcases accessible_or (c.recvbuf c.root) with hacc | hacc
      · rw [hacc, if_pos rfl] at hunchanged ⊢
        exact hunchanged fun _ => hc
      · rw [hacc, if_neg Bool.false_ne_true] at hunchanged ⊢
        rw [← hunchanged fun _ hc' => hq hc'.1]
        refine write_read_of_not_covers _ _ ?_
        rwa [backBytes_eq ha h hacc]
  · rw [if_neg hr, Function.update_of_ne hr]
    exact hunchanged fun he => absurd he hr

end Effect

end Call

/-! ## All calls -/

section Calls

variable {calls : List GatherCall} {first : ℕ → List (Op Region)}

theorem length_steps (npes : ℕ) (comm : ℕ → MpidComm) (first : ℕ → List (Op Region))
    (calls : List GatherCall) : (steps npes comm first calls).length = 2 * calls.length + 1 := by
  induction calls generalizing first with
  | nil => rfl
  | cons c calls ih =>
    show (steps npes comm (c.backStep npes) calls).length + 2 = _
    rw [ih, List.length_cons]
    ring

variable (hcalls : ∀ c ∈ calls, c.Allowed npes bufBytes ∧ c.Counted npes)

include hcomm hcalls

theorem raceFree_steps
    (hfirst : ∀ pe < npes, ∀ op ∈ first pe, op.isLocal = true ∧ op.target = none) :
    ∀ s ∈ steps npes comm first calls, RaceFree npes s := by
  induction calls generalizing first with
  | nil => exact List.forall_mem_singleton.mpr (raceFree_of_copies hfirst)
  | cons c calls ih =>
    obtain ⟨ha, h⟩ := hcalls c List.mem_cons_self
    refine List.forall_mem_cons.mpr ⟨raceFree_of_copies fun pe hpe => ?_, List.forall_mem_cons.mpr
      ⟨raceFree_putStep hcomm ha h, ih (fun c hc => hcalls c (List.mem_cons_of_mem _ hc))
        fun _ _ => backStep_copies⟩⟩
    exact List.forall_mem_append.mpr ⟨hfirst pe hpe, stage_copies⟩

theorem ok_steps (hfirst : ∀ pe < npes, ∀ op ∈ first pe, op.Ok (shmem npes bufBytes)) :
    ∀ s ∈ steps npes comm first calls, ∀ pe < npes, ∀ op ∈ s pe, op.Ok (shmem npes bufBytes) := by
  induction calls generalizing first with
  | nil => exact List.forall_mem_singleton.mpr hfirst
  | cons c calls ih =>
    obtain ⟨ha, h⟩ := hcalls c List.mem_cons_self
    refine List.forall_mem_cons.mpr ⟨fun pe hpe => ?_, List.forall_mem_cons.mpr
      ⟨fun _ => ok_putStep hcomm ha h, ih (fun c hc => hcalls c (List.mem_cons_of_mem _ hc))
        fun _ _ => ok_backStep ha h⟩⟩
    exact List.forall_mem_append.mpr ⟨hfirst pe hpe, ok_stageStep hcomm ha h hpe⟩

/-- There are two barriers in a call. -/
theorem countP_program {pe : ℕ} (hpe : pe < npes) :
    (program npes comm calls pe).countP Op.isBarrier = 2 * calls.length := by
  have hjoin := joinSteps_steps hcomm (fun _ => []) (fun c hc => (hcalls c hc).1) hpe
  have hlen := length_steps npes comm (fun _ => []) calls
  have hrf : ∀ s ∈ steps npes comm (fun _ => []) calls, RaceFree npes s :=
    raceFree_steps hcomm hcalls fun _ _ _ hop => absurd hop List.not_mem_nil
  rw [List.nil_append] at hjoin
  rw [← hjoin]
  cases hsteps : steps npes comm (fun _ => []) calls with
  | nil =>
    rw [hsteps] at hlen
    cases hlen
  | cons seg segs =>
    rw [hsteps] at hlen hrf
    rw [countP_joinSteps fun s hs op hop =>
      (Op.not_waiting_of_isLocal ((hrf s hs).isLocal pe hpe op hop)).2]
    exact Nat.succ.inj hlen

/-- After the supersteps of `k` calls memory is as these leave it, when what is copied back at the
end of the last one has been. -/
theorem exists_first {k : ℕ} (hk : k ≤ calls.length) {passed segs : List (ℕ → List (Op Region))}
    {m m' v : ℕ → Mem Region} (hsteps : steps npes comm first calls = passed ++ segs)
    (hlen : passed.length = 2 * k)
    (hfirst : ∀ pe < npes, ∀ op ∈ first pe, op.isLocal = true ∧ op.target = none)
    (hshows : Shows npes first m v) (hfollows : Follows npes passed m m') :
    ∃ first', segs = steps npes comm first' (calls.drop k) ∧
      (∀ pe < npes, ∀ op ∈ first' pe, op.isLocal = true ∧ op.target = none) ∧
      Shows npes first' m' ((calls.take k).foldl (fun mem c => c.after npes mem) v) := by
  induction k generalizing calls first passed m v with
  | zero =>
    obtain rfl := List.length_eq_zero_iff.mp hlen
    obtain rfl : m = m' := hfollows
    exact ⟨first, hsteps.symm, hfirst, hshows⟩
  | succ k ih =>
    obtain ⟨c, calls, rfl⟩ := List.exists_cons_of_length_pos (Nat.lt_of_lt_of_le k.succ_pos hk)
    obtain ⟨s₁, passed, rfl⟩ := List.exists_cons_of_length_pos (l := passed) (by omega)
    rw [List.length_cons] at hlen
    obtain ⟨s₂, passed, rfl⟩ := List.exists_cons_of_length_pos (l := passed) (by omega)
    rw [List.length_cons] at hlen
    obtain ⟨rfl, htail⟩ := List.cons.inj hsteps
    obtain ⟨rfl, hrest⟩ := List.cons.inj htail
    obtain ⟨m₁, hstage, m₂, hput, hfollows⟩ := hfollows
    obtain ⟨ha, h⟩ := hcalls c List.mem_cons_self
    exact ih (fun c hc => hcalls c (List.mem_cons_of_mem _ hc)) (Nat.le_of_succ_le_succ hk) hrest
      (by omega) (fun _ _ => backStep_copies) (Shows.after hcomm ha h hshows hfirst hstage hput)
      hfollows

/-- A PE that is to begin with these calls stages next, which does not show. -/
theorem exists_stage {seg : ℕ → List (Op Region)} {segs : List (ℕ → List (Op Region))}
    (hsteps : seg :: segs = steps npes comm first calls) {pe : ℕ} (hpe : pe < npes) :
    ∃ ops, seg pe = first pe ++ ops ∧ program npes comm calls pe = ops ++ tailOf segs pe ∧
      (∀ op ∈ ops, op.target = none) ∧
      ∀ (m : Mem Region) (q : Addr), q.region ≠ .buffer → (localRun m ops).1 q = m q := by
  have hjoin := joinSteps_steps hcomm first (fun c hc => (hcalls c hc).1) hpe
  rw [← hsteps, joinSteps_cons] at hjoin
  cases calls with
  | nil =>
    obtain ⟨rfl, rfl⟩ := List.cons.inj hsteps
    exact ⟨[], (List.append_nil _).symm, rfl, fun _ hop => absurd hop List.not_mem_nil,
      fun _ _ _ => rfl⟩
  | cons c calls =>
    obtain ⟨rfl, rfl⟩ := List.cons.inj hsteps
    rw [List.append_assoc] at hjoin
    exact ⟨c.stageStep comm pe, rfl, (List.append_cancel_left hjoin).symm,
      fun op hop => (stage_copies op hop).2, fun _ _ hq => stage_of_ne_buffer (hcomm pe hpe).1 hq⟩

/-- A PE that is to begin with the calls that are left has its memory as the first `k` leave it. -/
theorem mem_of_superInv {mem : ℕ → Mem Region} (hrf : ∀ s ∈ steps npes comm (fun _ => []) calls,
      RaceFree npes s)
    {passed segs : List (ℕ → List (Op Region))} {seg : ℕ → List (Op Region)}
    (hsplit : steps npes comm (fun _ => []) calls = passed ++ seg :: segs) {m md : ℕ → Mem Region}
    (hfollows : Follows npes passed mem m) {todo : ℕ → List (Op Region)}
    {sent : ℕ → List (Put Region)} {landed : List (Put Region)} {w : OneSided.World Region}
    (hinv : SuperInv npes seg (tailOf segs) m md todo sent landed w) {k : ℕ} (hk : k ≤ calls.length)
    {pe : ℕ} (hpe : pe < npes) (hprog : w.prog pe = program npes comm (calls.drop k) pe) {q : Addr}
    (hq : q.region ≠ .buffer) :
    w.mem pe q = (calls.take k).foldl (fun mem c => c.after npes mem) mem pe q := by
  have hrest : ∀ c ∈ calls.drop k, c.Allowed npes bufBytes ∧ c.Counted npes := fun c hc =>
    hcalls c (List.mem_of_mem_drop hc)
  have hrf' : ∀ s ∈ seg :: segs, RaceFree npes s := fun s hs =>
    hrf s (hsplit ▸ List.mem_append_right passed hs)
  -- the barriers that are left tell how many supersteps are over
  have hlen : passed.length = 2 * k := by
    have hcount := hinv.countP_eq hrf' hpe
    rw [hprog, countP_program hcomm hrest hpe, List.length_drop] at hcount
    have hsum := congrArg List.length hsplit
    rw [length_steps, List.length_append, List.length_cons] at hsum
    omega
  have hstart : Shows npes (fun _ => []) mem mem := fun _ _ _ _ => rfl
  obtain ⟨first, hfrom, hfirst, hshows⟩ := exists_first hcomm hcalls hk hsplit hlen
    (fun _ _ _ hop => absurd hop List.not_mem_nil) hstart hfollows
  obtain ⟨ops, hseg, hnext, -, hops⟩ := exists_stage hcomm hrest hfrom hpe
  have htodo : todo pe = ops :=
    List.append_cancel_right ((hinv.prog pe hpe).symm.trans (hprog.trans hnext))
  have hmem := hinv.localRun_todo (fun i hi op hop => ?_) hpe
  · rw [htodo, hseg, localRun_append] at hmem
    rw [← hshows pe hpe q hq, ← hops (w.mem pe) q hq, hmem]
    exact hops _ q hq
  · obtain ⟨ops', hseg', -, hnone, -⟩ := exists_stage hcomm hrest hfrom hi
    rw [hseg'] at hop
    exact (List.mem_append.mp hop).elim (fun hop => (hfirst i hi op hop).2) (hnone op)

end Calls

/-! ## Every run -/

/-- Calls that count right are exact, one after the other, no matter how far each PE is between
barriers. -/
theorem exact_of_all_counted (npes : ℕ) (bufBytes : ℤ) (comm : ℕ → MpidComm)
    (calls : List GatherCall) (hpos : 0 < npes)
    (hcomm : ∀ pe < npes, (comm pe).bufferPtr = sharedBuffer ∧ (comm pe).offset = 0)
    (hallowed : ∀ c ∈ calls, c.Allowed npes bufBytes) (hcounted : ∀ c ∈ calls, c.Counted npes) :
    ExactRuns npes bufBytes comm calls := by
  have hcalls : ∀ c ∈ calls, c.Allowed npes bufBytes ∧ c.Counted npes := fun c hc =>
    ⟨hallowed c hc, hcounted c hc⟩
  have hnil : ∀ pe < npes, ∀ op ∈ ([] : List (Op Region)), op.isLocal = true ∧ op.target = none :=
    fun _ _ _ hop => absurd hop List.not_mem_nil
  obtain ⟨seg, segs, hsteps⟩ : ∃ seg segs, steps npes comm (fun _ => []) calls = seg :: segs := by
    cases calls <;> exact ⟨_, _, rfl⟩
  have hrf : ∀ s ∈ seg :: segs, RaceFree npes s := hsteps ▸ raceFree_steps hcomm hcalls hnil
  have hok : ∀ s ∈ seg :: segs, ∀ pe < npes, ∀ op ∈ s pe, op.Ok (shmem npes bufBytes) :=
    hsteps ▸ ok_steps hcomm hcalls fun _ _ _ hop => absurd hop List.not_mem_nil
  have hjoin : ∀ mem, ∀ pe < npes,
      (together npes (program npes comm calls) mem).prog pe = joinSteps pe (seg :: segs) := by
    intro mem pe hpe
    rw [← hsteps, joinSteps_steps hcomm _ hallowed hpe]
    exact if_pos hpe
  refine ⟨fun c _ pe _ => rfl, fun mem ls w hexec => ?_,
    fun mem ls w hexec k hk pe hpe hprog q hq => ?_⟩
  · exact exists_run_done_of_run (runnable_joinSteps (hjoin mem)
      (fun pe hpe => if_neg (not_lt.mpr hpe))
      fun s hs pe hpe op hop => ⟨hok s hs pe hpe op hop, (hrf s hs).isLocal pe hpe op hop⟩) hexec
  · obtain ⟨passed, seg', segs', m, md, todo, sent, landed, hsplit, hfollows, hinv⟩ :=
      exists_superInv_of_run hpos hrf (hjoin mem) rfl hexec
    rw [← hsteps] at hrf hsplit
    exact mem_of_superInv hcomm hcalls hrf hsplit hfollows hinv hk hpe hprog hq

/-- Two PEs gather two `int`s at PE 0, nothing of it in symmetric memory, and then a symmetric `long`
at PE 1. -/
theorem exact_two_calls :
    let ints : GatherCall := ⟨fun _ => .process 0, fun _ => .process 8, 2, .int, 0⟩
    let longs : GatherCall := ⟨fun _ => .heap 0, fun _ => .process 0, 1, .long, 1⟩
    ExactRuns 2 24 (fun pe => mpiInit 2 pe ⟨.heap, 0⟩ ⟨.heap, 0⟩) [ints, longs] := by
  intro ints longs
  have hints : ints.Allowed 2 24 ∧ ints.Counted 2 := by
    refine ⟨⟨by decide, by decide, fun _ _ => ⟨rfl, rfl⟩, ?_, by decide⟩,
      ⟨by decide, fun _ => by decide, fun _ => by decide, fun _ => nofun⟩⟩
    rintro q ⟨-, hle, -⟩ ⟨-, -, hlt⟩
    have h : (8 : ℤ) < 0 + 8 := lt_of_le_of_lt hle hlt
    exact absurd h (by decide)
  have hlongs : longs.Allowed 2 24 ∧ longs.Counted 2 := by
    refine ⟨⟨by decide, by decide, fun _ _ => ⟨rfl, rfl⟩, ?_, by decide⟩,
      ⟨by decide, nofun, fun _ => by decide, fun _ => nofun⟩⟩
    rintro q ⟨hregion, -⟩ ⟨hregion', -⟩
    cases hregion.symm.trans hregion'
  refine exact_of_all_counted 2 24 _ [ints, longs] (by decide) (fun _ _ => ⟨rfl, rfl⟩) ?_ ?_
  · exact List.forall_mem_cons.mpr ⟨hints.1, List.forall_mem_singleton.mpr hlongs.1⟩
  · exact List.forall_mem_cons.mpr ⟨hints.2, List.forall_mem_singleton.mpr hlongs.2⟩

/-- A call without a race that is exact follows its supersteps to what it is to leave. -/
theorem follows_of_exact (hpos : 0 < npes)
    (hcomm : ∀ pe < npes, (comm pe).bufferPtr = sharedBuffer ∧ (comm pe).offset = 0)
    (ha : c.Allowed npes bufBytes) (hrf : RaceFree npes (c.putStep comm))
    (h : ExactRuns npes bufBytes comm [c]) (mem : ℕ → Mem Region) :
    ∃ m', Follows npes [c.stageStep comm, c.putStep comm, c.backStep npes] mem m' ∧
      ∀ pe < npes, ∀ q, q.region ≠ .buffer → m' pe q = c.after npes mem pe q := by
  have hsteps : ∀ s ∈ [c.stageStep comm, c.putStep comm, c.backStep npes], RaceFree npes s :=
    List.forall_mem_cons.mpr ⟨raceFree_of_copies fun _ _ => stage_copies,
      List.forall_mem_cons.mpr
        ⟨hrf, List.forall_mem_singleton.mpr (raceFree_of_copies fun _ _ => backStep_copies)⟩⟩
  have hprog : ∀ pe < npes, (together npes (program npes comm [c]) mem).prog pe =
      joinSteps pe [c.stageStep comm, c.putStep comm, c.backStep npes] := by
    intro pe hpe
    have hjoin := joinSteps_steps hcomm (fun _ => []) (List.forall_mem_singleton.mpr ha) hpe
    exact (if_pos hpe).trans hjoin.symm
  obtain ⟨ls, w, hexec, hdone⟩ := h.completes mem [] _ rfl
  refine ⟨w.mem, follows_of_run hpos hsteps hprog rfl hexec hdone, fun pe hpe q hq => ?_⟩
  exact h.correct mem ls w hexec 1 le_rfl pe hpe (hdone.1 pe) q hq

/-- Three PEs with `2 ^ 30` bytes each, everything symmetric: the index of the last block is `2 ^ 31`,
so that it is put in front of the receive buffer. -/
theorem not_exact_overflow :
    let c : GatherCall := ⟨fun _ => .heap 3221225472, fun _ => .heap 0, 1073741824, .char, 0⟩
    let comm := fun pe => mpiInit 3 pe ⟨.heap, 0⟩ ⟨.heap, 0⟩
    c.Allowed 3 0 ∧ ¬ ExactRuns 3 0 comm [c] := by
  intro c comm
  have hallowed : c.Allowed 3 0 := by
    refine ⟨by decide, by decide, fun _ _ => ⟨rfl, rfl⟩, ?_, by decide⟩
    rintro q ⟨-, -, hlt⟩ ⟨-, hle, -⟩
    have h : (3221225472 : ℤ) < 0 + 1073741824 * 1 * 3 := lt_of_le_of_lt hle hlt
    exact absurd h (by decide)
  refine ⟨hallowed, fun h => ?_⟩
  have hcomm : ∀ pe < 3, (comm pe).bufferPtr = sharedBuffer ∧ (comm pe).offset = 0 :=
    fun _ _ => ⟨rfl, rfl⟩
  have hplace : ∀ pe < 3, c.place pe =
      ⟨.heap, if pe = 2 then -2147483648 else 1073741824 * (pe : ℤ)⟩ := by
    intro pe hpe
    obtain rfl | rfl | rfl : pe = 0 ∨ pe = 1 ∨ pe = 2 := by omega
    all_goals rfl
  have hblock : c.block = 1073741824 := rfl
  have hrf : RaceFree 3 (c.putStep comm) := by
    refine raceFree_of_put (fun i hi j hj hij => ?_) (fun i hi _ => ?_)
    · rw [hplace i hi, hplace j hj, hblock]
      rintro q ⟨-, hle, hlt⟩ ⟨-, hle', hlt'⟩
      dsimp only at hle hlt hle' hlt'
      split_ifs at hle hlt hle' hlt' <;> omega
    · rw [hplace i hi, hblock]
      rintro q ⟨-, -, hlt⟩ ⟨-, hle, -⟩
      change 3221225472 ≤ q.offset at hle
      dsimp only at hlt
      split_ifs at hlt <;> omega
  -- only PE 2 has ones
  let mem : ℕ → Mem Region := fun pe _ => if pe = 2 then 1 else 0
  obtain ⟨_, ⟨m₁, hstage, m₂, hput, m₃, hback, rfl⟩, hfinal⟩ :=
    follows_of_exact (by decide) hcomm hallowed hrf h mem
  obtain ⟨q, hq⟩ : ∃ q : Addr, q = (⟨.heap, 0⟩ : Addr) + ((2147483648 : ℕ) : ℤ) := ⟨_, rfl⟩
  have hregion : q.region ≠ .buffer := by
    rw [hq]
    exact Region.noConfusion
  have hzero : m₃ 0 q = 0 := by
    have hshows : Shows 3 (fun _ => []) mem mem := fun _ _ _ _ => rfl
    have hm₁ : m₁ 0 q = mem 0 q :=
      (staged hcomm hallowed hshows (fun _ _ _ hop => absurd hop List.not_mem_nil) hstage
        (by decide)).1 q hregion
    have hm₃ : m₃ 0 = m₂ 0 := hback.eq_of_copies (fun _ _ op hop => (backStep_copies op hop).2)
      (by decide)
    rw [hm₃, hput.miss_put (by decide) fun i hi _ hc => ?_, hm₁]
    · rfl
    · rw [hplace i hi, hblock] at hc
      obtain ⟨-, hle, hlt⟩ := hc
      rw [hq, add_offset] at hle hlt
      dsimp only at hle hlt
      split_ifs at hle hlt <;> omega
  have hone : c.after 3 mem 0 q = 1 := by
    let line : Mem Region := fun q => if 2147483648 ≤ q.offset then 1 else 0
    have hblocks : c.blocks 3 mem = read line ⟨.heap, 0⟩ (c.block * (3 : ℕ)) := by
      rw [read_mul (by decide)]
      refine List.flatMap_congr fun j hj => read_eq_read.mpr fun k hk => ?_
      have hj := List.mem_range.mp hj
      rw [hblock] at hk ⊢
      show (if j = 2 then (1 : UInt8) else 0) =
        if (2147483648 : ℤ) ≤ 0 + 1073741824 * (j : ℤ) + k then 1 else 0
      by_cases hlast : j = 2
      · rw [if_pos hlast, if_pos (by omega)]
      · rw [if_neg hlast, if_neg (by omega)]
    show write (mem 0) ⟨.heap, 0⟩ (c.blocks 3 mem) q = 1
    rw [hblocks, hq, write_read _ _ _ (by decide)]
    exact if_pos (by decide)
  exact absurd (hzero.symm.trans ((hfinal 0 (by decide) q hregion).trans hone)) (by decide)

end GatherCall

end MpiToShmem.Shmem
