import MpiToShmem.Shmem.Copies

/-!
# `MPI_Bcast`

`shmem_broadcast64` moves as many elements of 8 bytes as the caller has elements. They are put into
the communicator's buffer, behind the copy of the source if there is one.

1. `BcastArgs.Delivers`: every PE gets what the root has.
2. `delivers_of_moved`: so it is for elements of at most 8 bytes.
3. `BcastArgs.Delivers.lt`: a byte that is delivered is among those that were moved, and among those
   that are copied out.
4. `delivers_iff`: this condition is exact.
-/

namespace MpiToShmem.Shmem

open Kit OneSided

/-! ## The call -/

/-- The arguments that the PEs pass. -/
structure BcastArgs where
  source : ℕ → UserBuf
  count : ℤ
  dataType : MpiDatatype
  root : ℕ

namespace BcastArgs

/-- The bytes of the elements. -/
def bytes (a : BcastArgs) : ℤ := a.count * a.dataType.size

/-- The call on PE `pe`. -/
def call (a : BcastArgs) (npes : ℕ) (comm : ℕ → MpidComm) (pe : ℕ) : List (Op Region) :=
  mpiBcast npes pe (a.source pe) a.count a.dataType a.root (comm pe)

/-- The buffers of all PEs are symmetric, or none is. -/
def SameChoice (a : BcastArgs) (npes : ℕ) : Prop :=
  ∀ pe < npes, shmemAddrAccessible (a.source pe) = shmemAddrAccessible (a.source a.root)

/-- What there has to be in the communicator's buffer: the copy of the source if there is one, and
behind it the elements, or what is moved if that is more. -/
def room (a : BcastArgs) : ℤ :=
  copied (a.source a.root) a.bytes + a.count * max 8 (a.dataType.size : ℤ)

/-- In any memory: every run can be brought to its end, and then the elements on every PE are those
that the root had, also on the root. -/
def Delivers (a : BcastArgs) (npes : ℕ) (bufBytes : ℤ) (comm : ℕ → MpidComm) : Prop :=
  Computes (shmem npes bufBytes) (a.call npes comm) fun mem mem' => ∀ pe < npes,
    read (mem' pe) (a.source pe).addr a.bytes = read (mem a.root) (a.source a.root).addr a.bytes

/-- There is nothing to send; or there is no other PE, and what is staged has a size; or the elements
have at most 8 bytes, and all together as many as an `int` can count. -/
def Moved (a : BcastArgs) (npes : ℕ) : Prop :=
  a.count = 0 ∨
    (npes = 1 ∧ (shmemAddrAccessible (a.source a.root) = false →
      0 ≤ getNumBytes a.count a.dataType)) ∨
    (a.dataType.size : ℤ) ≤ 8 ∧ a.bytes ≤ intMax

/-! ## The call in supersteps -/

variable (a : BcastArgs) (npes : ℕ) (comm : ℕ → MpidComm)

/-- Where the elements are put. -/
def target : Addr := ⟨.buffer, copied (a.source a.root) (getNumBytes a.count a.dataType)⟩

def stageStep (pe : ℕ) : List (Op Region) := stage (comm pe) (a.source pe) a.count a.dataType

/-- The PEs that a PE puts to. -/
def others (pe : ℕ) : List ℕ := if pe = a.root then (List.range npes).filter (· ≠ a.root) else []

def putStep (pe : ℕ) : List (Op Region) :=
  putEach (a.others npes pe) a.target (sendAddr (comm pe) (a.source pe)) (8 * a.count)

def backStep (pe : ℕ) : List (Op Region) :=
  if pe = a.root then [] else [copyMyData (a.source pe).addr a.target a.count a.dataType]

variable {a npes comm}

theorem mem_others {pe t : ℕ} : t ∈ a.others npes pe ↔ pe = a.root ∧ t < npes ∧ t ≠ a.root := by
  unfold others
  split_ifs with h
  · simp [h]
  · simp [h]

variable (hroot : a.root < npes) (hcount : 0 ≤ a.count)
  (hcomm : ∀ pe < npes, (comm pe).bufferPtr = sharedBuffer ∧ (comm pe).offset = 0)
  (hsame : a.SameChoice npes) {bufBytes : ℤ} (hroom : a.room ≤ bufBytes)

include hcomm hsame in
theorem call_eq {pe : ℕ} (hpe : pe < npes) :
    a.call npes comm pe = joinSteps pe [a.stageStep comm, a.putStep npes comm, a.backStep] := by
  have htarget : symRecv (comm pe) (a.source pe) a.count a.dataType = a.target := by
    rw [symRecv_eq (hcomm pe hpe).2 (hcomm pe hpe).1]
    unfold target copied
    rw [hsame pe hpe]
  unfold call mpiBcast
  rw [htarget]
  unfold shmemBroadcast64
  show _ = a.stageStep comm pe ++ .barrier :: (a.putStep npes comm pe ++ .barrier :: a.backStep pe)
  unfold putStep others backStep
  split_ifs <;> rfl

theorem backStep_copies {pe : ℕ} : ∀ op ∈ a.backStep pe, op.isLocal = true ∧ op.target = none := by
  unfold backStep
  split_ifs
  · exact fun _ hop => absurd hop List.not_mem_nil
  · exact List.forall_mem_singleton.mpr ⟨rfl, rfl⟩

/-- Only the root puts, and nothing to itself. -/
theorem raceFree : ∀ s ∈ [a.stageStep comm, a.putStep npes comm, a.backStep], RaceFree npes s := by
  rw [List.forall_mem_cons, List.forall_mem_cons, List.forall_mem_singleton]
  refine ⟨raceFree_of_copies fun _ _ => stage_copies, raceFree_of_putEach (fun i _ => ?_)
    (fun i _ j _ hij t ht ht' => ?_) (fun i _ j hj t ht _ => ?_),
    raceFree_of_copies fun _ _ => backStep_copies⟩
  · unfold others
    split_ifs
    · exact List.nodup_range.filter _
    · exact List.nodup_nil
  · exact absurd ((mem_others.mp ht).1.trans (mem_others.mp ht').1.symm) hij
  · exact absurd (mem_others.mp ht).1 (mem_others.mp hj).2.2

/-! ## Elements of at most 8 bytes -/

include hcount in
theorem bytes_nonneg : 0 ≤ a.bytes := Int.mul_nonneg hcount (size_pos a.dataType).le

include hcount in
theorem getNumBytes_le : getNumBytes a.count a.dataType ≤ a.bytes := wrapInt_le (bytes_nonneg hcount)

include hroot hcount in
/-- The root is alone, or all bytes are moved and copied out. -/
theorem Moved.cases (h : a.Moved npes) :
    ((∀ pe < npes, pe = a.root) ∧
      (shmemAddrAccessible (a.source a.root) = false → 0 ≤ getNumBytes a.count a.dataType)) ∨
    getNumBytes a.count a.dataType = a.bytes ∧ a.bytes ≤ 8 * a.count := by
  rcases h with hzero | ⟨rfl, hpriv⟩ | ⟨hsize, hint⟩
  · refine Or.inr ⟨getNumBytes_of_le hcount ?_, ?_⟩
    · rw [hzero, zero_mul]
      decide
    · unfold bytes
      rw [hzero, zero_mul, mul_zero]
  · exact Or.inl ⟨fun pe hpe => by omega, hpriv⟩
  · refine Or.inr ⟨getNumBytes_of_le hcount hint, ?_⟩
    rw [mul_comm 8]
    exact Int.mul_le_mul_of_nonneg_left hsize hcount

include hcount hroom in
theorem inBuffer_stage (hpriv : shmemAddrAccessible (a.source a.root) = false)
    (h : 0 ≤ getNumBytes a.count a.dataType) :
    InBuffer bufBytes 0 (getNumBytes a.count a.dataType) := by
  have hle := getNumBytes_le hcount
  have hmul : 0 ≤ a.count * max 8 (a.dataType.size : ℤ) := Int.mul_nonneg hcount (by omega)
  unfold room copied at hroom
  rw [hpriv, if_neg Bool.false_ne_true] at hroom
  exact Or.inr ⟨h, le_rfl, by omega⟩

include hcount hroom in
/-- The communicator's buffer has room for what is moved. -/
theorem inBuffer_target (h : getNumBytes a.count a.dataType = a.bytes) :
    InBuffer bufBytes (copied (a.source a.root) (getNumBytes a.count a.dataType)) (8 * a.count) := by
  have hnonneg := bytes_nonneg hcount
  have hmul : a.count * 8 ≤ a.count * max 8 (a.dataType.size : ℤ) :=
    Int.mul_le_mul_of_nonneg_left (le_max_left _ _) hcount
  unfold room at hroom
  rw [h]
  refine Or.inr ⟨by omega, ?_, by omega⟩
  unfold copied
  split_ifs
  · exact le_rfl
  · exact hnonneg

section Ok

variable (h : a.Moved npes)

include hroot hcount hroom h

include hcomm hsame in
theorem ok_stageStep {pe : ℕ} (hpe : pe < npes) :
    ∀ op ∈ a.stageStep comm pe, op.Ok (shmem npes bufBytes) := by
  refine (ok_stage (hcomm pe hpe).1).mpr fun hpriv => ?_
  rw [hsame pe hpe] at hpriv
  apply inBuffer_stage hcount hroom hpriv
  rcases h.cases hroot hcount with ⟨-, halone⟩ | ⟨hall, -⟩
  · exact halone hpriv
  · rw [hall]
    exact bytes_nonneg hcount

include hcomm in
theorem ok_putStep {pe : ℕ} (hpe : pe < npes) :
    ∀ op ∈ a.putStep npes comm pe, op.Ok (shmem npes bufBytes) := by
  intro op hop
  obtain ⟨t, ht, rfl⟩ := mem_putEach.mp hop
  obtain ⟨rfl, ht, hne⟩ := mem_others.mp ht
  rcases h.cases hroot hcount with ⟨halone, -⟩ | ⟨hall, -⟩
  · exact absurd (halone t ht) hne
  have hroom := inBuffer_target hcount hroom hall
  refine ⟨ht, inside_buffer_iff.mpr hroom, ?_⟩
  unfold sendAddr
  rcases accessible_or (a.source a.root) with hacc | hacc
  · rw [if_pos hacc]
    exact inside_of_ne_buffer (addr_region_ne_buffer _) hroom.nonneg
  · rw [hacc, if_neg Bool.false_ne_true, (hcomm _ hpe).1]
    refine inside_buffer_iff.mpr (inBuffer_of_copied (fun _ => ?_) hroom hacc)
    exact inBuffer_stage hcount ‹_› hacc (hall ▸ bytes_nonneg hcount)

theorem ok_backStep {pe : ℕ} (hpe : pe < npes) :
    ∀ op ∈ a.backStep pe, op.Ok (shmem npes bufBytes) := by
  unfold backStep
  split_ifs with hr
  · exact fun _ hop => absurd hop List.not_mem_nil
  rcases h.cases hroot hcount with ⟨halone, -⟩ | ⟨hall, hle⟩
  · exact absurd (halone pe hpe) hr
  refine List.forall_mem_singleton.mpr (ok_copy_iff.2.mpr ?_)
  have hroom := inBuffer_target hcount hroom hall
  have hnonneg := bytes_nonneg hcount
  rw [← hall] at hle hnonneg
  unfold InBuffer at hroom ⊢
  omega

end Ok

include hroot hcount hcomm in
/-- The elements are staged at the root, put to the others and copied out there. -/
theorem read_of_follows (h : a.Moved npes) {mem mem' : ℕ → Mem Region}
    (hfollows : Follows npes [a.stageStep comm, a.putStep npes comm, a.backStep] mem mem') {pe : ℕ}
    (hpe : pe < npes) : read (mem' pe) (a.source pe).addr a.bytes =
      read (mem a.root) (a.source a.root).addr a.bytes := by
  obtain ⟨m₁, hfirst, m₂, hsecond, m₃, hthird, rfl⟩ := hfollows
  have hstage : ∀ t < npes, m₁ t = (localRun (mem t) (a.stageStep comm t)).1 := fun t ht =>
    hfirst.eq_of_copies (fun _ _ op hop => (stage_copies op hop).2) ht
  have hback : m₃ pe = (localRun (m₂ pe) (a.backStep pe)).1 :=
    hthird.eq_of_copies (fun _ _ op hop => (backStep_copies op hop).2) hpe
  apply read_eq_read.mpr
  intro k hk
  rw [hback]
  unfold backStep
  split_ifs with hr
  · -- nothing is put to the root
    subst hr
    show m₂ a.root _ = _
    rw [hsecond.miss_putEach hpe fun i _ ht => absurd rfl (mem_others.mp ht).2.2, hstage _ hpe]
    exact stage_of_ne_buffer (hcomm _ hpe).1 (addr_region_ne_buffer _)
  rcases h.cases hroot hcount with ⟨halone, -⟩ | ⟨hall, hle⟩
  · exact absurd (halone pe hpe) hr
  calc write (m₂ pe) (a.source pe).addr (read (m₂ pe) a.target (getNumBytes a.count a.dataType))
        ((a.source pe).addr + (k : ℤ))
      = m₂ pe (a.target + (k : ℤ)) := write_read _ _ _ (by omega)
    _ = m₁ a.root (sendAddr (comm a.root) (a.source a.root) + (k : ℤ)) :=
        hsecond.hit_putEach hroot (mem_others.mpr ⟨rfl, hpe, hr⟩) (by omega)
    _ = mem a.root ((a.source a.root).addr + (k : ℤ)) := by
        rw [hstage _ hroot]
        exact stage_sendAddr fun _ => by omega

include hroot hcount hcomm hsame hroom in
theorem delivers_of_moved (h : a.Moved npes) : a.Delivers npes bufBytes comm := by
  refine computes_of_follows (fun pe hpe => call_eq hcomm hsame hpe) (Nat.zero_lt_of_lt hroot) ?_
    raceFree fun mem mem' hfollows pe hpe => read_of_follows hroot hcount hcomm h hfollows hpe
  rw [List.forall_mem_cons, List.forall_mem_cons, List.forall_mem_singleton]
  exact ⟨fun _ => ok_stageStep hroot hcount hcomm hsame hroom h,
    fun _ => ok_putStep hroot hcount hcomm hroom h, fun _ => ok_backStep hroot hcount hroom h⟩

/-! ## What is not delivered -/

/-- Ones on the root, zeros elsewhere. -/
def ones (a : BcastArgs) (pe : ℕ) : Mem Region := fun _ => if pe = a.root then 1 else 0

/-- After staging the other PEs still have zeros. -/
theorem staged_ones {t : ℕ} (ht : t < npes) (hne : t ≠ a.root) (q : Addr) :
    inOrder npes a.ones (a.stageStep comm) t q = 0 := by
  unfold stageStep
  rw [inOrder_of_copies (fun _ _ op hop => (stage_copies op hop).2) a.ones ht]
  exact stage_zero_of_zero (fun _ => if_neg hne) q

/-- What is not zero there was put. -/
theorem covers_of_put_ones {t : ℕ} (ht : t < npes) (hne : t ≠ a.root) {q : Addr}
    (h : inOrder npes (inOrder npes a.ones (a.stageStep comm)) (a.putStep npes comm) t q = 1) :
    a.target.Covers (8 * a.count) q := by
  rcases inOrder_putEach_eq_or npes (a.others npes) (fun _ => a.target)
    (fun pe => sendAddr (comm pe) (a.source pe)) (fun _ => 8 * a.count)
    (inOrder npes a.ones (a.stageStep comm)) t q with hsame | ⟨_, _, _, k, hk, hq, _⟩
  · rw [staged_ones ht hne] at hsame
    exact absurd (h.symm.trans hsame) (by decide)
  · exact covers_iff.mpr ⟨k, hk, hq⟩

section Delivers

variable (h : a.Delivers npes bufBytes comm)

include hcomm hsame h

include hroot in
/-- What is staged has a size. -/
theorem Delivers.staged (hpriv : shmemAddrAccessible (a.source a.root) = false) :
    0 ≤ getNumBytes a.count a.dataType := by
  have hok : ∀ op ∈ a.stageStep comm a.root, op.Ok (shmem npes bufBytes) := fun op hop =>
    h.ok hroot (call_eq hcomm hsame hroot ▸ mem_joinSteps_of_mem List.mem_cons_self hop)
  exact ((ok_stage (hcomm _ hroot).1).mp hok hpriv).nonneg

/-- A byte that comes to another PE is moved and copied out. -/
theorem Delivers.lt {t : ℕ} (ht : t < npes) (hne : t ≠ a.root) {k : ℕ} (hk : (k : ℤ) < a.bytes) :
    (k : ℤ) < 8 * a.count ∧ (k : ℤ) < getNumBytes a.count a.dataType := by
  have hright := h.inOrder (fun pe hpe => call_eq hcomm hsame hpe)
    (fun s hs i hi => (raceFree s hs).isLocal i hi) a.ones t ht
  have hone : inOrder npes (inOrder npes (inOrder npes a.ones (a.stageStep comm))
      (a.putStep npes comm)) a.backStep t ((a.source t).addr + (k : ℤ)) = 1 :=
    (read_eq_read.mp hright k hk).trans (if_pos rfl)
  rw [inOrder_of_copies (fun _ _ op hop => (backStep_copies op hop).2) _ ht] at hone
  unfold backStep at hone
  rw [if_neg hne] at hone
  change write _ _ (read _ a.target (getNumBytes a.count a.dataType)) _ = 1 at hone
  by_cases hlt : (k : ℤ) < getNumBytes a.count a.dataType
  · rw [write_read _ _ _ hlt] at hone
    obtain ⟨-, -, hend⟩ := covers_of_put_ones ht hne hone
    rw [add_offset] at hend
    exact ⟨by omega, hlt⟩
  · rw [write_read_of_not_covers] at hone
    · exact absurd (covers_of_put_ones ht hne hone).1 (addr_region_ne_buffer _)
    · rintro ⟨-, -, hend⟩
      rw [add_offset] at hend
      omega

include hroot hcount in
theorem Delivers.moved : a.Moved npes := by
  by_cases hzero : a.count = 0
  · exact Or.inl hzero
  refine Or.inr ?_
  by_cases hone : npes = 1
  · exact Or.inl ⟨hone, h.staged hroot hcomm hsame⟩
  obtain ⟨t, ht, hne⟩ : ∃ t < npes, t ≠ a.root := by
    by_cases hr : a.root = 0
    · exact ⟨1, by omega, by omega⟩
    · exact ⟨0, by omega, by omega⟩
  have hpos : 0 < a.bytes := Int.mul_pos (by omega) (size_pos a.dataType)
  have hlt := fun k hk => h.lt hcomm hsame ht hne (k := k) hk
  refine Or.inr ⟨?_, ?_⟩
  · -- otherwise the first byte behind those that are moved is missing
    by_contra hsize
    have hmore : 8 * a.count < a.bytes := by
      rw [mul_comm 8]
      exact Int.mul_lt_mul_of_pos_left (by omega) (by omega)
    have hmoved := (hlt (8 * a.count).toNat (by omega)).1
    omega
  · have hlast := (hlt (a.bytes - 1).toNat (by omega)).2
    have hint := (isInt_getNumBytes a.count a.dataType).2
    omega

end Delivers

end BcastArgs

/-! ## When the buffer is delivered -/

/-- `MPI_Bcast` delivers the buffer on all PEs if and only if there is nothing to send or no one to
send it to, or the elements have at most 8 bytes and an `int` can count their bytes. -/
theorem delivers_iff (a : BcastArgs) (npes : ℕ) (bufBytes : ℤ) (comm : ℕ → MpidComm)
    (hroot : a.root < npes) (hcount : 0 ≤ a.count)
    (hcomm : ∀ pe < npes, (comm pe).bufferPtr = sharedBuffer ∧ (comm pe).offset = 0)
    (hsame : a.SameChoice npes) (hroom : a.room ≤ bufBytes) :
    a.Delivers npes bufBytes comm ↔ a.Moved npes :=
  ⟨BcastArgs.Delivers.moved hroot hcount hcomm hsame,
    BcastArgs.delivers_of_moved hroot hcount hcomm hsame hroom⟩

/-- Of one `long double` the first half is delivered. -/
theorem not_delivers_longDouble :
    let a : BcastArgs := ⟨fun _ => .heap 0, 1, .longDouble, 0⟩
    let comm := fun pe => mpiInit 2 pe ⟨.heap, 0⟩ ⟨.heap, 0⟩
    a.room ≤ 16 ∧ ¬ a.Delivers 2 16 comm := by
  intro a comm
  refine ⟨by decide, fun h => ?_⟩
  have hlt := h.lt (fun _ _ => ⟨rfl, rfl⟩) (fun _ _ => rfl) (t := 1) (k := 8) (by decide) (by decide)
    (by decide)
  exact absurd hlt.1 (by decide)

/-- Three `int`s that are not in symmetric memory. -/
theorem delivers_ints :
    let a : BcastArgs := ⟨fun _ => .process 0, 3, .int, 1⟩
    a.Delivers 4 36 fun pe => mpiInit 4 pe ⟨.heap, 0⟩ ⟨.heap, 0⟩ :=
  (delivers_iff ⟨fun _ => .process 0, 3, .int, 1⟩ 4 36
    (fun pe => mpiInit 4 pe ⟨.heap, 0⟩ ⟨.heap, 0⟩) (by decide) (by decide) (fun _ _ => ⟨rfl, rfl⟩)
    (fun _ _ => rfl) (by decide)).mpr (Or.inr (Or.inr ⟨by decide, by decide⟩))

end MpiToShmem.Shmem
