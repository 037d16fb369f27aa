import MpiToShmem.Shmem.Copies

/-!
# `MPI_Allgather`

`shmem_fcollect64` puts the blocks at distances of 8 bytes for every element; what is copied back, and
what the caller reads, are blocks of elements of the datatype.

1. `AllgatherArgs.Gathers`: every PE gets the block of every PE at its place.
2. `AllgatherArgs.Aligned`: the distances agree, and the sizes of what is copied fit an `int`.
3. `gathers_of_aligned`: then the call is right.
4. `Gathers.exists_place`: where a byte of a right call has come from.
5. `gathers_iff`: the condition is exact.
-/

namespace MpiToShmem.Shmem

open Kit OneSided

/-! ## The call -/

/-- The arguments that the PEs pass; both types are the same. -/
structure AllgatherArgs where
  sendbuf : ℕ → UserBuf
  recvbuf : ℕ → UserBuf
  count : ℤ
  dataType : MpiDatatype

namespace AllgatherArgs

/-- The bytes of a block. -/
def block (a : AllgatherArgs) : ℤ := a.count * a.dataType.size

/-- The call on PE `pe`. -/
def call (a : AllgatherArgs) (npes : ℕ) (comm : ℕ → MpidComm) (pe : ℕ) : List (Op Region) :=
  (mpiAllgather npes pe (some (a.sendbuf pe)) a.count a.dataType (some (a.recvbuf pe)) a.dataType
    (comm pe)).1

/-- On all PEs the choice of symmetric and other buffers is the same. -/
def SameChoice (a : AllgatherArgs) (npes : ℕ) : Prop := ∀ pe < npes,
  shmemAddrAccessible (a.sendbuf pe) = shmemAddrAccessible (a.sendbuf 0) ∧
    shmemAddrAccessible (a.recvbuf pe) = shmemAddrAccessible (a.recvbuf 0)

/-- As MPI demands, no PE receives where it sends from. -/
def NoAlias (a : AllgatherArgs) (npes : ℕ) : Prop := ∀ pe < npes,
  Apart (a.recvbuf pe).addr (a.block * npes) (a.sendbuf pe).addr a.block

/-- What there has to be in the communicator's buffer for a block, and for the blocks of all PEs, or
for what is moved if that is more. -/
def room (a : AllgatherArgs) (npes : ℕ) : ℤ :=
  copied (a.sendbuf 0) (a.count * max 8 (a.dataType.size : ℤ)) +
    copied (a.recvbuf 0) (a.count * max 8 (a.dataType.size : ℤ) * npes)

/-- In any memory: every run can be brought to its end, and then every PE has the block of PE `j` at
the place `j`. -/
def Gathers (a : AllgatherArgs) (npes : ℕ) (bufBytes : ℤ) (comm : ℕ → MpidComm) : Prop :=
  Computes (shmem npes bufBytes) (a.call npes comm) fun mem mem' => ∀ t < npes, ∀ j < npes,
    read (mem' t) ((a.recvbuf t).addr + a.block * (j : ℤ)) a.block =
      read (mem j) (a.sendbuf j).addr a.block

/-- The elements have 8 bytes, or at most 8 and there is one PE; what is copied has a size that fits
an `int`; symmetric receive buffers are at one address. -/
structure Aligned (a : AllgatherArgs) (npes : ℕ) : Prop where
  pos : 0 < a.count
  stride : (a.dataType.size : ℤ) = 8 ∨ npes = 1 ∧ (a.dataType.size : ℤ) ≤ 8
  staged : shmemAddrAccessible (a.sendbuf 0) = false → a.block ≤ intMax
  back : shmemAddrAccessible (a.recvbuf 0) = false → a.block * npes ≤ intMax
  place : shmemAddrAccessible (a.recvbuf 0) = true → ∀ pe < npes, a.recvbuf pe = a.recvbuf 0

/-! ## The call in supersteps -/

variable (a : AllgatherArgs) (npes : ℕ) (comm : ℕ → MpidComm)

/-- The bytes that are staged. -/
def stageBytes : ℤ := getNumBytes a.count a.dataType

/-- The bytes that are copied back. -/
def backBytes : ℤ := getNumBytes (wrapInt (a.count * npes)) a.dataType

/-- Behind the copy of the send buffer, if there is one. -/
def area : Addr := ⟨.buffer, copied (a.sendbuf 0) a.stageBytes⟩

/-- Where the blocks are collected. -/
def start (pe : ℕ) : Addr :=
  if shmemAddrAccessible (a.recvbuf 0) then (a.recvbuf pe).addr else a.area

def src (pe : ℕ) : Addr := sendAddr (comm pe) (a.sendbuf pe)

def stageStep (pe : ℕ) : List (Op Region) := stage (comm pe) (a.sendbuf pe) a.count a.dataType

def putStep (pe : ℕ) : List (Op Region) :=
  putEach (List.range npes) (a.start pe + (8 * a.count * (pe : ℤ))) (a.src comm pe) (8 * a.count)

def backStep (pe : ℕ) : List (Op Region) :=
  unstage (a.recvbuf pe) a.area (wrapInt (a.count * npes)) a.dataType

variable {a npes comm}
variable (hpos : 0 < npes) (hcount : 0 ≤ a.count)
  (hcomm : ∀ pe < npes, (comm pe).bufferPtr = sharedBuffer ∧ (comm pe).offset = 0)
  (hsame : a.SameChoice npes) (halias : a.NoAlias npes) {bufBytes : ℤ}
  (hroom : a.room npes ≤ bufBytes)

include hcomm hsame in
theorem call_eq {pe : ℕ} (hpe : pe < npes) :
    a.call npes comm pe =
      joinSteps pe [a.stageStep comm, a.putStep npes comm, a.backStep npes] := by
  have hsym : symRecv (comm pe) (a.sendbuf pe) a.count a.dataType = a.area := by
    rw [symRecv_eq (hcomm pe hpe).2 (hcomm pe hpe).1]
    unfold area copied
    rw [(hsame pe hpe).1]
    rfl
  have hrecv : recvAddr (comm pe) (a.sendbuf pe) (a.recvbuf pe) a.count a.dataType = a.start pe := by
    unfold recvAddr start
    rw [(hsame pe hpe).2, hsym]
  unfold call mpiAllgather
  dsimp only
  rw [hsym, hrecv]
  rfl

/-! ## When the distances agree -/

theorem block_nonneg (hcount : 0 ≤ a.count) : 0 ≤ a.block :=
  Int.mul_nonneg hcount (size_pos a.dataType).le

namespace Aligned

variable (h : a.Aligned npes)

include h

theorem size_le : (a.dataType.size : ℤ) ≤ 8 := h.stride.elim le_of_eq And.right

theorem block_le : a.block ≤ 8 * a.count := by
  rw [mul_comm 8]
  exact Int.mul_le_mul_of_nonneg_left h.size_le h.pos.le

theorem block_pos : 0 < a.block := Int.mul_pos h.pos (size_pos a.dataType)

/-- The distances agree. -/
theorem block_mul {j : ℕ} (hj : j < npes) : a.block * j = 8 * a.count * j := by
  rcases h.stride with hsize | ⟨hone, -⟩
  · unfold block
    rw [hsize, mul_comm a.count]
  · obtain rfl : j = 0 := by omega
    rw [Nat.cast_zero, mul_zero, mul_zero]

theorem stageBytes_eq (hpriv : shmemAddrAccessible (a.sendbuf 0) = false) : a.stageBytes = a.block :=
  getNumBytes_of_le h.pos.le (h.staged hpriv)

theorem backBytes_eq (hpriv : shmemAddrAccessible (a.recvbuf 0) = false) :
    a.backBytes npes = a.block * npes := getNumBytes_wrapInt_mul h.pos.le (h.back hpriv)

theorem start_eq {i j : ℕ} (hi : i < npes) (hj : j < npes) : a.start i = a.start j := by
  unfold start
  split_ifs with hacc
  · rw [h.place hacc i hi, h.place hacc j hj]
  · rfl

end Aligned

/-! ### All accesses are inside -/

section Ok

variable (h : a.count = 0 ∨ a.Aligned npes)

include hpos hroom

/-- The room for the copy and for the blocks behind it. -/
theorem Aligned.room_le (h : a.Aligned npes) :
    (shmemAddrAccessible (a.sendbuf 0) = false → 8 * a.count ≤ bufBytes) ∧
      (shmemAddrAccessible (a.recvbuf 0) = false →
        0 ≤ copied (a.sendbuf 0) a.stageBytes ∧
        copied (a.sendbuf 0) a.stageBytes + 8 * a.count * npes ≤ bufBytes) := by
  have hcount := h.pos
  have hmax : a.count * max 8 (a.dataType.size : ℤ) = 8 * a.count := by
    rw [max_eq_left h.size_le, mul_comm]
  have hblock := h.block_le
  have hblocks : 0 ≤ 8 * a.count * npes := Int.mul_nonneg (by omega) (by omega)
  unfold room copied at hroom
  rw [hmax] at hroom
  unfold copied
  rcases accessible_or (a.sendbuf 0) with hs | hs
  · rw [hs, if_pos rfl] at hroom ⊢
    refine ⟨nofun, fun hr => ?_⟩
    rw [hr, if_neg Bool.false_ne_true] at hroom
    exact ⟨le_rfl, by omega⟩
  · have hblock' := h.block_pos
    rw [hs, if_neg Bool.false_ne_true] at hroom ⊢
    rw [h.stageBytes_eq hs]
    refine ⟨fun _ => ?_, fun hr => ?_⟩
    · split_ifs at hroom <;> omega
    · rw [hr, if_neg Bool.false_ne_true] at hroom
      exact ⟨by omega, by omega⟩

include hsame h

include hcomm in
theorem ok_stageStep {pe : ℕ} (hpe : pe < npes) :
    ∀ op ∈ a.stageStep comm pe, op.Ok (shmem npes bufBytes) := by
  refine (ok_stage (hcomm pe hpe).1).mpr fun hpriv => ?_
  rw [(hsame pe hpe).1] at hpriv
  change InBuffer bufBytes 0 a.stageBytes
  rcases h with hzero | h
  · refine Or.inl ?_
    unfold stageBytes getNumBytes
    rw [hzero, zero_mul, wrapInt_zero]
  · have hroom := (h.room_le hpos hroom).1 hpriv
    have hblock := h.block_le
    rw [h.stageBytes_eq hpriv]
    exact Or.inr ⟨h.block_pos.le, le_rfl, by omega⟩

include hcomm in
theorem ok_putStep {pe : ℕ} (hpe : pe < npes) :
    ∀ op ∈ a.putStep npes comm pe, op.Ok (shmem npes bufBytes) := by
  intro op hop
  obtain ⟨t, ht, rfl⟩ := mem_putEach.mp hop
  refine ⟨List.mem_range.mp ht, ?_⟩
  rcases h with hzero | h
  · rw [hzero]
    exact ⟨Or.inl rfl, Or.inl rfl⟩
  have hcount := h.pos
  obtain ⟨hsend, hrecv⟩ := h.room_le hpos hroom
  obtain ⟨hnonneg, hle⟩ := mul_add_le (c := 8 * a.count) (by omega) hpe
  constructor
  · unfold start
    rcases accessible_or (a.recvbuf 0) with hr | hr
    · rw [hr, if_pos rfl]
      exact inside_of_ne_buffer (addr_region_ne_buffer (a.recvbuf pe)) (by omega)
    · obtain ⟨hstart, hend⟩ := hrecv hr
      rw [hr, if_neg Bool.false_ne_true]
      have hin : InBuffer bufBytes (copied (a.sendbuf 0) a.stageBytes + 8 * a.count * pe)
          (8 * a.count) := Or.inr ⟨by omega, by omega, by omega⟩
      exact inside_buffer_iff.mpr hin
  · unfold src sendAddr
    rw [(hsame pe hpe).1]
    rcases accessible_or (a.sendbuf 0) with hs | hs
    · rw [hs, if_pos rfl]
      exact inside_of_ne_buffer (addr_region_ne_buffer _) (by omega)
    · rw [hs, if_neg Bool.false_ne_true, (hcomm pe hpe).1]
      exact inside_buffer_iff.mpr (Or.inr ⟨by omega, le_rfl, by have := hsend hs; omega⟩)

theorem ok_backStep {pe : ℕ} (hpe : pe < npes) :
    ∀ op ∈ a.backStep npes pe, op.Ok (shmem npes bufBytes) := by
  refine ok_unstage.mpr fun hpriv => ?_
  rw [(hsame pe hpe).2] at hpriv
  change InBuffer bufBytes _ (a.backBytes npes)
  rcases h with hzero | h
  · refine Or.inl ?_
    unfold backBytes getNumBytes
    rw [hzero, zero_mul, wrapInt_zero, zero_mul, wrapInt_zero]
  · obtain ⟨hstart, hend⟩ := (h.room_le hpos hroom).2 hpriv
    have hblock : a.block * npes ≤ 8 * a.count * npes :=
      Int.mul_le_mul_of_nonneg_right h.block_le (by omega)
    rw [h.backBytes_eq hpriv]
    exact Or.inr ⟨Int.mul_nonneg h.block_pos.le (by omega), hstart, by omega⟩

end Ok

/-! ### Nothing races -/

section Race

include hcomm hsame halias

/-- Blocks are put apart from each other, and from where another PE takes its own. -/
theorem apart_of_aligned (h : a.Aligned npes) {i j : ℕ} (hi : i < npes) (hj : j < npes) :
    (i ≠ j → Apart (a.start i + (8 * a.count * (i : ℤ))) (8 * a.count)
      (a.start j + (8 * a.count * (j : ℤ))) (8 * a.count)) ∧
    (1 < npes → Apart (a.start i + (8 * a.count * (i : ℤ))) (8 * a.count) (a.src comm j)
      (8 * a.count)) := by
  have hcount := h.pos
  rw [h.start_eq hi hj]
  constructor
  · rintro hij q ⟨-, hle, hlt⟩ ⟨-, hle', hlt'⟩
    rw [add_offset] at hle hlt hle' hlt'
    rcases Nat.lt_or_gt_of_ne hij with hlt₁ | hlt₁
    · have := (mul_add_le (c := 8 * a.count) (by omega) hlt₁).2
      omega
    · have := (mul_add_le (c := 8 * a.count) (by omega) hlt₁).2
      omega
  · intro hone q hq hq'
    have hsize : (a.dataType.size : ℤ) = 8 := h.stride.resolve_right fun hstride => by omega
    have hblock : 8 * a.count = a.block := by
      unfold block
      rw [hsize, mul_comm]
    obtain ⟨hnonneg, hle⟩ := mul_add_le (c := 8 * a.count) (by omega) hi
    obtain ⟨hregion, hstart, hend⟩ := hq
    rw [add_offset] at hstart hend
    unfold src sendAddr at hq'
    unfold start at hregion hstart hend
    rw [(hsame j hj).1] at hq'
    rcases accessible_or (a.sendbuf 0) with hs | hs <;>
      rcases accessible_or (a.recvbuf 0) with hr | hr
    · rw [hs, if_pos rfl] at hq'
      rw [hr, if_pos rfl] at hregion hstart hend
      rw [hblock] at hstart hend hq' hle hnonneg
      exact halias j hj q ⟨hregion, by omega, by omega⟩ hq'
    · rw [hs, if_pos rfl] at hq'
      rw [hr, if_neg Bool.false_ne_true] at hregion
      exact addr_region_ne_buffer _ (hq'.1.symm.trans hregion)
    · rw [hs, if_neg Bool.false_ne_true, (hcomm j hj).1] at hq'
      rw [hr, if_pos rfl] at hregion
      exact addr_region_ne_buffer (a.recvbuf j) (hregion.symm.trans hq'.1)
    · rw [hs, if_neg Bool.false_ne_true, (hcomm j hj).1] at hq'
      rw [hr, if_neg Bool.false_ne_true] at hstart
      unfold area copied at hstart
      rw [hs, if_neg Bool.false_ne_true, h.stageBytes_eq hs] at hstart
      obtain ⟨-, hle', hlt'⟩ := hq'
      unfold sharedBuffer at hlt'
      dsimp only at hstart hlt'
      omega

theorem raceFree (h : a.count = 0 ∨ a.Aligned npes) :
    ∀ s ∈ [a.stageStep comm, a.putStep npes comm, a.backStep npes], RaceFree npes s := by
  rw [List.forall_mem_cons, List.forall_mem_cons, List.forall_mem_singleton]
  refine ⟨raceFree_of_copies fun _ _ => stage_copies, raceFree_of_putEach
    (fun _ _ => List.nodup_range) (fun i hi j hj hij _ _ _ => ?_) (fun i hi j hj t ht hne => ?_),
    raceFree_of_copies fun _ _ => unstage_copies⟩
  · rcases h with hzero | h
    · rw [hzero, mul_zero]
      exact apart_zero _ _ _
    · exact (apart_of_aligned hcomm hsame halias h hi hj).1 hij
  · have hj := List.mem_range.mp hj
    have ht := List.mem_range.mp ht
    rcases h with hzero | h
    · rw [hzero, mul_zero]
      exact apart_zero _ _ _
    · refine (apart_of_aligned hcomm hsame halias h hi hj).2 ?_
      by_contra hone
      exact hne (by omega) (by omega)

end Race

/-! ### What the supersteps do -/

include hsame in
/-- A block is staged, put everywhere and copied back. -/
theorem read_of_follows (h : a.Aligned npes) {mem mem' : ℕ → Mem Region}
    (hfollows : Follows npes [a.stageStep comm, a.putStep npes comm, a.backStep npes] mem mem')
    {t j : ℕ} (ht : t < npes) (hj : j < npes) :
    read (mem' t) ((a.recvbuf t).addr + a.block * (j : ℤ)) a.block =
      read (mem j) (a.sendbuf j).addr a.block := by
  obtain ⟨m₁, hfirst, m₂, hsecond, m₃, hthird, rfl⟩ := hfollows
  have hstage : m₁ j = (localRun (mem j) (a.stageStep comm j)).1 :=
    hfirst.eq_of_copies (fun _ _ op hop => (stage_copies op hop).2) hj
  have hback : m₃ t = (localRun (m₂ t) (a.backStep npes t)).1 :=
    hthird.eq_of_copies (fun _ _ op hop => (unstage_copies op hop).2) ht
  apply read_eq_read.mpr
  intro k hk
  have hput : m₂ t (a.start t + (a.block * (j : ℤ)) + (k : ℤ)) =
      mem j ((a.sendbuf j).addr + (k : ℤ)) := by
    rw [h.start_eq ht hj, h.block_mul hj, hsecond.hit_putEach hj (List.mem_range.mpr ht)
      (lt_of_lt_of_le hk h.block_le), hstage]
    refine stage_sendAddr fun hpriv => ?_
    rw [(hsame j hj).1] at hpriv
    exact lt_of_lt_of_eq hk (h.stageBytes_eq hpriv).symm
  rw [← hput, hback]
  unfold backStep unstage copyMyData start
  rw [(hsame t ht).2]
  rcases accessible_or (a.recvbuf 0) with hr | hr
  · rw [hr, if_pos rfl, if_pos rfl]
    rfl
  · obtain ⟨hnonneg, hle⟩ := mul_add_le h.block_pos.le hj
    rw [hr, if_neg Bool.false_ne_true, if_neg Bool.false_ne_true]
    obtain ⟨i, hi⟩ : ∃ i : ℕ, a.block * (j : ℤ) + (k : ℤ) = (i : ℤ) :=
      ⟨(a.block * j + k).toNat, by omega⟩
    rw [add_add, add_add, hi]
    refine write_read _ _ _ ?_
    show (i : ℤ) < a.backBytes npes
    rw [h.backBytes_eq hr]
    omega

include hpos hcomm hsame halias hroom in
theorem gathers_of_aligned (h : a.count = 0 ∨ a.Aligned npes) :
    a.Gathers npes bufBytes comm := by
  refine computes_of_follows (fun pe hpe => call_eq hcomm hsame hpe) hpos ?_
    (raceFree hcomm hsame halias h) fun mem mem' hfollows t ht j hj => ?_
  · rw [List.forall_mem_cons, List.forall_mem_cons, List.forall_mem_singleton]
    exact ⟨fun _ => ok_stageStep hpos hcomm hsame hroom h,
      fun _ => ok_putStep hpos hcomm hsame hroom h, fun _ => ok_backStep hpos hsame hroom h⟩
  · rcases h with hzero | h
    · unfold block
      rw [hzero, zero_mul]
      rfl
    · exact read_of_follows hsame h hfollows ht hj

/-! ## Where the bytes come from -/

/-- Ones in the send buffer of PE `j`, zeros elsewhere. -/
def ones (a : AllgatherArgs) (j pe : ℕ) : Mem Region := fun q =>
  if pe = j ∧ (a.sendbuf j).addr.Covers a.block q then 1 else 0

theorem ones_eq_one {j pe : ℕ} {q : Addr} (h : a.ones j pe q = 1) :
    pe = j ∧ (a.sendbuf j).addr.Covers a.block q := by
  by_contra hne
  unfold ones at h
  rw [if_neg hne] at h
  exact absurd h (by decide)

/-- After staging the ones are at PE `j` only, in its send buffer and in the copy. -/
theorem staged_eq_one (hbuf : ∀ pe < npes, (comm pe).bufferPtr = sharedBuffer) {j t : ℕ}
    (ht : t < npes) {q : Addr} (h : inOrder npes (a.ones j) (a.stageStep comm) t q = 1) :
    t = j ∧ ((a.sendbuf j).addr.Covers a.block q ∨
      shmemAddrAccessible (a.sendbuf j) = false ∧
        ∃ k : ℕ, (k : ℤ) < a.stageBytes ∧ (k : ℤ) < a.block ∧ q = sharedBuffer + (k : ℤ)) := by
  unfold stageStep at h
  rw [inOrder_of_copies (fun _ _ op hop => (stage_copies op hop).2) (a.ones j) ht] at h
  unfold stage copyMyData at h
  rcases accessible_or (a.sendbuf t) with hs | hs
  · rw [hs, if_pos rfl] at h
    obtain ⟨rfl, hc⟩ := ones_eq_one h
    exact ⟨rfl, Or.inl hc⟩
  · rw [hs, if_neg Bool.false_ne_true, hbuf t ht] at h
    change write (a.ones j t) sharedBuffer (read (a.ones j t) (a.sendbuf t).addr a.stageBytes) q = 1
      at h
    by_cases hc : sharedBuffer.Covers a.stageBytes q
    · obtain ⟨k, hk, rfl⟩ := covers_iff.mp hc
      rw [write_read _ _ _ hk] at h
      obtain ⟨rfl, -, -, hlt⟩ := ones_eq_one h
      rw [add_offset] at hlt
      exact ⟨rfl, Or.inr ⟨hs, k, hk, by omega, rfl⟩⟩
    · rw [write_read_of_not_covers _ _ hc] at h
      obtain ⟨rfl, hc⟩ := ones_eq_one h
      exact ⟨rfl, Or.inl hc⟩

section Place

variable (hbuf : ∀ pe < npes, (comm pe).bufferPtr = sharedBuffer)

include hbuf

/-- A one at the place of a block was put there by PE `j`, from its block. -/
theorem exists_place_of_put {j t : ℕ} {q : Addr}
    (h : inOrder npes (inOrder npes (a.ones j) (a.stageStep comm)) (a.putStep npes comm) t q = 1)
    (hq : inOrder npes (a.ones j) (a.stageStep comm) t q ≠ 1) :
    ∃ k : ℕ, (k : ℤ) < 8 * a.count ∧ (k : ℤ) < a.block ∧
      (shmemAddrAccessible (a.sendbuf j) = false → (k : ℤ) < a.stageBytes) ∧
      q = a.start j + (8 * a.count * (j : ℤ)) + (k : ℤ) := by
  rcases inOrder_putEach_eq_or npes (fun _ => List.range npes)
    (fun pe => a.start pe + (8 * a.count * (pe : ℤ))) (a.src comm) (fun _ => 8 * a.count)
    (inOrder npes (a.ones j) (a.stageStep comm)) t q with hold | ⟨i, hi, -, k, hk, hput, hval⟩
  · exact absurd (hold.symm.trans h) hq
  obtain ⟨rfl, hfrom⟩ := staged_eq_one hbuf hi (hval.symm.trans h)
  refine ⟨k, hk, ?_⟩
  unfold src sendAddr at hfrom
  rcases hfrom with ⟨hregion, -, hlt⟩ | ⟨hs, k', hk', hlt, he⟩
  · rcases accessible_or (a.sendbuf i) with hs | hs
    · rw [hs, if_pos rfl, add_offset] at hlt
      exact ⟨by omega, fun hs' => absurd (hs.symm.trans hs') nofun, hput⟩
    · rw [hs, if_neg Bool.false_ne_true, hbuf i hi] at hregion
      exact absurd hregion.symm (addr_region_ne_buffer _)
  · rw [hs, if_neg Bool.false_ne_true, hbuf i hi] at he
    have hk : sharedBuffer.offset + (k : ℤ) = sharedBuffer.offset + (k' : ℤ) :=
      congrArg Ptr.offset he
    obtain rfl : k = k' := by omega
    exact ⟨hlt, fun _ => hk', hput⟩

/-- In the receive buffer there are no ones before the puts. -/
theorem staged_recv_ne_one (halias : a.NoAlias npes) {j t i : ℕ} (ht : t < npes)
    (hi : (i : ℤ) < a.block * npes) :
    inOrder npes (a.ones j) (a.stageStep comm) t ((a.recvbuf t).addr + (i : ℤ)) ≠ 1 := by
  intro h
  obtain ⟨rfl, hc | ⟨-, k, -, -, he⟩⟩ := staged_eq_one hbuf ht h
  · exact halias t ht _ (covers_iff.mpr ⟨i, hi, rfl⟩) hc
  · exact addr_region_ne_buffer (a.recvbuf t) (congrArg Ptr.region he)

/-- Nor are there where the blocks are collected. -/
theorem staged_start_ne_one (halias : a.NoAlias npes) {j t i : ℕ} (ht : t < npes)
    (hsend : shmemAddrAccessible (a.sendbuf t) = shmemAddrAccessible (a.sendbuf 0))
    (hi : (i : ℤ) < a.block * npes) :
    inOrder npes (a.ones j) (a.stageStep comm) t (a.start t + (i : ℤ)) ≠ 1 := by
  unfold start
  split_ifs
  · exact staged_recv_ne_one hbuf halias ht hi
  intro h
  obtain ⟨rfl, hc | ⟨hs, k, hk, -, he⟩⟩ := staged_eq_one hbuf ht h
  · exact addr_region_ne_buffer (a.sendbuf t) hc.1.symm
  · have hoff : copied (a.sendbuf 0) a.stageBytes + (i : ℤ) = sharedBuffer.offset + (k : ℤ) :=
      congrArg Ptr.offset he
    rw [hsend] at hs
    unfold copied sharedBuffer at hoff
    rw [hs, if_neg Bool.false_ne_true] at hoff
    dsimp only at hoff
    omega

end Place

namespace Gathers

variable (h : a.Gathers npes bufBytes comm)

include hcomm hsame halias h

/-- Where byte `k` of block `j` on PE `t` has come from. -/
theorem exists_place {t j : ℕ} (ht : t < npes) (hj : j < npes) {k : ℕ} (hk : (k : ℤ) < a.block) :
    (shmemAddrAccessible (a.recvbuf 0) = false → a.block * j + k < a.backBytes npes) ∧
    ∃ k' : ℕ, (k' : ℤ) < 8 * a.count ∧ (k' : ℤ) < a.block ∧
      (shmemAddrAccessible (a.sendbuf 0) = false → (k' : ℤ) < a.stageBytes) ∧
      a.start t + (a.block * j + k : ℤ) = a.start j + (8 * a.count * j + k' : ℤ) := by
  have hbuf : ∀ pe < npes, (comm pe).bufferPtr = sharedBuffer := fun pe hpe => (hcomm pe hpe).1
  have hblock : 0 ≤ a.block := by omega
  obtain ⟨hnonneg, hle⟩ := mul_add_le hblock hj
  obtain ⟨i, hi⟩ : ∃ i : ℕ, a.block * (j : ℤ) + (k : ℤ) = (i : ℤ) :=
    ⟨(a.block * j + k).toNat, by omega⟩
  have hlt : (i : ℤ) < a.block * npes := by omega
  have hlocal : ∀ s ∈ [a.stageStep comm, a.putStep npes comm, a.backStep npes], ∀ pe < npes,
      ∀ op ∈ s pe, op.isLocal = true := by
    rw [List.forall_mem_cons, List.forall_mem_cons, List.forall_mem_singleton]
    refine ⟨fun _ _ op hop => (stage_copies op hop).1, fun _ _ op hop => ?_,
      fun _ _ op hop => (unstage_copies op hop).1⟩
    obtain ⟨_, _, rfl⟩ := mem_putEach.mp hop
    rfl
  have hright := h.inOrder (fun pe hpe => call_eq hcomm hsame hpe) hlocal (a.ones j) t ht j hj
  have hone : inOrder npes (inOrder npes (inOrder npes (a.ones j) (a.stageStep comm))
      (a.putStep npes comm)) (a.backStep npes) t
      ((a.recvbuf t).addr + (a.block * (j : ℤ)) + (k : ℤ)) = 1 :=
    (read_eq_read.mp hright k hk).trans (if_pos ⟨rfl, covers_iff.mpr ⟨k, hk, rfl⟩⟩)
  unfold backStep at hone
  rw [inOrder_of_copies (fun _ _ op hop => (unstage_copies op hop).2) _ ht, add_add, hi] at hone
  unfold unstage copyMyData at hone
  rw [(hsame t ht).2] at hone
  have hput : (shmemAddrAccessible (a.recvbuf 0) = false → (i : ℤ) < a.backBytes npes) ∧
      inOrder npes (inOrder npes (a.ones j) (a.stageStep comm)) (a.putStep npes comm) t
        (a.start t + (i : ℤ)) = 1 := by
    rcases accessible_or (a.recvbuf 0) with hr | hr
    · rw [hr, if_pos rfl] at hone
      unfold start
      rw [hr, if_pos rfl]
      exact ⟨nofun, hone⟩
    · rw [hr, if_neg Bool.false_ne_true] at hone
      change write _ _ (read _ a.area (a.backBytes npes)) _ = 1 at hone
      by_cases hback : (i : ℤ) < a.backBytes npes
      · rw [write_read _ _ _ hback] at hone
        unfold start
        rw [hr, if_neg Bool.false_ne_true]
        exact ⟨fun _ => hback, hone⟩
      · -- what is not copied back is not put there either
        rw [write_read_of_not_covers] at hone
        · obtain ⟨k', -, -, -, he⟩ := exists_place_of_put hbuf hone
            (staged_recv_ne_one hbuf halias ht hlt)
          unfold start at he
          rw [hr, if_neg Bool.false_ne_true] at he
          exact absurd (congrArg Ptr.region he) (addr_region_ne_buffer (a.recvbuf t))
        · rintro ⟨-, -, hend⟩
          rw [add_offset] at hend
          omega
  rw [hi]
  obtain ⟨k', hmoved, hlt, hstaged, he⟩ := exists_place_of_put hbuf hput.2
    (staged_start_ne_one hbuf halias ht (hsame t ht).1 hlt)
  rw [(hsame j hj).1] at hstaged
  exact ⟨hput.1, k', hmoved, hlt, hstaged, he.trans (add_add _ _ _)⟩

theorem place_offset {t j : ℕ} (ht : t < npes) (hj : j < npes) {k : ℕ} (hk : (k : ℤ) < a.block) :
    ∃ k' : ℕ, (k' : ℤ) < 8 * a.count ∧ (k' : ℤ) < a.block ∧
      (shmemAddrAccessible (a.sendbuf 0) = false → (k' : ℤ) < a.stageBytes) ∧
      (a.start t).offset + (a.block * j + k) = (a.start j).offset + (8 * a.count * j + k') := by
  obtain ⟨-, k', hmoved, hlt, hstaged, he⟩ := h.exists_place hcomm hsame halias ht hj hk
  exact ⟨k', hmoved, hlt, hstaged, congrArg Ptr.offset he⟩

include hpos in
theorem aligned (hcount : 0 < a.count) : a.Aligned npes := by
  have hblock : 0 < a.block := Int.mul_pos hcount (size_pos a.dataType)
  -- the last byte of block 0 on PE 0, and the first one of block 1 on PE 1
  obtain ⟨k, hmoved, -, hstaged, hlast⟩ := h.place_offset hcomm hsame halias hpos hpos
    (k := (a.block - 1).toNat) (by omega)
  have hsize : (a.dataType.size : ℤ) ≤ 8 := by
    by_contra hgt
    have hmore : 8 * a.count < a.block := by
      rw [mul_comm 8]
      exact Int.mul_lt_mul_of_pos_left (by omega) hcount
    omega
  have hstride : (a.dataType.size : ℤ) = 8 ∨ npes = 1 ∧ (a.dataType.size : ℤ) ≤ 8 := by
    by_cases hone : npes = 1
    · exact Or.inr ⟨hone, hsize⟩
    · obtain ⟨k, -, -, -, hfirst⟩ := h.place_offset hcomm hsame halias (t := 1) (j := 1) (by omega)
        (by omega) (k := 0) hblock
      refine Or.inl (le_antisymm hsize ?_)
      by_contra hlt
      have hless : a.block < a.count * 8 := Int.mul_lt_mul_of_pos_left (by omega) hcount
      omega
  refine ⟨hcount, hstride, fun hpriv => ?_, fun hpriv => ?_, fun hacc pe hpe => ?_⟩
  · have hint := (isInt_getNumBytes a.count a.dataType).2
    have := hstaged hpriv
    unfold stageBytes at this
    omega
  · -- the last byte of the last block
    obtain ⟨hback, -⟩ := h.exists_place hcomm hsame halias hpos (j := npes - 1) (by omega)
      (k := (a.block - 1).toNat) (by omega)
    have hlt := hback hpriv
    have hint := (isInt_getNumBytes (wrapInt (a.count * npes)) a.dataType).2
    have hmul : a.block * npes = a.block * ((npes - 1 : ℕ) : ℤ) + a.block := by
      rw [Nat.cast_sub hpos, Nat.cast_one]
      ring
    unfold backBytes at hlt
    omega
  · rcases hstride with height | ⟨hone, -⟩
    · have hmul : a.block = 8 * a.count := by
        unfold block
        rw [height, mul_comm]
      obtain ⟨k, -, -, -, hle⟩ := h.place_offset hcomm hsame halias hpe hpos (k := 0) hblock
      obtain ⟨k', -, -, -, hge⟩ := h.place_offset hcomm hsame halias hpos hpe (k := 0) hblock
      unfold start at hle hge
      rw [hacc, if_pos rfl, if_pos rfl] at hle hge
      rw [hmul] at hle hge
      refine eq_of_offset_eq ((hsame pe hpe).2.trans hacc) hacc ?_
      omega
    · obtain rfl : pe = 0 := by omega
      rfl

end Gathers

end AllgatherArgs

/-! ## When the call gathers -/

/-- `MPI_Allgather` gathers if and only if there is nothing to send, or the elements have 8 bytes (at
most 8 on one PE), the sizes of what is copied fit an `int`, and symmetric receive buffers are at one
address. -/
theorem gathers_iff (a : AllgatherArgs) (npes : ℕ) (bufBytes : ℤ) (comm : ℕ → MpidComm)
    (hpos : 0 < npes) (hcount : 0 ≤ a.count)
    (hcomm : ∀ pe < npes, (comm pe).bufferPtr = sharedBuffer ∧ (comm pe).offset = 0)
    (hsame : a.SameChoice npes) (halias : a.NoAlias npes) (hroom : a.room npes ≤ bufBytes) :
    a.Gathers npes bufBytes comm ↔ a.count = 0 ∨ a.Aligned npes := by
  constructor
  · intro h
    by_cases hzero : a.count = 0
    · exact Or.inl hzero
    · exact Or.inr (h.aligned hpos hcomm hsame halias (by omega))
  · exact AllgatherArgs.gathers_of_aligned hpos hcomm hsame halias hroom

/-- Two PEs with one `int` each: the second block is 8 bytes behind the first. -/
theorem not_gathers_ints :
    let a : AllgatherArgs := ⟨fun _ => .heap 0, fun _ => .heap 8, 1, .int⟩
    let comm := fun pe => mpiInit 2 pe ⟨.heap, 0⟩ ⟨.heap, 0⟩
    a.SameChoice 2 ∧ a.NoAlias 2 ∧ a.room 2 ≤ 0 ∧ ¬ a.Gathers 2 0 comm := by
  intro a comm
  have halias : a.NoAlias 2 := by
    rintro pe - q ⟨-, hle, -⟩ ⟨-, -, hlt⟩
    have h : (8 : ℤ) < 0 + 4 := lt_of_le_of_lt hle hlt
    exact absurd h (by decide)
  refine ⟨fun _ _ => ⟨rfl, rfl⟩, halias, by decide, fun h => ?_⟩
  have haligned := h.aligned (by decide) (fun _ _ => ⟨rfl, rfl⟩) (fun _ _ => ⟨rfl, rfl⟩) halias
    (by decide)
  exact absurd haligned.stride (by decide)

/-- Three PEs with two `long`s each, nothing of it in symmetric memory. -/
theorem gathers_longs :
    let a : AllgatherArgs := ⟨fun _ => .process 0, fun _ => .process 16, 2, .long⟩
    a.Gathers 3 64 fun pe => mpiInit 3 pe ⟨.heap, 0⟩ ⟨.heap, 0⟩ := by
  refine (gathers_iff ⟨fun _ => .process 0, fun _ => .process 16, 2, .long⟩ 3 64 _ (by decide)
    (by decide) (fun _ _ => ⟨rfl, rfl⟩) (fun _ _ => ⟨rfl, rfl⟩) ?_ (by decide)).mpr
    (Or.inr ⟨by decide, Or.inl rfl, fun _ => by decide, fun _ => by decide, nofun⟩)
  rintro pe - q ⟨-, hle, -⟩ ⟨-, -, hlt⟩
  have h : (16 : ℤ) < 0 + 16 := lt_of_le_of_lt hle hlt
  exact absurd h (by decide)

end MpiToShmem.Shmem
