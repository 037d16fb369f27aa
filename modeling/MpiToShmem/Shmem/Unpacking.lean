import MpiToShmem.Kit.Supersteps
import MpiToShmem.Kit.Undisturbed
import MpiToShmem.Shmem.Positions

/-!
# What `MPI_Unpack` reads

Calls that unpack one input buffer, one after the other. A buffer that is not symmetric is copied to
the communicator's buffer first, but only as many bytes as the call asks for, from the beginning on;
the call then reads at the position.

1. `ReadsInput`: after each call its output buffer has the bytes between the positions.
2. `Readable`: sizes and positions fit an `int`, the PE reads its own memory, and a copy is read at its
   beginning only.
3. `readsInput_iff`: what is read is the input buffer exactly then.
-/

namespace MpiToShmem.Shmem

open Kit OneSided

/-! ## The calls -/

/-- What changes from call to call. -/
structure UnpackCall where
  outbuf : UserBuf
  outcount : ℤ
  datatype : MpiDatatype

/-- What all the calls have in common. -/
structure UnpackArgs where
  inbuf : UserBuf
  insize : ℤ
  comm : MpidComm

def UnpackCall.bytes (c : UnpackCall) : ℤ := getNumBytes c.outcount c.datatype

def UnpackArgs.call (a : UnpackArgs) (position : ℤ) (c : UnpackCall) :
    List (Op Region) × MpiRet × ℤ :=
  mpiUnpack a.inbuf a.insize position c.outbuf c.outcount c.datatype a.comm

variable {a : UnpackArgs} {npes myPe : ℕ} {bufBytes position : ℤ} {calls pre : List UnpackCall}
  {c : UnpackCall}

/-- The last call has unpacked what lies between the positions, and has left the input alone. -/
structure Unpacked (a : UnpackArgs) (c : UnpackCall) (before after : ℤ) (m m' : Mem Region) :
    Prop where
  ordered : before ≤ after
  data : read m' c.outbuf.addr (after - before) = read m (a.inbuf.addr + before) (after - before)
  inbuf : read m' a.inbuf.addr a.insize = read m a.inbuf.addr a.insize

/-- On PE `myPe`, whatever memory holds and whatever the other PEs do without writing there, every call
can be made and has unpacked the input when it returns. -/
def ReadsInput (npes : ℕ) (bufBytes : ℤ) (myPe : ℕ) (a : UnpackArgs) (position : ℤ)
    (calls : List UnpackCall) : Prop :=
  ∀ pre c, pre ++ [c] <+: calls →
    (∀ op ∈ callOps a.call position (pre ++ [c]), op.Ok (shmem npes bufBytes)) ∧
    ∀ w : OneSided.World Region, w.prog myPe = callOps a.call position (pre ++ [c]) →
      Undisturbed myPe w → w.toward myPe = [] →
      ∀ ls w', exec (OneSided.step (shmem npes bufBytes)) w ls = some w' → w'.prog myPe = [] →
        Unpacked a c (callPos a.call position pre) (callPos a.call position (pre ++ [c]))
          (w.mem myPe) (w'.mem myPe)

/-- The byte counts and the positions fit an `int`. If there is anything to unpack, the rank of the PE
is its number, and from a buffer that is not symmetric everything is unpacked at position 0 and fits
the communicator's buffer. -/
structure Readable (bufBytes : ℤ) (myPe : ℕ) (a : UnpackArgs) (position : ℤ)
    (calls : List UnpackCall) : Prop where
  bytes : ∀ c ∈ calls, 0 ≤ c.bytes
  fits : position + totalBytes UnpackCall.bytes calls ≤ intMax
  rank : (∃ c ∈ calls, 0 < c.bytes) → mpiCommRank a.comm = myPe
  start : shmemAddrAccessible a.inbuf = false → ∀ pre c, pre ++ [c] <+: calls → 0 < c.bytes →
    position + totalBytes UnpackCall.bytes pre = 0 ∧ c.bytes ≤ bufBytes

attribute [local irreducible] UnpackArgs.call

/-! ## One call -/

/-- The get of a call. -/
def UnpackArgs.fetch (a : UnpackArgs) (position : ℤ) (c : UnpackCall) : Op Region :=
  .get (mpiCommRank a.comm).toNat c.outbuf.addr (sendAddr a.comm a.inbuf + position) c.bytes

theorem unpack_of_success (h : (a.call position c).2.1 = .success) :
    wrapInt (position + c.bytes) ≤ a.insize ∧ a.call position c =
      (stage a.comm a.inbuf c.outcount c.datatype ++ [a.fetch position c], .success,
        wrapInt (position + c.bytes)) := by
  unfold UnpackArgs.call mpiUnpack at h ⊢
  dsimp only at h ⊢
  split_ifs at h ⊢ with hlt
  rw [add_comm] at hlt
  exact ⟨not_lt.mp hlt, rfl⟩

theorem moves_unpack : Moves a.call UnpackCall.bytes a.insize where
  next _ _ h := congrArg (fun r => r.2.2) (unpack_of_success h).2
  room _ _ h := (unpack_of_success h).1

/-- An operation is the copy of a buffer that is not symmetric, or the get of a call. -/
theorem ops_cases (hs : Succeed a.call position calls) {op : Op Region}
    (hop : op ∈ callOps a.call position calls) :
    ∃ pre c, pre ++ [c] <+: calls ∧
      (shmemAddrAccessible a.inbuf = false ∧ op = .copy a.comm.bufferPtr a.inbuf.addr c.bytes ∨
        op = a.fetch (callPos a.call position pre) c) := by
  obtain ⟨pre, c, hpre, hop⟩ := mem_callOps hop
  refine ⟨pre, c, hpre, ?_⟩
  rw [(unpack_of_success (hs.of_initial hpre)).2] at hop
  rcases List.mem_append.mp hop with hop | hop
  · unfold stage copyMyData at hop
    split_ifs at hop with hacc
    · cases hop
    · exact Or.inl ⟨Bool.eq_false_iff.mpr hacc, List.mem_singleton.mp hop⟩
  · exact Or.inr (List.mem_singleton.mp hop)

/-- What is written belongs to an output buffer or to the beginning of the communicator's. -/
theorem writes_ops (hs : Succeed a.call position calls) (hbuf : a.comm.bufferPtr = sharedBuffer)
    {op : Op Region} (hop : op ∈ callOps a.call position calls) {q : Addr} (hw : op.Writes q) :
    ∃ c ∈ calls, c.outbuf.addr.Covers c.bytes q ∨ sharedBuffer.Covers c.bytes q := by
  obtain ⟨pre, c, hpre, ⟨-, rfl⟩ | rfl⟩ := ops_cases hs hop
  · rw [← hbuf]
    exact ⟨c, mem_of_initial hpre, Or.inr hw⟩
  · exact ⟨c, mem_of_initial hpre, Or.inl hw⟩

/-- Nothing is written to the input. -/
theorem not_writes_inbuf (hs : Succeed a.call position calls) (hbuf : a.comm.bufferPtr = sharedBuffer)
    (halias : ∀ c ∈ calls, Apart c.outbuf.addr c.bytes a.inbuf.addr a.insize) {q : Addr}
    (hq : a.inbuf.addr.Covers a.insize q) : ∀ op ∈ callOps a.call position calls, ¬ op.Writes q := by
  intro op hop hw
  obtain ⟨c, hc, hout | hbuffer⟩ := writes_ops hs hbuf hop hw
  · exact halias c hc q hout hq
  · exact addr_region_ne_buffer a.inbuf (hq.1.symm.trans hbuffer.1)

/-- The program up to a call, and the call. -/
theorem ops_initial (hs : Succeed a.call position calls) (hpre : pre ++ [c] <+: calls) :
    callOps a.call position (pre ++ [c]) = callOps a.call position pre ++
      (stage a.comm a.inbuf c.outcount c.datatype ++ [a.fetch (callPos a.call position pre) c]) := by
  rw [callOps_append]
  congr 1
  show (a.call _ c).1 ++ [] = _
  rw [(unpack_of_success (hs.of_initial hpre)).2, List.append_nil]

/-! ## The input is read -/

section Readable

variable (hposition : 0 ≤ position) (hs : Succeed a.call position calls)
  (hbuf : a.comm.bufferPtr = sharedBuffer) (h : Readable bufBytes myPe a position calls)

include hposition hs hbuf h

theorem ok_of_readable (hrank : 0 ≤ mpiCommRank a.comm ∧ mpiCommRank a.comm < npes)
    {op : Op Region} (hop : op ∈ callOps a.call position calls) : op.Ok (shmem npes bufBytes) := by
  obtain ⟨pre, c, hpre, hop⟩ := ops_cases hs hop
  have hc := h.bytes c (mem_of_initial hpre)
  obtain ⟨-, hbefore, -, -⟩ := span_of_initial moves_unpack hposition hs h.bytes h.fits hpre
  have hinside : shmemAddrAccessible a.inbuf = false → ∀ p, (0 < c.bytes → p = sharedBuffer) →
      (shmem npes bufBytes).Inside p c.bytes := by
    intro hacc p hp
    rcases hc.eq_or_lt with hzero | hpos
    · exact Or.inl hzero.symm
    · rw [hp hpos]
      have hroom := (h.start hacc pre c hpre hpos).2
      exact (inside_buffer hpos.ne').mpr ⟨hc, le_rfl, by omega⟩
  rcases hop with ⟨hacc, rfl⟩ | rfl
  · exact ⟨hinside hacc _ fun _ => hbuf, inside_of_ne_buffer (addr_region_ne_buffer _) hc⟩
  · have hlt : (mpiCommRank a.comm).toNat < npes := by omega
    refine ⟨hlt, inside_of_ne_buffer (addr_region_ne_buffer _) hc, ?_⟩
    unfold sendAddr
    split_ifs with hacc
    · exact inside_of_ne_buffer (addr_region_ne_buffer a.inbuf) hc
    · have hacc := Bool.eq_false_iff.mpr hacc
      refine hinside hacc _ fun hpos => ?_
      rw [hbuf, hbefore, (h.start hacc pre c hpre hpos).1, add_zero_ptr]

/-- What the get of a call reads is what the input held at first. -/
theorem fetched_of_readable (halias : ∀ c ∈ calls, Apart c.outbuf.addr c.bytes a.inbuf.addr a.insize)
    (hpre : pre ++ [c] <+: calls) (m : Mem Region) {i : ℕ} (hi : (i : ℤ) < c.bytes) :
    solo m (callOps a.call position pre ++ stage a.comm a.inbuf c.outcount c.datatype)
      (sendAddr a.comm a.inbuf + (position + totalBytes UnpackCall.bytes pre) + (i : ℤ)) =
      m (a.inbuf.addr + (position + totalBytes UnpackCall.bytes pre) + (i : ℤ)) := by
  obtain ⟨hpos, -, -, hend⟩ := span_of_initial moves_unpack hposition hs h.bytes h.fits hpre
  have hpre' : pre <+: calls := (List.prefix_append pre [c]).trans hpre
  have hspared : ∀ j : ℕ, (j : ℤ) < c.bytes →
      solo m (callOps a.call position pre)
          (a.inbuf.addr + (position + totalBytes UnpackCall.bytes pre) + (j : ℤ)) =
        m (a.inbuf.addr + (position + totalBytes UnpackCall.bytes pre) + (j : ℤ)) := by
    intro j hj
    apply solo_of_not_writes
    refine not_writes_inbuf (hs.initial hpre') hbuf (fun c hc => halias c (hpre'.subset hc)) ?_
    refine ⟨rfl, ?_, ?_⟩
    · simp only [add_offset]
      omega
    · simp only [add_offset]
      omega
  rw [solo_append]
  unfold sendAddr stage
  split_ifs with hacc
  · exact hspared i hi
  · have hzero := (h.start (Bool.eq_false_iff.mpr hacc) pre c hpre (by omega)).1
    have hspared := hspared i hi
    rw [hzero, add_zero_ptr] at hspared ⊢
    rw [add_zero_ptr, ← hspared]
    exact write_read _ _ _ hi

omit hposition hbuf h in
/-- With its own number as its rank a PE reads its own memory. -/
theorem solo_ops (hrank : mpiCommRank a.comm = myPe) {op : Op Region}
    (hop : op ∈ callOps a.call position calls) : op.Solo myPe := by
  obtain ⟨pre, c, -, ⟨-, rfl⟩ | rfl⟩ := ops_cases hs hop
  · trivial
  · show (mpiCommRank a.comm).toNat = myPe
    rw [hrank, Int.toNat_natCast]

omit hposition hbuf h in
theorem idle_ops (hnone : ∀ c ∈ calls, c.bytes = 0) {op : Op Region}
    (hop : op ∈ callOps a.call position calls) : op.Idle := by
  obtain ⟨pre, c, hpre, ⟨-, rfl⟩ | rfl⟩ := ops_cases hs hop
  · exact hnone c (mem_of_initial hpre)
  · exact hnone c (mem_of_initial hpre)

theorem readsInput_of_readable (hpe : myPe < npes)
    (hrank : 0 ≤ mpiCommRank a.comm ∧ mpiCommRank a.comm < npes)
    (halias : ∀ c ∈ calls, Apart c.outbuf.addr c.bytes a.inbuf.addr a.insize) :
    ReadsInput npes bufBytes myPe a position calls := by
  intro pre c hpre
  have hsub : ∀ op ∈ callOps a.call position (pre ++ [c]), op ∈ callOps a.call position calls :=
    fun _ => callOps_initial hpre
  refine ⟨fun op hop => ok_of_readable hposition hs hbuf h hrank (hsub op hop),
    fun w hprog hothers htoward ls w' hexec hdone => ?_⟩
  obtain ⟨hpos, hbefore, hafter, hend⟩ := span_of_initial moves_unpack hposition hs h.bytes h.fits hpre
  have hc := h.bytes c (mem_of_initial hpre)
  rw [hbefore, hafter]
  by_cases hsome : ∃ c' ∈ calls, 0 < c'.bytes
  · have hmem := mem_of_solo hpe hothers htoward hprog
      (fun op hop => solo_ops hs (h.rank hsome) (hsub op hop)) hexec hdone
    refine ⟨by omega, ?_, ?_⟩
    · rw [read_eq_read]
      intro i hi
      have hi : (i : ℤ) < c.bytes := by omega
      have hops := ops_initial hs hpre
      rw [hbefore, ← List.append_assoc] at hops
      rw [hmem, hops, solo_append]
      refine (write_read _ _ i hi).trans ?_
      exact fetched_of_readable hposition hs hbuf h halias hpre _ hi
    · apply read_congr
      intro q hq
      rw [hmem]
      exact solo_of_not_writes (not_writes_inbuf (hs.initial hpre) hbuf
        (fun c hc => halias c (hpre.subset hc)) hq) _
  · have hnone : ∀ c' ∈ calls, c'.bytes = 0 := by
      intro c' hc'
      by_contra hne
      exact hsome ⟨c', hc', lt_of_le_of_ne (h.bytes c' hc') (Ne.symm hne)⟩
    have hmem := mem_of_idle hpe hothers htoward
      (fun op hop => idle_ops hs hnone (hsub op (hprog ▸ hop))) hexec
    rw [hmem, hnone c (mem_of_initial hpre), add_zero]
    refine ⟨le_rfl, ?_, rfl⟩
    rw [sub_self]
    rfl

end Readable

/-! ## When it is read -/

section Exact

variable (hpe : myPe < npes) (hs : Succeed a.call position calls)
  (h : ReadsInput npes bufBytes myPe a position calls)

include hpe hs h

/-- Whatever memory holds, there is a run up to the end of a call. -/
theorem exists_unpacked (hpre : pre ++ [c] <+: calls) (mem : ℕ → Mem Region) :
    ∃ ls w', exec (OneSided.step (shmem npes bufBytes))
        (alone mem myPe (callOps a.call position (pre ++ [c]))) ls = some w' ∧ w'.prog myPe = [] ∧
      Unpacked a c (callPos a.call position pre) (callPos a.call position (pre ++ [c])) (mem myPe)
        (w'.mem myPe) := by
  obtain ⟨hok, hrun⟩ := h pre c hpre
  obtain ⟨ls, w', hexec, hdone⟩ := exists_run_alone (M := shmem npes bufBytes) hpe mem
    fun op hop => by
      refine ⟨hok op hop, ?_⟩
      obtain ⟨_, _, _, ⟨-, rfl⟩ | rfl⟩ := ops_cases (hs.initial hpre) hop
      · exact ⟨rfl, rfl⟩
      · exact ⟨rfl, rfl⟩
  exact ⟨ls, w', hexec, hdone.1 myPe, hrun _ (alone_prog _ _ _) (undisturbed_alone _ _ _) rfl ls w'
    hexec (hdone.1 myPe)⟩

omit hpe in
theorem ok_of_readsInput (hpre : pre ++ [c] <+: calls) :
    (a.fetch (callPos a.call position pre) c).Ok (shmem npes bufBytes) ∧
      (shmemAddrAccessible a.inbuf = false →
        (shmem npes bufBytes).Inside a.comm.bufferPtr c.bytes) := by
  have hok := (h pre c hpre).1
  rw [ops_initial hs hpre] at hok
  refine ⟨hok _ (by simp), fun hacc => ?_⟩
  have hcopy : (Op.copy a.comm.bufferPtr a.inbuf.addr c.bytes).Ok (shmem npes bufBytes) := by
    apply hok
    unfold stage
    rw [hacc]
    exact List.mem_append_right _ List.mem_cons_self
  exact hcopy.1

omit hpe in
theorem bytes_of_readsInput (hc : c ∈ calls) : 0 ≤ c.bytes := by
  obtain ⟨pre, hpre⟩ := exists_initial_of_mem hc
  rcases (ok_of_readsInput hs h hpre).1.2.1 with hzero | ⟨hn, -⟩
  · exact hzero.ge
  · exact hn

theorem fits_of_readsInput (hposition : 0 ≤ position) (hmax : position ≤ intMax) :
    position + totalBytes UnpackCall.bytes calls ≤ intMax := by
  refine fits_of_ordered moves_unpack hposition hmax hs (fun c hc =>
    ⟨bytes_of_readsInput hs h hc, (isInt_getNumBytes _ _).2⟩) ?_
  intro pre c hpre
  obtain ⟨_, _, -, -, hunpacked⟩ := exists_unpacked hpe hs h hpre fun _ _ => 0
  exact hunpacked.ordered

/-- A PE of another rank would read zeros where its own input has ones. -/
theorem rank_of_readsInput (hposition : 0 ≤ position) (hmax : position ≤ intMax)
    (hrank : 0 ≤ mpiCommRank a.comm) (hbuf : a.comm.bufferPtr = sharedBuffer)
    (halias : ∀ c ∈ calls, Apart c.outbuf.addr c.bytes a.inbuf.addr a.insize) (hc : c ∈ calls)
    (hpos : 0 < c.bytes) : mpiCommRank a.comm = myPe := by
  by_contra hne
  obtain ⟨pre, hpre⟩ := exists_initial_of_mem hc
  obtain ⟨hprebytes, hbefore, hafter, hend⟩ := span_of_initial moves_unpack hposition hs
    (fun c hc => bytes_of_readsInput hs h hc) (fits_of_readsInput hpe hs h hposition hmax) hpre
  obtain ⟨ls, w', hexec, -, hunpacked⟩ := exists_unpacked hpe hs h hpre
    fun t q => if t = myPe ∧ q ≠ c.outbuf.addr then 1 else 0
  have hzero : ZeroOutside (fun t q => t = myPe ∧ q ≠ c.outbuf.addr) w' := by
    refine exec_inv zeroOutside_step ⟨fun t q hq => if_neg hq,
      fun p hp => absurd hp List.not_mem_nil, fun t op hop => ?_⟩ hexec
    by_cases ht : t = myPe
    · subst ht
      rw [alone_prog] at hop
      obtain ⟨_, c', -, ⟨-, rfl⟩ | rfl⟩ := ops_cases (hs.initial hpre) hop
      · refine fun i _ _ => ⟨rfl, fun heq => ?_⟩
        rw [hbuf] at heq
        exact addr_region_ne_buffer c.outbuf (congrArg Ptr.region heq).symm
      · refine fun i _ hsrc => absurd hsrc.1 ?_
        omega
    · rw [alone_prog_of_ne ht] at hop
      cases hop
  have hdata := read_eq_read.mp hunpacked.data 0 (by omega)
  have hplace : c.outbuf.addr + ((0 : ℕ) : ℤ) = c.outbuf.addr := add_zero_ptr _
  have hsource : a.inbuf.addr + callPos a.call position pre + ((0 : ℕ) : ℤ) ≠ c.outbuf.addr := by
    intro heq
    refine halias c hc c.outbuf.addr ⟨rfl, le_rfl, by omega⟩ ?_
    rw [← heq, hbefore]
    exact ⟨rfl, by simp only [add_offset]; omega, by simp only [add_offset]; omega⟩
  rw [hplace, hzero.mem myPe _ fun hA => hA.2 rfl, if_pos ⟨rfl, hsource⟩] at hdata
  exact absurd hdata (by decide)

/-- Behind the beginning of the communicator's buffer a call reads what was there before. -/
theorem start_of_readsInput (hposition : 0 ≤ position) (hmax : position ≤ intMax)
    (hrank : mpiCommRank a.comm = myPe) (hbuf : a.comm.bufferPtr = sharedBuffer)
    (hacc : shmemAddrAccessible a.inbuf = false) (hpre : pre ++ [c] <+: calls) (hpos : 0 < c.bytes) :
    position + totalBytes UnpackCall.bytes pre = 0 ∧ c.bytes ≤ bufBytes := by
  have hbytes : ∀ c ∈ calls, 0 ≤ c.bytes := fun c hc => bytes_of_readsInput hs h hc
  obtain ⟨hprebytes, hbefore, hafter, hend⟩ := span_of_initial moves_unpack hposition hs hbytes
    (fits_of_readsInput hpe hs h hposition hmax) hpre
  have hroom := (ok_of_readsInput hs h hpre).2 hacc
  rw [hbuf, sharedBuffer, inside_buffer hpos.ne'] at hroom
  refine ⟨?_, by omega⟩
  by_contra hne
  -- the last byte that the call reads, where nobody has written
  obtain ⟨last, hlast⟩ : ∃ last : ℕ, (last : ℤ) = c.bytes - 1 := ⟨(c.bytes - 1).toNat, by omega⟩
  obtain ⟨ls, w', hexec, hdone, hunpacked⟩ := exists_unpacked hpe hs h hpre
    fun _ q =>
      if q = sharedBuffer + (position + totalBytes UnpackCall.bytes pre) + (last : ℤ) then 0 else 1
  have hmem := mem_of_solo hpe (undisturbed_alone _ _ _) rfl (alone_prog _ _ _)
    (fun op hop => solo_ops (hs.initial hpre) hrank hop) hexec hdone
  have hspared : ∀ op ∈ callOps a.call position pre ++ stage a.comm a.inbuf c.outcount c.datatype,
      ¬ op.Writes (sharedBuffer + (position + totalBytes UnpackCall.bytes pre) + (last : ℤ)) := by
    have hpre' : pre <+: calls := (List.prefix_append pre [c]).trans hpre
    intro op hop hw
    rcases List.mem_append.mp hop with hop | hop
    · obtain ⟨c', hc', hout | hbuffer⟩ := writes_ops (hs.initial hpre') hbuf hop hw
      · exact addr_region_ne_buffer c'.outbuf hout.1.symm
      · have hle : c'.bytes ≤ totalBytes UnpackCall.bytes pre :=
          bytes_le_totalBytes (fun c hc => hbytes c (hpre'.subset hc)) hc'
        have hlt := hbuffer.2.2
        simp only [add_offset] at hlt
        omega
    · unfold stage copyMyData at hop
      rw [hacc, if_neg Bool.false_ne_true, hbuf] at hop
      obtain rfl := List.mem_singleton.mp hop
      have hlt : _ < sharedBuffer.offset + c.bytes := hw.2.2
      simp only [add_offset] at hlt
      omega
  have hread : w'.mem myPe (c.outbuf.addr + (last : ℤ)) = 0 := by
    rw [hmem, ops_initial hs hpre, ← List.append_assoc, solo_append]
    refine (write_read _ _ last (by omega)).trans ?_
    unfold sendAddr
    rw [hacc, if_neg Bool.false_ne_true, hbuf, hbefore, solo_of_not_writes hspared]
    exact if_pos rfl
  have hdata := read_eq_read.mp hunpacked.data last (by omega)
  rw [hread, if_neg] at hdata
  · exact absurd hdata (by decide)
  · exact fun heq => addr_region_ne_buffer a.inbuf (congrArg Ptr.region heq)

end Exact

/-- `MPI_Unpack` reads its input buffer exactly when the sizes fit an `int` and, if there is anything
to unpack, the rank of the PE is its number and whatever is read from a copy is read at position 0. -/
theorem readsInput_iff (npes : ℕ) (bufBytes : ℤ) (myPe : ℕ) (a : UnpackArgs) (position : ℤ)
    (calls : List UnpackCall) (hpe : myPe < npes)
    (hrank : 0 ≤ mpiCommRank a.comm ∧ mpiCommRank a.comm < npes)
    (hbuf : a.comm.bufferPtr = sharedBuffer) (hposition : 0 ≤ position) (hmax : position ≤ intMax)
    (hs : Succeed a.call position calls)
    (halias : ∀ c ∈ calls, Apart c.outbuf.addr c.bytes a.inbuf.addr a.insize) :
    ReadsInput npes bufBytes myPe a position calls ↔ Readable bufBytes myPe a position calls := by
  constructor
  · intro h
    have hrank' : (∃ c ∈ calls, 0 < c.bytes) → mpiCommRank a.comm = myPe := fun ⟨c, hc, hpos⟩ =>
      rank_of_readsInput hpe hs h hposition hmax hrank.1 hbuf halias hc hpos
    refine ⟨fun c hc => bytes_of_readsInput hs h hc, fits_of_readsInput hpe hs h hposition hmax,
      hrank', fun hacc pre c hpre hpos => ?_⟩
    exact start_of_readsInput hpe hs h hposition hmax
      (hrank' ⟨c, mem_of_initial hpre, hpos⟩) hbuf hacc hpre hpos
  · intro h
    exact readsInput_of_readable hposition hs hbuf h hpe hrank halias

attribute [local semireducible] UnpackArgs.call

/-- Of two `int`s in a buffer that is not symmetric the second is not there. -/
theorem not_readsInput_second :
    let a : UnpackArgs := ⟨.process 0, 8, mpiInit 1 0 ⟨.heap, 0⟩ ⟨.heap, 0⟩⟩
    let calls : List UnpackCall := [⟨.heap 0, 1, .int⟩, ⟨.heap 4, 1, .int⟩]
    Succeed a.call 0 calls ∧ ¬ ReadsInput 1 200000 0 a 0 calls := by
  intro a calls
  have hs : Succeed a.call 0 calls := ⟨by decide, by decide, trivial⟩
  refine ⟨hs, fun h => ?_⟩
  have hpre : [⟨.heap 0, 1, .int⟩] ++ [⟨.heap 4, 1, .int⟩] <+: calls := ⟨[], rfl⟩
  have hstart := start_of_readsInput (by decide) hs h le_rfl (by decide) rfl rfl rfl hpre (by decide)
  exact absurd hstart.1 (by decide)

theorem readsInput_symmetric :
    let a : UnpackArgs := ⟨.heap 0, 8, mpiInit 1 0 ⟨.heap, 0⟩ ⟨.heap, 0⟩⟩
    ReadsInput 1 200000 0 a 0 [⟨.process 0, 1, .int⟩, ⟨.process 4, 1, .int⟩] := by
  intro a
  have hs : Succeed a.call 0 [⟨.process 0, 1, .int⟩, ⟨.process 4, 1, .int⟩] :=
    ⟨by decide, by decide, trivial⟩
  refine (readsInput_iff 1 200000 0 a 0 _ (by decide) (by decide) rfl le_rfl (by decide) hs ?_).mpr
    ⟨by decide, by decide, fun _ => rfl, nofun⟩
  intro c hc q hout hin
  have hregion := hout.1.symm.trans hin.1
  rcases List.mem_cons.mp hc with rfl | hc
  · cases hregion
  · obtain rfl := List.mem_singleton.mp hc
    cases hregion

end MpiToShmem.Shmem
