import MpiToShmem.Shmem.Collectives

/-!
# The bounds of the communicator's buffer

The collectives copy buffers that are not symmetric to the communicator's buffer and fill the rest
of it. None of them compares what it needs with what `shmalloc` was asked for.

1. `Safe`: no operation accesses the buffer outside its bytes.
2. `Collective.Fits`: what the arguments of a call must satisfy for that.
3. `collective_safe_iff`: this condition is exact.
-/

namespace MpiToShmem.Shmem

open Kit OneSided

/-- `MAX_BUFFER_SIZE`: the bytes of the buffer of a created or duplicated communicator. -/
def maxBufferSize : ℤ := 200000

/-! ## Accesses -/

/-- The places that an operation reads or writes. -/
def accesses : Op Region → List (Addr × ℤ)
  | .copy dst src n => [(dst, n), (src, n)]
  | .put _ dst src n => [(dst, n), (src, n)]
  | .putInt _ dst _ => [(dst, 4)]
  | .get _ dst src n => [(dst, n), (src, n)]
  | .await _ cell width _ => [(cell, width)]
  | .barrier => []

/-- If the place is in the communicator's buffer, it is inside. -/
def Held (bufBytes : ℤ) (p : Addr) (n : ℤ) : Prop :=
  p.region = .buffer → (shmem 0 bufBytes).Inside p n

/-- No operation leaves the communicator's buffer. -/
def Safe (bufBytes : ℤ) (ops : List (Op Region)) : Prop :=
  ∀ op ∈ ops, ∀ u ∈ accesses op, Held bufBytes u.1 u.2

/-- The `n` bytes from `offset` on are in a buffer of `bufBytes` bytes. -/
def InBuffer (bufBytes offset n : ℤ) : Prop :=
  n = 0 ∨ 0 ≤ n ∧ 0 ≤ offset ∧ offset + n ≤ bufBytes

instance (bufBytes : ℤ) (p : Addr) (n : ℤ) : Decidable (Held bufBytes p n) :=
  inferInstanceAs (Decidable (_ → _))

instance (bufBytes : ℤ) (ops : List (Op Region)) : Decidable (Safe bufBytes ops) :=
  inferInstanceAs (Decidable (∀ op ∈ ops, ∀ u ∈ accesses op, Held bufBytes u.1 u.2))

variable {bufBytes : ℤ} {comm : MpidComm}

@[simp] theorem held_buffer {offset n : ℤ} :
    Held bufBytes ⟨.buffer, offset⟩ n ↔ InBuffer bufBytes offset n := by
  unfold Held InBuffer Machine.Inside shmem
  simp

@[simp] theorem held_addr (buf : UserBuf) (n : ℤ) : Held bufBytes buf.addr n := by
  cases buf <;> exact nofun

@[simp] theorem held_addr_add (buf : UserBuf) (i n : ℤ) : Held bufBytes (buf.addr + i) n := by
  cases buf <;> exact nofun

@[simp] theorem safe_nil : Safe bufBytes [] := fun _ h => absurd h List.not_mem_nil

@[simp] theorem safe_append {ops ops' : List (Op Region)} :
    Safe bufBytes (ops ++ ops') ↔ Safe bufBytes ops ∧ Safe bufBytes ops' :=
  List.forall_mem_append

theorem safe_cons {op : Op Region} {ops : List (Op Region)} :
    Safe bufBytes (op :: ops) ↔ (∀ u ∈ accesses op, Held bufBytes u.1 u.2) ∧ Safe bufBytes ops :=
  List.forall_mem_cons

@[simp] theorem safe_barrier {ops : List (Op Region)} :
    Safe bufBytes (.barrier :: ops) ↔ Safe bufBytes ops := by
  rw [safe_cons, and_iff_right_iff_imp]
  exact fun _ _ h => absurd h List.not_mem_nil

@[simp] theorem safe_copy {dst src : Addr} {n : ℤ} {ops : List (Op Region)} :
    Safe bufBytes (.copy dst src n :: ops) ↔
      (Held bufBytes dst n ∧ Held bufBytes src n) ∧ Safe bufBytes ops := by
  rw [safe_cons, accesses, List.forall_mem_cons, List.forall_mem_singleton]

@[simp] theorem safe_put {pe : ℕ} {dst src : Addr} {n : ℤ} {ops : List (Op Region)} :
    Safe bufBytes (.put pe dst src n :: ops) ↔
      (Held bufBytes dst n ∧ Held bufBytes src n) ∧ Safe bufBytes ops := by
  rw [safe_cons, accesses, List.forall_mem_cons, List.forall_mem_singleton]

/-- The same put to several PEs. -/
theorem safe_map_put {pes : List ℕ} {dst src : Addr} {n : ℤ} :
    Safe bufBytes (pes.map fun pe => .put pe dst src n) ↔
      (pes ≠ [] → Held bufBytes dst n ∧ Held bufBytes src n) := by
  induction pes with
  | nil => simp
  | cons pe pes ih =>
    rw [List.map_cons, safe_put, ih]
    have hne : pe :: pes ≠ [] := List.cons_ne_nil pe pes
    exact ⟨fun h _ => h.1, fun h => ⟨h hne, fun _ => h hne⟩⟩

/-! ## Staging -/

/-- How many bytes of the buffer the copy of `buf` takes. -/
def copied (buf : UserBuf) (n : ℤ) : ℤ := if shmemAddrAccessible buf then 0 else n

/-- What fits behind the copy fits where the copy is. -/
theorem inBuffer_of_copied {buf : UserBuf} {n m : ℤ}
    (hcopy : shmemAddrAccessible buf = false → InBuffer bufBytes 0 n)
    (h : InBuffer bufBytes (copied buf n) m) (hpriv : shmemAddrAccessible buf = false) :
    InBuffer bufBytes 0 m := by
  unfold copied at h
  rw [hpriv, if_neg Bool.false_ne_true] at h
  have hcopy := hcopy hpriv
  unfold InBuffer at h hcopy ⊢
  omega

section Comm

variable (hoff : comm.offset = 0) (hbuf : comm.bufferPtr = sharedBuffer)

include hbuf

theorem held_sendAddr {buf : UserBuf} {n : ℤ} :
    Held bufBytes (sendAddr comm buf) n ↔
      (shmemAddrAccessible buf = false → InBuffer bufBytes 0 n) := by
  unfold sendAddr
  cases buf with
  | heap => simp [shmemAddrAccessible]
  | process => simp [shmemAddrAccessible, hbuf, sharedBuffer]

theorem safe_stage {buf : UserBuf} {count : ℤ} {dataType : MpiDatatype} :
    Safe bufBytes (stage comm buf count dataType) ↔
      (shmemAddrAccessible buf = false → InBuffer bufBytes 0 (getNumBytes count dataType)) := by
  unfold stage copyMyData
  cases buf with
  | heap => simp [shmemAddrAccessible]
  | process => simp [shmemAddrAccessible, hbuf, sharedBuffer]

include hoff

theorem symRecv_eq (buf : UserBuf) (count : ℤ) (dataType : MpiDatatype) :
    symRecv comm buf count dataType = ⟨.buffer, copied buf (getNumBytes count dataType)⟩ := by
  unfold symRecv copied getBufferOffset
  rw [hbuf, hoff, zero_add, wrapInt_of_isInt (isInt_getNumBytes count dataType)]
  split_ifs
  · rfl
  · show Ptr.mk _ _ = _
    rw [sharedBuffer, zero_add]

theorem held_recvAddr {sendbuf recvbuf : UserBuf} {count : ℤ} {dataType : MpiDatatype} {i n : ℤ} :
    Held bufBytes (recvAddr comm sendbuf recvbuf count dataType + i) n ↔
      (shmemAddrAccessible recvbuf = false →
        InBuffer bufBytes (copied sendbuf (getNumBytes count dataType) + i) n) := by
  unfold recvAddr
  rw [symRecv_eq hoff hbuf]
  cases recvbuf with
  | heap => simp [shmemAddrAccessible]
  | process =>
    simp only [shmemAddrAccessible, Bool.false_eq_true, if_false, forall_const]
    exact held_buffer

theorem safe_unstage {sendbuf recvbuf : UserBuf} {count m : ℤ} {dataType recvtype : MpiDatatype} :
    Safe bufBytes (unstage recvbuf (symRecv comm sendbuf count dataType) m recvtype) ↔
      (shmemAddrAccessible recvbuf = false →
        InBuffer bufBytes (copied sendbuf (getNumBytes count dataType)) (getNumBytes m recvtype)) := by
  unfold unstage copyMyData
  rw [symRecv_eq hoff hbuf]
  cases recvbuf with
  | heap => simp [shmemAddrAccessible]
  | process => simp [shmemAddrAccessible]

end Comm

/-! ## The calls -/

/-- A call of a collective on one PE, with the arguments that it uses. -/
inductive Collective where
  | bcast (source : UserBuf) (count : ℤ) (dataType : MpiDatatype) (root : ℕ)
  | allgather (sendbuf : Option UserBuf) (sendcount : ℤ) (sendtype : MpiDatatype)
      (recvbuf : Option UserBuf) (recvtype : MpiDatatype)
  | gather (sendbuf : Option UserBuf) (sendcount : ℤ) (sendtype : MpiDatatype)
      (recvbuf : Option UserBuf) (recvtype : MpiDatatype) (root : ℕ)
  | gatherv (sendbuf : Option UserBuf) (sendcount : ℤ) (sendtype : MpiDatatype)
      (recvbuf : Option UserBuf) (recvcount displs : List ℤ) (recvtype : MpiDatatype) (root : ℕ)
deriving DecidableEq

/-- What the call does on PE `myPe`; `junk` is what `MPI_Gatherv` leaves uninitialised. -/
def Collective.ops (npes myPe : ℕ) (comm : MpidComm) (junk : GathervLocals) :
    Collective → List (Op Region)
  | bcast source count dataType root => mpiBcast npes myPe source count dataType root comm
  | allgather sendbuf sendcount sendtype recvbuf recvtype =>
    (mpiAllgather npes myPe sendbuf sendcount sendtype recvbuf recvtype comm).1
  | gather sendbuf sendcount sendtype recvbuf recvtype root =>
    (mpiGather npes myPe sendbuf sendcount sendtype recvbuf recvtype root comm).1
  | gatherv sendbuf sendcount sendtype recvbuf recvcount displs recvtype root =>
    (mpiGatherv npes myPe sendbuf sendcount sendtype recvbuf recvcount displs recvtype root comm
      junk).1

/-- What an `MPI_Bcast` needs: room for its copy, and behind it for 8 bytes an element on the PEs
that the root fills, and for the elements where they are taken out. -/
def bcastFits (bufBytes : ℤ) (npes myPe : ℕ) (source : UserBuf) (count : ℤ) (dataType : MpiDatatype)
    (root : ℕ) : Prop :=
  let n := getNumBytes count dataType
  (shmemAddrAccessible source = false → InBuffer bufBytes 0 n) ∧
    if myPe = root then 1 < npes → InBuffer bufBytes (copied source n) (8 * count)
    else InBuffer bufBytes (copied source n) n

/-- What an `MPI_Allgather` needs. -/
def allgatherFits (bufBytes : ℤ) (npes myPe : ℕ) (sendbuf : UserBuf) (sendcount : ℤ)
    (sendtype : MpiDatatype) (recvbuf : UserBuf) (recvtype : MpiDatatype) : Prop :=
  let n := getNumBytes sendcount sendtype
  (shmemAddrAccessible sendbuf = false →
      InBuffer bufBytes 0 n ∧ InBuffer bufBytes 0 (8 * sendcount)) ∧
    (shmemAddrAccessible recvbuf = false →
      InBuffer bufBytes (copied sendbuf n + 8 * sendcount * myPe) (8 * sendcount) ∧
        InBuffer bufBytes (copied sendbuf n)
          (getNumBytes (wrapInt (sendcount * npes)) recvtype))

/-- What an `MPI_Gather` needs: a PE fills its block of the root's buffer. -/
def gatherFits (bufBytes : ℤ) (npes myPe : ℕ) (sendbuf : UserBuf) (sendcount : ℤ)
    (sendtype : MpiDatatype) (recvbuf : UserBuf) (recvtype : MpiDatatype) (root : ℕ) : Prop :=
  let n := getNumBytes sendcount sendtype
  (shmemAddrAccessible sendbuf = false →
      InBuffer bufBytes 0 n ∧ InBuffer bufBytes 0 (sendcount * sendtype.size)) ∧
    (shmemAddrAccessible recvbuf = false →
      InBuffer bufBytes (copied sendbuf n + wrapInt (sendcount * myPe) * sendtype.size)
          (sendcount * sendtype.size) ∧
        (myPe = root → InBuffer bufBytes (copied sendbuf n)
          (getNumBytes (wrapInt (sendcount * npes)) recvtype)))

/-- What an `MPI_Gatherv` needs. Unless both buffers are copied, places that it has not initialised
are in use, and only a call that moves nothing keeps inside. -/
def gathervFits (bufBytes : ℤ) (npes myPe : ℕ) (sendbuf : UserBuf) (sendcount : ℤ)
    (sendtype : MpiDatatype) (recvbuf : UserBuf) (recvcount displs : List ℤ)
    (recvtype : MpiDatatype) (root : ℕ) : Prop :=
  let n := getNumBytes sendcount sendtype
  let total := (displs.take npes).foldl (fun total d => wrapInt (d + total)) 0
  let count := recvcount.getD myPe 0
  let start := displs.getD myPe 0 * sendtype.size
  if shmemAddrAccessible sendbuf = false ∧ shmemAddrAccessible recvbuf = false then
    InBuffer bufBytes 0 n ∧ InBuffer bufBytes n (getNumBytes total recvtype) ∧
      (count ≤ sendcount → InBuffer bufBytes 0 (count * sendtype.size) ∧
        InBuffer bufBytes (n + start) (count * sendtype.size) ∧
        (myPe = root → InBuffer bufBytes n (getNumBytes total .int)))
  else
    (shmemAddrAccessible sendbuf = false → InBuffer bufBytes 0 n) ∧
      (shmemAddrAccessible recvbuf = false → getNumBytes total recvtype = 0) ∧
      (count ≤ sendcount → count = 0 ∧ (myPe = root → getNumBytes total .int = 0))

/-- What the arguments of a call must satisfy; a call without a buffer is an error. -/
def Collective.Fits (bufBytes : ℤ) (npes myPe : ℕ) : Collective → Prop
  | bcast source count dataType root => bcastFits bufBytes npes myPe source count dataType root
  | allgather (some sendbuf) sendcount sendtype (some recvbuf) recvtype =>
    allgatherFits bufBytes npes myPe sendbuf sendcount sendtype recvbuf recvtype
  | gather (some sendbuf) sendcount sendtype (some recvbuf) recvtype root =>
    gatherFits bufBytes npes myPe sendbuf sendcount sendtype recvbuf recvtype root
  | gatherv (some sendbuf) sendcount sendtype (some recvbuf) recvcount displs recvtype root =>
    gathervFits bufBytes npes myPe sendbuf sendcount sendtype recvbuf recvcount displs recvtype root
  | _ => True

section Exact

variable {npes myPe : ℕ} (hpe : myPe < npes) (hoff : comm.offset = 0)
  (hbuf : comm.bufferPtr = sharedBuffer)

include hpe hoff hbuf

theorem safe_mpiBcast {source : UserBuf} {count : ℤ} {dataType : MpiDatatype} {root : ℕ} :
    Safe bufBytes (mpiBcast npes myPe source count dataType root comm) ↔
      bcastFits bufBytes npes myPe source count dataType root := by
  unfold mpiBcast bcastFits shmemBroadcast64
  dsimp only
  rw [safe_append, safe_stage hbuf, safe_barrier, safe_append, safe_barrier, symRecv_eq hoff hbuf]
  refine and_congr_right fun hcopy => ?_
  split_ifs with hroot
  · subst hroot
    rw [safe_map_put, held_buffer, held_sendAddr hbuf]
    have hothers : ((List.range npes).filter fun pe => decide (pe ≠ myPe)) ≠ [] ↔ 1 < npes := by
      rw [ne_eq, List.filter_eq_nil_iff, not_forall]
      constructor
      · rintro ⟨pe, h⟩
        simp at h
        omega
      · intro h
        refine ⟨if myPe = 0 then 1 else 0, ?_⟩
        split_ifs with h0
        · simp [h0]
          omega
        · simp
          omega
    rw [hothers]
    simp only [safe_nil, and_true]
    exact forall_congr' fun _ => and_iff_left_iff_imp.mpr (inBuffer_of_copied hcopy)
  · unfold copyMyData
    simp

theorem safe_mpiAllgather {sendbuf recvbuf : UserBuf} {sendcount : ℤ}
    {sendtype recvtype : MpiDatatype} :
    Safe bufBytes (mpiAllgather npes myPe (some sendbuf) sendcount sendtype (some recvbuf) recvtype
      comm).1 ↔ allgatherFits bufBytes npes myPe sendbuf sendcount sendtype recvbuf recvtype := by
  unfold mpiAllgather allgatherFits shmemFcollect64
  dsimp only
  have hne : List.range npes ≠ [] := List.ne_nil_of_mem (List.mem_range.mpr hpe)
  rw [safe_append, safe_stage hbuf, safe_barrier, safe_append, safe_barrier, safe_map_put,
    safe_unstage hoff hbuf, held_sendAddr hbuf, held_recvAddr hoff hbuf]
  constructor
  · rintro ⟨hcopy, hputs, hback⟩
    obtain ⟨hdst, hsrc⟩ := hputs hne
    exact ⟨fun h => ⟨hcopy h, hsrc h⟩, fun h => ⟨hdst h, hback h⟩⟩
  · rintro ⟨hsend, hrecv⟩
    exact ⟨fun h => (hsend h).1, fun _ => ⟨fun h => (hrecv h).1, fun h => (hsend h).2⟩,
      fun h => (hrecv h).2⟩

omit hpe in
theorem safe_mpiGather {sendbuf recvbuf : UserBuf} {sendcount : ℤ}
    {sendtype recvtype : MpiDatatype} {root : ℕ} :
    Safe bufBytes (mpiGather npes myPe (some sendbuf) sendcount sendtype (some recvbuf) recvtype
      root comm).1 ↔
      gatherFits bufBytes npes myPe sendbuf sendcount sendtype recvbuf recvtype root := by
  unfold mpiGather gatherFits
  dsimp only
  have hback : Safe bufBytes (if myPe = root then unstage recvbuf
      (symRecv comm sendbuf sendcount sendtype) (wrapInt (sendcount * npes)) recvtype else []) ↔
      (myPe = root → shmemAddrAccessible recvbuf = false →
        InBuffer bufBytes (copied sendbuf (getNumBytes sendcount sendtype))
          (getNumBytes (wrapInt (sendcount * npes)) recvtype)) := by
    split_ifs with hroot
    · rw [safe_unstage hoff hbuf]
      exact ⟨fun h _ => h, fun h => h hroot⟩
    · exact iff_of_true safe_nil fun h => absurd h hroot
  rw [safe_append, safe_stage hbuf, safe_barrier, safe_put, safe_barrier, hback,
    held_sendAddr hbuf, held_recvAddr hoff hbuf]
  constructor
  · rintro ⟨hcopy, ⟨hdst, hsrc⟩, hback⟩
    exact ⟨fun h => ⟨hcopy h, hsrc h⟩, fun h => ⟨hdst h, fun hr => hback hr h⟩⟩
  · rintro ⟨hsend, hrecv⟩
    exact ⟨fun h => (hsend h).1, ⟨fun h => (hrecv h).1, fun h => (hsend h).2⟩,
      fun hr h => (hrecv h).2 hr⟩

end Exact

/-! ## `MPI_Gatherv` -/

section Gatherv

variable {npes myPe root : ℕ} {sendbuf recvbuf : UserBuf} {sendcount : ℤ}
  {sendtype recvtype : MpiDatatype} {recvcount displs : List ℤ} {junk : GathervLocals}

/-- Safe accesses, in terms of the variables as they are after both buffers have been looked at. -/
theorem safe_mpiGatherv {l : GathervLocals}
    (hl : l = (junk.send comm sendbuf sendcount sendtype).recv comm recvbuf) :
    Safe bufBytes (mpiGatherv npes myPe (some sendbuf) sendcount sendtype (some recvbuf) recvcount
      displs recvtype root comm junk).1 ↔
      (shmemAddrAccessible sendbuf = false →
        Held bufBytes l.symSend (getNumBytes sendcount sendtype)) ∧
      (shmemAddrAccessible recvbuf = false → Held bufBytes l.symRecv (getNumBytes
        ((displs.take npes).foldl (fun total d => wrapInt (d + total)) 0) recvtype)) ∧
      (recvcount.getD myPe 0 ≤ sendcount →
        (Held bufBytes ((if l.createSymRecv then l.symRecv else recvbuf.addr) +
            displs.getD myPe 0 * (sendtype.size : ℤ)) (recvcount.getD myPe 0 * sendtype.size) ∧
          Held bufBytes (if l.createSymSend then l.symSend else sendbuf.addr)
            (recvcount.getD myPe 0 * sendtype.size)) ∧
        (myPe = root ∧ l.createSymRecv = true → Held bufBytes l.symRecv (getNumBytes
          ((displs.take npes).foldl (fun total d => wrapInt (d + total)) 0) .int))) := by
  unfold mpiGatherv copyMyData
  dsimp only
  rw [← hl]
  generalize (displs.take npes).foldl (fun total d => wrapInt (d + total)) 0 = total
  have hstage : ∀ (buf : UserBuf) (p : Addr) (n : ℤ), Safe bufBytes
      (if shmemAddrAccessible buf = true then [] else [.copy p buf.addr n, .barrier]) ↔
      (shmemAddrAccessible buf = false → Held bufBytes p n) := by
    intro buf p n
    cases buf with
    | heap => simp [shmemAddrAccessible]
    | process => simp [shmemAddrAccessible]
  have hback : ∀ (P : Prop) [Decidable P] (n : ℤ), Safe bufBytes
      (if P then [.copy recvbuf.addr l.symRecv n] else []) ↔ (P → Held bufBytes l.symRecv n) := by
    intro P _ n
    split_ifs with hP
    · simp [hP]
    · simp [hP]
  by_cases hcount : sendcount < recvcount.getD myPe 0
  · rw [if_pos hcount, safe_append, hstage, hstage]
    refine and_congr_right fun _ => ?_
    exact (and_iff_left fun h => absurd hcount (not_lt.mpr h)).symm
  · rw [if_neg hcount, safe_append, safe_append, hstage, hstage, safe_barrier, safe_put, safe_barrier,
      hback, and_assoc]
    simp only [not_lt.mp hcount, forall_const]

/-- An uninitialised place: nothing there is inside. -/
theorem held_wild {o n : ℤ} (ho : o < 0) : Held bufBytes ⟨.buffer, o⟩ n ↔ n = 0 := by
  rw [held_buffer]
  unfold InBuffer
  omega

theorem held_zero (p : Addr) : Held bufBytes p 0 := fun _ => Or.inl rfl

/-- Variables that name places outside. -/
def wild (o : ℤ) : GathervLocals := ⟨true, true, ⟨.buffer, o⟩, ⟨.buffer, o⟩, some ⟨.buffer, o⟩⟩

instance : Nonempty GathervLocals := ⟨wild 0⟩

section Nothing

variable {start count total : ℤ} {P : Prop}

theorem held_outside (n : ℤ) : Held bufBytes ⟨.buffer, -1 - |start|⟩ n ↔ n = 0 := by
  apply held_wild
  have := abs_nonneg start
  omega

/-- To and from places outside nothing can be moved. -/
theorem nothing_moved
    (hdst : Held bufBytes ((⟨.buffer, -1 - |start|⟩ : Addr) + start) (count * sendtype.size))
    (hback : P → Held bufBytes ⟨.buffer, -1 - |start|⟩ total) : count = 0 ∧ (P → total = 0) := by
  have hout : -1 - |start| + start < 0 := by
    have := le_abs_self start
    omega
  have hzero : count * (sendtype.size : ℤ) = 0 := (held_wild hout).mp hdst
  exact ⟨(mul_eq_zero.mp hzero).resolve_right (size_pos sendtype).ne',
    fun hP => (held_outside _).mp (hback hP)⟩

/-- Nothing can be moved anywhere. -/
theorem held_of_nothing {dst src back : Addr} (h : count = 0 ∧ (P → total = 0)) :
    (Held bufBytes dst (count * sendtype.size) ∧ Held bufBytes src (count * sendtype.size)) ∧
      (P → Held bufBytes back total) := by
  rw [h.1, zero_mul]
  refine ⟨⟨held_zero _, held_zero _⟩, fun hP => ?_⟩
  rw [h.2 hP]
  exact held_zero _

end Nothing

end Gatherv

section Exact

variable {npes myPe : ℕ} (hoff : comm.offset = 0) (hbuf : comm.bufferPtr = sharedBuffer)

include hoff hbuf

theorem safe_mpiGatherv_iff {sendbuf recvbuf : UserBuf} {sendcount : ℤ}
    {sendtype recvtype : MpiDatatype} {recvcount displs : List ℤ} {root : ℕ} :
    (∀ junk, Safe bufBytes (mpiGatherv npes myPe (some sendbuf) sendcount sendtype (some recvbuf)
      recvcount displs recvtype root comm junk).1) ↔
      gathervFits bufBytes npes myPe sendbuf sendcount sendtype recvbuf recvcount displs recvtype
        root := by
  simp only [safe_mpiGatherv rfl]
  unfold gathervFits
  dsimp only
  generalize (displs.take npes).foldl (fun total d => wrapInt (d + total)) 0 = total
  generalize hs : displs.getD myPe 0 * (sendtype.size : ℤ) = start
  generalize recvcount.getD myPe 0 = count
  have hoffset := symRecv_eq hoff hbuf (.process 0) sendcount sendtype
  unfold symRecv copied at hoffset
  simp only [shmemAddrAccessible, Bool.false_eq_true, if_false] at hoffset
  cases sendbuf with
  | process o =>
    cases recvbuf with
    | process o' =>
      have hdst : ∀ m n : ℤ, Held bufBytes ((⟨.buffer, m⟩ : Addr) + start) n ↔
          InBuffer bufBytes (m + start) n := fun _ _ => held_buffer
      simp only [shmemAddrAccessible, GathervLocals.send, GathervLocals.recv, Bool.false_eq_true,
        if_false, if_true, hbuf, sharedBuffer, hoffset, Option.getD_some, held_buffer, forall_const,
        hdst, and_true]
      constructor
      · rintro ⟨hcopy, hrecv, hmoved⟩
        refine ⟨hcopy, hrecv, fun hle => ?_⟩
        obtain ⟨⟨hdst, hsrc⟩, hback⟩ := hmoved hle
        exact ⟨hsrc, hdst, hback⟩
      · rintro ⟨hcopy, hrecv, hmoved⟩
        refine ⟨hcopy, hrecv, fun hle => ?_⟩
        obtain ⟨hsrc, hdst, hback⟩ := hmoved hle
        exact ⟨⟨hdst, hsrc⟩, hback⟩
    | heap o' =>
      simp only [shmemAddrAccessible, GathervLocals.send, GathervLocals.recv, Bool.false_eq_true,
        if_false, if_true, hbuf, sharedBuffer, held_buffer, forall_const, Bool.true_eq_false,
        IsEmpty.forall_iff, and_imp, true_and, and_false]
      constructor
      · intro h
        refine ⟨(h (wild 0)).1, fun hle => ?_⟩
        obtain ⟨⟨hdst, -⟩, hback⟩ := (h (wild (-1 - |start|))).2 hle
        exact nothing_moved hdst fun hr => hback hr rfl
      · rintro ⟨hcopy, hmoved⟩ junk
        refine ⟨hcopy, fun hle => ?_⟩
        obtain ⟨⟨hdst, hsrc⟩, hback⟩ := held_of_nothing (hmoved hle)
        exact ⟨⟨hdst, held_buffer.mp hsrc⟩, fun hr _ => hback hr⟩
  | heap o =>
    cases recvbuf with
    | process o' =>
      simp only [shmemAddrAccessible, GathervLocals.send, GathervLocals.recv, Bool.false_eq_true,
        if_false, if_true, hbuf, sharedBuffer, forall_const, Bool.true_eq_false,
        IsEmpty.forall_iff, and_true, true_and]
      constructor
      · intro h
        obtain ⟨hcopy, hrest⟩ := h (wild (-1 - |start|))
        refine ⟨(held_outside _).mp hcopy, fun hle => ?_⟩
        obtain ⟨⟨hdst, -⟩, hback⟩ := hrest hle
        exact nothing_moved hdst hback
      · rintro ⟨hcopy, hmoved⟩ junk
        rw [hcopy]
        exact ⟨held_zero _, fun hle => held_of_nothing (hmoved hle)⟩
    | heap o' =>
      simp only [shmemAddrAccessible, GathervLocals.send, GathervLocals.recv, if_true,
        Bool.true_eq_false, IsEmpty.forall_iff, and_imp, true_and, and_self]
      constructor
      · intro h hle
        obtain ⟨⟨hdst, -⟩, hback⟩ := h (wild (-1 - |start|)) hle
        exact nothing_moved hdst fun hr => hback hr rfl
      · intro hmoved junk hle
        obtain ⟨hheld, hback⟩ := held_of_nothing (hmoved hle)
        exact ⟨hheld, fun hr _ => hback hr⟩

end Exact

/-! ## Main result -/

/-- In a buffer of any size, the collectives keep inside exactly when what they need fits there: they
do not check it. -/
theorem collective_safe_iff (bufBytes : ℤ) (npes myPe : ℕ) (hpe : myPe < npes) (comm : MpidComm)
    (hoff : comm.offset = 0) (hbuf : comm.bufferPtr = sharedBuffer) (call : Collective) :
    (∀ junk, Safe bufBytes (call.ops npes myPe comm junk)) ↔ call.Fits bufBytes npes myPe := by
  cases call with
  | bcast source count dataType root => exact (forall_const _).trans (safe_mpiBcast hpe hoff hbuf)
  | allgather sendbuf sendcount sendtype recvbuf recvtype =>
    rcases sendbuf with _ | sendbuf
    · exact iff_of_true (fun _ => safe_nil) trivial
    rcases recvbuf with _ | recvbuf
    · exact iff_of_true (fun _ => safe_nil) trivial
    exact (forall_const _).trans (safe_mpiAllgather hpe hoff hbuf)
  | gather sendbuf sendcount sendtype recvbuf recvtype root =>
    rcases sendbuf with _ | sendbuf
    · exact iff_of_true (fun _ => safe_nil) trivial
    rcases recvbuf with _ | recvbuf
    · exact iff_of_true (fun _ => safe_nil) trivial
    exact (forall_const _).trans (safe_mpiGather hoff hbuf)
  | gatherv sendbuf sendcount sendtype recvbuf recvcount displs recvtype root =>
    rcases sendbuf with _ | sendbuf
    · exact iff_of_true (fun _ => safe_nil) trivial
    rcases recvbuf with _ | recvbuf
    · exact iff_of_true (fun _ => safe_nil) trivial
    exact safe_mpiGatherv_iff hoff hbuf

/-- On a duplicated communicator of 3 PEs, the last block of 60000 bytes is put past the end of the
buffer; the call returns success. -/
theorem gather_overruns :
    let comm := mpiCommDup (mpiInit 3 2 ⟨.heap, 0⟩ ⟨.heap, 0⟩) 2 freshComm
    comm.offset = 0 ∧
      (mpiGather 3 2 (some (.process 0)) 60000 .byte (some (.process 60000)) .byte 0 comm).2 =
        .success ∧
      ¬ Safe maxBufferSize ((Collective.gather (some (.process 0)) 60000 .byte
        (some (.process 60000)) .byte 0).ops 3 2 comm (wild 0)) := by
  decide +kernel

/-- Blocks of 40000 bytes fit. -/
theorem gather_fits :
    let comm := mpiCommDup (mpiInit 3 2 ⟨.heap, 0⟩ ⟨.heap, 0⟩) 2 freshComm
    ∀ junk, Safe maxBufferSize ((Collective.gather (some (.process 0)) 40000 .byte
      (some (.process 40000)) .byte 0).ops 3 2 comm junk) := by
  intro comm
  refine (collective_safe_iff maxBufferSize 3 2 (by decide) comm rfl rfl _).mpr ?_
  unfold Collective.Fits gatherFits InBuffer
  decide +kernel

end MpiToShmem.Shmem
