import MpiToShmem.Kit.Undisturbed
import MpiToShmem.Shmem.Collectives

/-!
# What the nonblocking calls deliver

`MPI_Isend` puts a message into the buffer of its destination. `MPI_Irecv` gets what it returns from
the buffer of its source, where the messages to the source are.

1. `Matched`: what is sent is received, whatever the others do.
2. `received_self`: what a PE receives from itself.
3. `not_received`: what it does not receive from another.
4. `matched_iff`: only messages of a PE to itself are matched.
-/

namespace MpiToShmem.Shmem

open Kit OneSided

/-- The arguments of the two calls. -/
structure Message where
  sendbuf : UserBuf
  recvbuf : UserBuf
  count : ℤ
  datatype : MpiDatatype
deriving DecidableEq

namespace Message

def bytes (m : Message) : ℤ := m.count * m.datatype.size

def isend (m : Message) (dest : ℕ) (comm : MpidComm) : List (Op Region) :=
  mpiIsend m.sendbuf m.count m.datatype dest comm

def irecv (m : Message) (source : ℕ) (comm : MpidComm) : List (Op Region) :=
  mpiIrecv m.recvbuf m.count m.datatype source comm

/-- There is room for the data, for the `int` that `MPI_Irecv` compares, and for the copy of a
buffer that is not symmetric. -/
def Fits (bufBytes : ℤ) (m : Message) : Prop :=
  m.bytes ≤ bufBytes ∧ 4 * m.count ≤ bufBytes ∧
    (shmemAddrAccessible m.sendbuf = false → m.bytes ≤ intMax ∧ 2 * m.bytes ≤ bufBytes)

end Message

/-! ## Delivery -/

/-- The source calls `MPI_Isend`. The others may put what they like to everyone but the
destination. -/
structure Sending (source dest : ℕ) (m : Message) (comm : MpidComm) (w : OneSided.World Region) :
    Prop where
  sender : w.prog source = m.isend dest comm
  waiting : dest ≠ source → w.prog dest = []
  others : ∀ pe, pe ≠ source → pe ≠ dest → ∀ op ∈ w.prog pe, op.Spares dest
  flight : ∀ p ∈ w.flight, p.pe ≠ dest

/-- The call has returned and its put has landed. -/
def Delivered (source dest : ℕ) (w : OneSided.World Region) : Prop :=
  w.prog source = [] ∧ ∀ p ∈ w.flight, p.pe ≠ dest

/-- `pe` makes a call. -/
def calls (w : OneSided.World Region) (pe : ℕ) (ops : List (Op Region)) : OneSided.World Region :=
  { w with prog := Function.update w.prog pe ops }

section CallsProg

variable {w : OneSided.World Region} {pe i : ℕ} {ops : List (Op Region)}

theorem calls_prog_self : (calls w pe ops).prog pe = ops := Function.update_self _ _ _

theorem calls_prog_of_ne (h : i ≠ pe) : (calls w pe ops).prog i = w.prog i :=
  Function.update_of_ne h _ _

end CallsProg

/-- Both calls access what is there only, and whenever the destination receives the message after it
has been delivered, its buffer holds what the source has sent. -/
structure Matched (npes : ℕ) (bufBytes : ℤ) (source dest : ℕ) (m : Message)
    (commSource commDest : MpidComm) : Prop where
  sends : ∀ op ∈ m.isend dest commSource, op.Ok (shmem npes bufBytes)
  receives : ∀ op ∈ m.irecv source commDest, op.Ok (shmem npes bufBytes)
  received : ∀ w, Sending source dest m commSource w →
    ∀ ls w₁, exec (OneSided.step (shmem npes bufBytes)) w ls = some w₁ → Delivered source dest w₁ →
    ∀ ls' w₂, exec (OneSided.step (shmem npes bufBytes))
      (calls w₁ dest (m.irecv source commDest)) ls' = some w₂ → w₂.prog dest = [] →
    read (w₂.mem dest) m.recvbuf.addr m.bytes = read (w.mem source) m.sendbuf.addr m.bytes

/-! ## The calls as operations -/

variable {npes : ℕ} {bufBytes : ℤ} {source dest : ℕ} {m : Message} {comm commDest : MpidComm}

theorem Message.bytes_pos (h : 1 ≤ m.count) : 0 < m.bytes :=
  Int.mul_pos (by omega) (size_pos m.datatype)

section Calls

variable (hoff : comm.offset = 0) (hbuf : comm.bufferPtr = sharedBuffer) (hcount : 1 ≤ m.count)

/-- The bytes of the copy, as the code computes them. -/
def Message.copyBytes (m : Message) : ℤ := getNumBytes m.count m.datatype

/-- Where the put takes the data. -/
def Message.origin (m : Message) : Addr :=
  if shmemAddrAccessible m.sendbuf then m.sendbuf.addr else ⟨.buffer, m.copyBytes⟩

/-- What precedes the put. -/
def Message.copies (m : Message) : List (Op Region) :=
  (if shmemAddrAccessible m.sendbuf then []
    else [.copy ⟨.buffer, m.copyBytes⟩ m.sendbuf.addr m.copyBytes]) ++
    [.copy expected (lastInt m.sendbuf.addr m.count) 4]

include hbuf in
theorem irecv_eq : m.irecv source comm =
    [.get source m.recvbuf.addr sharedBuffer m.bytes,
      .get source expected (lastInt sharedBuffer m.count) 4] := by
  unfold Message.irecv mpiIrecv
  rw [hbuf]
  rfl

include hoff hbuf

theorem isend_eq : m.isend dest comm = m.copies ++ [.put dest sharedBuffer m.origin m.bytes] := by
  have hsym : getBufferOffset m.count m.datatype comm = ⟨.buffer, m.copyBytes⟩ := by
    unfold getBufferOffset
    rw [hbuf, hoff, zero_add, wrapInt_of_isInt (isInt_getNumBytes _ _)]
    show Ptr.mk _ _ = _
    rw [sharedBuffer, zero_add]
    rfl
  unfold Message.isend mpiIsend Message.copies Message.origin copyMyData
  dsimp only
  rw [hsym, hbuf, List.append_assoc]
  rfl

end Calls

/-! ## What the calls need -/

theorem lastInt_eq (count : ℤ) : lastInt sharedBuffer count = ⟨.buffer, 4 * (count - 1)⟩ := by
  show Ptr.mk _ _ = _
  rw [sharedBuffer, zero_add]

theorem ok_irecv (hbuf : comm.bufferPtr = sharedBuffer) (hcount : 1 ≤ m.count) :
    (∀ op ∈ m.irecv source comm, op.Ok (shmem npes bufBytes)) ↔
      source < npes ∧ m.bytes ≤ bufBytes ∧ 4 * m.count ≤ bufBytes := by
  have hpos := Message.bytes_pos hcount
  rw [irecv_eq hbuf, List.forall_mem_cons, List.forall_mem_singleton, lastInt_eq]
  show (source < npes ∧ _ ∧ _) ∧ (source < npes ∧ _ ∧ _) ↔ _
  rw [sharedBuffer, inside_buffer hpos.ne', inside_buffer (by decide)]
  constructor
  · rintro ⟨⟨hs, -, h⟩, -, -, h'⟩
    exact ⟨hs, by omega, by omega⟩
  · rintro ⟨hs, h, h'⟩
    exact ⟨⟨hs, inside_of_ne_buffer (addr_region_ne_buffer _) hpos.le, hpos.le, le_rfl, by omega⟩,
      hs, inside_of_ne_buffer nofun (by decide), by omega, by omega, by omega⟩

theorem ok_isend (hoff : comm.offset = 0) (hbuf : comm.bufferPtr = sharedBuffer)
    (hcount : 1 ≤ m.count) :
    (∀ op ∈ m.isend dest comm, op.Ok (shmem npes bufBytes)) ↔
      dest < npes ∧ m.bytes ≤ bufBytes ∧ (shmemAddrAccessible m.sendbuf = false →
        0 ≤ m.copyBytes ∧ 2 * m.copyBytes ≤ bufBytes ∧ m.copyBytes + m.bytes ≤ bufBytes) := by
  have hpos := Message.bytes_pos hcount
  rw [isend_eq hoff hbuf, List.forall_mem_append, List.forall_mem_singleton]
  have hput : Op.Ok (shmem npes bufBytes) (.put dest sharedBuffer m.origin m.bytes) ↔
      dest < npes ∧ m.bytes ≤ bufBytes ∧ (shmem npes bufBytes).Inside m.origin m.bytes := by
    show dest < npes ∧ _ ∧ _ ↔ _
    rw [sharedBuffer, inside_buffer hpos.ne', zero_add]
    exact ⟨fun ⟨hd, ⟨_, _, h⟩, h'⟩ => ⟨hd, h, h'⟩, fun ⟨hd, h, h'⟩ => ⟨hd, ⟨hpos.le, le_rfl, h⟩, h'⟩⟩
  have hlast : Op.Ok (shmem npes bufBytes) (.copy expected (lastInt m.sendbuf.addr m.count) 4) :=
    ⟨inside_of_ne_buffer nofun (by decide),
      inside_of_ne_buffer (addr_region_ne_buffer m.sendbuf) (by decide)⟩
  rw [hput]
  unfold Message.copies Message.origin
  cases hacc : shmemAddrAccessible m.sendbuf with
  | true =>
    simp only [if_true, List.nil_append, List.forall_mem_singleton, hlast, true_and,
      inside_of_ne_buffer (addr_region_ne_buffer m.sendbuf) hpos.le, Bool.true_eq_false,
      IsEmpty.forall_iff, and_true]
  | false =>
    simp only [Bool.false_eq_true, if_false, List.singleton_append, List.forall_mem_cons,
      hlast, and_true, inside_buffer hpos.ne', forall_const, List.not_mem_nil, IsEmpty.forall_iff,
      implies_true]
    have hcopy : Op.Ok (shmem npes bufBytes)
        (.copy ⟨.buffer, m.copyBytes⟩ m.sendbuf.addr m.copyBytes) ↔
        m.copyBytes = 0 ∨ 0 ≤ m.copyBytes ∧ 2 * m.copyBytes ≤ bufBytes := by
      show _ ∧ _ ↔ _
      by_cases hz : m.copyBytes = 0
      · rw [hz]
        exact iff_of_true ⟨Or.inl rfl, Or.inl rfl⟩ (Or.inl rfl)
      · rw [inside_buffer hz]
        constructor
        · rintro ⟨⟨h, -, h'⟩, -⟩
          exact Or.inr ⟨h, by omega⟩
        · intro h
          obtain ⟨h, h'⟩ := h.resolve_left hz
          exact ⟨⟨h, h, by omega⟩, inside_of_ne_buffer (addr_region_ne_buffer _) h⟩
    rw [hcopy]
    constructor
    · rintro ⟨h, hd, hb, -, hn, hnb⟩
      exact ⟨hd, hb, hn, by omega, hnb⟩
    · rintro ⟨hd, hb, hn, h, hnb⟩
      exact ⟨Or.inr ⟨hn, h⟩, hd, hb, hpos.le, hn, hnb⟩

/-! ## A message to itself -/

theorem solo_copies (mem : Mem Region) (i : ℤ) :
    solo mem m.copies (m.origin + i) =
      if shmemAddrAccessible m.sendbuf then mem (m.sendbuf.addr + i)
      else write mem ⟨.buffer, m.copyBytes⟩ (read mem m.sendbuf.addr m.copyBytes)
        ((⟨.buffer, m.copyBytes⟩ : Addr) + i) := by
  unfold Message.copies Message.origin
  split_ifs with hacc
  · exact write_of_region_ne (addr_region_ne_request m.sendbuf)
  · have hne : ((⟨.buffer, m.copyBytes⟩ : Addr) + i).region ≠ expected.region := by
      intro heq
      cases heq
    rw [List.singleton_append, solo, solo, solo, write_of_region_ne hne]

/-- What a PE gets from itself is what its put took. -/
theorem received_self {pe : ℕ} (hpe : pe < npes) (hoff : comm.offset = 0)
    (hbuf : comm.bufferPtr = sharedBuffer) (hbuf' : commDest.bufferPtr = sharedBuffer)
    {w w₁ w₂ : OneSided.World Region} {ls ls' : List OneSided.Label}
    (hw : Sending pe pe m comm w)
    (hexec : exec (OneSided.step (shmem npes bufBytes)) w ls = some w₁)
    (hdone : Delivered pe pe w₁)
    (hexec' : exec (OneSided.step (shmem npes bufBytes)) (calls w₁ pe (m.irecv pe commDest)) ls' =
      some w₂) (hdone' : w₂.prog pe = []) {i : ℕ} (hi : (i : ℤ) < m.bytes) :
    w₂.mem pe (m.recvbuf.addr + (i : ℤ)) = solo (w.mem pe) m.copies (m.origin + (i : ℤ)) := by
  have hcopies : ∀ op ∈ m.copies, op.Solo pe := by
    intro op hop
    unfold Message.copies at hop
    split_ifs at hop
    · rw [List.mem_singleton.mp hop]
      trivial
    · rcases List.mem_cons.mp hop with rfl | hop
      · trivial
      · rw [List.mem_singleton.mp hop]
        trivial
  obtain ⟨hothers, hmem⟩ := mem_of_own_put hpe (fun j hj => hw.others j hj hj)
    (toward_eq_nil.mpr hw.flight) (hw.sender.trans (isend_eq hoff hbuf)) hcopies hexec hdone.1
    (toward_eq_nil.mpr hdone.2)
  have hown : ∀ op ∈ m.irecv pe commDest, op.Solo pe := by
    rw [irecv_eq hbuf', List.forall_mem_cons, List.forall_mem_singleton]
    exact ⟨rfl, rfl⟩
  have hgets := mem_of_solo (w := calls w₁ pe (m.irecv pe commDest)) hpe (fun j hj => by
      rw [calls_prog_of_ne hj]
      exact hothers j hj) (toward_eq_nil.mpr hdone.2) calls_prog_self hown hexec' hdone'
  rw [hgets, irecv_eq hbuf']
  show write _ expected _ _ = _
  rw [write_of_region_ne (addr_region_ne_request m.recvbuf)]
  show write (w₁.mem pe) m.recvbuf.addr (read (w₁.mem pe) sharedBuffer m.bytes) _ = _
  rw [write_read _ _ _ hi, hmem, write_read _ _ _ hi]

/-! ## A message to another -/

/-- Memory of ones, but for the start of the source's buffer and the start of what is received. -/
def onesBut (source dest : ℕ) (m : Message) (pe : ℕ) : Mem Region := fun q =>
  if pe = source ∧ q = sharedBuffer ∨ pe = dest ∧ q = m.recvbuf.addr then 0 else 1

/-- Nothing is under way. -/
def idle (mem : ℕ → Mem Region) : OneSided.World Region := ⟨mem, fun _ => [], [], fun _ _ => false⟩

theorem sending_idle (mem : ℕ → Mem Region) :
    Sending source dest m comm (calls (idle mem) source (m.isend dest comm)) where
  sender := calls_prog_self
  waiting h := calls_prog_of_ne h
  others pe h _ op hop := by
    rw [calls_prog_of_ne h] at hop
    cases hop
  flight p hp := absurd hp List.not_mem_nil

/-- A call that accesses what is there, and does not wait, can be run to its end. -/
theorem exists_run_calls {w : OneSided.World Region} (hw : w.Done) {pe : ℕ} (hpe : pe < npes)
    {ops : List (Op Region)} (hok : ∀ op ∈ ops, op.Ok (shmem npes bufBytes))
    (hlocal : ∀ op ∈ ops, op.isAwait = false ∧ op.isBarrier = false) :
    ∃ ls w', exec (OneSided.step (shmem npes bufBytes)) (calls w pe ops) ls = some w' ∧
      w'.Done := by
  have hprog : ∀ i, i ≠ pe → (calls w pe ops).prog i = [] := fun i hi =>
    (calls_prog_of_ne hi).trans (hw.1 i)
  apply exists_run_done (b := 0)
  constructor
  · intro i op hop
    by_cases hi : i = pe
    · subst hi
      rw [calls_prog_self] at hop
      exact ⟨hok op hop, (hlocal op hop).1⟩
    · rw [hprog i hi] at hop
      cases hop
  · intro i _
    by_cases hi : i = pe
    · subst hi
      rw [calls_prog_self, List.countP_eq_zero]
      intro op hop
      rw [(hlocal op hop).2]
      exact Bool.false_ne_true
    · rw [hprog i hi, List.countP_nil]
  · intro i hi
    exact hprog i (by show i ≠ pe; exact fun h => absurd hpe (not_lt.mpr (h ▸ hi)))

theorem isend_local (hoff : comm.offset = 0) (hbuf : comm.bufferPtr = sharedBuffer) :
    ∀ op ∈ m.isend dest comm, op.isAwait = false ∧ op.isBarrier = false := by
  rw [isend_eq hoff hbuf, List.forall_mem_append, List.forall_mem_singleton]
  unfold Message.copies
  refine ⟨?_, rfl, rfl⟩
  split_ifs
  · exact List.forall_mem_singleton.mpr ⟨rfl, rfl⟩
  · exact List.forall_mem_cons.mpr ⟨⟨rfl, rfl⟩, List.forall_mem_singleton.mpr ⟨rfl, rfl⟩⟩

theorem irecv_local (hbuf : comm.bufferPtr = sharedBuffer) :
    ∀ op ∈ m.irecv source comm, op.isAwait = false ∧ op.isBarrier = false := by
  rw [irecv_eq hbuf, List.forall_mem_cons, List.forall_mem_singleton]
  exact ⟨⟨rfl, rfl⟩, rfl, rfl⟩

/-- From any memory the message can be sent and received. -/
theorem exists_run_message (hoff : comm.offset = 0) (hbuf : comm.bufferPtr = sharedBuffer)
    (hbuf' : commDest.bufferPtr = sharedBuffer) (hsource : source < npes) (hdest : dest < npes)
    (hs : ∀ op ∈ m.isend dest comm, op.Ok (shmem npes bufBytes))
    (hr : ∀ op ∈ m.irecv source commDest, op.Ok (shmem npes bufBytes)) (mem : ℕ → Mem Region) :
    ∃ ls w₁ ls' w₂,
      exec (OneSided.step (shmem npes bufBytes)) (calls (idle mem) source (m.isend dest comm)) ls =
        some w₁ ∧ w₁.Done ∧
      exec (OneSided.step (shmem npes bufBytes)) (calls w₁ dest (m.irecv source commDest)) ls' =
        some w₂ ∧ w₂.Done := by
  have hidle : (idle mem).Done := ⟨fun _ => rfl, rfl⟩
  obtain ⟨ls, w₁, hexec, hdone⟩ := exists_run_calls hidle hsource hs (isend_local hoff hbuf)
  obtain ⟨ls', w₂, hexec', hdone'⟩ := exists_run_calls hdone hdest hr (irecv_local hbuf')
  exact ⟨ls, w₁, ls', w₂, hexec, hdone, hexec', hdone'⟩

theorem delivered_of_done {w : OneSided.World Region} (h : w.Done) : Delivered source dest w :=
  ⟨h.1 source, fun _ hp => absurd (h.2 ▸ hp) List.not_mem_nil⟩

/-- Outside the start of the source's buffer and of what is received. -/
def Elsewhere (source dest : ℕ) (m : Message) (pe : ℕ) (q : Addr) : Prop :=
  ¬ (pe = source ∧ q = sharedBuffer) ∧ ¬ (pe = dest ∧ q = m.recvbuf.addr)

/-- Nothing gets from the source's buffer to the destination's. -/
theorem spreads_isend (hoff : comm.offset = 0) (hbuf : comm.bufferPtr = sharedBuffer)
    (hne : source ≠ dest) :
    ∀ op ∈ m.isend dest comm, Spreads (Elsewhere source dest m) source op := by
  have hlast : Spreads (Elsewhere source dest m) source
      (.copy expected (lastInt m.sendbuf.addr m.count) 4) := by
    intro i _ _
    exact ⟨fun h => absurd h.2 nofun, fun h => hne h.1⟩
  rw [isend_eq hoff hbuf, List.forall_mem_append, List.forall_mem_singleton]
  constructor
  · unfold Message.copies
    split_ifs
    · exact List.forall_mem_singleton.mpr hlast
    · refine List.forall_mem_cons.mpr ⟨fun i hi _ => ⟨fun h => ?_, fun h => hne h.1⟩,
        List.forall_mem_singleton.mpr hlast⟩
      have hoffset : m.copyBytes + (i : ℤ) = 0 := congrArg Ptr.offset h.2
      omega
  · intro i _ _
    refine ⟨fun h => hne h.1.symm, fun h => ?_⟩
    exact addr_region_ne_buffer m.recvbuf (congrArg Ptr.region h.2).symm

theorem spreads_irecv (hbuf : comm.bufferPtr = sharedBuffer) (hne : source ≠ dest) :
    ∀ op ∈ m.irecv source comm, Spreads (Elsewhere source dest m) dest op := by
  rw [irecv_eq hbuf, List.forall_mem_cons, List.forall_mem_singleton]
  constructor
  · intro i _ hsrc
    refine ⟨fun h => hne h.1.symm, fun h => ?_⟩
    have hi : m.recvbuf.addr.offset + (i : ℤ) = m.recvbuf.addr.offset := congrArg Ptr.offset h.2
    obtain rfl : i = 0 := by omega
    exact hsrc.1 ⟨rfl, rfl⟩
  · intro i _ _
    refine ⟨fun h => hne h.1.symm, fun h => ?_⟩
    exact addr_region_ne_request m.recvbuf (congrArg Ptr.region h.2).symm

/-- Ones that the source sends do not come out of its own buffer, where there was a zero. -/
theorem not_matched_of_ne (hoff : comm.offset = 0) (hbuf : comm.bufferPtr = sharedBuffer)
    (hbuf' : commDest.bufferPtr = sharedBuffer) (hsource : source < npes) (hdest : dest < npes)
    (hcount : 1 ≤ m.count) (hne : source ≠ dest) :
    ¬ Matched npes bufBytes source dest m comm commDest := by
  intro h
  obtain ⟨ls, w₁, ls', w₂, hexec, hdone, hexec', hdone'⟩ :=
    exists_run_message hoff hbuf hbuf' hsource hdest h.sends h.receives (onesBut source dest m)
  have hread := h.received _ (sending_idle _) ls w₁ hexec (delivered_of_done hdone) ls' w₂ hexec'
    (hdone'.1 dest)
  have hzero : ZeroOutside (Elsewhere source dest m)
      (calls (idle (onesBut source dest m)) source (m.isend dest comm)) := by
    refine ⟨fun pe q hq => ?_, fun _ hp => absurd hp List.not_mem_nil, fun pe op hop => ?_⟩
    · apply if_pos
      unfold Elsewhere at hq
      tauto
    · by_cases hpe : pe = source
      · subst hpe
        rw [calls_prog_self] at hop
        exact spreads_isend hoff hbuf hne op hop
      · rw [calls_prog_of_ne hpe] at hop
        cases hop
  have hzero₁ := exec_inv zeroOutside_step hzero hexec
  have hzero₂ : ZeroOutside (Elsewhere source dest m)
      (calls w₁ dest (m.irecv source commDest)) := by
    refine ⟨hzero₁.mem, hzero₁.flight, fun pe op hop => ?_⟩
    by_cases hpe : pe = dest
    · subst hpe
      rw [calls_prog_self] at hop
      exact spreads_irecv hbuf' hne op hop
    · rw [calls_prog_of_ne hpe, hdone.1] at hop
      cases hop
  have hpos : 0 < m.bytes := Message.bytes_pos hcount
  have hfirst : w₂.mem dest (m.recvbuf.addr + ((0 : ℕ) : ℤ)) =
      onesBut source dest m source (m.sendbuf.addr + ((0 : ℕ) : ℤ)) :=
    read_eq_read.mp hread 0 hpos
  have hthere : w₂.mem dest (m.recvbuf.addr + ((0 : ℕ) : ℤ)) = 0 :=
    (exec_inv zeroOutside_step hzero₂ hexec').mem dest _ fun h => h.2 ⟨rfl, by
      show Ptr.mk _ _ = _
      rw [Nat.cast_zero, add_zero]⟩
  have hsent : onesBut source dest m source (m.sendbuf.addr + ((0 : ℕ) : ℤ)) = 1 := by
    apply if_neg
    rintro (⟨-, h⟩ | ⟨h, -⟩)
    · exact addr_region_ne_buffer m.sendbuf (congrArg Ptr.region h)
    · exact hne h
  rw [hthere, hsent] at hfirst
  exact absurd hfirst (by decide)

/-! ## Main result -/

theorem copyBytes_eq (hcount : 1 ≤ m.count) (h : m.bytes ≤ intMax) : m.copyBytes = m.bytes :=
  getNumBytes_of_le (by omega) h

/-- A message that is too large for an `int` is cut off in its copy. -/
theorem bytes_le_intMax {pe : ℕ} (hpe : pe < npes) (hoff : comm.offset = 0)
    (hbuf : comm.bufferPtr = sharedBuffer) (hbuf' : commDest.bufferPtr = sharedBuffer)
    (hcount : 1 ≤ m.count) (hacc : shmemAddrAccessible m.sendbuf = false)
    (h : Matched npes bufBytes pe pe m comm commDest) : m.bytes ≤ intMax := by
  by_contra hlarge
  obtain ⟨-, -, hok⟩ := (ok_isend hoff hbuf hcount).mp h.sends
  have hcopy := (hok hacc).1
  have hlt : m.copyBytes < m.bytes := by
    have := (isInt_getNumBytes m.count m.datatype).2
    unfold Message.copyBytes
    omega
  let mem : ℕ → Mem Region := fun _ q => if q.region = .buffer then 0 else 1
  obtain ⟨ls, w₁, ls', w₂, hexec, hdone, hexec', hdone'⟩ :=
    exists_run_message hoff hbuf hbuf' hpe hpe h.sends h.receives mem
  have hread := h.received _ (sending_idle _) ls w₁ hexec (delivered_of_done hdone) ls' w₂ hexec'
    (hdone'.1 pe)
  have hi : (m.copyBytes.toNat : ℤ) < m.bytes := by omega
  have hbyte := (received_self hpe hoff hbuf hbuf' (sending_idle _) hexec (delivered_of_done hdone)
    hexec' (hdone'.1 pe) hi).symm.trans (read_eq_read.mp hread m.copyBytes.toNat hi)
  rw [solo_copies, hacc, if_neg Bool.false_ne_true, write_of_not_covers] at hbyte
  · have hsent : mem pe (m.sendbuf.addr + (m.copyBytes.toNat : ℤ)) = 1 :=
      if_neg (addr_region_ne_buffer m.sendbuf)
    have hold : mem pe ((⟨.buffer, m.copyBytes⟩ : Addr) + (m.copyBytes.toNat : ℤ)) = 0 := if_pos rfl
    exact absurd (hold.symm.trans (hbyte.trans hsent)) (by decide)
  · rintro ⟨-, -, hc⟩
    rw [length_read] at hc
    exact lt_irrefl _ hc

/-- Only messages of a PE to itself are matched, and only those that fit. -/
theorem matched_iff (npes : ℕ) (bufBytes : ℤ) (source dest : ℕ) (hsource : source < npes)
    (hdest : dest < npes) (m : Message) (hcount : 1 ≤ m.count) (packed scratch : Addr) :
    Matched npes bufBytes source dest m (mpiInit npes source packed scratch)
      (mpiInit npes dest packed scratch) ↔ source = dest ∧ m.Fits bufBytes := by
  have hpos := Message.bytes_pos hcount
  constructor
  · intro h
    by_cases hne : source = dest
    · subst hne
      obtain ⟨-, hb, hok⟩ := (ok_isend rfl rfl hcount).mp h.sends
      obtain ⟨-, -, hlast⟩ := (ok_irecv rfl hcount).mp h.receives
      refine ⟨rfl, hb, hlast, fun hacc => ?_⟩
      have hint := bytes_le_intMax hsource rfl rfl rfl hcount hacc h
      have := (hok hacc).2.1
      rw [copyBytes_eq hcount hint] at this
      exact ⟨hint, this⟩
    · exact absurd h (not_matched_of_ne rfl rfl rfl hsource hdest hcount hne)
  · rintro ⟨rfl, hb, hlast, hpriv⟩
    refine ⟨(ok_isend rfl rfl hcount).mpr ⟨hdest, hb, fun hacc => ?_⟩,
      (ok_irecv rfl hcount).mpr ⟨hsource, hb, hlast⟩, ?_⟩
    · obtain ⟨hint, h2⟩ := hpriv hacc
      rw [copyBytes_eq hcount hint]
      omega
    · intro w hw ls w₁ hexec hdone ls' w₂ hexec' hdone'
      apply read_eq_read.mpr
      intro i hi
      rw [received_self hsource rfl rfl rfl hw hexec hdone hexec' hdone' hi, solo_copies]
      split_ifs with hacc
      · rfl
      · apply write_read
        rwa [copyBytes_eq hcount (hpriv (Bool.eq_false_iff.mpr hacc)).1]

/-- PE 1 does not receive the 4 bytes that PE 0 has sent, although there is room for them. -/
theorem not_matched_two_pes :
    let m : Message := ⟨.process 0, .process 0, 1, .int⟩
    let comm := fun pe => mpiInit 2 pe ⟨.heap, 0⟩ ⟨.heap, 0⟩
    (∀ op ∈ m.isend 1 (comm 0), op.Ok (shmem 2 1200000)) ∧
      (∀ op ∈ m.irecv 0 (comm 1), op.Ok (shmem 2 1200000)) ∧
      ¬ Matched 2 1200000 0 1 m (comm 0) (comm 1) := by
  refine ⟨by decide, by decide, ?_⟩
  exact not_matched_of_ne rfl rfl rfl (by decide) (by decide) (by decide) (by decide)

theorem matched_one_pe :
    Matched 2 1200000 1 1 ⟨.process 0, .process 0, 1, .int⟩
      (mpiInit 2 1 ⟨.heap, 0⟩ ⟨.heap, 0⟩) (mpiInit 2 1 ⟨.heap, 0⟩ ⟨.heap, 0⟩) :=
  (matched_iff 2 1200000 1 1 (by decide) (by decide) ⟨.process 0, .process 0, 1, .int⟩ (by decide)
    ⟨.heap, 0⟩ ⟨.heap, 0⟩).mpr ⟨rfl, by unfold Message.Fits Message.bytes; decide⟩

end MpiToShmem.Shmem
