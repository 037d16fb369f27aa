import MpiToShmem.Kit.OwnPuts
import MpiToShmem.Shmem.Positions

/-!
# What `MPI_Pack` appends

Calls that pack into one output buffer, one after the other. The data is put to the PE whose number
is the rank of the caller: at the position of the output buffer, or of the communicator's buffer if
the output buffer is not symmetric. In that case the call copies to the beginning of the output buffer
what it finds at the beginning of the communicator's.

1. `Appends`: the output buffer has the data of all calls, and no other byte of it has changed.
2. `Packable`: the PE puts to itself, and what goes through the communicator's buffer goes through
   its beginning, after a put to itself that is complete.
3. `appends_iff`: the data is appended exactly then.
-/

namespace MpiToShmem.Shmem

open Kit OneSided

/-! ## The calls -/

/-- What changes from call to call. -/
structure PackCall where
  inbuf : UserBuf
  incount : ℤ
  datatype : MpiDatatype

/-- What all the calls have in common. -/
structure PackArgs where
  outbuf : UserBuf
  outsize : ℤ
  comm : MpidComm

def PackCall.bytes (c : PackCall) : ℤ := c.incount * c.datatype.size

def PackArgs.call (a : PackArgs) (position : ℤ) (c : PackCall) : List (Op Region) × MpiRet × ℤ :=
  mpiPack c.inbuf c.incount c.datatype a.outbuf a.outsize position a.comm

/-- The data of all the calls. -/
def packedBytes (m : Mem Region) (calls : List PackCall) : List UInt8 :=
  calls.flatMap fun c => read m c.inbuf.addr c.bytes

/-- What the calls may rely on: counts that are not negative, sizes that fit an `int`, success, a
communicator of `npes` PEs at most, and input buffers that do not overlap the output buffer. -/
structure PackArgs.Valid (npes : ℕ) (a : PackArgs) (position : ℤ) (calls : List PackCall) : Prop where
  counts : ∀ c ∈ calls, 0 ≤ c.incount
  nonneg : 0 ≤ position
  fits : position + totalBytes PackCall.bytes calls ≤ intMax
  success : Succeed a.call position calls
  rank : 0 ≤ mpiCommRank a.comm ∧ mpiCommRank a.comm < npes
  buffer : a.comm.bufferPtr = sharedBuffer
  apart : ∀ c ∈ calls, Apart c.inbuf.addr c.bytes a.outbuf.addr a.outsize

variable {a : PackArgs} {npes myPe : ℕ} {bufBytes position : ℤ} {atOnce : Bool}
  {calls pre : List PackCall} {c : PackCall}

/-- The data is there from the position on, and no other byte has changed. -/
structure Packed (a : PackArgs) (position : ℤ) (calls : List PackCall) (m m' : Mem Region) :
    Prop where
  data : read m' (a.outbuf.addr + position) (totalBytes PackCall.bytes calls) = packedBytes m calls
  rest : ∀ q : Addr, a.outbuf.addr.Covers a.outsize q →
    ¬ (a.outbuf.addr + position).Covers (totalBytes PackCall.bytes calls) q → m' q = m q

/-- On PE `myPe`, whatever memory holds and whatever the other PEs do without writing there, all calls
can be made, and when everything has landed the data is packed and the position behind it. With
`atOnce` a put of a PE to itself has landed when `shmem_fence` returns. -/
def Appends (npes : ℕ) (bufBytes : ℤ) (atOnce : Bool) (myPe : ℕ) (a : PackArgs) (position : ℤ)
    (calls : List PackCall) : Prop :=
  callPos a.call position calls = position + totalBytes PackCall.bytes calls ∧
    (∀ op ∈ callOps a.call position calls, op.Ok (shmem npes bufBytes)) ∧
    ∀ w : OneSided.World Region, w.prog myPe = callOps a.call position calls → Undisturbed myPe w →
      w.toward myPe = [] → ∀ ls w',
        (atOnce = true → Meets (OneSided.step (shmem npes bufBytes)) (Prompt myPe) w ls) →
        exec (OneSided.step (shmem npes bufBytes)) w ls = some w' → w'.prog myPe = [] →
        w'.toward myPe = [] → Packed a position calls (w.mem myPe) (w'.mem myPe)

/-- If there is anything to pack, the rank of the PE is its number; and what is packed into a buffer
that is not symmetric is packed at position 0 and fits the communicator's buffer, where the put is
complete when `shmem_fence` returns. -/
structure Packable (bufBytes : ℤ) (atOnce : Bool) (myPe : ℕ) (a : PackArgs) (position : ℤ)
    (calls : List PackCall) : Prop where
  rank : (∃ c ∈ calls, 0 < c.bytes) → mpiCommRank a.comm = myPe
  start : shmemAddrAccessible a.outbuf = false → ∀ pre c, pre ++ [c] <+: calls → 0 < c.bytes →
    atOnce = true ∧ position + totalBytes PackCall.bytes pre = 0 ∧ c.bytes ≤ bufBytes

attribute [local irreducible] PackArgs.call

/-! ## One call -/

theorem PackCall.bytes_nonneg (h : 0 ≤ c.incount) : 0 ≤ c.bytes :=
  Int.mul_nonneg h (size_pos c.datatype).le

theorem pack_of_success (h : (a.call position c).2.1 = .success) :
    wrapInt (position + c.bytes) ≤ a.outsize ∧ a.call position c =
      (.put (mpiCommRank a.comm).toNat (sendAddr a.comm a.outbuf + position) c.inbuf.addr
          (getNumBytes c.incount c.datatype) ::
        unstage a.outbuf a.comm.bufferPtr (getNumBytes c.incount c.datatype) .char, .success,
        wrapInt (position + c.bytes)) := by
  have hwrap : wrapInt (position + getNumBytes c.incount c.datatype) = wrapInt (position + c.bytes) :=
    Int.add_bmod_bmod
  unfold PackArgs.call mpiPack at h ⊢
  dsimp only at h ⊢
  split_ifs at h ⊢ with hlt
  rw [add_comm, hwrap] at hlt
  rw [hwrap]
  exact ⟨not_lt.mp hlt, rfl⟩

theorem moves_pack : Moves a.call PackCall.bytes a.outsize where
  next _ _ h := congrArg (fun r => r.2.2) (pack_of_success h).2
  room _ _ h := (pack_of_success h).1

namespace PackArgs.Valid

variable (h : a.Valid npes position calls)

include h

theorem bytes_nonneg (hc : c ∈ calls) : 0 ≤ c.bytes := PackCall.bytes_nonneg (h.counts c hc)

theorem span (hpre : pre ++ [c] <+: calls) :
    0 ≤ totalBytes PackCall.bytes pre ∧
      callPos a.call position pre = position + totalBytes PackCall.bytes pre ∧
      totalBytes PackCall.bytes pre + c.bytes ≤ totalBytes PackCall.bytes calls := by
  obtain ⟨hpos, hbefore, -, -⟩ :=
    span_of_initial moves_pack h.nonneg h.success (fun _ hc => h.bytes_nonneg hc) h.fits hpre
  refine ⟨hpos, hbefore, ?_⟩
  obtain ⟨rest, rfl⟩ := hpre
  have hrest : 0 ≤ totalBytes PackCall.bytes rest :=
    totalBytes_nonneg fun c' hc' => h.bytes_nonneg (List.mem_append_right (pre ++ [c]) hc')
  rw [totalBytes_append, totalBytes_append, totalBytes_singleton]
  omega

theorem callPos : callPos a.call position calls = position + totalBytes PackCall.bytes calls :=
  callPos_eq moves_pack h.nonneg h.success (fun _ hc => h.bytes_nonneg hc) h.fits

/-- All that is packed is in the output buffer. -/
theorem end_le (hc : c ∈ calls) : position + totalBytes PackCall.bytes calls ≤ a.outsize := by
  rcases List.eq_nil_or_concat' calls with rfl | ⟨pre, last, rfl⟩
  · cases hc
  · obtain ⟨-, -, -, hend⟩ := span_of_initial moves_pack h.nonneg h.success
      (fun _ hc => h.bytes_nonneg hc) h.fits List.prefix_rfl
    rw [totalBytes_append, totalBytes_singleton]
    omega

omit h in
theorem initial {calls' : List PackCall} (h : a.Valid npes position (calls ++ calls')) :
    a.Valid npes position calls where
  counts c hc := h.counts c (List.mem_append_left _ hc)
  nonneg := h.nonneg
  fits := by
    have hfits := h.fits
    have hrest : 0 ≤ totalBytes PackCall.bytes calls' :=
      totalBytes_nonneg fun c hc => h.bytes_nonneg (List.mem_append_right _ hc)
    rw [totalBytes_append] at hfits
    omega
  success := h.success.initial (List.prefix_append _ _)
  rank := h.rank
  buffer := h.buffer
  apart c hc := h.apart c (List.mem_append_left _ hc)

omit h in
theorem suffix {calls' : List PackCall} (h : a.Valid npes position (calls ++ calls')) :
    a.Valid npes (position + totalBytes PackCall.bytes calls) calls' where
  counts c hc := h.counts c (List.mem_append_right _ hc)
  nonneg := Int.add_nonneg h.nonneg (totalBytes_nonneg fun _ hc => h.initial.bytes_nonneg hc)
  fits := by
    have hfits := h.fits
    rwa [totalBytes_append, ← add_assoc] at hfits
  success := h.initial.callPos ▸ h.success.suffix
  rank := h.rank
  buffer := h.buffer
  apart c hc := h.apart c (List.mem_append_right _ hc)

end PackArgs.Valid

/-- The put of a call. -/
def PackArgs.append (a : PackArgs) (position : ℤ) (c : PackCall) : Op Region :=
  .put (mpiCommRank a.comm).toNat (sendAddr a.comm a.outbuf + position) c.inbuf.addr c.bytes

/-- The operations of a call. -/
theorem call_eq (h : a.Valid npes position calls) (hpre : pre ++ [c] <+: calls) :
    (a.call (callPos a.call position pre) c).1 =
      a.append (position + totalBytes PackCall.bytes pre) c ::
        if shmemAddrAccessible a.outbuf then [] else [.copy a.outbuf.addr sharedBuffer c.bytes] := by
  have hc := h.bytes_nonneg (mem_of_initial hpre)
  obtain ⟨hpos, hbefore, hend⟩ := h.span hpre
  have hfits := h.fits
  have hnonneg := h.nonneg
  have hle : c.incount * c.datatype.size ≤ intMax := by
    unfold PackCall.bytes at *
    omega
  have hbytes : getNumBytes c.incount c.datatype = c.bytes :=
    getNumBytes_of_le (h.counts c (mem_of_initial hpre)) hle
  have hchars : getNumBytes c.bytes .char = c.bytes := by
    unfold getNumBytes
    rw [show ((MpiDatatype.char.size : ℕ) : ℤ) = 1 from rfl, mul_one]
    exact wrapInt_of_isInt ⟨by omega, hle⟩
  rw [(pack_of_success (h.success.of_initial hpre)).2, hbytes, hbefore, h.buffer]
  unfold unstage copyMyData
  rw [hchars]
  rfl

theorem pack_cases (h : a.Valid npes position calls) {op : Op Region}
    (hop : op ∈ callOps a.call position calls) : ∃ pre c, pre ++ [c] <+: calls ∧
      (op = a.append (position + totalBytes PackCall.bytes pre) c ∨
        shmemAddrAccessible a.outbuf = false ∧ op = .copy a.outbuf.addr sharedBuffer c.bytes) := by
  obtain ⟨pre, c, hpre, hop⟩ := mem_callOps hop
  refine ⟨pre, c, hpre, ?_⟩
  rw [call_eq h hpre] at hop
  rcases List.mem_cons.mp hop with hop | hop
  · exact Or.inl hop
  · split_ifs at hop with hacc
    · cases hop
    · exact Or.inr ⟨Bool.eq_false_iff.mpr hacc, List.mem_singleton.mp hop⟩

theorem append_mem (h : a.Valid npes position calls) (hpre : pre ++ [c] <+: calls) :
    a.append (position + totalBytes PackCall.bytes pre) c ∈ callOps a.call position calls := by
  refine callOps_initial hpre ?_
  rw [callOps_append]
  apply List.mem_append_right
  show _ ∈ (a.call _ c).1 ++ []
  rw [call_eq h hpre]
  exact List.mem_append_left _ List.mem_cons_self

/-- Data that is there call by call is there as a whole. -/
theorem read_packed {m m' : Mem Region} {p : Addr} (hbytes : ∀ c ∈ calls, 0 ≤ c.bytes)
    (h : ∀ pre c, pre ++ [c] <+: calls → read m' (p + totalBytes PackCall.bytes pre) c.bytes =
      read m c.inbuf.addr c.bytes) :
    read m' p (totalBytes PackCall.bytes calls) = packedBytes m calls := by
  induction calls generalizing p with
  | nil => rfl
  | cons c calls ih =>
    have hrest : ∀ c ∈ calls, 0 ≤ c.bytes := fun c hc => hbytes c (List.mem_cons_of_mem _ hc)
    have hfirst := h [] c ⟨calls, rfl⟩
    have hzero : p + totalBytes PackCall.bytes ([] : List PackCall) = p := add_zero_ptr p
    rw [hzero] at hfirst
    rw [totalBytes_cons, read_add (hbytes c List.mem_cons_self) (totalBytes_nonneg hrest), hfirst]
    refine congrArg _ (ih hrest fun pre c' ⟨rest, hpre⟩ => ?_)
    have hlater := h (c :: pre) c' ⟨rest, by rw [← hpre]; rfl⟩
    rw [totalBytes_cons, ← add_add] at hlater
    exact hlater

/-- Where the data goes. -/
def PackArgs.Target (a : PackArgs) (position : ℤ) (calls : List PackCall) (q : Addr) : Prop :=
  (a.outbuf.addr + position).Covers (totalBytes PackCall.bytes calls) q

theorem target_of_initial (h : a.Valid npes position calls) (hpre : pre ++ [c] <+: calls) {i : ℕ}
    (hi : (i : ℤ) < c.bytes) :
    a.Target position calls (a.outbuf.addr + position + totalBytes PackCall.bytes pre + (i : ℤ)) := by
  obtain ⟨hpos, -, hend⟩ := h.span hpre
  refine ⟨rfl, ?_, ?_⟩
  · simp only [add_offset]
    omega
  · simp only [add_offset]
    omega

/-- The data is not read from where it goes. -/
theorem not_target_inbuf (h : a.Valid npes position calls) (hc : c ∈ calls) {i : ℕ}
    (hi : (i : ℤ) < c.bytes) : ¬ a.Target position calls (c.inbuf.addr + (i : ℤ)) := by
  rintro ⟨hregion, hle, hlt⟩
  have hend := h.end_le hc
  have hnonneg := h.nonneg
  refine h.apart c hc _ (covers_iff.mpr ⟨i, hi, rfl⟩) ⟨hregion, ?_, ?_⟩
  · simp only [add_offset] at hle ⊢
    omega
  · simp only [add_offset] at hlt ⊢
    omega

/-! ## The data is appended -/

/-- When there is nothing to pack. -/
theorem packed_of_none (hnone : ∀ c ∈ calls, c.bytes = 0) (m : Mem Region) :
    Packed a position calls m m := by
  refine ⟨read_packed (fun c hc => (hnone c hc).ge) fun pre c hpre => ?_, fun _ _ _ => rfl⟩
  rw [hnone c (mem_of_initial hpre)]
  rfl

theorem idle_pack (h : a.Valid npes position calls) (hnone : ∀ c ∈ calls, c.bytes = 0)
    {op : Op Region} (hop : op ∈ callOps a.call position calls) : op.Idle := by
  obtain ⟨pre, c, hpre, rfl | ⟨-, rfl⟩⟩ := pack_cases h hop
  · exact hnone c (mem_of_initial hpre)
  · exact hnone c (mem_of_initial hpre)

section Runs

variable {w w' : OneSided.World Region} {ls : List OneSided.Label} (h : a.Valid npes position calls)
  (hrank : mpiCommRank a.comm = myPe) (hpe : myPe < npes)
  (hprog : w.prog myPe = callOps a.call position calls) (hothers : Undisturbed myPe w)
  (htoward : w.toward myPe = [])
  (hexec : exec (OneSided.step (shmem npes bufBytes)) w ls = some w')
  (hdone : w'.prog myPe = []) (hlanded : w'.toward myPe = [])

include h hrank hpe hprog hothers htoward hexec hdone hlanded

/-- Into symmetric memory, in whatever order the puts land. -/
theorem packed_of_puts (hacc : shmemAddrAccessible a.outbuf = true) :
    Packed a position calls (w.mem myPe) (w'.mem myPe) := by
  have hputs : ∀ op ∈ w.prog myPe, ∃ pre c, pre ++ [c] <+: calls ∧ op = .put myPe
      (a.outbuf.addr + position + totalBytes PackCall.bytes pre) c.inbuf.addr c.bytes := by
    intro op hop
    rw [hprog] at hop
    obtain ⟨pre, c, hpre, rfl | ⟨hpriv, -⟩⟩ := pack_cases h hop
    · refine ⟨pre, c, hpre, ?_⟩
      unfold PackArgs.append sendAddr
      rw [if_pos hacc, hrank, Int.toNat_natCast, add_add]
    · rw [hacc] at hpriv
      cases hpriv
  constructor
  · refine read_packed (fun _ hc => h.bytes_nonneg hc) fun pre c hpre => ?_
    rw [read_eq_read]
    intro i hi
    refine mem_of_own_puts (T := a.Target position calls) hpe hothers htoward (fun op hop => ?_)
      (Or.inr ?_) hexec hdone hlanded
    · obtain ⟨pre', c', hpre', rfl⟩ := hputs op hop
      refine ⟨_, _, _, rfl, fun j hj => ⟨target_of_initial h hpre' hj,
        not_target_inbuf h (mem_of_initial hpre') hj, fun heq => ?_⟩⟩
      have hoff := congrArg Ptr.offset heq
      simp only [add_offset] at hoff
      have hnonneg : ∀ c ∈ calls, 0 ≤ PackCall.bytes c := fun _ hc => h.bytes_nonneg hc
      have hplace : totalBytes PackCall.bytes pre' ≤ totalBytes PackCall.bytes pre + (i : ℤ) ∧
          totalBytes PackCall.bytes pre + (i : ℤ) < totalBytes PackCall.bytes pre' + c'.bytes := by
        omega
      obtain ⟨rfl, rfl⟩ := eq_of_overlap hnonneg hpre' hpre hplace ⟨by omega, by omega⟩
      obtain rfl : j = i := by omega
      rfl
    · refine ⟨_, c.inbuf.addr, c.bytes, ?_, covers_iff.mpr ⟨i, hi, rfl⟩⟩
      have hmem := append_mem h hpre
      unfold PackArgs.append sendAddr at hmem
      rw [if_pos hacc, hrank, Int.toNat_natCast, ← add_add] at hmem
      rw [hprog]
      exact hmem
  · intro q _ hq
    refine mem_of_own_puts (T := a.Target position calls) hpe hothers htoward (fun op hop => ?_)
      (Or.inl rfl) hexec hdone hlanded
    obtain ⟨pre', c', hpre', rfl⟩ := hputs op hop
    refine ⟨_, _, _, rfl, fun j hj => ⟨target_of_initial h hpre' hj,
      not_target_inbuf h (mem_of_initial hpre') hj, fun heq => ?_⟩⟩
    exact absurd (heq ▸ target_of_initial h hpre' hj) hq

end Runs

/-- Into a buffer that is not symmetric, when nothing but the call `c` packs anything and it packs at
position 0. -/
theorem packed_of_prompt {post : List PackCall} (h : a.Valid npes position (pre ++ [c] ++ post))
    (hacc : shmemAddrAccessible a.outbuf = false)
    (hpre : ∀ c' ∈ pre, c'.bytes = 0) (hpost : ∀ c' ∈ post, c'.bytes = 0)
    (hzero : position + totalBytes PackCall.bytes pre = 0) (m : Mem Region) :
    Packed a position (pre ++ [c] ++ post) m
      (prompt m (callOps a.call position (pre ++ [c] ++ post))) := by
  have hfinal : prompt m (callOps a.call position (pre ++ [c] ++ post)) =
      prompt m [a.append 0 c, .copy a.outbuf.addr sharedBuffer c.bytes] := by
    have hcall := call_eq h.initial List.prefix_rfl
    rw [hacc, if_neg Bool.false_ne_true, hzero] at hcall
    have hone : callOps a.call position (pre ++ [c]) =
        callOps a.call position pre ++ [a.append 0 c, .copy a.outbuf.addr sharedBuffer c.bytes] := by
      rw [callOps_append, ← hcall]
      exact congrArg _ (List.append_nil _)
    rw [callOps_append, prompt_append, h.initial.callPos,
      prompt_of_idle fun _ => idle_pack h.suffix hpost, hone, prompt_append, prompt_of_idle fun _ => idle_pack h.initial.initial hpre]
  have hnone : ∀ {l : List PackCall}, (∀ c' ∈ l, c'.bytes = 0) →
      totalBytes PackCall.bytes l = 0 ∧ packedBytes m l = [] := by
    intro l hl
    refine ⟨List.sum_eq_zero fun z hz => ?_, List.flatMap_eq_nil_iff.mpr fun c' hc' => ?_⟩
    · obtain ⟨c', hc', rfl⟩ := List.mem_map.mp hz
      exact hl c' hc'
    · rw [hl c' hc']
      rfl
  have htotal : totalBytes PackCall.bytes (pre ++ [c] ++ post) = c.bytes := by
    rw [totalBytes_append, totalBytes_append, totalBytes_singleton, (hnone hpre).1, (hnone hpost).1,
      zero_add, add_zero]
  have hdata : packedBytes m (pre ++ [c] ++ post) = read m c.inbuf.addr c.bytes := by
    show List.flatMap _ (pre ++ [c] ++ post) = _
    rw [List.flatMap_append, List.flatMap_append, List.flatMap_singleton]
    change packedBytes m pre ++ _ ++ packedBytes m post = _
    rw [(hnone hpre).2, (hnone hpost).2, List.nil_append, List.append_nil]
  rw [(hnone hpre).1, add_zero] at hzero
  have hput : a.append 0 c = .put (mpiCommRank a.comm).toNat sharedBuffer c.inbuf.addr c.bytes := by
    unfold PackArgs.append sendAddr
    rw [hacc, if_neg Bool.false_ne_true, h.buffer, add_zero_ptr]
  rw [hfinal, hput]
  constructor
  · rw [htotal, hdata, hzero, add_zero_ptr, read_eq_read]
    intro i hi
    exact (write_read _ _ i hi).trans (write_read m c.inbuf.addr i hi)
  · intro q hq hout
    rw [htotal, hzero, add_zero_ptr] at hout
    refine (write_read_of_not_covers _ _ hout).trans (write_of_region_ne ?_)
    rw [hq.1]
    exact addr_region_ne_buffer a.outbuf

section Packable

variable (h : a.Valid npes position calls) (hpack : Packable bufBytes atOnce myPe a position calls)

include h hpack

theorem ok_of_packable {op : Op Region} (hop : op ∈ callOps a.call position calls) :
    op.Ok (shmem npes bufBytes) := by
  obtain ⟨pre, c, hpre, hop⟩ := pack_cases h hop
  have hc := h.bytes_nonneg (mem_of_initial hpre)
  have hinside : shmemAddrAccessible a.outbuf = false → ∀ p, (0 < c.bytes → p = sharedBuffer) →
      (shmem npes bufBytes).Inside p c.bytes := by
    intro hacc p hp
    rcases hc.eq_or_lt with hzero | hpos
    · exact Or.inl hzero.symm
    · rw [hp hpos]
      have hroom := (hpack.start hacc pre c hpre hpos).2.2
      exact (inside_buffer hpos.ne').mpr ⟨hc, le_rfl, by omega⟩
  rcases hop with rfl | ⟨hacc, rfl⟩
  · have hrank := h.rank
    have hlt : (mpiCommRank a.comm).toNat < npes := by omega
    refine ⟨hlt, ?_, inside_of_ne_buffer (addr_region_ne_buffer _) hc⟩
    unfold sendAddr
    split_ifs with hacc
    · exact inside_of_ne_buffer (addr_region_ne_buffer a.outbuf) hc
    · have hacc := Bool.eq_false_iff.mpr hacc
      refine hinside hacc _ fun hpos => ?_
      rw [h.buffer, (hpack.start hacc pre c hpre hpos).2.1, add_zero_ptr]
  · exact ⟨inside_of_ne_buffer (addr_region_ne_buffer _) hc, hinside hacc _ fun _ => rfl⟩

theorem appends_of_packable (hpe : myPe < npes) :
    Appends npes bufBytes atOnce myPe a position calls := by
  refine ⟨h.callPos, fun _ => ok_of_packable h hpack,
    fun w hprog hothers htoward ls w' hprompt hexec hdone hlanded => ?_⟩
  by_cases hsome : ∃ c ∈ calls, 0 < c.bytes
  · have hrank := hpack.rank hsome
    obtain ⟨c, hc, hpos⟩ := hsome
    cases hacc : shmemAddrAccessible a.outbuf with
    | true => exact packed_of_puts h hrank hpe hprog hothers htoward hexec hdone hlanded hacc
    | false =>
      obtain ⟨pre, post, rfl⟩ := exists_initial_of_mem hc
      have hzero := hpack.start hacc pre c ⟨post, rfl⟩ hpos
      have hown : ∀ op ∈ w.prog myPe, op.Own myPe := by
        intro op hop
        rw [hprog] at hop
        obtain ⟨_, _, -, rfl | ⟨-, rfl⟩⟩ := pack_cases h hop
        · show (mpiCommRank a.comm).toNat = myPe
          rw [hrank, Int.toNat_natCast]
        · trivial
      rw [mem_of_prompt hpe hothers htoward hown (hprompt hzero.1) hexec hdone hlanded, hprog]
      have hnonneg := h.nonneg
      refine packed_of_prompt h hacc (fun c' hc' => ?_) (fun c' hc' => ?_) hzero.2.1 _
      · have hle : c'.bytes ≤ totalBytes PackCall.bytes pre :=
          bytes_le_totalBytes (fun _ hc => h.initial.initial.bytes_nonneg hc) hc'
        have hc'' := h.initial.initial.bytes_nonneg hc'
        omega
      · by_contra hne
        have hc'' := h.suffix.bytes_nonneg hc'
        obtain ⟨pre', rest, hsplit⟩ := exists_initial_of_mem hc'
        have hlater := hpack.start hacc (pre ++ [c] ++ pre') c' ⟨rest, by rw [← hsplit]; simp⟩
          (lt_of_le_of_ne hc'' (Ne.symm hne))
        have hpre' : 0 ≤ totalBytes PackCall.bytes pre' := totalBytes_nonneg fun d hd =>
          h.suffix.bytes_nonneg (hsplit ▸ List.mem_append_left _ (List.mem_append_left _ hd))
        rw [totalBytes_append, totalBytes_append, totalBytes_singleton] at hlater
        omega
  · have hnone : ∀ c ∈ calls, c.bytes = 0 := by
      intro c hc
      by_contra hne
      exact hsome ⟨c, hc, lt_of_le_of_ne (h.bytes_nonneg hc) (Ne.symm hne)⟩
    rw [mem_of_idle hpe hothers htoward (fun op hop => idle_pack h hnone (hprog ▸ hop)) hexec]
    exact packed_of_none hnone _

end Packable

/-! ## When it is appended -/

/-- The last place of the data. -/
def PackArgs.last (a : PackArgs) (position : ℤ) (calls : List PackCall) : Addr :=
  a.outbuf.addr + (position + totalBytes PackCall.bytes calls - 1)

/-- Ones everywhere but in the communicator's buffer and at the last place of the data, where PE `pe`
has zeros. -/
def onesBefore (a : PackArgs) (position : ℤ) (calls : List PackCall) (pe : ℕ) : ℕ → Mem Region :=
  fun t q => if t = pe ∧ (q = a.last position calls ∨ q.region = .buffer) then 0 else 1

theorem last_covers (h : a.Valid npes position calls) (hc : c ∈ calls) (hpos : 0 < c.bytes) :
    a.outbuf.addr.Covers a.outsize (a.last position calls) := by
  have hend := h.end_le hc
  have hnonneg := h.nonneg
  have hle : c.bytes ≤ totalBytes PackCall.bytes calls :=
    bytes_le_totalBytes (fun _ hc => h.bytes_nonneg hc) hc
  unfold PackArgs.last
  refine ⟨rfl, ?_, ?_⟩
  · simp only [add_offset]
    omega
  · simp only [add_offset]
    omega

theorem last_region (a : PackArgs) (position : ℤ) (calls : List PackCall) :
    (a.last position calls).region ≠ .buffer := addr_region_ne_buffer a.outbuf

/-- The data is all ones, so its last place has to be. -/
theorem one_of_packed (h : a.Valid npes position calls) (hc : c ∈ calls) (hpos : 0 < c.bytes)
    {pe : ℕ} {m' : Mem Region}
    (hpacked : Packed a position calls (onesBefore a position calls pe pe) m') :
    m' (a.last position calls) = 1 := by
  have hle : c.bytes ≤ totalBytes PackCall.bytes calls :=
    bytes_le_totalBytes (fun _ hc => h.bytes_nonneg hc) hc
  have hmem : m' (a.last position calls) ∈
      read m' (a.outbuf.addr + position) (totalBytes PackCall.bytes calls) := by
    refine mem_read.mpr ⟨(totalBytes PackCall.bytes calls - 1).toNat, by omega, ?_⟩
    unfold PackArgs.last
    rw [add_add]
    congr 2
    omega
  rw [hpacked.data] at hmem
  obtain ⟨c', hc', hmem⟩ := List.mem_flatMap.mp hmem
  obtain ⟨i, hi, hone⟩ := mem_read.mp hmem
  rw [← hone]
  refine if_neg ?_
  rintro ⟨-, heq | hbuffer⟩
  · exact h.apart c' hc' _ (covers_iff.mpr ⟨i, hi, rfl⟩) (heq ▸ last_covers h hc hpos)
  · exact addr_region_ne_buffer c'.inbuf hbuffer

section Exact

variable (h : a.Valid npes position calls) (hpe : myPe < npes)
  (happ : Appends npes bufBytes atOnce myPe a position calls)

include h hpe happ

omit hpe in
theorem local_pack {op : Op Region} (hop : op ∈ callOps a.call position calls) :
    op.Ok (shmem npes bufBytes) ∧ op.isLocal = true := by
  refine ⟨happ.2.1 op hop, ?_⟩
  obtain ⟨_, _, -, rfl | ⟨-, rfl⟩⟩ := pack_cases h hop
  · rfl
  · rfl

/-- Whatever memory holds, there is a run in which the puts land at once, and the data is there. -/
theorem exists_packed (mem : ℕ → Mem Region) :
    ∃ ls w', exec (OneSided.step (shmem npes bufBytes))
        (alone mem myPe (callOps a.call position calls)) ls = some w' ∧
      Packed a position calls (mem myPe) (w'.mem myPe) := by
  obtain ⟨ls, w', hexec, hdone, hmeets⟩ := exists_run_prompt (M := shmem npes bufBytes) hpe
    mem (fun _ _ => false) fun op hop => local_pack h happ hop
  refine ⟨ls, w', hexec, happ.2.2 _ (alone_prog _ _ _) (undisturbed_alone _ _ _) rfl ls w'
    (fun _ => hmeets) hexec (hdone.1 myPe) ?_⟩
  rw [toward_eq_nil, hdone.2]
  exact fun _ hp => absurd hp List.not_mem_nil

/-- Zeros that nothing but zeros is moved to are still there after the run. -/
theorem absurd_of_zero {A : ℕ → Addr → Prop} (hc : c ∈ calls) (hpos : 0 < c.bytes)
    (hzero : ∀ t q, ¬ A t q → onesBefore a position calls myPe t q = 0)
    (hlast : ¬ A myPe (a.last position calls))
    (hspreads : ∀ op ∈ callOps a.call position calls, Spreads A myPe op) : False := by
  obtain ⟨ls, w', hexec, hpacked⟩ :=
    exists_packed h hpe happ (onesBefore a position calls myPe)
  have hinv : ZeroOutside A w' := by
    refine exec_inv zeroOutside_step ⟨hzero, fun p hp => absurd hp List.not_mem_nil,
      fun t op hop => ?_⟩ hexec
    by_cases ht : t = myPe
    · subst ht
      rw [alone_prog] at hop
      exact hspreads op hop
    · rw [alone_prog_of_ne ht] at hop
      cases hop
  have hone := one_of_packed h hc hpos hpacked
  rw [hinv.mem myPe _ hlast] at hone
  exact absurd hone (by decide)

/-- What another PE gets does not come to this one. -/
theorem rank_of_appends (hc : c ∈ calls) (hpos : 0 < c.bytes) : mpiCommRank a.comm = myPe := by
  by_contra hne
  have hrank := h.rank
  refine absurd_of_zero h hpe happ hc hpos
    (A := fun t q => ¬ (t = myPe ∧ (q = a.last position calls ∨ q.region = .buffer)))
    (fun t q hq => if_pos (not_not.mp hq)) (fun hA => hA ⟨rfl, Or.inl rfl⟩) fun op hop => ?_
  obtain ⟨_, c', -, rfl | ⟨-, rfl⟩⟩ := pack_cases h hop
  · refine fun i _ _ hA => ?_
    have hself : (mpiCommRank a.comm).toNat = myPe := hA.1
    omega
  · exact fun i _ hsrc => absurd ⟨rfl, Or.inr rfl⟩ hsrc

/-- A copy of the beginning does not come to the last place. -/
theorem position_of_appends (hacc : shmemAddrAccessible a.outbuf = false)
    (hpre : pre ++ [c] <+: calls) (hpos : 0 < c.bytes) :
    position + totalBytes PackCall.bytes pre = 0 := by
  by_contra hne
  have hnonneg := h.nonneg
  have hbytes : ∀ c ∈ calls, 0 ≤ PackCall.bytes c := fun _ hc => h.bytes_nonneg hc
  have hbefore := (h.span hpre).1
  have hshort : ∀ c' ∈ calls, c'.bytes < position + totalBytes PackCall.bytes calls := by
    intro c' hc'
    obtain ⟨rest, rfl⟩ := hpre
    have hrest : 0 ≤ totalBytes PackCall.bytes rest :=
      totalBytes_nonneg fun d hd => hbytes d (List.mem_append_right _ hd)
    rw [totalBytes_append, totalBytes_append, totalBytes_singleton]
    rcases List.mem_append.mp hc' with hc' | hc'
    · rcases List.mem_append.mp hc' with hc' | hc'
      · have hle : c'.bytes ≤ totalBytes PackCall.bytes pre := bytes_le_totalBytes (fun d hd =>
          hbytes d (List.mem_append_left _ (List.mem_append_left _ hd))) hc'
        omega
      · rw [List.mem_singleton.mp hc']
        omega
    · have hle : c'.bytes ≤ totalBytes PackCall.bytes rest :=
        bytes_le_totalBytes (fun d hd => hbytes d (List.mem_append_right _ hd)) hc'
      omega
  have hself := rank_of_appends h hpe happ (mem_of_initial hpre) hpos
  refine absurd_of_zero h hpe happ (mem_of_initial hpre) hpos
    (A := fun t q => ¬ (t = myPe ∧ q = a.last position calls))
    (fun t q hq => if_pos ((not_not.mp hq).imp_right Or.inl)) (fun hA => hA ⟨rfl, rfl⟩)
    fun op hop => ?_
  obtain ⟨_, c', hc', rfl | ⟨-, rfl⟩⟩ := pack_cases h hop
  · refine fun i _ _ hA => last_region a position calls ?_
    rw [← hA.2]
    unfold sendAddr
    rw [hacc, if_neg Bool.false_ne_true, h.buffer]
    rfl
  · refine fun i hi _ hA => ?_
    have hoff := congrArg Ptr.offset hA.2
    have hlt := hshort c' (mem_of_initial hc')
    unfold PackArgs.last at hoff
    simp only [add_offset] at hoff
    omega

/-- A put that lands late is missed by the copy. -/
theorem atOnce_of_appends (hacc : shmemAddrAccessible a.outbuf = false) (hc : c ∈ calls)
    (hpos : 0 < c.bytes) : atOnce = true := by
  by_contra hlate
  obtain ⟨ls, w₁, hexec, hmem, hprog, hflight⟩ := exists_run_own (M := shmem npes bufBytes) hpe
    (show (alone (onesBefore a position calls myPe) myPe (callOps a.call position calls)).prog myPe =
      callOps a.call position calls ++ [] by rw [alone_prog, List.append_nil])
    fun op hop => local_pack h happ hop
  obtain ⟨ls', w', hexec', hmem', hprog', hflight'⟩ :=
    exists_run_land (M := shmem npes bufBytes) (w := w₁) rfl
  have hpacked := happ.2.2 _ (alone_prog _ _ _) (undisturbed_alone _ _ _) rfl (ls ++ ls') w'
    (fun h => absurd h hlate) (by rw [exec_append, hexec]; exact hexec')
    (by rw [hprog', hprog, Function.update_self])
    (by rw [toward_eq_nil, hflight']; exact fun _ hp => absurd hp List.not_mem_nil)
  have hone := one_of_packed h hc hpos hpacked
  rw [hmem', hflight] at hone
  rcases landAll_eq_or w₁.mem _ myPe (a.last position calls) with hsame | ⟨p, hp, -, k, -, hq, -⟩
  · -- the copy has found zeros
    have hzero : w₁.mem myPe (a.last position calls) = 0 := by
      rw [hmem, Function.update_self]
      refine localRun_zero (Z := fun q => q = a.last position calls ∨ q.region = .buffer)
        (fun op hop dst src n heq i _ _ => ?_) (fun q hq => if_pos ⟨rfl, hq⟩) _ (Or.inl rfl)
      obtain ⟨_, _, -, rfl | ⟨-, rfl⟩⟩ := pack_cases h hop
      · cases heq
      · obtain ⟨-, rfl, -⟩ := Op.copy.inj heq
        exact Or.inr rfl
    rw [hsame.trans hzero] at hone
    exact absurd hone (by decide)
  · -- and no put goes to the output buffer
    obtain ⟨op, hop, n, htarget, -⟩ := exists_op_of_put hp
    obtain ⟨_, _, -, rfl | ⟨-, rfl⟩⟩ := pack_cases h hop
    · have hdst : sendAddr a.comm a.outbuf + _ = p.dst :=
        congrArg (fun t : ℕ × Addr × ℤ => t.2.1) (Option.some.inj htarget)
      apply last_region a position calls
      rw [hq, ← hdst]
      unfold sendAddr
      rw [hacc, if_neg Bool.false_ne_true, h.buffer]
      rfl
    · cases htarget

omit hpe in
theorem room_of_appends (hacc : shmemAddrAccessible a.outbuf = false) (hpre : pre ++ [c] <+: calls)
    (hpos : 0 < c.bytes) (hzero : position + totalBytes PackCall.bytes pre = 0) :
    c.bytes ≤ bufBytes := by
  have hput : (a.append (position + totalBytes PackCall.bytes pre) c).Ok (shmem npes bufBytes) :=
    happ.2.1 _ (append_mem h hpre)
  have hinside := hput.2.1
  unfold sendAddr at hinside
  rw [hacc, if_neg Bool.false_ne_true, h.buffer, hzero, add_zero_ptr, sharedBuffer,
    inside_buffer hpos.ne'] at hinside
  omega

end Exact

/-- `MPI_Pack` appends exactly when, if there is anything to pack, the rank of the PE is its number
and a buffer that is not symmetric gets all of it from one call at position 0, through a
communicator's buffer where it fits and a put to itself that is complete after `shmem_fence`. -/
theorem appends_iff (npes : ℕ) (bufBytes : ℤ) (atOnce : Bool) (myPe : ℕ) (a : PackArgs)
    (position : ℤ) (calls : List PackCall) (hpe : myPe < npes) (h : a.Valid npes position calls) :
    Appends npes bufBytes atOnce myPe a position calls ↔
      Packable bufBytes atOnce myPe a position calls := by
  constructor
  · intro happ
    refine ⟨fun ⟨c, hc, hpos⟩ => rank_of_appends h hpe happ hc hpos, fun hacc pre c hpre hpos => ?_⟩
    have hzero := position_of_appends h hpe happ hacc hpre hpos
    exact ⟨atOnce_of_appends h hpe happ hacc (mem_of_initial hpre) hpos, hzero,
      room_of_appends h happ hacc hpre hpos hzero⟩
  · intro hpack
    exact appends_of_packable h hpack hpe

attribute [local semireducible] PackArgs.call

/-- Of two `int`s packed into a buffer that is not symmetric the second is not there. -/
theorem not_appends_second :
    let a : PackArgs := ⟨.process 0, 8, mpiInit 1 0 ⟨.heap, 0⟩ ⟨.heap, 0⟩⟩
    let calls : List PackCall := [⟨.heap 0, 1, .int⟩, ⟨.heap 4, 1, .int⟩]
    a.Valid 1 0 calls ∧ ¬ Appends 1 200000 true 0 a 0 calls := by
  intro a calls
  have h : a.Valid 1 0 calls :=
    ⟨by decide, le_rfl, by decide, ⟨by decide, by decide, trivial⟩, by decide, rfl, by
      intro c hc q hin hout
      have hregion := hin.1.symm.trans hout.1
      rcases List.mem_cons.mp hc with rfl | hc
      · cases hregion
      · obtain rfl := List.mem_singleton.mp hc
        cases hregion⟩
  refine ⟨h, fun happ => ?_⟩
  have hpre : [⟨.heap 0, 1, .int⟩] ++ [⟨.heap 4, 1, .int⟩] <+: calls := ⟨[], rfl⟩
  exact absurd (position_of_appends h (by decide) happ rfl hpre (by decide)) (by decide)

theorem appends_symmetric :
    let a : PackArgs := ⟨.heap 0, 8, mpiInit 1 0 ⟨.heap, 0⟩ ⟨.heap, 0⟩⟩
    Appends 1 200000 false 0 a 0 [⟨.process 0, 1, .int⟩, ⟨.process 4, 1, .int⟩] := by
  intro a
  have h : a.Valid 1 0 [⟨.process 0, 1, .int⟩, ⟨.process 4, 1, .int⟩] :=
    ⟨by decide, le_rfl, by decide, ⟨by decide, by decide, trivial⟩, by decide, rfl, by
      intro c hc q hin hout
      have hregion := hin.1.symm.trans hout.1
      rcases List.mem_cons.mp hc with rfl | hc
      · cases hregion
      · obtain rfl := List.mem_singleton.mp hc
        cases hregion⟩
  exact (appends_iff 1 200000 false 0 a 0 _ (by decide) h).mpr ⟨fun _ => rfl, nofun⟩

end MpiToShmem.Shmem
