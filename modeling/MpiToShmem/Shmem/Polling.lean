import MpiToShmem.Kit.Arrival
import MpiToShmem.Kit.InOrder
import MpiToShmem.Shmem.Nonblocking

/-!
# What `MPI_Test` says of a message

`MPI_Test` compares one `int` in the memory of the destination with the `int` of that number in the
buffer that was sent, whatever the type of its elements.

1. `mpiTest`: the flag; it leaves memory as it was.
2. `Truthful`: at any time after `MPI_Isend` the flag says whether the destination has the data.
3. `PollInv` is the invariant while the message is under way.
4. `truthful_iff`: so it is when the destination has the right bytes already wherever the `int` and
   the data do not cover the same places.
-/

namespace MpiToShmem.Shmem

open Kit OneSided

/-! ## The call -/

/-- `MPI_Request`, as far as `MPI_Test` reads it. -/
structure MpidRequest where
  rank : ℕ
  lastBufPtr : Addr
  expected : Addr

/-- What `MPI_Isend` sets in the request. -/
def isendRequest (count : ℤ) (dest : ℕ) (comm : MpidComm) : MpidRequest :=
  ⟨dest, lastInt comm.bufferPtr count, expected⟩

/-- The `int` at a place. -/
def intAt (w : OneSided.World Region) (pe : ℕ) (p : Addr) : ℤ := decodeInt (read (w.mem pe) p 4)

/-- `shmem_int_cswap`: the value that was there, and memory. -/
def shmemIntCswap (w : OneSided.World Region) (target : Addr) (cond value : ℤ) (pe : ℕ) :
    ℤ × OneSided.World Region :=
  (intAt w pe target, if intAt w pe target = cond then w.store pe target (encodeInt value) else w)

/-- `MPI_Test` on PE `myPe`: the flag, and memory. -/
def mpiTest (w : OneSided.World Region) (myPe : ℕ) (request : MpidRequest) :
    Bool × OneSided.World Region :=
  let e := intAt w myPe request.expected
  let r := shmemIntCswap w request.lastBufPtr e e request.rank
  (r.1 = intAt r.2 myPe request.expected, r.2)

/-- What happens while a PE polls: a step, a put in flight comes apart, a poll. -/
inductive PollEvent where
  | step (a : OneSided.Label)
  | part (k i : ℕ)
  | test

/-- PE `myPe` polls when its call has returned. -/
def pollStep (M : Machine Region) (myPe : ℕ) (request : MpidRequest) (w : OneSided.World Region) :
    PollEvent → Option (OneSided.World Region)
  | .step a => OneSided.step M w a
  | .part k i => w.part k i
  | .test =>
    if w.prog myPe = [] ∧ M.Inside request.lastBufPtr 4 then some (mpiTest w myPe request).2 else none

/-! ## Truth -/

/-- The source calls `MPI_Isend`. The others may put what they like to everyone but the two. -/
structure Testing (source dest : ℕ) (m : Message) (comm : MpidComm) (w : OneSided.World Region) :
    Prop extends Sending source dest m comm w where
  spared : ∀ pe, pe ≠ source → ∀ op ∈ w.prog pe, op.Spares source
  quiet : ∀ p ∈ w.flight, p.pe ≠ source

/-- The destination has the data that the source had in `w`. -/
def Message.Held (m : Message) (source dest : ℕ) (w w' : OneSided.World Region) : Prop :=
  read (w'.mem dest) sharedBuffer m.bytes = read (w.mem source) m.sendbuf.addr m.bytes

/-- From `w` on, the call and the polls access what is there only; when the put has landed the
destination has the data; and however many polls there were before, a poll sets the flag if and only
if the destination has the data. -/
structure Truthful (npes : ℕ) (bufBytes : ℤ) (source dest : ℕ) (m : Message) (comm : MpidComm)
    (w : OneSided.World Region) : Prop where
  sends : ∀ op ∈ m.isend dest comm, op.Ok (shmem npes bufBytes)
  polls : (shmem npes bufBytes).Inside (isendRequest m.count dest comm).lastBufPtr 4
  arrives : ∀ es w', exec (pollStep (shmem npes bufBytes) source (isendRequest m.count dest comm)) w
    es = some w' → Delivered source dest w' → m.Held source dest w w'
  flag : ∀ es w', exec (pollStep (shmem npes bufBytes) source (isendRequest m.count dest comm)) w
    es = some w' → w'.prog source = [] →
    ((mpiTest w' source (isendRequest m.count dest comm)).1 = true ↔ m.Held source dest w w')

/-! ## The condition -/

namespace Message

/-- Byte `k` is one of the `int` that is compared. -/
def InCell (m : Message) (k : ℕ) : Prop := 4 * (m.count - 1) ≤ k ∧ (k : ℤ) < 4 * m.count

/-- Memory of the destination when the data is put. -/
def before (m : Message) (source dest : ℕ) (w : OneSided.World Region) : Mem Region :=
  if dest = source then solo (w.mem source) m.copies else w.mem dest

/-- There is room for the data, for the `int` and for the copy; what is put behind the end of a copy
that is too short is right; and what is one of the data or one of the `int`, but not both, is at the
destination already. -/
structure Told (m : Message) (bufBytes : ℤ) (source dest : ℕ) (w : OneSided.World Region) :
    Prop where
  room : m.bytes ≤ bufBytes ∧ 4 * m.count ≤ bufBytes
  staging : shmemAddrAccessible m.sendbuf = false →
    0 ≤ m.copyBytes ∧ 2 * m.copyBytes ≤ bufBytes ∧ m.copyBytes + m.bytes ≤ bufBytes
  copied : shmemAddrAccessible m.sendbuf = false → ∀ k : ℕ, m.copyBytes ≤ k → (k : ℤ) < m.bytes →
    w.mem source ⟨.buffer, m.copyBytes + k⟩ = w.mem source (m.sendbuf.addr + (k : ℤ))
  agree : ∀ k : ℕ, Xor ((k : ℤ) < m.bytes) (m.InCell k) →
    m.before source dest w (sharedBuffer + (k : ℤ)) = w.mem source (m.sendbuf.addr + (k : ℤ))

/-- What is put. -/
def sent (m : Message) (source : ℕ) (w : OneSided.World Region) : List UInt8 :=
  read (solo (w.mem source) m.copies) m.origin m.bytes

end Message

/-! ## Polls -/

attribute [local irreducible] wrapInt

section Polls

variable {w w' : OneSided.World Region} {myPe : ℕ} {request : MpidRequest}

/-- A poll leaves memory as it was. -/
theorem mpiTest_mem : (mpiTest w myPe request).2.mem = w.mem := by
  unfold mpiTest shmemIntCswap
  dsimp only
  split_ifs with heq
  · unfold World.store
    dsimp only
    rw [← heq]
    unfold intAt
    rw [encodeInt_decodeInt length_read]
    have hsame : write (w.mem request.rank) request.lastBufPtr
        (read (w.mem request.rank) request.lastBufPtr 4) = w.mem request.rank := by
      funext q
      by_cases hc : request.lastBufPtr.Covers 4 q
      · obtain ⟨i, hi, rfl⟩ := covers_iff.mp hc
        exact write_read _ _ _ hi
      · exact write_read_of_not_covers _ _ hc
    rw [hsame, Function.update_eq_self]
  · rfl

theorem mpiTest_prog : (mpiTest w myPe request).2.prog = w.prog ∧
    (mpiTest w myPe request).2.flight = w.flight := by
  unfold mpiTest shmemIntCswap
  dsimp only
  split_ifs
  · exact ⟨rfl, rfl⟩
  · exact ⟨rfl, rfl⟩

/-- The flag compares four bytes. -/
theorem mpiTest_flag : (mpiTest w myPe request).1 = true ↔
    ∀ i : ℕ, i < 4 → w.mem request.rank (request.lastBufPtr + (i : ℤ)) =
      w.mem myPe (request.expected + (i : ℤ)) := by
  have hflag : (mpiTest w myPe request).1 = true ↔
      intAt w request.rank request.lastBufPtr = intAt w myPe request.expected := by
    have hsame : intAt (mpiTest w myPe request).2 myPe request.expected =
        intAt w myPe request.expected := by
      unfold intAt
      rw [mpiTest_mem]
    rw [← hsame]
    unfold mpiTest shmemIntCswap
    dsimp only
    rw [decide_eq_true_iff]
  rw [hflag]
  unfold intAt
  rw [decodeInt_inj length_read length_read, read_eq_read]
  exact forall_congr' fun i => ⟨fun h hi => h (by omega), fun h hi => h (by omega)⟩

end Polls

/-! ## While the message is under way -/

variable {npes : ℕ} {bufBytes : ℤ} {source dest : ℕ} {m : Message} {comm : MpidComm}
  {w₀ w w' : OneSided.World Region}

/-- The source has not come to its put. -/
structure Issuing (source dest : ℕ) (m : Message) (w₀ w : OneSided.World Region) : Prop where
  solo : SoloInv source (w₀.mem source) m.copies [.put dest sharedBuffer m.origin m.bytes] w
  others : ∀ pe, pe ≠ source → ∀ op ∈ w.prog pe, op.Spares dest
  away : dest ≠ source → w.prog dest = [] ∧ w.toward dest = [] ∧ w.mem dest = w₀.mem dest

/-- The put is under way, or has landed. -/
structure Issued (source dest : ℕ) (m : Message) (w₀ w : OneSided.World Region) : Prop where
  arriving : Arriving dest (m.before source dest w₀) sharedBuffer (m.sent source w₀) w
  own : dest ≠ source → Arriving source (OneSided.solo (w₀.mem source) m.copies) sharedBuffer [] w

theorem copies_solo (m : Message) (source : ℕ) :
    ∀ op ∈ m.copies, op.Solo source ∧ op.isLocal = true := by
  unfold Message.copies
  split_ifs
  · exact List.forall_mem_singleton.mpr ⟨trivial, rfl⟩
  · exact List.forall_mem_cons.mpr ⟨⟨trivial, rfl⟩, List.forall_mem_singleton.mpr ⟨trivial, rfl⟩⟩

theorem issuing_start (hoff : comm.offset = 0) (hbuf : comm.bufferPtr = sharedBuffer)
    (h : Testing source dest m comm w) : Issuing source dest m w w where
  solo := SoloInv.start (fun pe hpe => h.spared pe hpe) (toward_eq_nil.mpr h.quiet)
    (h.sender.trans (isend_eq hoff hbuf)) fun op hop => (copies_solo m source op hop).1
  others pe hpe op hop := by
    by_cases hd : pe = dest
    · subst hd
      rw [h.waiting hpe] at hop
      cases hop
    · exact h.others pe hpe hd op hop
  away hne := ⟨h.waiting hne, toward_eq_nil.mpr h.flight, rfl⟩

theorem Issuing.prog_ne (h : Issuing source dest m w₀ w) : w.prog source ≠ [] := by
  obtain ⟨todo, hprog, -⟩ := h.solo.prog
  rw [hprog]
  exact List.append_ne_nil_of_right_ne_nil _ (List.cons_ne_nil _ _)

/-- As long as the source copies, the destination is left alone. -/
theorem Issuing.away_step {a : OneSided.Label} (hsource : source < npes)
    (h : Issuing source dest m w₀ w)
    (h' : SoloInv source (w₀.mem source) m.copies [.put dest sharedBuffer m.origin m.bytes] w')
    (hs : OneSided.step (shmem npes bufBytes) w a = some w') (hne : dest ≠ source) :
    w'.prog dest = [] ∧ w'.toward dest = [] ∧ w'.mem dest = w₀.mem dest := by
  obtain ⟨hprog, ht, hmem⟩ := h.away hne
  refine ⟨List.suffix_nil.mp (hprog ▸ prog_suffix hs dest), ?_⟩
  cases a with
  | run i =>
    obtain ⟨op, rest, w₁, hp, -, -, hact, rfl⟩ := step_run_eq_some hs
    have hi : i ≠ dest := by
      rintro rfl
      rw [hprog] at hp
      cases hp
    have hop : op.Spares dest := by
      by_cases hi : i = source
      · -- it is one of the copies, since the put is still to come
        subst hi
        obtain ⟨todo, htodo, hsolo, -⟩ := h.solo.prog
        obtain ⟨todo', htodo', -⟩ := h'.prog
        dsimp only at htodo'
        rw [Function.update_self] at htodo'
        rw [hp, htodo', ← List.cons_append] at htodo
        have hmem := hsolo op (List.append_cancel_right htodo ▸ List.mem_cons_self)
        cases op with
        | copy => trivial
        | get => trivial
        | _ => cases hmem
      · exact h.others i hi op (hp ▸ List.mem_cons_self)
    obtain ⟨hm, ht'⟩ := act_of_ne hi hop hact
    exact ⟨ht'.trans ht, hm.trans hmem⟩
  | land k =>
    obtain ⟨p, hp, rfl⟩ := step_land_eq_some hs
    have hpe : p.pe ≠ dest := toward_eq_nil.mp ht p (List.mem_of_getElem? hp)
    exact ⟨toward_eq_nil.mpr fun p' hp' => toward_eq_nil.mp ht p' (List.mem_of_mem_eraseIdx hp'),
      (Function.update_of_ne hpe.symm _ _).trans hmem⟩
  | barrier =>
    obtain ⟨hat, -, -⟩ := step_barrier_eq_some hs
    have hnot := h.solo.not_atBarrier (by simp [Op.isBarrier])
    rw [hat source hsource] at hnot
    cases hnot

/-- The put is issued. -/
theorem Issuing.put (h : Issuing source dest m w₀ w)
    (hmem : w.mem source = OneSided.solo (w₀.mem source) m.copies)
    (hprog : w'.prog = Function.update w.prog source []) (hw : w'.mem = w.mem)
    (hflight : w'.flight = w.flight ++ [⟨dest, sharedBuffer, m.sent source w₀⟩]) :
    Issued source dest m w₀ w' := by
  have hothers : ∀ pe, pe ≠ source → ∀ op ∈ w'.prog pe, op.Spares dest ∧ op.Spares source := by
    intro pe hpe op hop
    rw [hprog, Function.update_of_ne hpe] at hop
    exact ⟨h.others pe hpe op hop, h.solo.undisturbed pe hpe op hop⟩
  have hnil : w'.prog source = [] := by rw [hprog, Function.update_self]
  have htoward : ∀ pe, w'.toward pe = w.toward pe ++
      if dest = pe then [⟨dest, sharedBuffer, m.sent source w₀⟩] else [] := by
    intro pe
    unfold World.toward
    rw [hflight, List.filter_append]
    split_ifs with hd
    · rw [List.filter_cons_of_pos (by simpa using hd), List.filter_nil]
    · rw [List.filter_cons_of_neg (by simpa using hd), List.filter_nil]
  have hdest : w'.mem dest = m.before source dest w₀ ∧ w'.prog dest = [] ∧ w.toward dest = [] := by
    unfold Message.before
    rw [hw, hprog]
    split_ifs with hd
    · subst hd
      exact ⟨hmem, Function.update_self _ _ _, h.solo.toward⟩
    · obtain ⟨hp, ht, hm⟩ := h.away hd
      exact ⟨hm, (Function.update_of_ne hd _ _).trans hp, ht⟩
  obtain ⟨hm, hp, ht⟩ := hdest
  constructor
  · rw [← hm]
    refine Arriving.start (fun pe hpe op hop => ?_) hp ?_
    · by_cases hs : pe = source
      · subst hs
        rw [hnil] at hop
        cases hop
      · exact (hothers pe hs op hop).1
    · rw [htoward, ht, if_pos rfl, List.nil_append]
  · intro hne
    rw [← hmem, ← hw]
    refine Arriving.nothing (fun pe hpe op hop => (hothers pe hpe op hop).2) hnil ?_ sharedBuffer
    rw [htoward, h.solo.toward, if_neg hne]
    rfl

/-- The source has not come to its put, or the put is under way or has landed. -/
def PollInv (source dest : ℕ) (m : Message) (w₀ w : OneSided.World Region) : Prop :=
  Issuing source dest m w₀ w ∨ Issued source dest m w₀ w

theorem PollInv.step {a : OneSided.Label} (hsource : source < npes) (hdest : dest < npes)
    (h : PollInv source dest m w₀ w) (hs : OneSided.step (shmem npes bufBytes) w a = some w') :
    PollInv source dest m w₀ w' := by
  rcases h with h | h
  · have hothers : ∀ pe, pe ≠ source → ∀ op ∈ w'.prog pe, op.Spares dest :=
      fun pe hpe op hop => h.others pe hpe op ((prog_suffix hs pe).subset hop)
    rcases h.solo.step hsource (by simp [Op.isBarrier]) hs with
      h' | ⟨-, -, hmem, op, rest, w₁, htail, hact, rfl⟩
    · exact Or.inl ⟨h', hothers, h.away_step hsource h' hs⟩
    · obtain ⟨rfl, rfl⟩ := List.cons.inj htail
      obtain rfl := Option.some.inj hact
      refine Or.inr (h.put hmem rfl rfl ?_)
      show w.flight ++ [⟨dest, sharedBuffer, read (w.mem source) m.origin m.bytes⟩] = _
      rw [hmem]
      rfl
  · exact Or.inr ⟨h.arriving.step hdest hs, fun hne => (h.own hne).step hsource hs⟩

theorem toward_of_part {k i pe : ℕ} (hs : w.part k i = some w') (ht : w.toward pe = []) :
    w'.toward pe = [] := by
  obtain ⟨p, hp, -, -, hnew, -⟩ := part_eq_some hs
  rw [toward_eq_nil] at ht ⊢
  intro p' hp'
  rcases hnew p' hp' with hp' | rfl | rfl
  · exact ht p' hp'
  · exact ht p hp
  · exact ht p hp

theorem PollInv.part {k i : ℕ} (h : PollInv source dest m w₀ w) (hs : w.part k i = some w') :
    PollInv source dest m w₀ w' := by
  obtain ⟨p, hp, hmem, hprog, -⟩ := part_eq_some hs
  rcases h with h | h
  · refine Or.inl ⟨⟨?_, toward_of_part hs h.solo.toward, ?_⟩, ?_, fun hne => ?_⟩
    · unfold Undisturbed
      rw [hprog]
      exact h.solo.undisturbed
    · rw [hprog, hmem]
      exact h.solo.prog
    · rw [hprog]
      exact h.others
    · obtain ⟨hp', ht, hm⟩ := h.away hne
      rw [hprog, hmem]
      exact ⟨hp', toward_of_part hs ht, hm⟩
  · exact Or.inr ⟨h.arriving.part hs, fun hne => (h.own hne).part hs⟩

theorem pollInv_step {request : MpidRequest} (hsource : source < npes) (hdest : dest < npes)
    (w : OneSided.World Region) (e : PollEvent) (w' : OneSided.World Region)
    (h : PollInv source dest m w₀ w)
    (hs : pollStep (shmem npes bufBytes) source request w e = some w') :
    PollInv source dest m w₀ w' := by
  cases e with
  | step a => exact h.step hsource hdest hs
  | part k i => exact h.part hs
  | test =>
    unfold pollStep at hs
    dsimp only at hs
    split_ifs at hs with hpoll
    obtain rfl := Option.some.inj hs
    rcases h with h | h
    · exact absurd hpoll.1 h.prog_ne
    · exact Or.inr ⟨h.arriving.congr mpiTest_mem mpiTest_prog.1 mpiTest_prog.2,
        fun hne => (h.own hne).congr mpiTest_mem mpiTest_prog.1 mpiTest_prog.2⟩

/-- When the call has returned, the put is under way or has landed. -/
theorem issued_of_run {request : MpidRequest} (hsource : source < npes) (hdest : dest < npes)
    (hoff : comm.offset = 0) (hbuf : comm.bufferPtr = sharedBuffer)
    (h : Testing source dest m comm w) {es : List PollEvent}
    (hexec : exec (pollStep (shmem npes bufBytes) source request) w es = some w')
    (hdone : w'.prog source = []) : Issued source dest m w w' :=
  (exec_inv (pollInv_step hsource hdest) (Or.inl (issuing_start hoff hbuf h)) hexec).resolve_left
    fun h => h.prog_ne hdone

/-! ## What is sent and what is compared -/

/-- Byte `k` of what was in the buffer. -/
def Message.payload (m : Message) (source : ℕ) (w : OneSided.World Region) (k : ℕ) : UInt8 :=
  w.mem source (m.sendbuf.addr + (k : ℤ))

theorem length_sent (m : Message) (source : ℕ) (w : OneSided.World Region) :
    ((m.sent source w).length : ℤ) = m.bytes.toNat := by
  unfold Message.sent
  rw [length_read]

/-- What is sent is what was in the buffer, up to the end of a copy that is too short. -/
theorem sent_getElem {k : ℕ} (hk : k < (m.sent source w).length) : (m.sent source w)[k] =
    if shmemAddrAccessible m.sendbuf = false ∧ m.copyBytes ≤ k then
      w.mem source ⟨.buffer, m.copyBytes + k⟩
    else m.payload source w k := by
  refine (getElem_read hk).trans ?_
  rw [solo_copies]
  unfold Message.payload
  cases hacc : shmemAddrAccessible m.sendbuf with
  | true => simp
  | false =>
    by_cases hle : m.copyBytes ≤ k
    · rw [if_neg Bool.false_ne_true, if_pos ⟨rfl, hle⟩, write_read_of_not_covers]
      · rfl
      · rintro ⟨-, -, hlt⟩
        rw [add_offset] at hlt
        omega
    · rw [if_neg Bool.false_ne_true, if_neg (fun h => hle h.2)]
      exact write_read _ _ k (by omega)

/-- The `int` in the request is the one of that number in the buffer. -/
theorem solo_expected {i : ℕ} (hi : i < 4) (mem : Mem Region) :
    solo mem m.copies (expected + (i : ℤ)) =
      mem (m.sendbuf.addr + (4 * (m.count - 1) : ℤ) + (i : ℤ)) := by
  have hlast : ∀ mem' : Mem Region, write mem' expected (read mem' (lastInt m.sendbuf.addr m.count) 4)
      (expected + (i : ℤ)) = mem' (m.sendbuf.addr + (4 * (m.count - 1) : ℤ) + (i : ℤ)) :=
    fun mem' => write_read _ _ i (by omega)
  unfold Message.copies
  split_ifs
  · exact hlast mem
  · exact (hlast _).trans (write_of_region_ne (addr_region_ne_buffer m.sendbuf))

/-- While the put is under way, a poll compares the destination with what was in the buffer. -/
theorem Issued.flag_iff (hbuf : comm.bufferPtr = sharedBuffer) (hcount : 1 ≤ m.count)
    (h : Issued source dest m w₀ w) :
    (mpiTest w source (isendRequest m.count dest comm)).1 = true ↔
      ∀ k : ℕ, m.InCell k → w.mem dest (sharedBuffer + (k : ℤ)) = m.payload source w₀ k := by
  have hown : ∀ i : ℕ, i < 4 → w.mem source (expected + (i : ℤ)) =
      m.payload source w₀ ((4 * (m.count - 1)).toNat + i) := by
    intro i hi
    have hmem : w.mem source (expected + (i : ℤ)) =
        OneSided.solo (w₀.mem source) m.copies (expected + (i : ℤ)) := by
      by_cases hd : dest = source
      · subst hd
        have hregion : ¬ sharedBuffer.Covers (m.sent dest w₀).length (expected + (i : ℤ)) := by
          rintro ⟨hr, -⟩
          cases hr
        rw [h.arriving.kept _ hregion]
        unfold Message.before
        rw [if_pos rfl]
      · rw [(h.own hd).mem_eq]
    have hplace : (4 * (m.count - 1) : ℤ) + (i : ℤ) =
        (((4 * (m.count - 1)).toNat + i : ℕ) : ℤ) := by omega
    rw [hmem, solo_expected hi, add_add, hplace]
    rfl
  have hcell : ∀ i : ℕ, lastInt sharedBuffer m.count + (i : ℤ) =
      sharedBuffer + (((4 * (m.count - 1)).toNat + i : ℕ) : ℤ) := by
    intro i
    unfold lastInt
    rw [add_add]
    congr 1
    omega
  rw [mpiTest_flag]
  show (∀ i : ℕ, i < 4 → w.mem dest (lastInt comm.bufferPtr m.count + (i : ℤ)) = _) ↔ _
  rw [hbuf]
  constructor
  · rintro heq k ⟨hle, hlt⟩
    obtain ⟨i, rfl⟩ : ∃ i, k = (4 * (m.count - 1)).toNat + i :=
      ⟨k - (4 * (m.count - 1)).toNat, by omega⟩
    rw [← hcell, ← hown i (by omega)]
    exact heq i (by omega)
  · intro heq i hi
    have hin : m.InCell ((4 * (m.count - 1)).toNat + i) := ⟨by omega, by omega⟩
    exact (congrArg (w.mem dest) (hcell i)).trans ((heq _ hin).trans (hown i hi).symm)

theorem held_iff : m.Held source dest w₀ w ↔ ∀ k : ℕ, (k : ℤ) < m.bytes →
    w.mem dest (sharedBuffer + (k : ℤ)) = m.payload source w₀ k := read_eq_read

/-! ## When the flag tells the truth -/

section Told

variable (hoff : comm.offset = 0) (hbuf : comm.bufferPtr = sharedBuffer) (hcount : 1 ≤ m.count)

theorem sent_eq_payload (h : m.Told bufBytes source dest w) {k : ℕ}
    (hk : k < (m.sent source w).length) : (m.sent source w)[k] = m.payload source w k := by
  have hlen := length_sent m source w
  rw [sent_getElem hk]
  split_ifs with hshort
  · exact h.copied hshort.1 k hshort.2 (by omega)
  · rfl

include hbuf hcount in
/-- At any time, the flag is set if and only if the data is there. -/
theorem Issued.truthful (h : m.Told bufBytes source dest w₀) (hw : Issued source dest m w₀ w) :
    (mpiTest w source (isendRequest m.count dest comm)).1 = true ↔ m.Held source dest w₀ w := by
  have hlen := length_sent m source w₀
  rw [hw.flag_iff hbuf hcount, held_iff]
  constructor
  · intro hflag k hk
    rcases hw.arriving.arrived k (by omega) with harr | ⟨hold, -⟩
    · rw [harr]
      exact sent_eq_payload h _
    · by_cases hin : m.InCell k
      · exact hflag k hin
      · rw [hold]
        exact h.agree k (Or.inl ⟨hk, hin⟩)
  · intro hheld k hin
    by_cases hk : (k : ℤ) < m.bytes
    · exact hheld k hk
    · rw [hw.arriving.kept]
      · exact h.agree k (Or.inr ⟨hin, hk⟩)
      · rintro ⟨-, -, hlt⟩
        rw [add_offset] at hlt
        omega

include hoff hbuf hcount in
theorem truthful_of_told (hsource : source < npes) (hdest : dest < npes)
    (hw : Testing source dest m comm w) (h : m.Told bufBytes source dest w) :
    Truthful npes bufBytes source dest m comm w where
  sends := (ok_isend hoff hbuf hcount).mpr ⟨hdest, h.room.1, h.staging⟩
  polls := by
    have hroom := h.room.2
    unfold isendRequest
    dsimp only
    rw [hbuf, lastInt_eq, inside_buffer (by decide)]
    omega
  arrives es w' hexec hdone := by
    have hissued := issued_of_run hsource hdest hoff hbuf hw hexec hdone.1
    have hlen := length_sent m source w
    rw [held_iff]
    intro k hk
    rw [hissued.arriving.all (toward_eq_nil.mpr hdone.2) (by omega)]
    exact sent_eq_payload h _
  flag es w' hexec hdone :=
    (issued_of_run hsource hdest hoff hbuf hw hexec hdone).truthful hbuf hcount h

end Told

/-! ## Runs -/

theorem exec_pollStep {M : Machine Region} {request : MpidRequest} {ls : List OneSided.Label}
    (h : exec (OneSided.step M) w ls = some w') :
    exec (pollStep M source request) w (ls.map .step) = some w' := by
  induction ls generalizing w with
  | nil => exact h
  | cons a ls ih =>
    obtain ⟨w₁, hs, hrest⟩ := exec_cons_eq_some.mp h
    exact exec_cons_eq_some.mpr ⟨w₁, hs, ih hrest⟩

theorem localRun_isend (mem : Mem Region) :
    localRun mem (m.copies ++ [.put dest sharedBuffer m.origin m.bytes]) =
      (solo mem m.copies, [⟨dest, sharedBuffer, read (solo mem m.copies) m.origin m.bytes⟩]) := by
  unfold Message.copies
  split_ifs
  · rfl
  · rfl

section Runs

variable (hoff : comm.offset = 0) (hbuf : comm.bufferPtr = sharedBuffer) (hcount : 1 ≤ m.count)
  (hsource : source < npes) (hdest : dest < npes) (hw : Testing source dest m comm w)

include hoff hbuf hsource hw

/-- The call returns with the put in flight. -/
theorem exists_issued (request : MpidRequest)
    (hok : ∀ op ∈ m.isend dest comm, op.Ok (shmem npes bufBytes)) :
    ∃ es w₁, exec (pollStep (shmem npes bufBytes) source request) w es = some w₁ ∧
      w₁.prog source = [] ∧ w₁.mem dest = m.before source dest w ∧
      w₁.flight = w.flight ++ [⟨dest, sharedBuffer, m.sent source w⟩] := by
  have hlocal : ∀ op ∈ m.copies ++ [.put dest sharedBuffer m.origin m.bytes],
      op.Ok (shmem npes bufBytes) ∧ op.isLocal = true := by
    intro op hop
    refine ⟨hok op (isend_eq hoff hbuf ▸ hop), ?_⟩
    rcases List.mem_append.mp hop with hop | hop
    · exact (copies_solo m source op hop).2
    · rw [List.mem_singleton.mp hop]
      rfl
  have hsender : w.prog source = (m.copies ++ [.put dest sharedBuffer m.origin m.bytes]) ++ [] := by
    rw [hw.sender, isend_eq hoff hbuf, List.append_nil]
  obtain ⟨ls, w₁, hexec, hmem, hprog, hflight⟩ := exists_run_own hsource hsender hlocal
  rw [localRun_isend] at hmem hflight
  refine ⟨_, w₁, exec_pollStep hexec, ?_, ?_, hflight⟩
  · rw [hprog, Function.update_self]
  · rw [hmem]
    unfold Message.before
    split_ifs with hd
    · subst hd
      exact Function.update_self _ _ _
    · exact Function.update_of_ne hd _ _

variable (h : Truthful npes bufBytes source dest m comm w)

include h

/-- The put may land whole. -/
theorem Truthful.exists_delivered : ∃ es w', exec (pollStep (shmem npes bufBytes) source
    (isendRequest m.count dest comm)) w es = some w' ∧ Delivered source dest w' := by
  obtain ⟨es, w₁, hexec, hprog, -, hflight⟩ := exists_issued hoff hbuf hsource hw
    (isendRequest m.count dest comm) h.sends
  have hland := land_append (M := shmem npes bufBytes) hflight rfl
  refine ⟨es ++ [.step (.land w.flight.length)],
    { w₁ with flight := w.flight ++ [] }.store dest sharedBuffer (m.sent source w), ?_, hprog, ?_⟩
  · rw [exec_append, hexec]
    exact exec_cons_eq_some.mpr ⟨_, hland, rfl⟩
  · intro p hp
    change p ∈ w.flight ++ [] at hp
    rw [List.append_nil] at hp
    exact hw.flight p hp

/-- All bytes of the data but one may have arrived. -/
theorem Truthful.exists_all_but (k : ℕ) : ∃ es w', exec (pollStep (shmem npes bufBytes) source
    (isendRequest m.count dest comm)) w es = some w' ∧ w'.prog source = [] ∧
    w'.mem dest (sharedBuffer + (k : ℤ)) = m.before source dest w (sharedBuffer + (k : ℤ)) ∧
    ∀ (j : ℕ) (hj : j < (m.sent source w).length), j ≠ k →
      w'.mem dest (sharedBuffer + (j : ℤ)) = (m.sent source w)[j] := by
  obtain ⟨es, w₁, hexec, hprog, hmem, hflight⟩ := exists_issued hoff hbuf hsource hw
    (isendRequest m.count dest comm) h.sends
  obtain ⟨w₂, w₃, w₄, w₅, hpart, hpart', hland, hland', -, -, -, hprog', hkept, hothers⟩ :=
    OneSided.exists_all_but (M := shmem npes bufBytes) hflight k
  refine ⟨es ++ [.part w.flight.length k, .part (w.flight.length + 1) 1,
    .step (.land w.flight.length), .step (.land (w.flight.length + 1))], w₅, ?_, ?_, ?_, ?_⟩
  · rw [exec_append, hexec]
    exact exec_cons_eq_some.mpr ⟨_, hpart, exec_cons_eq_some.mpr ⟨_, hpart',
      exec_cons_eq_some.mpr ⟨_, hland, exec_cons_eq_some.mpr ⟨_, hland', rfl⟩⟩⟩⟩
  · rw [hprog', hprog]
  · rw [hkept, hmem]
  · exact hothers

include hcount hdest in
theorem Truthful.told : m.Told bufBytes source dest w := by
  have hlen := length_sent m source w
  obtain ⟨es, w', hexec, hdone⟩ := h.exists_delivered hoff hbuf hsource hw
  have hissued := issued_of_run hsource hdest hoff hbuf hw hexec hdone.1
  have hheld := h.arrives es w' hexec hdone
  have hsent : ∀ (k : ℕ) (hk : k < (m.sent source w).length),
      (m.sent source w)[k] = m.payload source w k := by
    intro k hk
    rw [← hissued.arriving.all (toward_eq_nil.mpr hdone.2) hk]
    exact held_iff.mp hheld k (by omega)
  -- behind the data, the destination keeps what it had
  have hbehind : ∀ {w'' : OneSided.World Region}, Issued source dest m w w'' → ∀ k : ℕ,
      ¬ (k : ℤ) < m.bytes → w''.mem dest (sharedBuffer + (k : ℤ)) =
        m.before source dest w (sharedBuffer + (k : ℤ)) := by
    intro w'' hissued k hk
    refine hissued.arriving.kept _ ?_
    rintro ⟨-, -, hlt⟩
    rw [add_offset] at hlt
    omega
  have hcell : ∀ k : ℕ, m.InCell k → ¬ (k : ℤ) < m.bytes →
      m.before source dest w (sharedBuffer + (k : ℤ)) = m.payload source w k := by
    intro k hin hk
    rw [← hbehind hissued k hk]
    exact (hissued.flag_iff hbuf hcount).mp ((h.flag es w' hexec hdone.1).mpr hheld) k hin
  obtain ⟨-, hroom, hstaging⟩ := (ok_isend hoff hbuf hcount).mp h.sends
  refine ⟨⟨hroom, ?_⟩, hstaging, fun hpriv k hle hk => ?_, fun k hk => ?_⟩
  · have hpolls := h.polls
    unfold isendRequest at hpolls
    dsimp only at hpolls
    rw [hbuf, lastInt_eq, inside_buffer (by decide)] at hpolls
    omega
  · have hk' : k < (m.sent source w).length := by omega
    have hbyte := hsent k hk'
    rw [sent_getElem hk', if_pos ⟨hpriv, hle⟩] at hbyte
    exact hbyte
  · rcases hk with ⟨hk, hout⟩ | ⟨hin, hk⟩
    · -- the flag is set as soon as the others have arrived
      obtain ⟨es', w'', hexec', hprog, hkept, hothers⟩ := h.exists_all_but hoff hbuf hsource hw k
      have hissued' := issued_of_run hsource hdest hoff hbuf hw hexec' hprog
      rw [← hkept]
      refine held_iff.mp ((h.flag es' w'' hexec' hprog).mp
        ((hissued'.flag_iff hbuf hcount).mpr fun j hj => ?_)) k hk
      by_cases hlt : (j : ℤ) < m.bytes
      · rw [hothers j (by omega) fun hjk => hout (hjk ▸ hj)]
        exact hsent j _
      · rw [hbehind hissued' j hlt]
        exact hcell j hj hlt
    · exact hcell k hin hk

end Runs

/-! ## Main result -/

/-- The flag tells the truth from `w` on if and only if there is room, and every byte that is one of
the data or of the `int` that is compared, but not of both, is at the destination already. -/
theorem truthful_iff (npes : ℕ) (bufBytes : ℤ) (source dest : ℕ) (m : Message) (comm : MpidComm)
    (w : OneSided.World Region) (hsource : source < npes) (hdest : dest < npes)
    (hoff : comm.offset = 0) (hbuf : comm.bufferPtr = sharedBuffer) (hcount : 1 ≤ m.count)
    (hw : Testing source dest m comm w) :
    Truthful npes bufBytes source dest m comm w ↔ m.Told bufBytes source dest w :=
  ⟨fun h => h.told hoff hbuf hcount hsource hdest hw,
    truthful_of_told hoff hbuf hcount hsource hdest hw⟩

theorem testing_idle (mem : ℕ → Mem Region) :
    Testing source dest m comm (calls (idle mem) source (m.isend dest comm)) where
  toSending := sending_idle mem
  spared pe h op hop := by
    rw [calls_prog_of_ne h] at hop
    cases hop
  quiet p hp := absurd hp List.not_mem_nil

attribute [local semireducible] wrapInt

/-- The first byte of the buffer that PE 0 sends is a one. -/
def firstOne (pe : ℕ) : Mem Region := fun q => if pe = 0 ∧ q = ⟨.heap, 0⟩ then 1 else 0

/-- Of two `int`s, 1 and 0, the second is in the zeroed memory of the destination before anything has
arrived. -/
theorem not_truthful_stale :
    let m : Message := ⟨.heap 0, .heap 0, 2, .int⟩
    let comm := mpiInit 2 0 ⟨.heap, 0⟩ ⟨.heap, 0⟩
    let w := calls (idle firstOne) 0 (m.isend 1 comm)
    Testing 0 1 m comm w ∧ ¬ Truthful 2 8 0 1 m comm w := by
  intro m comm w
  have hw : Testing 0 1 m comm w := testing_idle firstOne
  refine ⟨hw, fun h => ?_⟩
  have hagree := (h.told rfl rfl (by decide) (by decide) (by decide) hw).agree 0
    (Or.inl ⟨by decide, by unfold Message.InCell; decide⟩)
  exact absurd hagree (by decide)

/-- One `int` that is not in symmetric memory. -/
theorem truthful_one_int :
    let m : Message := ⟨.process 0, .heap 0, 1, .int⟩
    let comm := mpiInit 2 0 ⟨.heap, 0⟩ ⟨.heap, 0⟩
    Truthful 2 8 0 1 m comm (calls (idle firstOne) 0 (m.isend 1 comm)) := by
  intro m comm
  refine (truthful_iff 2 8 0 1 m comm _ (by decide) (by decide) rfl rfl (by decide)
    (testing_idle firstOne)).mpr ⟨by decide, fun _ => by decide, fun _ k hle hlt => ?_,
      fun k hk => ?_⟩
  · have hbytes : m.copyBytes = 4 ∧ m.bytes = 4 := by decide
    omega
  · have hbytes : m.bytes = 4 := by decide
    have hcell : m.InCell k ↔ 0 ≤ (k : ℤ) ∧ (k : ℤ) < 4 := Iff.rfl
    rw [hbytes, hcell] at hk
    rcases hk with ⟨hk, hout⟩ | ⟨hin, hk⟩ <;> omega

end MpiToShmem.Shmem
