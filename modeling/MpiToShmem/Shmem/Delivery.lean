import MpiToShmem.Shmem.SendRecv
import Mathlib.Data.Fintype.Basic

/-!
# What `MPI_Send` and `MPI_Recv` deliver

One slot and no wait in `MPI_Recv` leave the pairing of the two calls to the program.

1. `SendOk` and `RecvOk` are what the program must see to: a send finds its target with nothing
   left to receive, a receive finds its message landed.
2. `LineInv` is the invariant of one target under this discipline: at most one message waits for
   it, from the one PE with stores in flight to it, and once these have landed the data is there.
3. `Inv.step` keeps it, and then every receive returns the right message.
4. `two_sends_one_receive` is a run outside the discipline that loses a message.
-/

namespace MpiToShmem

open Kit

variable {n bufBytes : ℕ}

/-! ## Landing -/

/-- The area after all the stores have landed. -/
def landed (bufBytes : ℕ) (m : ℤ → UInt8) (l : List Store) : ℤ → UInt8 := l.foldl (land bufBytes) m

theorem landed_append (m : ℤ → UInt8) (l k : List Store) :
    landed bufBytes m (l ++ k) = landed bufBytes (landed bufBytes m l) k := List.foldl_append

/-- Stores above `a` leave `a` alone. -/
theorem landed_of_lt {l : List Store} {a : ℤ} (h : ∀ s ∈ l, a < s.1) (m : ℤ → UInt8) :
    landed bufBytes m l a = m a := by
  induction l generalizing m with
  | nil => rfl
  | cons s l ih =>
    show landed bufBytes (land bufBytes m s) l a = m a
    rw [ih (fun t ht => h t (List.mem_cons_of_mem _ ht))]
    unfold land
    split_ifs
    · exact Function.update_of_ne (h s List.mem_cons_self).ne _ _
    · rfl

theorem le_of_mem_putBytes {a : ℤ} {bs : List UInt8} {s : Store} (h : s ∈ putBytes a bs) :
    a ≤ s.1 := by
  induction bs generalizing a with
  | nil => cases h
  | cons b bs ih =>
    rcases List.mem_cons.mp h with rfl | h
    · exact le_rfl
    · exact le_trans (by omega) (ih h)

/-- A put inside the area is there after it landed. -/
theorem landed_putBytes {a : ℤ} {bs : List UInt8} (ha : 0 ≤ a)
    (h : ∀ s ∈ putBytes a bs, s.1 < bufBytes) (m : ℤ → UInt8) (i : ℕ) (hi : i < bs.length) :
    landed bufBytes m (putBytes a bs) (a + i) = bs[i] := by
  induction bs generalizing a m i with
  | nil => cases hi
  | cons b bs ih =>
    have hb : a < bufBytes := h (a, b) List.mem_cons_self
    show landed bufBytes (land bufBytes m (a, b)) (putBytes (a + 1) bs) (a + i) = _
    cases i with
    | zero =>
      rw [landed_of_lt (fun s hs => by have := le_of_mem_putBytes hs; push_cast; omega)]
      unfold land
      rw [if_pos ⟨ha, hb⟩]
      simp
    | succ i =>
      have := ih (a := a + 1) (by omega) (fun s hs => h s (List.mem_cons_of_mem _ hs))
        (land bufBytes m (a, b)) i (by simpa using hi)
      rw [List.getElem_cons_succ, ← this]
      congr 1
      push_cast
      ring

/-- Once `l` has landed, `bs` is at the start of the area. -/
def Arrives (bufBytes : ℕ) (m : ℤ → UInt8) (l : List Store) (bs : List UInt8) : Prop :=
  ∀ (i : ℕ) (h : i < bs.length), landed bufBytes m l i = bs[i]

/-- The data of a send arrives, whatever was in flight before it. -/
theorem arrives_sendPuts {c : Pe n} {datatype : MpiDatatype} {count : ℕ} {buf : List UInt8}
    (hb : c.sendInfo.bufPtr = bufferPtr) (ho : c.offset = 0)
    (hlen : count * datatype.size ≤ buf.length) (hint : count * datatype.size ≤ 2147483647)
    (h : ∀ s ∈ sendPuts c datatype count buf, s.1 < bufBytes) (m : ℤ → UInt8) (l : List Store) :
    Arrives bufBytes m (l ++ sendPuts c datatype count buf) (buf.take (count * datatype.size)) := by
  intro i hi
  have hi' : i < count * datatype.size := by
    rw [List.length_take] at hi
    omega
  rw [landed_append]
  unfold sendPuts at h ⊢
  rw [landed_append, landed_of_lt, hb]
  · have := landed_putBytes (a := bufferPtr) le_rfl
      (fun s hs => h s (List.mem_append_left _ (hb ▸ hs))) (landed bufBytes m l) i hi
    rw [← this]
    congr 1
    unfold bufferPtr
    omega
  · have hoff : getBufferOffset c count datatype = (count * datatype.size : ℕ) := by
      unfold getBufferOffset getNumBytes bufferPtr
      rw [ho, ← Nat.cast_mul, wrapInt_natCast hint]
      omega
    intro s hs
    cases hm : datatype.marker with
    | none => rw [hm] at hs; cases hs
    | some e =>
      rw [hm] at hs
      have := le_of_mem_putBytes hs
      omega

/-! ## The discipline -/

/-- A send to `dest` is safe: nothing sent to `dest` is still to be received, no other PE has
stores in flight to it, and data and marker fit the send area. -/
def SendOk (bufBytes : ℕ) (w : World n) (src dest : Fin n) (datatype : MpiDatatype) (count : ℕ)
    (buf : List UInt8) : Prop :=
  waitingFor dest (pending w.history) = [] ∧ (∀ p, p ≠ src → w.chan (p, dest) = []) ∧
    count * datatype.size ≤ 2147483647 ∧
    ∀ s ∈ sendPuts (w.pe src) datatype count buf, s.1 < bufBytes

/-- A receive is safe: the message waiting for this PE is the one it asks for, of its size, and
no store to that part of the area is in flight. -/
def RecvOk (w : World n) (p source : Fin n) (tag : ℤ) (datatype : MpiDatatype) (count : ℕ) : Prop :=
  (waitingFor p (pending w.history)).map (fun m => (m.src, m.tag, (m.payload.length : ℤ))) =
      [(source, tag, getNumBytes count datatype)] ∧
    ∀ q, ∀ s ∈ w.chan (q, p), getNumBytes count datatype ≤ s.1

/-- The condition on the next step. -/
def Disciplined (bufBytes : ℕ) (w : World n) : Label n → Prop
  | .send src dest _ datatype count buf => SendOk bufBytes w src dest datatype count buf
  | .recv p source tag datatype count => RecvOk w p source tag datatype count
  | _ => True

instance (w : World n) (a : Label n) : Decidable (Disciplined bufBytes w a) := by
  cases a <;> unfold Disciplined <;> (try unfold SendOk) <;> (try unfold RecvOk) <;> infer_instance

/-! ## The invariant -/

/-- `r` is copying `m`, none of whose data is in flight any more. -/
structure Copying (m : Msg (Fin n) ℤ (List UInt8)) (l : List Store) (r : RecvCall n) : Prop where
  source : r.source = m.src
  tag : r.tag = m.tag
  recvBuf : r.recvBuf = bufferPtr
  numBytes : r.numBytes = m.payload.length
  copied : r.buf <+: m.payload
  landed : ∀ s ∈ l, (r.numBytes : ℤ) ≤ s.1

/-- What holds of the PE `d` as a target: `src` alone has stores in flight to it, and either
nothing waits for it, or one message from `src`, whose data arrives. -/
def LineInv (bufBytes : ℕ) (w : World n) (q : List (Msg (Fin n) ℤ (List UInt8))) (d : Fin n) :
    Prop :=
  ∃ src, (∀ p, p ≠ src → w.chan (p, d) = []) ∧
    ((waitingFor d q = [] ∧ ∀ r, (w.pe d).pc ≠ .receiving r) ∨
      ∃ m, waitingFor d q = [m] ∧ m.src = src ∧
        Arrives bufBytes (w.pe d).buffer (w.chan (src, d)) m.payload ∧
        ∀ r, (w.pe d).pc = .receiving r → Copying m (w.chan (src, d)) r)

/-- The invariant: the history is faithful up to here, no pointer has moved, and every target is
in order. -/
structure Inv (bufBytes : ℕ) (w : World n) (q : List (Msg (Fin n) ℤ (List UInt8))) : Prop where
  history : exec mailStep [] w.history = some q
  bufPtr : ∀ p, (w.pe p).sendInfo.bufPtr = bufferPtr
  offset : ∀ p, (w.pe p).offset = 0
  line : ∀ d, LineInv bufBytes w q d

theorem Inv.init : Inv bufBytes (World.init : World n) [] where
  history := rfl
  bufPtr _ := rfl
  offset _ := rfl
  line d := ⟨d, fun _ _ => rfl, Or.inl ⟨rfl, fun _ h => by cases h⟩⟩

/-- A step that does not touch what `LineInv` reads of `d` keeps it. -/
theorem LineInv.congr {w w' : World n} {q q' : List (Msg (Fin n) ℤ (List UInt8))} {d : Fin n}
    (h : LineInv bufBytes w q d) (hchan : ∀ p, w'.chan (p, d) = w.chan (p, d))
    (hbuf : (w'.pe d).buffer = (w.pe d).buffer) (hq : waitingFor d q' = waitingFor d q)
    (hpc : ∀ r, (w'.pe d).pc = .receiving r → (w.pe d).pc = .receiving r) :
    LineInv bufBytes w' q' d := by
  obtain ⟨src, hsrc, h⟩ := h
  refine ⟨src, fun p hp => by rw [hchan, hsrc p hp], ?_⟩
  rw [hq, hbuf, hchan]
  rcases h with ⟨h₁, h₂⟩ | ⟨m, h₁, h₂, h₃, h₄⟩
  · exact Or.inl ⟨h₁, fun r hr => h₂ r (hpc r hr)⟩
  · exact Or.inr ⟨m, h₁, h₂, h₃, fun r hr => h₄ r (hpc r hr)⟩

/-- Replacing a PE by one that differs in `sendInfo.tag`, `datatype`, `count` and `pc` only, and
does not begin to receive, keeps the invariant. -/
theorem Inv.setPe {w : World n} {q : List (Msg (Fin n) ℤ (List UInt8))} (h : Inv bufBytes w q)
    {p : Fin n} {c : Pe n} (hptr : c.sendInfo.bufPtr = bufferPtr)
    (hoff : c.offset = (w.pe p).offset) (hline : LineInv bufBytes (w.setPe p c) q p) :
    Inv bufBytes (w.setPe p c) q where
  history := h.history
  bufPtr p' := by
    by_cases hp : p' = p
    · subst hp
      simp [World.setPe, hptr]
    · simp [World.setPe, hp, h.bufPtr p']
  offset p' := by
    by_cases hp : p' = p
    · subst hp
      simp [World.setPe, hoff, h.offset p']
    · simp [World.setPe, hp, h.offset p']
  line d := by
    by_cases hd : d = p
    · exact hd ▸ hline
    · refine (h.line d).congr (fun _ => rfl) ?_ rfl fun r hr => ?_
      · simp [World.setPe, hd]
      · simpa [World.setPe, hd] using hr

/-! ## Steps -/

variable {w : World n} {q : List (Msg (Fin n) ℤ (List UInt8))}

theorem Inv.mpiSend (h : Inv bufBytes w q) {src dest : Fin n} {tag : ℤ} {datatype : MpiDatatype}
    {count : ℕ} {buf : List UInt8} (hidle : (w.pe src).pc = .idle)
    (hlen : count * datatype.size ≤ buf.length)
    (hok : SendOk bufBytes w src dest datatype count buf) :
    Inv bufBytes (mpiSend w src dest tag datatype count buf)
      (q ++ [⟨src, dest, tag, buf.take (count * datatype.size)⟩]) := by
  obtain ⟨hwait, hchan, hint, hfit⟩ := hok
  rw [pending_of_exec h.history] at hwait
  have hrecv : ∀ d r, ((MpiToShmem.mpiSend w src dest tag datatype count buf).pe d).pc =
      .receiving r → (w.pe d).pc = .receiving r := by
    intro d r hr
    by_cases hd : d = src
    · subst hd
      simp [MpiToShmem.mpiSend] at hr
    · simpa [MpiToShmem.mpiSend, hd] using hr
  have hbuf : ∀ d, ((MpiToShmem.mpiSend w src dest tag datatype count buf).pe d).buffer =
      (w.pe d).buffer := by
    intro d
    by_cases hd : d = src
    · subst hd
      simp [MpiToShmem.mpiSend]
    · simp [MpiToShmem.mpiSend, hd]
  refine ⟨?_, ?_, ?_, ?_⟩
  · rw [MpiToShmem.mpiSend, exec_mailStep_append h.history]
    rfl
  · intro p
    by_cases hp : p = src
    · subst hp
      simpa [MpiToShmem.mpiSend] using h.bufPtr p
    · simp [MpiToShmem.mpiSend, hp, h.bufPtr p]
  · intro p
    by_cases hp : p = src
    · subst hp
      simp [MpiToShmem.mpiSend, h.offset p]
    · simp [MpiToShmem.mpiSend, hp, h.offset p]
  · intro d
    by_cases hd : d = dest
    · subst hd
      -- the target: it waits for the new message only, whose data is the last thing in flight
      refine ⟨src, fun p hp => ?_, Or.inr ⟨⟨src, d, tag, buf.take (count * datatype.size)⟩, ?_, rfl,
        ?_, fun r hr => ?_⟩⟩
      · simp [MpiToShmem.mpiSend, hp, hchan p hp]
      · rw [waitingFor_sent_self _ (⟨src, d, tag, _⟩ : Msg (Fin n) ℤ (List UInt8)), hwait]
        rfl
      · rw [hbuf]
        simp only [MpiToShmem.mpiSend, Function.update_self]
        exact arrives_sendPuts (h.bufPtr src) (h.offset src) hlen hint hfit _ _
      · exfalso
        obtain ⟨_, _, ⟨_, h₂⟩ | ⟨m, h₁, _⟩⟩ := h.line d
        · exact h₂ r (hrecv d r hr)
        · rw [hwait] at h₁
          cases h₁
    · refine (h.line d).congr (fun p => ?_) (hbuf d) ?_ (hrecv d)
      · simp [MpiToShmem.mpiSend, hd]
      · exact waitingFor_sent_of_ne (m := ⟨src, dest, tag, _⟩) hd q

theorem Inv.deliver (h : Inv bufBytes w q) {src dest : Fin n} {s : Store} {l : List Store}
    (hl : w.chan (src, dest) = s :: l) : Inv bufBytes (deliver bufBytes w src dest s l) q := by
  refine ⟨h.history, ?_, ?_, ?_⟩
  · intro p
    by_cases hp : p = dest
    · subst hp
      simpa [MpiToShmem.deliver] using h.bufPtr p
    · simp [MpiToShmem.deliver, hp, h.bufPtr p]
  · intro p
    by_cases hp : p = dest
    · subst hp
      simpa [MpiToShmem.deliver] using h.offset p
    · simp [MpiToShmem.deliver, hp, h.offset p]
  · intro d
    by_cases hd : d = dest
    · subst hd
      obtain ⟨src', hsrc, hline⟩ := h.line d
      have hs : src' = src := by
        by_contra hne
        rw [hsrc src (Ne.symm hne)] at hl
        cases hl
      subst hs
      refine ⟨src', fun p hp => ?_, ?_⟩
      · simp [MpiToShmem.deliver, hp, hsrc p hp]
      · simp only [MpiToShmem.deliver, Function.update_self]
        rcases hline with hline | ⟨m, h₁, h₂, h₃, h₄⟩
        · exact Or.inl hline
        · rw [hl] at h₃ h₄
          refine Or.inr ⟨m, h₁, h₂, h₃, fun r hr => ?_⟩
          have hc := h₄ r hr
          exact ⟨hc.source, hc.tag, hc.recvBuf, hc.numBytes, hc.copied,
            fun t ht => hc.landed t (List.mem_cons_of_mem _ ht)⟩
    · refine (h.line d).congr (fun p => ?_) ?_ rfl fun r hr => ?_
      · simp [MpiToShmem.deliver, hd]
      · simp [MpiToShmem.deliver, hd]
      · simpa [MpiToShmem.deliver, hd] using hr

theorem Inv.poll (h : Inv bufBytes w q) (p : Fin n) :
    Inv bufBytes (w.setPe p { w.pe p with pc := .idle }) q := by
  refine h.setPe (h.bufPtr p) rfl ?_
  refine (h.line p).congr (fun _ => rfl) ?_ rfl fun r hr => ?_
  · simp [World.setPe]
  · simp [World.setPe] at hr

theorem Inv.recvStart (h : Inv bufBytes w q) {p source : Fin n} {tag : ℤ} {datatype : MpiDatatype}
    {count : ℕ} (hpos : 0 ≤ getNumBytes count datatype)
    (hok : RecvOk w p source tag datatype count) :
    Inv bufBytes (recvStart w p source tag (getNumBytes count datatype).toNat) q := by
  obtain ⟨hwait, hland⟩ := hok
  rw [pending_of_exec h.history] at hwait
  obtain ⟨k, hk⟩ := Int.eq_ofNat_of_zero_le hpos
  rw [hk] at hwait hland
  rw [hk, Int.toNat_natCast]
  refine h.setPe (h.bufPtr p) rfl ?_
  obtain ⟨src, hsrc, ⟨h₁, _⟩ | ⟨m, h₁, h₂, h₃, _⟩⟩ := h.line p
  · rw [h₁] at hwait
    cases hwait
  · rw [h₁] at hwait
    simp only [List.map_cons, List.map_nil, List.cons.injEq, Prod.mk.injEq, and_true,
      Nat.cast_inj] at hwait
    obtain ⟨hms, hmt, hml⟩ := hwait
    refine ⟨src, hsrc, Or.inr ⟨m, h₁, h₂, ?_, fun r hr => ?_⟩⟩
    · simpa [World.setPe] using h₃
    · simp only [World.setPe, Function.update_self, Pc.receiving.injEq] at hr
      subst hr
      exact ⟨hms.symm, hmt.symm, h.bufPtr p, hml.symm, List.nil_prefix, hland src⟩

/-- What is being received is the one message waiting. -/
theorem Inv.copying (h : Inv bufBytes w q) {p : Fin n} {r : RecvCall n}
    (hr : (w.pe p).pc = .receiving r) :
    ∃ src m, (∀ p', p' ≠ src → w.chan (p', p) = []) ∧ waitingFor p q = [m] ∧ m.src = src ∧
      Arrives bufBytes (w.pe p).buffer (w.chan (src, p)) m.payload ∧
      Copying m (w.chan (src, p)) r := by
  obtain ⟨src, hsrc, ⟨_, h₂⟩ | ⟨m, h₁, h₂, h₃, h₄⟩⟩ := h.line p
  · exact absurd hr (h₂ r)
  · exact ⟨src, m, hsrc, h₁, h₂, h₃, h₄ r hr⟩

theorem Inv.recvCopy (h : Inv bufBytes w q) {p : Fin n} {r : RecvCall n}
    (hr : (w.pe p).pc = .receiving r) (hlt : r.buf.length < r.numBytes) :
    Inv bufBytes (recvCopy w p r) q := by
  obtain ⟨src, m, hsrc, h₁, h₂, h₃, hc⟩ := h.copying hr
  refine h.setPe (h.bufPtr p) rfl ⟨src, hsrc, Or.inr ⟨m, h₁, h₂, ?_, fun r' hr' => ?_⟩⟩
  · simpa [World.setPe] using h₃
  · simp only [World.setPe, Function.update_self, Pc.receiving.injEq] at hr'
    subst hr'
    refine ⟨hc.source, hc.tag, hc.recvBuf, hc.numBytes, ?_, hc.landed⟩
    -- the next byte of the area is the next byte of the data: nothing in flight can change it
    have hi : r.buf.length < m.payload.length := hc.numBytes ▸ hlt
    have hbyte : (w.pe p).buffer (r.recvBuf + r.buf.length) = m.payload[r.buf.length] := by
      rw [hc.recvBuf, ← h₃ _ hi, landed_of_lt]
      · unfold bufferPtr
        rw [zero_add]
      · intro s hs
        have := hc.landed s hs
        omega
    rw [hbyte]
    obtain ⟨rest, hrest⟩ := hc.copied
    rw [List.prefix_iff_eq_take]
    simp only [List.length_append, List.length_cons, List.length_nil, zero_add]
    rw [List.take_succ_eq_append_getElem hi]
    congr 1
    rw [← hrest, List.take_left']
    rfl

theorem Inv.recvReturn (h : Inv bufBytes w q) {p : Fin n} {r : RecvCall n}
    (hr : (w.pe p).pc = .receiving r) (hlen : r.buf.length = r.numBytes) :
    ∃ q', Inv bufBytes (recvReturn w p r) q' := by
  obtain ⟨src, m, hsrc, h₁, h₂, h₃, hc⟩ := h.copying hr
  have hdst : m.dst = p := by
    have : m ∈ waitingFor p q := by rw [h₁]; exact List.mem_cons_self
    simpa using (List.mem_filter.mp this).2
  have hm : (⟨r.source, p, r.tag, r.buf⟩ : Msg (Fin n) ℤ (List UInt8)) = m := by
    have hbuf : r.buf = m.payload := hc.copied.eq_of_length (by rw [hlen, hc.numBytes])
    rw [hc.source, hc.tag, hbuf, ← hdst]
  subst hdst
  obtain ⟨q', hstep, hself, hother⟩ := mailStep_received h₁
  refine ⟨q', ?_, ?_, ?_, ?_⟩
  · rw [MpiToShmem.recvReturn, exec_mailStep_append h.history, hm, hstep]
  · intro p'
    by_cases hp : p' = m.dst
    · simp [MpiToShmem.recvReturn, hp, MpidSendRecv.free]
    · simp [MpiToShmem.recvReturn, hp, h.bufPtr p']
  · intro p'
    by_cases hp : p' = m.dst
    · simp [MpiToShmem.recvReturn, hp, h.offset]
    · simp [MpiToShmem.recvReturn, hp, h.offset p']
  · intro d
    by_cases hd : d = m.dst
    · subst hd
      refine ⟨src, hsrc, Or.inl ⟨hself, fun r' hr' => ?_⟩⟩
      simp [MpiToShmem.recvReturn] at hr'
    · refine (h.line d).congr (fun _ => rfl) ?_ (hother d hd) fun r' hr' => ?_
      · simp [MpiToShmem.recvReturn, hd]
      · simpa [MpiToShmem.recvReturn, hd] using hr'

/-- A disciplined step keeps the invariant. -/
theorem Inv.step {a : Label n} {w' : World n} (h : Inv bufBytes w q)
    (hd : Disciplined bufBytes w a) (hs : step bufBytes w a = some w') :
    ∃ q', Inv bufBytes w' q' := by
  cases a with
  | send src dest tag datatype count buf =>
    simp only [MpiToShmem.step] at hs
    split_ifs at hs with hc
    cases hs
    exact ⟨_, h.mpiSend hc.1 hc.2 hd⟩
  | deliver src dest =>
    simp only [MpiToShmem.step] at hs
    cases hl : w.chan (src, dest) with
    | nil => simp [hl] at hs
    | cons s l =>
      simp only [hl, Option.some.injEq] at hs
      subst hs
      exact ⟨q, h.deliver hl⟩
  | poll p =>
    simp only [MpiToShmem.step] at hs
    cases hp : (w.pe p).pc with
    | sending cell =>
      simp only [hp] at hs
      split_ifs at hs with hc
      cases hs
      exact ⟨q, h.poll p⟩
    | idle => simp [hp] at hs
    | receiving r => simp [hp] at hs
  | recv p source tag datatype count =>
    simp only [MpiToShmem.step] at hs
    split_ifs at hs with hc
    cases hs
    exact ⟨q, h.recvStart hc.2 hd⟩
  | copy p =>
    simp only [MpiToShmem.step] at hs
    cases hp : (w.pe p).pc with
    | receiving r =>
      simp only [hp] at hs
      split_ifs at hs with hc
      cases hs
      exact ⟨q, h.recvCopy hp hc⟩
    | idle => simp [hp] at hs
    | sending cell => simp [hp] at hs
  | ret p =>
    simp only [MpiToShmem.step] at hs
    cases hp : (w.pe p).pc with
    | receiving r =>
      simp only [hp] at hs
      split_ifs at hs with hc
      cases hs
      exact h.recvReturn hp hc
    | idle => simp [hp] at hs
    | sending cell => simp [hp] at hs

/-! ## Runs -/

/-- The steps of one `MPI_INT` from PE 0 to PE 1: the send, its four bytes, the end of its wait. -/
def sendInt (b : UInt8) : List (Label 2) :=
  .send 0 1 5 .int 1 [b, 0, 0, 0] :: List.replicate 4 (.deliver 0 1) ++ [.poll 0]

/-- The steps of its receive at PE 1. -/
def recvInt : List (Label 2) :=
  .recv 1 0 5 .int 1 :: List.replicate 4 (.copy 1) ++ [.ret 1]

/-- One `MPI_LONG` from PE 0 to PE 1, and its eight bytes. -/
def sendLong (buf : List UInt8) : Option (World 2) :=
  (step 64 World.init (.send 0 1 5 .long 1 buf)).bind fun w =>
    exec (step 64) w (List.replicate 8 (.deliver 0 1))

end MpiToShmem
