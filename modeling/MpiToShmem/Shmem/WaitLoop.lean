import MpiToShmem.Shmem.Delivery

/-!
# The wait loop of `MPI_Send`

A send polls a cell of its target until it reads what it expects there. The value that it reads is
held in an `int`, whatever the width of the cell.

1. `stored`, `Visible`: what a send leaves on its target, and that it is there.
2. `visible_of_landed`: it is there once its stores have landed and no other PE stored meanwhile.
3. `leaves_iff`: then the next poll leaves the loop, unless the last element is a 64-bit integer
   that is no `int`.
-/

namespace MpiToShmem

open Kit

variable {n bufBytes : ℕ}

/-! ## What a send leaves on its target -/

/-- The last byte that the stores leave at `a`. -/
def stored (a : ℤ) : List Store → Option UInt8
  | [] => none
  | s :: l => (stored a l).or (if s.1 = a then some s.2 else none)

/-- Wherever the stores go, `dest` has what they leave. -/
def Visible (w : World n) (dest : Fin n) (puts : List Store) : Prop :=
  ∀ s ∈ puts, stored s.1 puts = some ((w.pe dest).buffer s.1)

instance (w : World n) (dest : Fin n) (puts : List Store) : Decidable (Visible w dest puts) :=
  inferInstanceAs (Decidable (∀ s ∈ puts, stored s.1 puts = some ((w.pe dest).buffer s.1)))

/-- The last element of a message, as a signed integer. -/
def lastElement (datatype : MpiDatatype) (count : ℕ) (buf : List UInt8) : ℤ :=
  leInt ((buf.drop ((count - 1) * datatype.size)).take datatype.size)

/-- The last element of a message of 64-bit integers is an `int`. -/
def FitsFlag (datatype : MpiDatatype) (count : ℕ) (buf : List UInt8) : Prop :=
  datatype ∈ [.long, .unsignedLong, .longLong] → IsInt (lastElement datatype count buf)

theorem stored_append {a : ℤ} {l k : List Store} :
    stored a (l ++ k) = (stored a k).or (stored a l) := by
  induction l with
  | nil => exact (Option.or_none).symm
  | cons s l ih =>
    rw [List.cons_append, stored, stored, ih, Option.or_assoc]

theorem mem_of_stored {a : ℤ} {l : List Store} {b : UInt8} (h : stored a l = some b) :
    ∃ s ∈ l, s.1 = a := by
  induction l with
  | nil => cases h
  | cons s l ih =>
    rw [stored, Option.or_eq_some_iff] at h
    rcases h with h | ⟨-, h⟩
    · obtain ⟨t, ht, hta⟩ := ih h
      exact ⟨t, List.mem_cons_of_mem _ ht, hta⟩
    · refine ⟨s, List.mem_cons_self, ?_⟩
      by_contra hne
      rw [if_neg hne] at h
      cases h

theorem stored_putBytes {a : ℤ} {bs : List UInt8} {i : ℕ} (hi : i < bs.length) :
    stored (a + i) (putBytes a bs) = some bs[i] := by
  induction bs generalizing a i with
  | nil => cases hi
  | cons b bs ih =>
    rw [putBytes, stored]
    cases i with
    | zero =>
      have hrest : stored (a + (0 : ℕ)) (putBytes (a + 1) bs) = none := by
        rw [Option.eq_none_iff_forall_ne_some]
        intro c hc
        obtain ⟨s, hs, hsa⟩ := mem_of_stored hc
        have hle := le_of_mem_putBytes hs
        push_cast at hsa
        omega
      rw [hrest, Option.none_or, if_pos (by simp)]
      rfl
    | succ i =>
      have hstep : a + (i + 1 : ℕ) = a + 1 + i := by push_cast; ring
      rw [hstep, ih (by simpa using hi), Option.some_or]
      rfl

theorem landed_eq {l : List Store} (h : ∀ s ∈ l, 0 ≤ s.1 ∧ s.1 < bufBytes) (m : ℤ → UInt8)
    (a : ℤ) : landed bufBytes m l a = (stored a l).getD (m a) := by
  induction l generalizing m with
  | nil => rfl
  | cons s l ih =>
    show landed bufBytes (land bufBytes m s) l a = _
    rw [ih (fun t ht => h t (List.mem_cons_of_mem _ ht)), stored]
    unfold land
    rw [if_pos (h s List.mem_cons_self)]
    cases stored a l with
    | some b => rfl
    | none =>
      by_cases hsa : s.1 = a
      · subst hsa
        simp
      · simp [hsa, Ne.symm hsa]

theorem exists_stored {s : Store} {l : List Store} (h : s ∈ l) : ∃ b, stored s.1 l = some b := by
  induction l with
  | nil => cases h
  | cons t l ih =>
    rw [stored]
    rcases List.mem_cons.mp h with rfl | h
    · cases stored s.1 l with
      | some b => exact ⟨b, rfl⟩
      | none => exact ⟨s.2, by simp⟩
    · obtain ⟨b, hb⟩ := ih h
      exact ⟨b, by rw [hb, Option.some_or]⟩

theorem readBytes_eq (m : ℤ → UInt8) (a : ℤ) (width : ℕ) :
    readBytes m a width = (List.range width).map fun i : ℕ => m (a + (i : ℤ)) := by
  simp [readBytes, List.map_eq_flatMap, List.flatMap_assoc]

/-- The bytes of the last put are there. -/
theorem readBytes_of_visible {w : World n} {dest : Fin n} {l : List Store} {a : ℤ}
    {bs : List UInt8} (h : Visible w dest (l ++ putBytes a bs)) (start width : ℕ)
    (hend : start + width ≤ bs.length) :
    readBytes (w.pe dest).buffer (a + start) width = (bs.drop start).take width := by
  rw [readBytes_eq]
  apply List.ext_getElem
  · rw [List.length_map, List.length_range, List.length_take, List.length_drop]
    omega
  · intro i hi _
    have hiw : i < width := by simpa using hi
    have hib : start + i < bs.length := by omega
    have hst : stored (a + (start + i : ℕ)) (l ++ putBytes a bs) = some bs[start + i] := by
      rw [stored_append, stored_putBytes hib, Option.some_or]
    obtain ⟨s, hs, hsa⟩ := mem_of_stored hst
    have hthere := h s hs
    rw [hsa, hst] at hthere
    have hadd : a + (start : ℤ) + (i : ℤ) = a + (start + i : ℕ) := by push_cast; ring
    simp only [List.getElem_map, List.getElem_range, List.getElem_take, List.getElem_drop]
    rw [hadd, Option.some_inj.mp hthere]

/-! ## In the loop -/

variable {w w₁ w₂ : World n} {src dest : Fin n} {cell : Option (Poll n)} {a : Label n}
  {ls : List (Label n)}

/-- A step is a send of a PE outside of any call, a store that lands, or a step of one PE that
touches neither its area nor the network. -/
theorem step_cases (h : step bufBytes w a = some w₁) :
    (∃ p d tag datatype count buf, (w.pe p).pc = .idle ∧
        w₁ = mpiSend w p d tag datatype count buf) ∨
      (∃ p d s l, a = .deliver p d ∧ w.chan (p, d) = s :: l ∧ w₁ = deliver bufBytes w p d s l) ∨
      ∃ p c, (a = .poll p ∨ ∀ cell, (w.pe p).pc ≠ .sending cell) ∧
        w₁.pe = Function.update w.pe p c ∧ c.buffer = (w.pe p).buffer ∧ w₁.chan = w.chan := by
  cases a with
  | send p d tag datatype count buf =>
    simp only [step] at h
    split_ifs at h with hc
    cases h
    exact Or.inl ⟨p, d, tag, datatype, count, buf, hc.1, rfl⟩
  | deliver p d =>
    simp only [step] at h
    cases hl : w.chan (p, d) with
    | nil => simp [hl] at h
    | cons s l =>
      simp only [hl, Option.some.injEq] at h
      exact Or.inr (Or.inl ⟨p, d, s, l, rfl, hl, h.symm⟩)
  | poll p =>
    simp only [step] at h
    cases hp : (w.pe p).pc with
    | sending cell =>
      simp only [hp] at h
      split_ifs at h
      cases h
      exact Or.inr (Or.inr ⟨p, _, Or.inl rfl, rfl, rfl, rfl⟩)
    | idle => simp [hp] at h
    | receiving r => simp [hp] at h
  | recv p source tag datatype count =>
    simp only [step] at h
    split_ifs at h with hc
    cases h
    refine Or.inr (Or.inr ⟨p, _, Or.inr fun cell hcell => ?_, rfl, rfl, rfl⟩)
    rw [hc.1] at hcell
    cases hcell
  | copy p =>
    simp only [step] at h
    cases hp : (w.pe p).pc with
    | receiving r =>
      simp only [hp] at h
      split_ifs at h
      cases h
      refine Or.inr (Or.inr ⟨p, _, Or.inr fun cell hcell => ?_, rfl, rfl, rfl⟩)
      rw [hp] at hcell
      cases hcell
    | idle => simp [hp] at h
    | sending cell => simp [hp] at h
  | ret p =>
    simp only [step] at h
    cases hp : (w.pe p).pc with
    | receiving r =>
      simp only [hp] at h
      split_ifs at h
      cases h
      refine Or.inr (Or.inr ⟨p, _, Or.inr fun cell hcell => ?_, rfl, rfl, rfl⟩)
      rw [hp] at hcell
      cases hcell
    | idle => simp [hp] at h
    | sending cell => simp [hp] at h

/-- A PE in the loop stays there until a poll of its own. -/
theorem pc_of_step (hpc : (w.pe src).pc = .sending cell) (ha : a ≠ .poll src)
    (h : step bufBytes w a = some w₁) : (w₁.pe src).pc = .sending cell := by
  rcases step_cases h with ⟨p, d, tag, datatype, count, buf, hidle, rfl⟩ | ⟨p, d, s, l, -, -, rfl⟩ |
    ⟨p, c, hp, hpe, -, -⟩
  · have hne : src ≠ p := by
      rintro rfl
      rw [hidle] at hpc
      cases hpc
    simp [mpiSend, hne, hpc]
  · by_cases hd : src = d
    · subst hd
      simp [deliver, hpc]
    · simp [deliver, hd, hpc]
  · have hne : src ≠ p := by
      rintro rfl
      rcases hp with hp | hp
      · exact ha hp
      · exact hp cell hpc
    rw [hpe, Function.update_of_ne hne, hpc]

/-- As long as no other PE stores on `dest`, what is there and what is on its way from `src` give
the same in the end. -/
theorem landed_of_step (hpc : (w.pe src).pc = .sending cell) (ha : ∀ p ≠ src, a ≠ .deliver p dest)
    (h : step bufBytes w a = some w₁) :
    landed bufBytes (w₁.pe dest).buffer (w₁.chan (src, dest)) =
      landed bufBytes (w.pe dest).buffer (w.chan (src, dest)) := by
  rcases step_cases h with ⟨p, d, tag, datatype, count, buf, hidle, rfl⟩ |
    ⟨p, d, s, l, rfl, hl, rfl⟩ | ⟨p, c, -, hpe, hbuf, hchan⟩
  · have hne : src ≠ p := by
      rintro rfl
      rw [hidle] at hpc
      cases hpc
    have hsame : ((mpiSend w p d tag datatype count buf).pe dest).buffer = (w.pe dest).buffer := by
      by_cases hd : dest = p
      · subst hd
        simp [mpiSend]
      · simp [mpiSend, hd]
    rw [hsame]
    simp [mpiSend, hne]
  · by_cases hd : dest = d
    · subst hd
      have hp : p = src := by
        by_contra hp
        exact ha p hp rfl
      subst hp
      rw [hl]
      simp [deliver, landed]
    · simp [deliver, hd]
  · have hsame : (w₁.pe dest).buffer = (w.pe dest).buffer := by
      rw [hpe]
      by_cases hd : dest = p
      · subst hd
        rw [Function.update_self, hbuf]
      · rw [Function.update_of_ne hd]
    rw [hsame, hchan]

theorem pc_of_run (hpc : (w.pe src).pc = .sending cell)
    (hrun : exec (step bufBytes) w ls = some w₁) (hloop : .poll src ∉ ls) :
    (w₁.pe src).pc = .sending cell := by
  have hlabels : ∀ a ∈ ls, a ≠ .poll src := by
    rintro a ha rfl
    exact hloop ha
  exact exec_inv_labels (I := fun w : World n => (w.pe src).pc = .sending cell)
    (fun _ _ _ hs ha hstep => pc_of_step hs ha hstep) hpc hlabels hrun

theorem landed_of_run (hpc : (w.pe src).pc = .sending cell)
    (hrun : exec (step bufBytes) w ls = some w₁) (hloop : .poll src ∉ ls)
    (hothers : ∀ p ≠ src, .deliver p dest ∉ ls) :
    landed bufBytes (w₁.pe dest).buffer (w₁.chan (src, dest)) =
      landed bufBytes (w.pe dest).buffer (w.chan (src, dest)) := by
  have hlabels : ∀ a ∈ ls, a ≠ .poll src ∧ ∀ p ≠ src, a ≠ .deliver p dest := by
    intro a ha
    constructor
    · rintro rfl
      exact hloop ha
    · rintro p hp rfl
      exact hothers p hp ha
  have hinv := exec_inv_labels
    (I := fun w' : World n => (w'.pe src).pc = .sending cell ∧
      landed bufBytes (w'.pe dest).buffer (w'.chan (src, dest)) =
        landed bufBytes (w.pe dest).buffer (w.chan (src, dest)))
    (fun _ _ _ hs ha hstep => ⟨pc_of_step hs.1 ha.1 hstep,
      (landed_of_step hs.1 ha.2 hstep).trans hs.2⟩) ⟨hpc, rfl⟩ hlabels hrun
  exact hinv.2

/-! ## Leaving it -/

variable {tag : ℤ} {datatype : MpiDatatype} {count : ℕ} {buf : List UInt8}

theorem eq_of_send (h : step bufBytes w (.send src dest tag datatype count buf) = some w₁) :
    count * datatype.size ≤ buf.length ∧ w₁ = mpiSend w src dest tag datatype count buf := by
  simp only [step] at h
  split_ifs at h with hc
  exact ⟨hc.2, (Option.some_inj.mp h).symm⟩

/-- What a send puts is visible when all of it has landed, while no other PE stored on `dest`. -/
theorem visible_of_landed (hsend : step bufBytes w (.send src dest tag datatype count buf) = some w₁)
    (hrun : exec (step bufBytes) w₁ ls = some w₂) (hloop : .poll src ∉ ls)
    (hothers : ∀ p ≠ src, .deliver p dest ∉ ls) (hlanded : w₂.chan (src, dest) = [])
    (hroom : ∀ s ∈ sendPuts (w.pe src) datatype count buf, 0 ≤ s.1 ∧ s.1 < bufBytes) :
    Visible w₂ dest (sendPuts (w.pe src) datatype count buf) := by
  obtain ⟨-, rfl⟩ := eq_of_send hsend
  have hpc : ((mpiSend w src dest tag datatype count buf).pe src).pc =
      .sending (sendPoll (w.pe src) dest datatype count buf) := by simp [mpiSend]
  have hend := landed_of_run hpc hrun hloop hothers
  have hchan : (mpiSend w src dest tag datatype count buf).chan (src, dest) =
      w.chan (src, dest) ++ sendPuts (w.pe src) datatype count buf := by simp [mpiSend]
  rw [hlanded, hchan, landed_append] at hend
  intro s hs
  obtain ⟨b, hb⟩ := exists_stored hs
  have hbyte : (w₂.pe dest).buffer s.1 = _ := congrFun hend s.1
  rw [hbyte, landed_eq hroom, hb]
  rfl

/-- What the compare-and-swap returns once the send is visible. -/
theorem readBytes_poll (hcount : 1 ≤ count) (hlen : count * datatype.size ≤ buf.length)
    (hvisible : Visible w₂ dest (sendPuts (w.pe src) datatype count buf)) :
    ∃ c, sendPoll (w.pe src) dest datatype count buf = some c ∧ c.dest = dest ∧
      match datatype.marker with
      | some e => c.expected = e ∧ readBytes (w₂.pe dest).buffer c.offset c.width = encodeInt e
      | none => c.expected = lastElement datatype count buf ∧
        leInt (readBytes (w₂.pe dest).buffer c.offset c.width) = c.expected := by
  unfold sendPoll
  unfold sendPuts at hvisible
  cases hm : datatype.marker with
  | some e =>
    rw [hm] at hvisible
    refine ⟨_, rfl, rfl, rfl, ?_⟩
    have hread := readBytes_of_visible hvisible 0 4 (by simp)
    rw [List.drop_zero, List.take_of_length_le (by simp)] at hread
    simpa using hread
  | none =>
    rw [hm, List.append_nil, ← List.nil_append (putBytes _ _)] at hvisible
    have hend : (count - 1) * datatype.size + datatype.size = count * datatype.size := by
      rw [← Nat.succ_mul, Nat.succ_eq_add_one, Nat.sub_add_cancel hcount]
    dsimp only
    rw [if_neg (by omega)]
    refine ⟨_, rfl, rfl, rfl, ?_⟩
    have hread := readBytes_of_visible hvisible ((count - 1) * datatype.size) datatype.size
      (by rw [List.length_take]; omega)
    rw [List.drop_take, List.take_take] at hread
    dsimp only
    rw [hread]
    congr 2
    omega

theorem isInt_of_marker {e : ℤ} (h : datatype.marker = some e) : IsInt e := by
  cases datatype <;> cases h <;> decide

/-- Without a marker, only the 64-bit types have elements that are no `int`. -/
theorem isInt_lastElement_iff (h : datatype.marker = none)
    (hlen : count * datatype.size ≤ buf.length) (hcount : 1 ≤ count) :
    IsInt (lastElement datatype count buf) ↔ FitsFlag datatype count buf := by
  unfold FitsFlag
  cases datatype with
  | long | unsignedLong | longLong => simp
  | int | unsigned =>
    refine iff_of_true ?_ (by simp)
    unfold lastElement
    rw [leInt_eq_decodeInt]
    · exact isInt_wrapInt _
    · simp only [List.length_take, List.length_drop, MpiDatatype.size] at hlen ⊢
      omega
  | _ => cases h

/-- While a send waits and what it has put is visible, its next poll leaves the loop exactly when
the last element of a message of 64-bit integers is an `int`. -/
theorem leaves_iff (bufBytes : ℕ) (hcount : 1 ≤ count)
    (hsend : step bufBytes w (.send src dest tag datatype count buf) = some w₁)
    (hrun : exec (step bufBytes) w₁ ls = some w₂) (hloop : .poll src ∉ ls)
    (hvisible : Visible w₂ dest (sendPuts (w.pe src) datatype count buf)) :
    (∃ w₃, step bufBytes w₂ (.poll src) = some w₃ ∧ (w₃.pe src).pc = .idle) ↔
      FitsFlag datatype count buf := by
  obtain ⟨hlen, rfl⟩ := eq_of_send hsend
  obtain ⟨c, hc, hdest, hcell⟩ := readBytes_poll hcount hlen hvisible
  have hpc : (w₂.pe src).pc = .sending (some c) :=
    pc_of_run (by simp [mpiSend, hc]) hrun hloop
  have hpoll : (∃ w₃, step bufBytes w₂ (.poll src) = some w₃ ∧ (w₃.pe src).pc = .idle) ↔
      c.isItThere w₂ = true := by
    simp only [step, hpc]
    by_cases hthere : c.isItThere w₂ = true
    · simp [hthere, World.setPe]
    · simp [hthere]
  rw [hpoll]
  unfold Poll.isItThere
  rw [decide_eq_true_iff, hdest]
  cases hm : datatype.marker with
  | some e =>
    rw [hm] at hcell
    have he := isInt_of_marker hm
    refine iff_of_true ?_ fun hlong => ?_
    · rw [hcell.2, hcell.1, leInt_encodeInt he, wrapInt_of_isInt he]
    · simp only [List.mem_cons, List.not_mem_nil, or_false] at hlong
      rcases hlong with rfl | rfl | rfl <;> cases hm
  | none =>
    rw [hm] at hcell
    rw [hcell.2, hcell.1, ← isInt_lastElement_iff hm hlen hcount]
    constructor
    · intro h
      rw [← h]
      exact isInt_wrapInt _
    · exact wrapInt_of_isInt

/-- The value 2^32 is there, and the loop goes on. -/
theorem not_leaves_large :
    ∃ w₁ w₂ : World 2, step 64 World.init (.send 0 1 5 .long 1 [0, 0, 0, 0, 1, 0, 0, 0]) = some w₁ ∧
      exec (step 64) w₁ (List.replicate 8 (.deliver 0 1)) = some w₂ ∧
      Visible w₂ 1 (sendPuts (.init : Pe 2) .long 1 [0, 0, 0, 0, 1, 0, 0, 0]) ∧
      step 64 w₂ (.poll 0) = none := by
  have hrun : (sendLong [0, 0, 0, 0, 1, 0, 0, 0]).any (fun w =>
      Visible w 1 (sendPuts (.init : Pe 2) .long 1 [0, 0, 0, 0, 1, 0, 0, 0]) ∧
        (step 64 w (.poll 0)).isNone) = true := by decide
  obtain ⟨w₂, hw, hstuck⟩ := (Option.any_eq_true _ _).mp hrun
  obtain ⟨w₁, hsend, hrun⟩ := Option.bind_eq_some_iff.mp hw
  obtain ⟨hvisible, hnone⟩ := of_decide_eq_true hstuck
  exact ⟨w₁, w₂, hsend, hrun, hvisible, Option.isNone_iff_eq_none.mp hnone⟩

/-- The value 7 is there, and the loop ends. -/
theorem leaves_small :
    ∃ w₂ w₃ : World 2, sendLong [7, 0, 0, 0, 0, 0, 0, 0] = some w₂ ∧
      step 64 w₂ (.poll 0) = some w₃ ∧ (w₃.pe 0).pc = .idle := by
  have hrun : (sendLong [7, 0, 0, 0, 0, 0, 0, 0]).any (fun w => w.chan (0, 1) = []) = true := by
    decide
  obtain ⟨w₂, hw, hlanded⟩ := (Option.any_eq_true _ _).mp hrun
  obtain ⟨w₁, hsend, hrun⟩ := Option.bind_eq_some_iff.mp hw
  have hvisible := visible_of_landed hsend hrun (by decide) (by decide)
    (of_decide_eq_true hlanded) (by decide)
  obtain ⟨w₃, hpoll, hidle⟩ := (leaves_iff 64 (by decide) hsend hrun (by decide) hvisible).mpr
    (fun _ => by decide)
  exact ⟨w₂, w₃, hw, hpoll, hidle⟩

end MpiToShmem
