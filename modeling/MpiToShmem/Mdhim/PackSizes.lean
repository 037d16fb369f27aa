import MpiToShmem.Mdhim.Codec

/-!
# The sizes of messages with values

The size of a message is summed up in an `int64_t`, but what is added to it is computed as `int`:
the sum of a key's and a value's length, and twice the number of records. Each such sum that does not
fit makes the size 2 ^ 32 smaller (2 ^ 34 for the number of records, which is multiplied by four).

1. `PackRun`: a pack function up to its size check, and what it sets and packs behind it.
2. `recLens_eq_sub`: what the size loop of the bulk messages computes.
3. `exact_iff`: for which messages the size that is set, or refused, is that of the message.
-/

namespace MpiToShmem

open Kit

/-! ## Pack functions in steps -/

/-- How far a pack function gets: the size check stops it, or it sets `*sendsize` and the size in the
message, and then allocates and packs, which may fail. -/
inductive PackRun (M : Type)
  | tooLarge
  | sized (msg : M) (sendsize : ℤ) (sendbuf : Option (List UInt8))

/-- `packAll` with the sizes it sets, also where the allocation or the packing fails. -/
def packRun {M : Type} (mSize : ℤ) (withSize : ℤ → M) (items : M → List (List UInt8)) : PackRun M :=
  if mSize > mdhimMaxMsgSize then .tooLarge
  else
    let mesgSize := wrapInt mSize
    .sized (withSize mesgSize) mesgSize
      (if mesgSize < 0 then none
        else (items (withSize mesgSize)).foldlM (mpiPack mesgSize) [])

/-- What is returned. -/
def PackRun.returned {M : Type} : PackRun M → Option (Packed M)
  | tooLarge => none
  | sized msg sendsize sendbuf => sendbuf.map fun sendbuf => ⟨msg, sendsize, sendbuf⟩

theorem returned_packRun {M : Type} (mSize : ℤ) (withSize : ℤ → M)
    (items : M → List (List UInt8)) :
    (packRun mSize withSize items).returned = packAll mSize withSize items := by
  unfold packRun packAll
  split_ifs with hlarge
  · rfl
  · dsimp only [PackRun.returned]
    split_ifs
    · rfl
    · rfl

/-- The steps of `pack_put_message`. -/
def packPutRun (pm : Putm) : PackRun Putm :=
  packRun (layoutSize Putm.layout + wrapInt (pm.key.length + pm.value.length))
    (fun size => { pm with size := size }) fun pm => [pm.image, pm.key, pm.value]

/-- The steps of `pack_bput_message`. -/
def packBputRun (bpm : Bputm) : PackRun Bputm :=
  packRun (layoutSize Bputm.layout + wrapInt (2 * bpm.recs.length) * 4 + recLens bpm.recs)
    (fun size => { bpm with size := size }) fun bpm => bpm.image :: recItems bpm.recs

/-- The steps of `pack_getrm_message`. -/
def packGetrmRun (grm : Getrm) : PackRun Getrm :=
  packRun (layoutSize Getrm.layout + wrapInt (grm.key.length + grm.value.length))
    (fun size => { grm with size := size }) fun grm =>
      grm.image :: (if grm.key.length ≠ 0 then [grm.key] else []) ++
        if grm.value.length ≠ 0 then [grm.value] else []

/-- The steps of `pack_bgetrm_message`. -/
def packBgetrmRun (bgrm : Bgetrm) : PackRun Bgetrm :=
  packRun (layoutSize Bgetrm.layout + wrapInt (2 * bgrm.recs.length) * 4 + recLens bgrm.recs)
    (fun size => { bgrm with size := size }) fun bgrm => bgrm.image :: recItemsSkip bgrm.recs

theorem returned_packPutRun (pm : Putm) : (packPutRun pm).returned = packPutMessage pm :=
  returned_packRun _ _ _

theorem returned_packBputRun (bpm : Bputm) : (packBputRun bpm).returned = packBputMessage bpm :=
  returned_packRun _ _ _

theorem returned_packGetrmRun (grm : Getrm) : (packGetrmRun grm).returned = packGetrmMessage grm :=
  returned_packRun _ _ _

theorem returned_packBgetrmRun (bgrm : Bgetrm) :
    (packBgetrmRun bgrm).returned = packBgetrmMessage bgrm :=
  returned_packRun _ _ _

/-! ## Exact sizes -/

/-- Both sizes are set to `total`, or the size check refuses a `total` that is too large. -/
def PackRun.Exact {M : Type} (size : M → ℤ) (total : ℤ) : PackRun M → Prop
  | tooLarge => mdhimMaxMsgSize < total
  | sized msg sendsize _ => sendsize = total ∧ size msg = total

/-- The messages that carry values. -/
inductive ValueMessage
  | put (pm : Putm)
  | bput (bpm : Bputm)
  | getrm (grm : Getrm)
  | bgetrm (bgrm : Bgetrm)

namespace ValueMessage

/-- The keys and values. -/
def recs : ValueMessage → List KeyValue
  | put pm => [(pm.key, pm.value)]
  | bput bpm => bpm.recs
  | getrm grm => [(grm.key, grm.value)]
  | bgetrm bgrm => bgrm.recs

/-- The lengths and `num_records` are of type `int`. -/
def InC (m : ValueMessage) : Prop :=
  (∀ r ∈ m.recs, IsInt r.1.length ∧ IsInt r.2.length) ∧ IsInt m.recs.length

/-- Struct, length fields, keys and values. -/
def total : ValueMessage → ℤ
  | put pm => layoutSize Putm.layout + pm.key.length + pm.value.length
  | bput bpm => layoutSize Bputm.layout + bpm.recs.length * 8 + recBytes bpm.recs
  | getrm grm => layoutSize Getrm.layout + grm.key.length + grm.value.length
  | bgetrm bgrm => layoutSize Bgetrm.layout + bgrm.recs.length * 8 + recBytes bgrm.recs

/-- The pack function of the message sets the exact size, or refuses it. -/
def Exact : (m : ValueMessage) → Prop
  | m@(put pm) => (packPutRun pm).Exact Putm.size m.total
  | m@(bput bpm) => (packBputRun bpm).Exact Bputm.size m.total
  | m@(getrm grm) => (packGetrmRun grm).Exact Getrm.size m.total
  | m@(bgetrm bgrm) => (packBgetrmRun bgrm).Exact Bgetrm.size m.total

end ValueMessage

/-- The number of records whose two lengths do not fit into an `int` together. -/
def longRecs (recs : List KeyValue) : ℕ :=
  recs.countP fun r => intMax < (r.1.length : ℤ) + r.2.length

/-- A bulk message of the right size is small enough to be sent, or so large that the size check sees
it in spite of the sums that do not fit. -/
def SizeSeen (total : ℤ) (recs : List KeyValue) : Prop :=
  total ≤ mdhimMaxMsgSize ∨
    mdhimMaxMsgSize < total - 4294967296 * longRecs recs -
      if intMax < 2 * (recs.length : ℤ) then 17179869184 else 0

/-- The messages whose size is computed, or refused, as it is. -/
def ValueMessage.Fits : ValueMessage → Prop
  | put pm => (pm.key.length : ℤ) + pm.value.length ≤ intMax
  | m@(bput bpm) => SizeSeen m.total bpm.recs
  | getrm grm => (grm.key.length : ℤ) + grm.value.length ≤ intMax
  | m@(bgetrm bgrm) => SizeSeen m.total bgrm.recs

/-! ## What the size loops compute -/

/-- A sum of two lengths as the `int` it becomes. -/
theorem wrapInt_add_length {r : KeyValue} (h : IsInt r.1.length ∧ IsInt r.2.length) :
    wrapInt (r.1.length + r.2.length) = (r.1.length : ℤ) + r.2.length -
      if intMax < (r.1.length : ℤ) + r.2.length then 4294967296 else 0 := by
  obtain ⟨⟨-, hkey⟩, ⟨-, hvalue⟩⟩ := h
  split_ifs with hlong
  · exact wrapInt_of_gt hlong (by omega)
  · rw [wrapInt_of_isInt ⟨by omega, by omega⟩, sub_zero]

/-- The size loop is short of 2 ^ 32 for every record whose lengths do not fit together. -/
theorem recLens_eq_sub {recs : List KeyValue}
    (h : ∀ r ∈ recs, IsInt r.1.length ∧ IsInt r.2.length) :
    recLens recs = recBytes recs - 4294967296 * longRecs recs := by
  induction recs with
  | nil => simp [recLens, recBytes, longRecs]
  | cons r recs ih =>
    have hlens : recLens (r :: recs) = wrapInt (r.1.length + r.2.length) + recLens recs := by
      rw [recLens, List.map_cons, List.sum_cons, recLens]
    have hbytes : recBytes (r :: recs) = r.1.length + r.2.length + recBytes recs := by
      simp [recBytes]
    have hcount : longRecs (r :: recs) = longRecs recs +
        if intMax < (r.1.length : ℤ) + r.2.length then 1 else 0 := by
      simp only [longRecs, List.countP_cons, decide_eq_true_eq]
    rw [hlens, hbytes, hcount, wrapInt_add_length (h r List.mem_cons_self),
      ih fun r' hr' => h r' (List.mem_cons_of_mem _ hr')]
    split_ifs
    · push_cast
      ring
    · push_cast
      ring

/-- Twice the number of records, times the size of an `int`. -/
theorem wrapInt_count {n : ℕ} (h : IsInt n) :
    wrapInt (2 * n) * 4 = (n : ℤ) * 8 - if intMax < 2 * (n : ℤ) then 17179869184 else 0 := by
  obtain ⟨-, hn⟩ := h
  split_ifs with hmany
  · rw [wrapInt_of_gt hmany (by omega)]
    ring
  · rw [wrapInt_of_isInt ⟨by omega, by omega⟩]
    ring

/-- A message that is small enough has no long records. -/
theorem longRecs_eq_zero {recs : List KeyValue} (h : recBytes recs ≤ intMax) :
    longRecs recs = 0 := by
  refine List.countP_eq_zero.mpr fun r hr => ?_
  have := le_recBytes hr
  rw [decide_eq_true_eq]
  omega

/-! ## When the size is exact -/

/-- A size that comes out too small at most, and right for a message that may be sent. -/
theorem exact_packRun_iff {M : Type} {size : M → ℤ} {mSize total : ℤ} {withSize : ℤ → M}
    {items : M → List (List UInt8)} (hsize : ∀ z, size (withSize z) = z) (hpos : 0 ≤ total)
    (hle : mSize ≤ total) (heq : total ≤ mdhimMaxMsgSize → mSize = total) :
    (packRun mSize withSize items).Exact size total ↔
      total ≤ mdhimMaxMsgSize ∨ mdhimMaxMsgSize < mSize := by
  have hint := isInt_wrapInt mSize
  unfold packRun
  split_ifs with hlarge
  · constructor
    · exact fun _ => Or.inr hlarge
    · exact fun _ => lt_of_lt_of_le hlarge hle
  · constructor
    · rintro ⟨hsend, -⟩
      left
      rw [← hsend]
      exact hint.2
    · rintro (hsmall | hseen)
      · have hwrap : wrapInt mSize = total := by
          rw [heq hsmall]
          exact wrapInt_of_isInt ⟨by omega, hsmall⟩
        exact ⟨hwrap, (hsize _).trans hwrap⟩
      · exact absurd hseen hlarge

/-- Messages with one key and value. -/
theorem exact_pair_iff {M : Type} {size : M → ℤ} {withSize : ℤ → M}
    {items : M → List (List UInt8)} (hsize : ∀ z, size (withSize z) = z) {n : ℕ} (hn : n ≤ 64)
    {key value : List UInt8} (h : IsInt key.length ∧ IsInt value.length) :
    (packRun (n + wrapInt (key.length + value.length)) withSize items).Exact size
        (n + key.length + value.length) ↔
      (key.length : ℤ) + value.length ≤ intMax := by
  have hwrap := wrapInt_add_length (r := (key, value)) h
  have hmax : mdhimMaxMsgSize = intMax := rfl
  dsimp only at hwrap
  rw [exact_packRun_iff hsize (by omega), hwrap]
  · -- a sum that does not fit becomes negative, and no struct makes up for that
    obtain ⟨⟨-, hkey⟩, ⟨-, hvalue⟩⟩ := h
    unfold intMax at *
    split_ifs with hlong
    · omega
    · omega
  · rw [hwrap]
    split_ifs <;> omega
  · intro hsmall
    rw [hwrap, if_neg (by omega)]
    omega

/-- Bulk messages. -/
theorem exact_bulk_iff {M : Type} {size : M → ℤ} {withSize : ℤ → M}
    {items : M → List (List UInt8)} (hsize : ∀ z, size (withSize z) = z) (n : ℕ)
    {recs : List KeyValue} (hlens : ∀ r ∈ recs, IsInt r.1.length ∧ IsInt r.2.length)
    (hcount : IsInt recs.length) :
    (packRun (n + wrapInt (2 * recs.length) * 4 + recLens recs) withSize items).Exact size
        (n + recs.length * 8 + recBytes recs) ↔
      SizeSeen (n + recs.length * 8 + recBytes recs) recs := by
  have hbytes := recBytes_nonneg recs
  have hmSize : (n + wrapInt (2 * recs.length) * 4 + recLens recs : ℤ) =
      n + recs.length * 8 + recBytes recs - 4294967296 * longRecs recs -
        if intMax < 2 * (recs.length : ℤ) then 17179869184 else 0 := by
    rw [recLens_eq_sub hlens, wrapInt_count hcount]
    ring
  rw [exact_packRun_iff hsize (by omega), SizeSeen, hmSize]
  · rw [hmSize]
    split_ifs <;> omega
  · intro hsmall
    have hmax : mdhimMaxMsgSize = intMax := rfl
    rw [hmSize, longRecs_eq_zero (by omega), if_neg (by omega)]
    simp

/-- The size of a message with values is set as it is, or refused, exactly when no two lengths wrap
around, or the size check sees a bulk message that is too large in spite of that. -/
theorem exact_iff (m : ValueMessage) (h : m.InC) : m.Exact ↔ m.Fits := by
  obtain ⟨hlens, hcount⟩ := h
  cases m with
  | put pm =>
    rw [ValueMessage.Exact, packPutRun, ValueMessage.total, ValueMessage.Fits]
    exact exact_pair_iff (fun _ => rfl) (by decide) (hlens _ List.mem_cons_self)
  | bput bpm =>
    rw [ValueMessage.Exact, packBputRun, ValueMessage.total, ValueMessage.Fits]
    exact exact_bulk_iff (fun _ => rfl) _ hlens hcount
  | getrm grm =>
    rw [ValueMessage.Exact, packGetrmRun, ValueMessage.total, ValueMessage.Fits]
    exact exact_pair_iff (fun _ => rfl) (by decide) (hlens _ List.mem_cons_self)
  | bgetrm bgrm =>
    rw [ValueMessage.Exact, packBgetrmRun, ValueMessage.total, ValueMessage.Fits]
    exact exact_bulk_iff (fun _ => rfl) _ hlens hcount

/-- A key and a value of one byte each. -/
theorem exact_one_byte : (ValueMessage.put ⟨1, 0, 0, [1], [2]⟩).Exact :=
  (exact_iff _ (by unfold ValueMessage.InC; decide)).mpr (by unfold ValueMessage.Fits; decide)

/-- Two lengths of `INT_MAX` are -2 together: the size is 46, less than the struct. -/
theorem not_exact_long : ¬ (ValueMessage.put ⟨1, 0, 0, List.replicate 2147483647 0,
    List.replicate 2147483647 0⟩).Exact := by
  have hlen : (List.replicate 2147483647 (0 : UInt8)).length = 2147483647 := List.length_replicate
  generalize List.replicate 2147483647 (0 : UInt8) = bytes at hlen
  have hint : IsInt bytes.length := ⟨by omega, by unfold intMax; omega⟩
  rw [ValueMessage.Exact, packPutRun, ValueMessage.total,
    exact_pair_iff (fun _ => rfl) (by decide) ⟨hint, hint⟩]
  unfold intMax
  omega

end MpiToShmem
