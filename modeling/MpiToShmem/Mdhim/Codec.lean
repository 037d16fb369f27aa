import MpiToShmem.Mdhim.Messages
import Mathlib.Algebra.Order.BigOperators.Group.List
import Mathlib.Tactic.Linarith

/-!
# What packing writes and unpacking reads

1. `packAll_eq`, `le_of_packAll`: a pack function whose size formula covers what it packs succeeds,
   and one that succeeds packs at most an `int` of bytes.
2. `unpackHeader_fill`, `unpackKeys_keyItems`, `unpackRecs_recItems`: unpacking reads back what was
   packed, record by record, and leaves what follows.
3. `length_keyItems`, `length_recItems`, `recLens_eq`: the sums in the size formulas.
-/

namespace MpiToShmem

open Kit

/-! ## Packing -/

theorem foldlM_mpiPack {size : ℤ} (items : List (List UInt8)) :
    ∀ buf : List UInt8, (buf.length : ℤ) + items.flatten.length ≤ size →
      items.foldlM (mpiPack size) buf = some (buf ++ items.flatten) := by
  induction items with
  | nil => intro buf _; simp
  | cons bs items ih =>
    intro buf h
    rw [List.flatten_cons, List.length_append] at h
    have hfit : (buf.length : ℤ) + bs.length ≤ size := by omega
    have hrec := ih (buf ++ bs) (by rw [List.length_append]; omega)
    rw [List.foldlM_cons, mpiPack, if_pos hfit]
    show items.foldlM (mpiPack size) (buf ++ bs) = _
    rw [hrec, List.flatten_cons, List.append_assoc]

/-- A size formula that covers the items, within the limit, packs them. -/
theorem packAll_eq {M : Type} {mSize : ℤ} {withSize : ℤ → M} {items : M → List (List UInt8)}
    (hmax : mSize ≤ mdhimMaxMsgSize) (hfit : ((items (withSize mSize)).flatten.length : ℤ) ≤ mSize) :
    packAll mSize withSize items =
      some ⟨withSize mSize, mSize, (items (withSize mSize)).flatten⟩ := by
  have hwrap : wrapInt mSize = mSize :=
    wrapInt_of_isInt ⟨by omega, by unfold mdhimMaxMsgSize at hmax; unfold intMax; omega⟩
  unfold packAll
  rw [if_neg (not_lt.mpr hmax)]
  simp only [hwrap]
  rw [if_neg (by omega), foldlM_mpiPack _ [] (by simpa using hfit)]
  simp

theorem length_le_of_foldlM {size : ℤ} {items : List (List UInt8)} :
    ∀ {buf out : List UInt8}, (buf.length : ℤ) ≤ size → items.foldlM (mpiPack size) buf = some out →
      out = buf ++ items.flatten ∧ (out.length : ℤ) ≤ size := by
  induction items with
  | nil =>
    intro buf out hbuf h
    obtain rfl : buf = out := Option.some.inj h
    exact ⟨by simp, hbuf⟩
  | cons bs items ih =>
    intro buf out hbuf h
    rw [List.foldlM_cons, mpiPack] at h
    by_cases hfit : (buf.length : ℤ) + bs.length ≤ size
    · rw [if_pos hfit] at h
      obtain ⟨hout, hle⟩ := ih (by rw [List.length_append]; omega) h
      exact ⟨by rw [hout, List.flatten_cons, List.append_assoc], hle⟩
    · rw [if_neg hfit] at h
      cases h

theorem le_of_packAll {M : Type} {mSize : ℤ} {withSize : ℤ → M} {items : M → List (List UInt8)}
    {p : Packed M} (h : packAll mSize withSize items = some p) :
    mSize ≤ mdhimMaxMsgSize ∧ ∃ s, ((items (withSize s)).flatten.length : ℤ) ≤ mdhimMaxMsgSize := by
  unfold packAll at h
  by_cases hmax : mSize > mdhimMaxMsgSize
  · rw [if_pos hmax] at h
    cases h
  · rw [if_neg hmax] at h
    dsimp only at h
    by_cases hneg : wrapInt mSize < 0
    · rw [if_pos hneg] at h
      cases h
    · rw [if_neg hneg] at h
      obtain ⟨out, hfold, _⟩ := Option.map_eq_some_iff.mp h
      obtain ⟨hout, hle⟩ := length_le_of_foldlM (by simpa using not_lt.mp hneg) hfold
      rw [List.nil_append] at hout
      refine ⟨not_lt.mp hmax, wrapInt mSize, ?_⟩
      rw [← hout]
      exact hle.trans (isInt_wrapInt mSize).2

theorem packAll_eq_none {M : Type} {mSize : ℤ} {withSize : ℤ → M} {items : M → List (List UInt8)}
    (h : mdhimMaxMsgSize < mSize) : packAll mSize withSize items = none := by
  unfold packAll
  rw [if_pos h]

/-! ## Unpacking -/

theorem mpiUnpack_append {n : ℤ} {bs : List UInt8} (h : n = bs.length) (rest : List UInt8) :
    mpiUnpack n (bs ++ rest) = some (bs, rest) := by
  subst h
  unfold mpiUnpack
  rw [if_pos ⟨Int.natCast_nonneg _, by rw [List.length_append]; omega⟩, Int.toNat_natCast,
    List.take_left, List.drop_left]

theorem mpiUnpack_encodeInt (z : ℤ) (rest : List UInt8) :
    mpiUnpack 4 (encodeInt z ++ rest) = some (encodeInt z, rest) :=
  mpiUnpack_append (by rw [length_encodeInt]; norm_num) rest

theorem unpackHeader_fill {layout : List Slot} {zs : List ℤ} {body : List UInt8} {size : ℤ}
    (hc : zs.length = intCount layout) (hz : ∀ z ∈ zs, IsInt z)
    (hsize : ((fill layout zs ++ body).length : ℤ) = size) :
    unpackHeader layout (fill layout zs ++ body) size = some (zs, body) := by
  unfold unpackHeader
  rw [List.take_of_length_le (by omega), mpiUnpack_append (by rw [length_fill])]
  show some (scan layout (fill layout zs), body) = _
  rw [scan_fill hc hz]

theorem unpackBlob_eq {bs : List UInt8} (h : IsInt bs.length) (rest : List UInt8) :
    unpackBlob (encodeInt bs.length ++ (bs ++ rest)) = some (bs, rest) := by
  rw [unpackBlob, mpiUnpack_encodeInt, Option.bind_eq_bind, Option.bind_some]
  dsimp only
  rw [decodeInt_encodeInt h, mpiUnpack_append rfl]

/-- Nothing is read for a length of zero, and nothing was packed. -/
theorem mpiUnpackNonzero_append (bs rest : List UInt8) :
    mpiUnpackNonzero bs.length (bs ++ rest) = some (bs, rest) := by
  unfold mpiUnpackNonzero
  by_cases h0 : (bs.length : ℤ) = 0
  · have hnil : bs = [] := List.length_eq_zero_iff.mp (by omega)
    rw [if_pos h0, hnil, List.nil_append]
  · rw [if_neg h0, mpiUnpack_append rfl]

theorem unpackBlobSkip_eq {bs : List UInt8} (h : IsInt bs.length) (rest : List UInt8) :
    unpackBlobSkip (encodeInt bs.length ++ (bs ++ rest)) = some (bs, rest) := by
  rw [unpackBlobSkip, mpiUnpack_encodeInt, Option.bind_eq_bind, Option.bind_some]
  dsimp only
  rw [decodeInt_encodeInt h, mpiUnpackNonzero_append]

theorem unpackKeys_keyItems {keys : List (List UInt8)} (h : ∀ key ∈ keys, IsInt key.length)
    (rest : List UInt8) :
    unpackKeys keys.length ((keyItems keys).flatten ++ rest) = some keys := by
  have hloop : unpackKeys.loop keys.length ((keyItems keys).flatten ++ rest) = some keys := by
    induction keys with
    | nil => rfl
    | cons key keys ih =>
      have hrec := ih fun k hk => h k (List.mem_cons_of_mem _ hk)
      have hitems : (keyItems (key :: keys)).flatten ++ rest =
          encodeInt key.length ++ (key ++ ((keyItems keys).flatten ++ rest)) := by
        simp [keyItems]
      rw [hitems, List.length_cons, unpackKeys.loop, unpackBlob_eq (h key List.mem_cons_self)]
      show (unpackKeys.loop keys.length ((keyItems keys).flatten ++ rest)).bind _ = _
      rw [hrec]
      rfl
  unfold unpackKeys
  rw [if_neg (by omega), Int.toNat_natCast, hloop]

/-- Records are read back by whatever reads back their keys and values. -/
theorem unpackRecs_recItems {blob : List UInt8 → Option (List UInt8 × List UInt8)}
    (hblob : ∀ bs : List UInt8, IsInt bs.length → ∀ rest,
      blob (encodeInt bs.length ++ (bs ++ rest)) = some (bs, rest))
    {recs : List KeyValue} (h : ∀ r ∈ recs, IsInt r.1.length ∧ IsInt r.2.length)
    (rest : List UInt8) :
    unpackRecs blob recs.length ((recItems recs).flatten ++ rest) = some recs := by
  have hloop : unpackRecs.loop blob recs.length ((recItems recs).flatten ++ rest) = some recs := by
    induction recs with
    | nil => rfl
    | cons r recs ih =>
      have hrec := ih fun k hk => h k (List.mem_cons_of_mem _ hk)
      have hr := h r List.mem_cons_self
      have hitems : (recItems (r :: recs)).flatten ++ rest =
          encodeInt r.1.length ++ (r.1 ++ (encodeInt r.2.length ++ (r.2 ++
            ((recItems recs).flatten ++ rest)))) := by
        simp [recItems]
      rw [hitems, List.length_cons, unpackRecs.loop, hblob r.1 hr.1]
      show (blob (encodeInt r.2.length ++ (r.2 ++ ((recItems recs).flatten ++ rest)))).bind _ = _
      rw [hblob r.2 hr.2]
      show (unpackRecs.loop blob recs.length ((recItems recs).flatten ++ rest)).bind _ = _
      rw [hrec]
      rfl
  unfold unpackRecs
  rw [if_neg (by omega), Int.toNat_natCast, hloop]

/-- The items of a get reply. -/
theorem flatten_skip (image key value : List UInt8) :
    (image :: (if key.length ≠ 0 then [key] else []) ++
      if value.length ≠ 0 then [value] else []).flatten = image ++ (key ++ value) := by
  have hskip : ∀ bs : List UInt8, (if bs.length ≠ 0 then [bs] else []).flatten = bs := by
    intro bs
    split_ifs with h
    · simp
    · have hnil : bs = [] := List.length_eq_zero_iff.mp (by omega)
      simp [hnil]
  rw [List.cons_append, List.flatten_cons, List.flatten_append, hskip, hskip]

/-- Leaving out empty items packs the same bytes. -/
theorem flatten_recItemsSkip (recs : List KeyValue) :
    (recItemsSkip recs).flatten = (recItems recs).flatten := by
  induction recs with
  | nil => rfl
  | cons r recs ih =>
    have hskip : ∀ bs : List UInt8, (if (bs.length : ℤ) > 0 then [bs] else []).flatten = bs := by
      intro bs
      split_ifs with h
      · simp
      · have hnil : bs = [] := List.length_eq_zero_iff.mp (by omega)
        simp [hnil]
    have hcons : recItemsSkip (r :: recs) =
        (encodeInt r.1.length :: (if (r.1.length : ℤ) > 0 then [r.1] else []) ++
          encodeInt r.2.length :: (if (r.2.length : ℤ) > 0 then [r.2] else [])) ++
        recItemsSkip recs := rfl
    have hcons' : recItems (r :: recs) =
        [encodeInt r.1.length, r.1, encodeInt r.2.length, r.2] ++ recItems recs := rfl
    rw [hcons, hcons', List.flatten_append, List.flatten_append, ih]
    simp only [List.flatten_cons, hskip, List.append_assoc, List.cons_append, List.nil_append]

/-! ## The nine unpack functions -/

theorem unpackPutMessage_append {pm : Putm} (hz : ∀ z ∈ pm.ints, IsInt z)
    {rest : List UInt8} {size : ℤ}
    (hl : ((pm.image ++ (pm.key ++ (pm.value ++ rest))).length : ℤ) = size) :
    unpackPutMessage (pm.image ++ (pm.key ++ (pm.value ++ rest))) size = some pm := by
  unfold Putm.image at hl ⊢
  rw [unpackPutMessage, unpackHeader_fill rfl hz hl, Option.bind_eq_bind, Option.bind_some]
  simp only [Putm.ints, Option.bind_eq_bind, mpiUnpack_append, Option.bind_some]
  rfl

theorem unpackBputMessage_append {bpm : Bputm} (hz : ∀ z ∈ bpm.ints, IsInt z)
    (hr : ∀ r ∈ bpm.recs, IsInt r.1.length ∧ IsInt r.2.length)
    {rest : List UInt8} {size : ℤ}
    (hl : ((bpm.image ++ ((recItems bpm.recs).flatten ++ rest)).length : ℤ) = size) :
    unpackBputMessage (bpm.image ++ ((recItems bpm.recs).flatten ++ rest)) size = some bpm := by
  unfold Bputm.image at hl ⊢
  rw [unpackBputMessage, unpackHeader_fill rfl hz hl, Option.bind_eq_bind, Option.bind_some]
  dsimp only [Bputm.ints]
  rw [unpackRecs_recItems (fun _ h rest => unpackBlob_eq h rest) hr]
  rfl

theorem unpackGetMessage_append {gm : Getm} (hz : ∀ z ∈ gm.ints, IsInt z)
    {rest : List UInt8} {size : ℤ}
    (hl : ((gm.image ++ (gm.key ++ rest)).length : ℤ) = size) :
    unpackGetMessage (gm.image ++ (gm.key ++ rest)) size = some gm := by
  unfold Getm.image at hl ⊢
  rw [unpackGetMessage, unpackHeader_fill rfl hz hl, Option.bind_eq_bind, Option.bind_some]
  simp only [Getm.ints, Option.bind_eq_bind, mpiUnpack_append, Option.bind_some]
  rfl

theorem unpackBgetMessage_append {bgm : Bgetm} (hz : ∀ z ∈ bgm.ints, IsInt z)
    (hk : ∀ key ∈ bgm.keys, IsInt key.length)
    {rest : List UInt8} {size : ℤ}
    (hl : ((bgm.image ++ ((keyItems bgm.keys).flatten ++ rest)).length : ℤ) = size) :
    unpackBgetMessage (bgm.image ++ ((keyItems bgm.keys).flatten ++ rest)) size = some bgm := by
  unfold Bgetm.image at hl ⊢
  rw [unpackBgetMessage, unpackHeader_fill rfl hz hl, Option.bind_eq_bind, Option.bind_some]
  dsimp only [Bgetm.ints]
  rw [unpackKeys_keyItems hk]
  rfl

theorem unpackDelMessage_append {dm : Delm} (hz : ∀ z ∈ dm.ints, IsInt z)
    {rest : List UInt8} {size : ℤ}
    (hl : ((dm.image ++ (dm.key ++ rest)).length : ℤ) = size) :
    unpackDelMessage (dm.image ++ (dm.key ++ rest)) size = some dm := by
  unfold Delm.image at hl ⊢
  rw [unpackDelMessage, unpackHeader_fill rfl hz hl, Option.bind_eq_bind, Option.bind_some]
  simp only [Delm.ints, Option.bind_eq_bind, mpiUnpack_append, Option.bind_some]
  rfl

theorem unpackBdelMessage_append {bdm : Bdelm} (hz : ∀ z ∈ bdm.ints, IsInt z)
    (hk : ∀ key ∈ bdm.keys, IsInt key.length)
    {rest : List UInt8} {size : ℤ}
    (hl : ((bdm.image ++ ((keyItems bdm.keys).flatten ++ rest)).length : ℤ) = size) :
    unpackBdelMessage (bdm.image ++ ((keyItems bdm.keys).flatten ++ rest)) size = some bdm := by
  unfold Bdelm.image at hl ⊢
  rw [unpackBdelMessage, unpackHeader_fill rfl hz hl, Option.bind_eq_bind, Option.bind_some]
  dsimp only [Bdelm.ints]
  rw [unpackKeys_keyItems hk]
  rfl

/-- The bytes behind the struct are not looked at. -/
theorem unpackReturnMessage_append {rm : Rm} (hz : ∀ z ∈ rm.ints, IsInt z) (rest : List UInt8) :
    unpackReturnMessage (rm.image ++ rest) = some rm := by
  have hread := mpiUnpack_append (congrArg Nat.cast (length_fill Rm.layout rm.ints).symm) []
  rw [List.append_nil] at hread
  rw [unpackReturnMessage, unpackHeader, Int.toNat_natCast, Rm.image,
    List.take_left' (length_fill _ _), hread]
  simp only [Option.bind_eq_bind, Option.bind_some]
  rw [scan_fill rfl hz]
  rfl

theorem unpackGetrmMessage_append {grm : Getrm} (hz : ∀ z ∈ grm.ints, IsInt z)
    {rest : List UInt8} {size : ℤ}
    (hl : ((grm.image ++ (grm.key ++ (grm.value ++ rest))).length : ℤ) = size) :
    unpackGetrmMessage (grm.image ++ (grm.key ++ (grm.value ++ rest))) size = some grm := by
  unfold Getrm.image at hl ⊢
  rw [unpackGetrmMessage, unpackHeader_fill rfl hz hl, Option.bind_eq_bind, Option.bind_some]
  simp only [Getrm.ints, Option.bind_eq_bind, mpiUnpackNonzero_append, Option.bind_some]
  rfl

theorem unpackBgetrmMessage_append {bgrm : Bgetrm} (hz : ∀ z ∈ bgrm.ints, IsInt z)
    (hr : ∀ r ∈ bgrm.recs, IsInt r.1.length ∧ IsInt r.2.length)
    {rest : List UInt8} {size : ℤ}
    (hl : ((bgrm.image ++ ((recItems bgrm.recs).flatten ++ rest)).length : ℤ) = size) :
    unpackBgetrmMessage (bgrm.image ++ ((recItems bgrm.recs).flatten ++ rest)) size = some bgrm := by
  unfold Bgetrm.image at hl ⊢
  rw [unpackBgetrmMessage, unpackHeader_fill rfl hz hl, Option.bind_eq_bind, Option.bind_some]
  dsimp only [Bgetrm.ints]
  rw [unpackRecs_recItems (fun _ h rest => unpackBlobSkip_eq h rest) hr]
  rfl

/-! ## Sizes -/

theorem length_keyItems (keys : List (List UInt8)) :
    ((keyItems keys).flatten.length : ℤ) = keys.length * 4 + keyLens keys := by
  induction keys with
  | nil => rfl
  | cons key keys ih =>
    have hcons : (keyItems (key :: keys)).flatten =
        encodeInt key.length ++ (key ++ (keyItems keys).flatten) := by simp [keyItems]
    have hsum : keyLens (key :: keys) = key.length + keyLens keys := by simp [keyLens]
    rw [hcons, hsum, List.length_append, List.length_append, length_encodeInt, List.length_cons]
    push_cast
    linarith

/-- The keys and values of the records. -/
def recBytes (recs : List KeyValue) : ℤ :=
  (recs.map fun r => ((r.1.length : ℤ) + r.2.length)).sum

theorem length_recItems (recs : List KeyValue) :
    ((recItems recs).flatten.length : ℤ) = recs.length * 8 + recBytes recs := by
  induction recs with
  | nil => rfl
  | cons r recs ih =>
    have hcons : (recItems (r :: recs)).flatten = encodeInt r.1.length ++ (r.1 ++
        (encodeInt r.2.length ++ (r.2 ++ (recItems recs).flatten))) := by simp [recItems]
    have hsum : recBytes (r :: recs) = r.1.length + r.2.length + recBytes recs := by
      simp [recBytes]
    rw [hcons, hsum]
    simp only [List.length_append, length_encodeInt, List.length_cons]
    push_cast
    linarith

theorem recBytes_nonneg (recs : List KeyValue) : 0 ≤ recBytes recs := by
  refine List.sum_nonneg fun z hz => ?_
  obtain ⟨r, _, rfl⟩ := List.mem_map.mp hz
  omega

theorem le_recBytes {recs : List KeyValue} {r : KeyValue} (h : r ∈ recs) :
    (r.1.length : ℤ) + r.2.length ≤ recBytes recs := by
  induction recs with
  | nil => cases h
  | cons r' recs ih =>
    have hsum : recBytes (r' :: recs) = r'.1.length + r'.2.length + recBytes recs := by
      simp [recBytes]
    have := recBytes_nonneg recs
    rw [hsum]
    rcases List.mem_cons.mp h with rfl | h
    · omega
    · have := ih h
      omega

/-- Where no sum of two lengths leaves `int`, the size loop adds them all. -/
theorem recLens_eq {recs : List KeyValue} (h : recBytes recs ≤ intMax) :
    recLens recs = recBytes recs := by
  have hmap : (recs.map fun r => wrapInt (r.1.length + r.2.length)) =
      recs.map fun r => ((r.1.length : ℤ) + r.2.length) := by
    refine List.map_congr_left fun r hr => ?_
    have hint : IsInt ((r.1.length : ℤ) + r.2.length) := ⟨by omega, (le_recBytes hr).trans h⟩
    rw [wrapInt_of_isInt hint]
  rw [recLens, hmap, recBytes]

/-- The size formula of messages with one key and value. -/
theorem pairSize_eq (n : ℕ) (key value : List UInt8)
    (h : (n + key.length + value.length : ℤ) ≤ mdhimMaxMsgSize) :
    (n + wrapInt (key.length + value.length) : ℤ) = n + key.length + value.length := by
  unfold mdhimMaxMsgSize at h
  have hsum : IsInt (key.length + value.length) := ⟨by omega, by unfold intMax; omega⟩
  rw [wrapInt_of_isInt hsum]
  omega

/-- The size formula of bulk messages with values. -/
theorem bulkSize_eq (n : ℕ) (recs : List KeyValue)
    (h : (n + recs.length * 8 + recBytes recs : ℤ) ≤ mdhimMaxMsgSize) :
    (n + wrapInt (2 * recs.length) * 4 + recLens recs : ℤ) =
      n + recs.length * 8 + recBytes recs := by
  have hnonneg := recBytes_nonneg recs
  unfold mdhimMaxMsgSize at h
  have hbytes : recBytes recs ≤ intMax := by unfold intMax; omega
  have hcount : IsInt (2 * recs.length) := ⟨by omega, by unfold intMax; omega⟩
  rw [recLens_eq hbytes, wrapInt_of_isInt hcount]
  omega

/-- A get reply within the limit packs. -/
theorem packGetrmMessage_isSome {grm : Getrm}
    (h : (layoutSize Getrm.layout + grm.key.length + grm.value.length : ℤ) ≤ mdhimMaxMsgSize) :
    (packGetrmMessage grm).isSome := by
  have hsize := pairSize_eq (layoutSize Getrm.layout) grm.key grm.value h
  unfold packGetrmMessage
  rw [hsize, packAll_eq h]
  · rfl
  · rw [flatten_skip]
    simp only [List.length_append, Getrm.image, length_fill]
    push_cast
    omega

/-- A get reply that packs is within the limit. -/
theorem le_of_packGetrmMessage {grm : Getrm} (h : (packGetrmMessage grm).isSome) :
    (layoutSize Getrm.layout + grm.key.length + grm.value.length : ℤ) ≤ mdhimMaxMsgSize := by
  obtain ⟨p, hp⟩ := Option.isSome_iff_exists.mp h
  unfold packGetrmMessage at hp
  obtain ⟨-, size, hle⟩ := le_of_packAll hp
  rw [flatten_skip] at hle
  simp only [List.length_append, Getrm.image, length_fill] at hle
  push_cast at hle
  omega

/-- A get request with a key of a valid length packs. -/
theorem packGetMessage_isSome {gm : Getm}
    (h : (layoutSize Getm.layout + gm.key.length : ℤ) ≤ mdhimMaxMsgSize) :
    (packGetMessage gm).isSome := by
  unfold packGetMessage
  rw [packAll_eq h]
  · rfl
  · simp only [List.flatten_cons, List.flatten_nil, List.append_nil, List.length_append, Getm.image,
      length_fill]
    push_cast
    omega

end MpiToShmem
