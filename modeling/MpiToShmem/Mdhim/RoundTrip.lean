import MpiToShmem.Mdhim.Codec

/-!
# Message round trips

`RoundTrips`: a message packs within `*sendsize` and the matching unpack function, given the bytes
sent and the size in the header, returns it.

`roundTrips_iff`: a message makes the trip exactly when its bytes, and for a bulk get also the size
that `pack_bget_message` computes, are within `MDHIM_MAX_MSG_SIZE`. One lemma a message type carries
it; all rest on `survivesTrip_iff`.
-/

namespace MpiToShmem

open Kit

/-! ## The trip of one message type -/

/-- Packing succeeds within `*sendsize`, which the header holds, and unpacking the `*sendsize` bytes
sent, whatever those behind the packed ones are, gives the message back. -/
def SurvivesTrip {M : Type} (pack : Option (Packed M)) (withSize : ℤ → M) (size : M → ℤ)
    (unpack : List UInt8 → ℤ → Option M) : Prop :=
  ∃ p, pack = some p ∧ p.msg = withSize p.sendsize ∧ (p.sendbuf.length : ℤ) ≤ p.sendsize ∧
    ∀ rest : List UInt8, ((p.sendbuf ++ rest).length : ℤ) = p.sendsize →
      unpack (p.sendbuf ++ rest) (size p.msg) = some p.msg

/-- A type whose items have `n` bytes, which its size formula covers and its unpack function reads
back, makes the trip when `n` and the formula are within the limit. -/
theorem survivesTrip_iff {M : Type} {mSize n : ℤ} {withSize : ℤ → M} {size : M → ℤ}
    {items : M → List (List UInt8)} {unpack : List UInt8 → ℤ → Option M}
    (hlen : ∀ s, ((items (withSize s)).flatten.length : ℤ) = n)
    (hcover : n ≤ mdhimMaxMsgSize → n ≤ mSize)
    (hunpack : ∀ s, IsInt s → ∀ rest : List UInt8,
      (((items (withSize s)).flatten ++ rest).length : ℤ) = s →
      unpack ((items (withSize s)).flatten ++ rest) (size (withSize s)) = some (withSize s)) :
    SurvivesTrip (packAll mSize withSize items) withSize size unpack ↔
      n ≤ mdhimMaxMsgSize ∧ mSize ≤ mdhimMaxMsgSize := by
  constructor
  · rintro ⟨p, hp, _⟩
    obtain ⟨hmax, s, hs⟩ := le_of_packAll hp
    exact ⟨hlen s ▸ hs, hmax⟩
  · rintro ⟨hn, hmax⟩
    have hfit : ((items (withSize mSize)).flatten.length : ℤ) ≤ mSize := by
      rw [hlen]
      exact hcover hn
    refine ⟨_, packAll_eq hmax hfit, rfl, hfit, hunpack mSize ⟨?_, hmax⟩⟩
    omega

/-- Storing a size in a struct keeps its members in range. -/
theorem forall_isInt_size {a b s s' : ℤ} {zs : List ℤ} (h : ∀ z ∈ a :: b :: s :: zs, IsInt z)
    (hs : IsInt s') : ∀ z ∈ a :: b :: s' :: zs, IsInt z := by
  simp only [List.forall_mem_cons] at h ⊢
  exact ⟨h.1, h.2.1, hs, h.2.2.2⟩

/-! ## The nine types -/

theorem putm_survivesTrip (pm : Putm) (h : ∀ z ∈ pm.ints, IsInt z) :
    SurvivesTrip (packPutMessage pm) (fun size => { pm with size := size }) Putm.size
      unpackPutMessage ↔
      (layoutSize Putm.layout + pm.key.length + pm.value.length : ℤ) ≤ mdhimMaxMsgSize := by
  have hwrap := pairSize_eq (layoutSize Putm.layout) pm.key pm.value
  unfold packPutMessage
  rw [survivesTrip_iff (n := layoutSize Putm.layout + pm.key.length + pm.value.length)]
  · exact ⟨fun hn => hn.1, fun hn => ⟨hn, by have := hwrap hn; omega⟩⟩
  · intro s
    simp only [List.flatten_cons, List.flatten_nil, List.length_append, Putm.image, length_fill,
      List.length_nil]
    push_cast
    omega
  · intro hn
    rw [hwrap hn]
  · intro s hs rest hl
    simp only [List.flatten_cons, List.flatten_nil, List.append_nil, List.append_assoc] at hl ⊢
    have hz : ∀ z ∈ ({ pm with size := s } : Putm).ints, IsInt z := forall_isInt_size h hs
    exact unpackPutMessage_append hz hl

theorem bputm_survivesTrip (bpm : Bputm) (h : ∀ z ∈ bpm.ints, IsInt z)
    (hr : ∀ r ∈ bpm.recs, IsInt r.1.length ∧ IsInt r.2.length) :
    SurvivesTrip (packBputMessage bpm) (fun size => { bpm with size := size }) Bputm.size
      unpackBputMessage ↔
      (layoutSize Bputm.layout + bpm.recs.length * 8 + recBytes bpm.recs : ℤ) ≤
        mdhimMaxMsgSize := by
  have hwrap := bulkSize_eq (layoutSize Bputm.layout) bpm.recs
  unfold packBputMessage
  rw [survivesTrip_iff (n := layoutSize Bputm.layout + bpm.recs.length * 8 + recBytes bpm.recs)]
  · exact ⟨fun hn => hn.1, fun hn => ⟨hn, by have := hwrap hn; omega⟩⟩
  · intro s
    rw [List.flatten_cons, List.length_append, Bputm.image, length_fill]
    push_cast
    rw [length_recItems]
    omega
  · intro hn
    rw [hwrap hn]
  · intro s hs rest hl
    rw [List.flatten_cons, List.append_assoc] at hl ⊢
    have hz : ∀ z ∈ ({ bpm with size := s } : Bputm).ints, IsInt z := forall_isInt_size h hs
    exact unpackBputMessage_append hz hr hl

theorem getm_survivesTrip (gm : Getm) (h : ∀ z ∈ gm.ints, IsInt z) :
    SurvivesTrip (packGetMessage gm) (fun size => { gm with size := size }) Getm.size
      unpackGetMessage ↔
      (layoutSize Getm.layout + gm.key.length : ℤ) ≤ mdhimMaxMsgSize := by
  unfold packGetMessage
  rw [survivesTrip_iff (n := layoutSize Getm.layout + gm.key.length)]
  · exact and_self_iff
  · intro s
    simp only [List.flatten_cons, List.flatten_nil, List.length_append, Getm.image, length_fill,
      List.length_nil]
    push_cast
    omega
  · exact fun _ => le_rfl
  · intro s hs rest hl
    simp only [List.flatten_cons, List.flatten_nil, List.append_nil, List.append_assoc] at hl ⊢
    have hz : ∀ z ∈ ({ gm with size := s } : Getm).ints, IsInt z := forall_isInt_size h hs
    exact unpackGetMessage_append hz hl

/-- The size of a bulk get counts a length too many for each key. -/
theorem bgetm_survivesTrip (bgm : Bgetm) (h : ∀ z ∈ bgm.ints, IsInt z)
    (hk : ∀ key ∈ bgm.keys, IsInt key.length) :
    SurvivesTrip (packBgetMessage bgm) (fun size => { bgm with size := size }) Bgetm.size
      unpackBgetMessage ↔
      (layoutSize Bgetm.layout + bgm.keys.length * 4 + keyLens bgm.keys : ℤ) ≤ mdhimMaxMsgSize ∧
        bgm.packSize ≤ mdhimMaxMsgSize := by
  unfold packBgetMessage
  rw [survivesTrip_iff (n := layoutSize Bgetm.layout + bgm.keys.length * 4 + keyLens bgm.keys)]
  · intro s
    rw [List.flatten_cons, List.length_append, Bgetm.image, length_fill]
    push_cast
    rw [length_keyItems]
    omega
  · intro _
    unfold Bgetm.packSize
    omega
  · intro s hs rest hl
    rw [List.flatten_cons, List.append_assoc] at hl ⊢
    have hz : ∀ z ∈ ({ bgm with size := s } : Bgetm).ints, IsInt z := forall_isInt_size h hs
    exact unpackBgetMessage_append hz hk hl

theorem delm_survivesTrip (dm : Delm) (h : ∀ z ∈ dm.ints, IsInt z) :
    SurvivesTrip (packDelMessage dm) (fun size => { dm with size := size }) Delm.size
      unpackDelMessage ↔
      (layoutSize Delm.layout + dm.key.length : ℤ) ≤ mdhimMaxMsgSize := by
  unfold packDelMessage
  rw [survivesTrip_iff (n := layoutSize Delm.layout + dm.key.length)]
  · exact and_self_iff
  · intro s
    simp only [List.flatten_cons, List.flatten_nil, List.length_append, Delm.image, length_fill,
      List.length_nil]
    push_cast
    omega
  · exact fun _ => le_rfl
  · intro s hs rest hl
    simp only [List.flatten_cons, List.flatten_nil, List.append_nil, List.append_assoc] at hl ⊢
    have hz : ∀ z ∈ ({ dm with size := s } : Delm).ints, IsInt z := forall_isInt_size h hs
    exact unpackDelMessage_append hz hl

theorem bdelm_survivesTrip (bdm : Bdelm) (h : ∀ z ∈ bdm.ints, IsInt z)
    (hk : ∀ key ∈ bdm.keys, IsInt key.length) :
    SurvivesTrip (packBdelMessage bdm) (fun size => { bdm with size := size }) Bdelm.size
      unpackBdelMessage ↔
      (layoutSize Bdelm.layout + bdm.keys.length * 4 + keyLens bdm.keys : ℤ) ≤
        mdhimMaxMsgSize := by
  unfold packBdelMessage
  rw [survivesTrip_iff (n := layoutSize Bdelm.layout + bdm.keys.length * 4 + keyLens bdm.keys)]
  · exact and_self_iff
  · intro s
    rw [List.flatten_cons, List.length_append, Bdelm.image, length_fill]
    push_cast
    rw [length_keyItems]
    omega
  · exact fun _ => le_rfl
  · intro s hs rest hl
    rw [List.flatten_cons, List.append_assoc] at hl ⊢
    have hz : ∀ z ∈ ({ bdm with size := s } : Bdelm).ints, IsInt z := forall_isInt_size h hs
    exact unpackBdelMessage_append hz hk hl

theorem rm_survivesTrip (rm : Rm) (h : ∀ z ∈ rm.ints, IsInt z) :
    SurvivesTrip (packReturnMessage rm) (fun size => { rm with size := size }) Rm.size
      (fun message _ => unpackReturnMessage message) ↔
      (layoutSize Rm.layout : ℤ) ≤ mdhimMaxMsgSize := by
  unfold packReturnMessage
  rw [survivesTrip_iff (n := layoutSize Rm.layout)]
  · exact and_self_iff
  · intro s
    simp only [List.flatten_cons, List.flatten_nil, List.append_nil, Rm.image, length_fill]
  · exact fun _ => le_rfl
  · intro s hs rest hl
    simp only [List.flatten_cons, List.flatten_nil, List.append_nil] at hl ⊢
    have hz : ∀ z ∈ ({ rm with size := s } : Rm).ints, IsInt z := forall_isInt_size h hs
    exact unpackReturnMessage_append hz rest

theorem getrm_survivesTrip (grm : Getrm) (h : ∀ z ∈ grm.ints, IsInt z) :
    SurvivesTrip (packGetrmMessage grm) (fun size => { grm with size := size }) Getrm.size
      unpackGetrmMessage ↔
      (layoutSize Getrm.layout + grm.key.length + grm.value.length : ℤ) ≤ mdhimMaxMsgSize := by
  have hwrap := pairSize_eq (layoutSize Getrm.layout) grm.key grm.value
  unfold packGetrmMessage
  rw [survivesTrip_iff (n := layoutSize Getrm.layout + grm.key.length + grm.value.length)]
  · exact ⟨fun hn => hn.1, fun hn => ⟨hn, by have := hwrap hn; omega⟩⟩
  · intro s
    rw [flatten_skip]
    simp only [List.length_append, Getrm.image, length_fill]
    push_cast
    omega
  · intro hn
    rw [hwrap hn]
  · intro s hs rest hl
    rw [flatten_skip] at hl ⊢
    simp only [List.append_assoc] at hl ⊢
    have hz : ∀ z ∈ ({ grm with size := s } : Getrm).ints, IsInt z := forall_isInt_size h hs
    exact unpackGetrmMessage_append hz hl

theorem bgetrm_survivesTrip (bgrm : Bgetrm) (h : ∀ z ∈ bgrm.ints, IsInt z)
    (hr : ∀ r ∈ bgrm.recs, IsInt r.1.length ∧ IsInt r.2.length) :
    SurvivesTrip (packBgetrmMessage bgrm) (fun size => { bgrm with size := size }) Bgetrm.size
      unpackBgetrmMessage ↔
      (layoutSize Bgetrm.layout + bgrm.recs.length * 8 + recBytes bgrm.recs : ℤ) ≤
        mdhimMaxMsgSize := by
  have hwrap := bulkSize_eq (layoutSize Bgetrm.layout) bgrm.recs
  unfold packBgetrmMessage
  rw [survivesTrip_iff (n := layoutSize Bgetrm.layout + bgrm.recs.length * 8 + recBytes bgrm.recs)]
  · exact ⟨fun hn => hn.1, fun hn => ⟨hn, by have := hwrap hn; omega⟩⟩
  · intro s
    rw [List.flatten_cons, flatten_recItemsSkip, List.length_append, Bgetrm.image, length_fill]
    push_cast
    rw [length_recItems]
    omega
  · intro hn
    rw [hwrap hn]
  · intro s hs rest hl
    rw [List.flatten_cons, flatten_recItemsSkip, List.append_assoc] at hl ⊢
    have hz : ∀ z ∈ ({ bgrm with size := s } : Bgetrm).ints, IsInt z := forall_isInt_size h hs
    exact unpackBgetrmMessage_append hz hr hl

/-! ## All messages -/

/-- A message of one of the nine types. -/
inductive WireMessage where
  | put (pm : Putm)
  | bput (bpm : Bputm)
  | get (gm : Getm)
  | bget (bgm : Bgetm)
  | del (dm : Delm)
  | bdel (bdm : Bdelm)
  | ret (rm : Rm)
  | getrm (grm : Getrm)
  | bgetrm (bgrm : Bgetrm)

/-- The `int` members and the lengths of the records are `int`s. -/
def WireMessage.WellFormed : WireMessage → Prop
  | .put pm => ∀ z ∈ pm.ints, IsInt z
  | .bput bpm => (∀ z ∈ bpm.ints, IsInt z) ∧ ∀ r ∈ bpm.recs, IsInt r.1.length ∧ IsInt r.2.length
  | .get gm => ∀ z ∈ gm.ints, IsInt z
  | .bget bgm => (∀ z ∈ bgm.ints, IsInt z) ∧ ∀ key ∈ bgm.keys, IsInt key.length
  | .del dm => ∀ z ∈ dm.ints, IsInt z
  | .bdel bdm => (∀ z ∈ bdm.ints, IsInt z) ∧ ∀ key ∈ bdm.keys, IsInt key.length
  | .ret rm => ∀ z ∈ rm.ints, IsInt z
  | .getrm grm => ∀ z ∈ grm.ints, IsInt z
  | .bgetrm bgrm =>
    (∀ z ∈ bgrm.ints, IsInt z) ∧ ∀ r ∈ bgrm.recs, IsInt r.1.length ∧ IsInt r.2.length

/-- The bytes of a message: its struct, the lengths of its records, its keys and values. -/
def WireMessage.bytes : WireMessage → ℤ
  | .put pm => layoutSize Putm.layout + pm.key.length + pm.value.length
  | .bput bpm => layoutSize Bputm.layout + bpm.recs.length * 8 + recBytes bpm.recs
  | .get gm => layoutSize Getm.layout + gm.key.length
  | .bget bgm => layoutSize Bgetm.layout + bgm.keys.length * 4 + keyLens bgm.keys
  | .del dm => layoutSize Delm.layout + dm.key.length
  | .bdel bdm => layoutSize Bdelm.layout + bdm.keys.length * 4 + keyLens bdm.keys
  | .ret _ => layoutSize Rm.layout
  | .getrm grm => layoutSize Getrm.layout + grm.key.length + grm.value.length
  | .bgetrm bgrm => layoutSize Bgetrm.layout + bgrm.recs.length * 8 + recBytes bgrm.recs

/-- The message survives its `pack_*` and `unpack_*` functions. -/
def WireMessage.RoundTrips : WireMessage → Prop
  | .put pm => SurvivesTrip (packPutMessage pm) (fun size => { pm with size := size }) Putm.size
      unpackPutMessage
  | .bput bpm => SurvivesTrip (packBputMessage bpm) (fun size => { bpm with size := size })
      Bputm.size unpackBputMessage
  | .get gm => SurvivesTrip (packGetMessage gm) (fun size => { gm with size := size }) Getm.size
      unpackGetMessage
  | .bget bgm => SurvivesTrip (packBgetMessage bgm) (fun size => { bgm with size := size })
      Bgetm.size unpackBgetMessage
  | .del dm => SurvivesTrip (packDelMessage dm) (fun size => { dm with size := size }) Delm.size
      unpackDelMessage
  | .bdel bdm => SurvivesTrip (packBdelMessage bdm) (fun size => { bdm with size := size })
      Bdelm.size unpackBdelMessage
  | .ret rm => SurvivesTrip (packReturnMessage rm) (fun size => { rm with size := size }) Rm.size
      fun message _ => unpackReturnMessage message
  | .getrm grm => SurvivesTrip (packGetrmMessage grm) (fun size => { grm with size := size })
      Getrm.size unpackGetrmMessage
  | .bgetrm bgrm => SurvivesTrip (packBgetrmMessage bgrm) (fun size => { bgrm with size := size })
      Bgetrm.size unpackBgetrmMessage

/-- A message makes the trip exactly when its bytes are within the limit and, if it is a bulk get,
so is the size with two lengths a key that `pack_bget_message` computes. -/
theorem roundTrips_iff (m : WireMessage) (h : m.WellFormed) :
    m.RoundTrips ↔
      m.bytes ≤ mdhimMaxMsgSize ∧ ∀ bgm, m = .bget bgm → bgm.packSize ≤ mdhimMaxMsgSize := by
  have hother : ∀ P : Prop, (P ↔ m.bytes ≤ mdhimMaxMsgSize) → (∀ bgm, m ≠ .bget bgm) →
      (P ↔ m.bytes ≤ mdhimMaxMsgSize ∧ ∀ bgm, m = .bget bgm → bgm.packSize ≤ mdhimMaxMsgSize) := by
    intro P hP hm
    rw [hP, and_iff_left fun bgm hbgm => absurd hbgm (hm bgm)]
  cases m with
  | put pm => exact hother _ (putm_survivesTrip pm h) (by simp)
  | bput bpm => exact hother _ (bputm_survivesTrip bpm h.1 h.2) (by simp)
  | get gm => exact hother _ (getm_survivesTrip gm h) (by simp)
  | bget bgm =>
    refine (bgetm_survivesTrip bgm h.1 h.2).trans (and_congr_right fun _ => ?_)
    exact ⟨fun hsize bgm' hbgm => WireMessage.bget.inj hbgm ▸ hsize, fun hall => hall bgm rfl⟩
  | del dm => exact hother _ (delm_survivesTrip dm h) (by simp)
  | bdel bdm => exact hother _ (bdelm_survivesTrip bdm h.1 h.2) (by simp)
  | ret rm => exact hother _ (rm_survivesTrip rm h) (by simp)
  | getrm grm => exact hother _ (getrm_survivesTrip grm h) (by simp)
  | bgetrm bgrm => exact hother _ (bgetrm_survivesTrip bgrm h.1 h.2) (by simp)

/-- A put of one key makes the trip. -/
theorem roundTrips_iff_put :
    (WireMessage.put ⟨1, 0, 0, [7, 0, 0, 0], []⟩).RoundTrips := by
  refine (roundTrips_iff _ ?_).mpr ⟨by decide, fun bgm hbgm => by cases hbgm⟩
  show ∀ z ∈ [(1 : ℤ), 0, 0, 4, 0], IsInt z
  decide

/-- A bulk get of one key whose bytes are exactly the limit does not. -/
theorem not_roundTrips_bget : ¬ ∀ m : WireMessage, m.WellFormed → m.bytes ≤ mdhimMaxMsgSize →
    m.RoundTrips := by
  intro hall
  have hlen : (List.replicate 2147483603 (0 : UInt8)).length = 2147483603 := List.length_replicate
  generalize List.replicate 2147483603 (0 : UInt8) = key at hlen
  have hints : ∀ z ∈ (Bgetm.mk 4 0 0 0 [key]).ints, IsInt z := by
    show ∀ z ∈ [(4 : ℤ), 0, 0, 0, 1], IsInt z
    decide
  have hkeys : ∀ k ∈ [key], IsInt k.length := by
    intro k hk
    rw [List.mem_singleton.mp hk, hlen]
    decide
  have hsum : keyLens [key] = 2147483603 := by simp [keyLens, hlen]
  have hbytes : (WireMessage.bget ⟨4, 0, 0, 0, [key]⟩).bytes ≤ mdhimMaxMsgSize := by
    simp only [WireMessage.bytes, hsum]
    show (40 + 1 * 4 + 2147483603 : ℤ) ≤ 2147483647
    norm_num
  obtain ⟨p, hp, _⟩ := hall (.bget ⟨4, 0, 0, 0, [key]⟩) ⟨hints, hkeys⟩ hbytes
  have hsize : mdhimMaxMsgSize < (Bgetm.mk 4 0 0 0 [key]).packSize := by
    simp only [Bgetm.packSize, hsum]
    show (2147483647 : ℤ) < 40 + 1 * 4 * 2 + 2147483603
    norm_num
  rw [packBgetMessage, packAll_eq_none hsize] at hp
  cases hp

end MpiToShmem
