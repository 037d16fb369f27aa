import MpiToShmem.Mdhim.RangeServers
import MpiToShmem.Mdhim.Stats

/-!
# Integer keys

A key of type `MDHIM_INT_KEY` or `MDHIM_LONG_INT_KEY` is an unsigned number of 4 or 8 bytes. The
databases order such keys as numbers, the statistics hold the numbers themselves, and the slice is
a quotient (`slice_intKeying`), so slices follow key order (`slice_mono`).
-/

namespace MpiToShmem

open Kit

/-- Options with an integer key type. -/
structure IntOptions extends MdhimOptions where
  isInt : dbKeyType = .int ∨ dbKeyType = .longInt

variable (o : IntOptions)

/-- The bytes of a key. -/
def IntOptions.keyWidth : ℕ := if o.dbKeyType = .int then 4 else 8

/-- A key, as the number its bytes hold. -/
abbrev IntKey : Type := Fin (256 ^ o.keyWidth)

variable {o}

/-- The bytes of a key. -/
def keyBytes (k : IntKey o) : List UInt8 := leBytes o.keyWidth k

theorem leNat_keyBytes (k : IntKey o) : leNat (keyBytes k) = k := leNat_leBytes k.isLt

@[simp] theorem length_keyBytes (k : IntKey o) : (keyBytes k).length = o.keyWidth :=
  length_leBytes _ _

/-- What the key is read as, wherever it is read. -/
theorem keyNum_keyBytes (k : IntKey o) : keyNum o.toMdhimOptions (keyBytes k) = k := by
  unfold keyNum
  rcases o.isInt with h | h
  · have hw : o.keyWidth = 4 := by unfold IntOptions.keyWidth; rw [if_pos h]
    rw [h]
    simp only
    rw [List.take_of_length_le (by rw [length_keyBytes, hw]), leNat_keyBytes]
  · have hw : o.keyWidth = 8 := by unfold IntOptions.keyWidth; rw [if_neg (by rw [h]; simp)]
    rw [h]
    simp only
    rw [List.take_of_length_le (by rw [length_keyBytes, hw]), leNat_keyBytes]

theorem ikey_keyBytes (k : IntKey o) : ikey o.toMdhimOptions (keyBytes k) = k := by
  rw [← keyNum_keyBytes]
  unfold ikey keyNum
  rcases o.isInt with h | h <;> rw [h]

/-- The slices are enough for this key. -/
def ValidKey (k : IntKey o) : Prop := (k : ℕ) / o.maxRecsPerSlice < mdhimMaxSlices

instance (k : IntKey o) : Decidable (ValidKey k) := by unfold ValidKey; infer_instance

theorem verifyKey_keyBytes (k : IntKey o) :
    verifyKey o.toMdhimOptions (some (keyBytes k)) = mdhimSuccess ↔ ValidKey k := by
  have hlen : ¬ maxKeyLen < (keyBytes k).length := by
    rw [length_keyBytes]
    unfold IntOptions.keyWidth maxKeyLen
    split_ifs <;> omega
  have hstr : o.dbKeyType ≠ .string := by
    rcases o.isInt with h | h <;> rw [h] <;> simp
  simp only [verifyKey, if_neg hlen, if_neg (fun h : _ ∧ _ => hstr h.1), ikey_keyBytes]
  unfold ValidKey mdhimError mdhimSuccess
  split_ifs with h
  · simp only [false_iff]
    omega
  · simp only [true_iff]
    omega

/-! ## Statistics and slices -/

variable (o) in
/-- Integer keys in the statistics. -/
def intKeying : Keying (IntKey o) ℕ where
  slice k := getSliceNum o.toMdhimOptions (some (keyBytes k))
  stat k := k
  slice_isInt k := by
    unfold getSliceNum
    simp only
    split_ifs
    · decide
    · exact isInt_wrapInt _

theorem intKeying_slice (k : IntKey o) :
    (intKeying o).slice k = getSliceNum o.toMdhimOptions (some (keyBytes k)) := rfl

@[simp] theorem stat_intKeying (k : IntKey o) : (intKeying o).stat k = k := rfl

/-- The slice of a key. -/
theorem slice_intKeying {k : IntKey o} (h : ValidKey k) :
    (intKeying o).slice k = ((k : ℕ) / o.maxRecsPerSlice : ℕ) := by
  rw [intKeying_slice, getSliceNum_eq ((verifyKey_keyBytes k).mpr h), keyNum_keyBytes]

/-- Slices follow key order. -/
theorem slice_mono {j k : IntKey o} (hj : ValidKey j) (hk : ValidKey k) (h : j ≤ k) :
    (intKeying o).slice j ≤ (intKeying o).slice k := by
  rw [slice_intKeying hj, slice_intKeying hk]
  exact_mod_cast Nat.div_le_div_right (c := o.maxRecsPerSlice) h

end MpiToShmem
