import MpiToShmem.Kit.Bytes
import MpiToShmem.Kit.Expansion

/-!
# The partitioner: keys to slices

A key is checked (`verifyKey`), mapped to a position among all keys that the slices can hold, and
from there to a slice (`getSliceNum`). Strings and byte keys are read as expansions in base 64 and
base 256; the `long double` arithmetic is exact here. Keys of the two floating point types are not
modelled.

`getSliceNum_of_verifyKey`: a verified key has a slice in range, for every slice size, also where
the number of all keys leaves 64 bits.
-/

namespace MpiToShmem

open Kit

/-- `MDHIM_SUCCESS`. -/
def mdhimSuccess : ℤ := 0

/-- `MDHIM_ERROR`. -/
def mdhimError : ℤ := -1

/-- `MDHIM_DB_ERROR`. -/
def mdhimDbError : ℤ := -2

/-- `MDHIM_MAX_SLICES`. -/
def mdhimMaxSlices : ℕ := 2147483647

/-- `MAX_KEY_LEN`. -/
def maxKeyLen : ℕ := 262144

/-- `MDHIM_ALPHABET_EXPONENT`. -/
def mdhimAlphabetExponent : ℕ := 6

/-- `md->key_type`. -/
inductive KeyType where
  | int | longInt | string | byte
deriving DecidableEq

/-- The options that partitioning depends on, in the range the program is started with. -/
structure MdhimOptions where
  dbKeyType : KeyType
  rserverFactor : ℕ
  maxRecsPerSlice : ℕ
  rserverFactor_pos : 0 < rserverFactor
  maxRecsPerSlice_pos : 0 < maxRecsPerSlice
  maxRecsPerSlice_lt : maxRecsPerSlice < 2 ^ 64

/-! ## The alphabet -/

/-- The codes of the characters from `a` to `b`. -/
def charRange (a b : Char) : List ℤ := (List.range (b.toNat + 1 - a.toNat)).map fun i => a.toNat + i

/-- `build_alphabet`: each character with its index. -/
def buildAlphabet : List (ℤ × ℕ) :=
  (charRange '0' '9' ++ charRange 'A' 'Z' ++ charRange 'a' 'z').zipIdx

/-- The code of a `char`, which is signed. -/
def charId (b : UInt8) : ℤ := if b.toNat < 128 then b.toNat else b.toNat - 256

/-- The index of a character in the alphabet, if it is there. -/
def findChar (id : ℤ) : Option ℕ := (buildAlphabet.find? fun mc => mc.1 = id).map Prod.snd

theorem findChar_lt {id : ℤ} {pos : ℕ} (h : findChar id = some pos) : pos < 62 := by
  have hall : ∀ mc ∈ buildAlphabet, mc.2 < 62 := by decide
  obtain ⟨mc, hmc, rfl⟩ := Option.map_eq_some_iff.mp h
  exact hall mc (List.mem_of_find?_eq_some hmc)

/-- The characters that the loops over a string key visit: all but a terminating NUL. -/
def strChars : List UInt8 → List UInt8
  | [] => []
  | b :: bs => if bs = [] ∧ b = 0 then [] else b :: strChars bs

/-! ## Keys -/

/-- What `verify_key` compares with the number of slices: zero for keys that are not integers. -/
def ikey (o : MdhimOptions) (key : List UInt8) : ℕ :=
  match o.dbKeyType with
  | .int => leNat (key.take 4)
  | .longInt => leNat (key.take 8)
  | .string | .byte => 0

/-- `verify_key`; `none` is the NULL pointer. -/
def verifyKey (o : MdhimOptions) : Option (List UInt8) → ℤ
  | none => mdhimError
  | some key =>
    if maxKeyLen < key.length then mdhimError
    else if o.dbKeyType = .string ∧ ¬ (strChars key).all fun b => (findChar (charId b)).isSome then
      mdhimError
    else if mdhimMaxSlices ≤ ikey o key / o.maxRecsPerSlice then mdhimError
    else mdhimSuccess

/-- `get_str_num`. -/
def getStrNum (key : List UInt8) : ℚ :=
  expand mdhimAlphabetExponent ((strChars key).map fun b => (findChar (charId b)).getD 0)

/-- `get_byte_num`. -/
def getByteNum (key : List UInt8) : ℚ := expand 8 (key.map UInt8.toNat)

/-- The last key number that the slices can represent, as a `uint64_t`. -/
def totalKeys (o : MdhimOptions) : ℕ := toUInt64 (mdhimMaxSlices * o.maxRecsPerSlice)

/-- The position of a key among all keys. -/
def keyNum (o : MdhimOptions) (key : List UInt8) : ℕ :=
  match o.dbKeyType with
  | .int => leNat (key.take 4)
  | .longInt => leNat (key.take 8)
  | .byte => ⌊getByteNum key * totalKeys o⌋.toNat
  | .string => ⌊getStrNum key * totalKeys o⌋.toNat

/-- `get_slice_num`. -/
def getSliceNum (o : MdhimOptions) (key : Option (List UInt8)) : ℤ :=
  match key with
  | none => mdhimError
  | some k =>
    if verifyKey o key ≠ mdhimSuccess then mdhimError
    else wrapInt (keyNum o k / o.maxRecsPerSlice : ℕ)

/-! ## Slices are in range -/

theorem getStrNum_digit_lt (b : UInt8) :
    (findChar (charId b)).getD 0 < 2 ^ mdhimAlphabetExponent := by
  unfold mdhimAlphabetExponent
  cases h : findChar (charId b) with
  | none => simp
  | some pos =>
    have := findChar_lt h
    simp only [Option.getD_some]
    omega

/-- The number of all keys is at most what the slices hold, wrapped or not. -/
theorem totalKeys_le (o : MdhimOptions) : totalKeys o ≤ mdhimMaxSlices * o.maxRecsPerSlice := by
  unfold totalKeys toUInt64
  rw [← Nat.cast_mul]
  omega

/-- A share of all keys falls in a slice. -/
theorem share_div_lt (o : MdhimOptions) {w : ℕ} {ds : List ℕ} (h : ∀ d ∈ ds, d < 2 ^ w) :
    ⌊expand w ds * totalKeys o⌋.toNat / o.maxRecsPerSlice < mdhimMaxSlices := by
  rcases Nat.eq_zero_or_pos (totalKeys o) with h0 | hpos
  · simp [h0, mdhimMaxSlices]
  · have hlt := floor_expand_mul_lt h hpos
    exact Nat.div_lt_of_lt_mul
      (lt_of_lt_of_le hlt ((totalKeys_le o).trans_eq (Nat.mul_comm _ _)))

theorem verifyKey_eq_success {o : MdhimOptions} {key : Option (List UInt8)}
    (h : verifyKey o key = mdhimSuccess) : ∃ k, key = some k ∧ k.length ≤ maxKeyLen := by
  cases key with
  | none => cases h
  | some k =>
    refine ⟨k, rfl, ?_⟩
    by_contra hlen
    simp only [verifyKey, if_pos (not_le.mp hlen)] at h
    cases h

/-- A verified key has a position in some slice. -/
theorem keyNum_div_lt {o : MdhimOptions} {k : List UInt8}
    (h : verifyKey o (some k) = mdhimSuccess) :
    keyNum o k / o.maxRecsPerSlice < mdhimMaxSlices := by
  have hikey : ikey o k / o.maxRecsPerSlice < mdhimMaxSlices := by
    by_contra hle
    simp only [verifyKey, if_pos (not_lt.mp hle), ite_self] at h
    cases h
  unfold keyNum
  cases hk : o.dbKeyType with
  | int => simpa [ikey, hk] using hikey
  | longInt => simpa [ikey, hk] using hikey
  | byte =>
    refine share_div_lt o fun d hd => ?_
    obtain ⟨b, _, rfl⟩ := List.mem_map.mp hd
    exact b.toNat_lt
  | string =>
    refine share_div_lt o fun d hd => ?_
    obtain ⟨b, _, rfl⟩ := List.mem_map.mp hd
    exact getStrNum_digit_lt b

/-- The slice of a verified key, which no narrowing changes. -/
theorem getSliceNum_eq {o : MdhimOptions} {k : List UInt8}
    (h : verifyKey o (some k) = mdhimSuccess) :
    getSliceNum o (some k) = (keyNum o k / o.maxRecsPerSlice : ℕ) := by
  unfold getSliceNum
  simp only [h, ne_eq, not_true_eq_false, if_false]
  exact wrapInt_natCast (keyNum_div_lt h).le

theorem getSliceNum_of_verifyKey {o : MdhimOptions} {key : Option (List UInt8)}
    (h : verifyKey o key = mdhimSuccess) :
    0 ≤ getSliceNum o key ∧ getSliceNum o key < mdhimMaxSlices := by
  obtain ⟨k, rfl, _⟩ := verifyKey_eq_success h
  rw [getSliceNum_eq h]
  exact ⟨Int.natCast_nonneg _, by exact_mod_cast keyNum_div_lt h⟩

theorem getSliceNum_of_not_verifyKey {o : MdhimOptions} {key : Option (List UInt8)}
    (h : verifyKey o key ≠ mdhimSuccess) : getSliceNum o key = mdhimError := by
  cases key with
  | none => rfl
  | some k => simp only [getSliceNum, if_pos h]

end MpiToShmem
