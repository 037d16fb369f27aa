import MpiToShmem.Mdhim.Partitioner
import Mathlib.Data.Int.ConditionallyCompleteOrder
import Mathlib.Data.List.Sort

/-!
# Slices and the order of keys

String keys are compared character by character, and the alphabet numbers its characters in their
order, so slices follow the order of string keys (`strSlice_mono`); the numbers of two string keys
are also equal when they differ in `'0'`s behind the shorter one (`getStrNum_lt_iff`).

Byte keys are compared by their lengths first, while their numbers are like those of strings. The
slices follow the order of two byte keys unless the shorter one is in a higher slice
(`slicesFollow_iff`).
-/

namespace MpiToShmem

open Kit

/-! ## The alphabet -/

/-- The characters of the alphabet are in ascending order. -/
theorem sortedLT_alphabet :
    (charRange '0' '9' ++ charRange 'A' 'Z' ++ charRange 'a' 'z').SortedLT :=
  List.sortedLT_iff_isChain.mpr (by decide +kernel)

theorem getElem?_alphabet {id : ℤ} {pos : ℕ} (h : findChar id = some pos) :
    (charRange '0' '9' ++ charRange 'A' 'Z' ++ charRange 'a' 'z')[pos]? = some id := by
  obtain ⟨mc, hmc, rfl⟩ := Option.map_eq_some_iff.mp h
  have hmem := List.mem_of_find?_eq_some hmc
  have hid := List.find?_some hmc
  rw [decide_eq_true_eq] at hid
  rw [← hid]
  exact List.mem_zipIdx_iff_getElem?.mp hmem

/-- Characters and their positions are in the same order. -/
theorem findChar_lt_iff {id id' : ℤ} {pos pos' : ℕ} (h : findChar id = some pos)
    (h' : findChar id' = some pos') : pos < pos' ↔ id < id' := by
  obtain ⟨hpos, rfl⟩ := List.getElem?_eq_some_iff.mp (getElem?_alphabet h)
  obtain ⟨hpos', rfl⟩ := List.getElem?_eq_some_iff.mp (getElem?_alphabet h')
  exact (sortedLT_alphabet.getElem_lt_getElem_iff).symm

/-- The characters are those that a signed `char` holds without its sign. -/
theorem charId_of_findChar {b : UInt8} (h : (findChar (charId b)).isSome) :
    charId b = b.toNat := by
  obtain ⟨pos, hpos⟩ := Option.isSome_iff_exists.mp h
  have hall : ∀ id ∈ charRange '0' '9' ++ charRange 'A' 'Z' ++ charRange 'a' 'z', (0 : ℤ) ≤ id := by
    decide
  have hnonneg := hall _ (List.mem_of_getElem? (getElem?_alphabet hpos))
  have hlt := b.toNat_lt
  unfold charId at hnonneg ⊢
  split_ifs at hnonneg ⊢ with hb
  · rfl
  · omega

/-- The digit of a character. -/
def charDigit (b : UInt8) : ℕ := (findChar (charId b)).getD 0

theorem charDigit_lt_iff {b b' : UInt8} (h : (findChar (charId b)).isSome)
    (h' : (findChar (charId b')).isSome) : charDigit b < charDigit b' ↔ b < b' := by
  obtain ⟨pos, hpos⟩ := Option.isSome_iff_exists.mp h
  obtain ⟨pos', hpos'⟩ := Option.isSome_iff_exists.mp h'
  rw [charDigit, charDigit, hpos, hpos', Option.getD_some, Option.getD_some,
    findChar_lt_iff hpos hpos', charId_of_findChar h, charId_of_findChar h', UInt8.lt_iff_toNat_lt]
  omega

theorem charDigit_eq_iff {b b' : UInt8} (h : (findChar (charId b)).isSome)
    (h' : (findChar (charId b')).isSome) : charDigit b = charDigit b' ↔ b = b' := by
  have hlt := charDigit_lt_iff h h'
  have hgt := charDigit_lt_iff h' h
  rw [UInt8.lt_iff_toNat_lt] at hlt hgt
  rw [← UInt8.toNat_inj]
  omega

/-! ## String keys -/

section

variable {o : MdhimOptions} {a b : List UInt8}

/-- A string that is verified consists of characters of the alphabet. -/
theorem isSome_of_verifyKey (hstr : o.dbKeyType = .string)
    (h : verifyKey o (some a) = mdhimSuccess) :
    ∀ c ∈ strChars a, (findChar (charId c)).isSome := by
  unfold verifyKey at h
  dsimp only at h
  split_ifs at h with hlen hchars
  · cases h
  · cases h
  · cases h
  · exact List.all_eq_true.mp (not_not.mp fun hall => hchars ⟨hstr, hall⟩)

theorem getStrNum_eq (a : List UInt8) :
    getStrNum a = expand mdhimAlphabetExponent ((strChars a).map charDigit) := rfl

theorem strDigit_lt (a : List UInt8) :
    ∀ d ∈ (strChars a).map charDigit, d < 2 ^ mdhimAlphabetExponent := by
  intro d hd
  obtain ⟨c, _, rfl⟩ := List.mem_map.mp hd
  exact getStrNum_digit_lt c

/-- A string is before another one, and not only by `'0'`s behind it. -/
def BeforeZeros (a b : List UInt8) : Prop :=
  strChars a < strChars b ∧ ¬ ∃ n, strChars b = strChars a ++ List.replicate n 48

/-- Numbers follow the order of strings, except that `'0'`s behind them do not count. -/
theorem getStrNum_lt_iff (ha : ∀ c ∈ strChars a, (findChar (charId c)).isSome)
    (hb : ∀ c ∈ strChars b, (findChar (charId c)).isSome) :
    getStrNum a < getStrNum b ↔ BeforeZeros a b := by
  have hzero : ∀ c ∈ strChars b, charDigit c = 0 ↔ c = 48 := fun c hc => by
    have h0 : charDigit 48 = 0 := by decide
    rw [← h0, charDigit_eq_iff (hb c hc) (by decide)]
  rw [getStrNum_eq, getStrNum_eq, expand_lt_iff (strDigit_lt a) (strDigit_lt b), BeforeZeros,
    map_append_replicate_iff hzero fun x hx y hy => charDigit_eq_iff (ha x hx) (hb y hy),
    map_lt_map_iff fun x hx y hy =>
      ⟨charDigit_lt_iff (ha x hx) (hb y hy), charDigit_eq_iff (ha x hx) (hb y hy)⟩]

theorem getStrNum_le (ha : ∀ c ∈ strChars a, (findChar (charId c)).isSome)
    (hb : ∀ c ∈ strChars b, (findChar (charId c)).isSome) (h : strChars a < strChars b) :
    getStrNum a ≤ getStrNum b :=
  not_lt.mp fun hlt => List.lt_asymm h ((getStrNum_lt_iff hb ha).mp hlt).1

/-- A greater share of all keys is in no lower slice. -/
theorem share_le {x y : ℚ} (h : x ≤ y) (o : MdhimOptions) :
    ⌊x * totalKeys o⌋.toNat / o.maxRecsPerSlice ≤ ⌊y * totalKeys o⌋.toNat / o.maxRecsPerSlice :=
  Nat.div_le_div_right (Int.toNat_le_toNat (Int.floor_le_floor (by gcongr)))

theorem strSlice_eq (hstr : o.dbKeyType = .string) (h : verifyKey o (some a) = mdhimSuccess) :
    getSliceNum o (some a) =
      (⌊getStrNum a * totalKeys o⌋.toNat / o.maxRecsPerSlice : ℕ) := by
  rw [getSliceNum_eq h, keyNum, hstr]

/-- Slices follow the order of string keys, and all keys of a lower slice are before those of a
higher one. -/
theorem strSlice_mono (o : MdhimOptions) (hstr : o.dbKeyType = .string) {a b : List UInt8}
    (ha : verifyKey o (some a) = mdhimSuccess) (hb : verifyKey o (some b) = mdhimSuccess) :
    (strChars a < strChars b → getSliceNum o (some a) ≤ getSliceNum o (some b)) ∧
      (getSliceNum o (some a) < getSliceNum o (some b) → strChars a < strChars b) := by
  have hca := isSome_of_verifyKey hstr ha
  have hcb := isSome_of_verifyKey hstr hb
  rw [strSlice_eq hstr ha, strSlice_eq hstr hb]
  constructor
  · intro h
    exact_mod_cast share_le (getStrNum_le hca hcb h) o
  · intro hlt
    have hnum : getStrNum a < getStrNum b := by
      by_contra hle
      have := share_le (not_lt.mp hle) o
      omega
    exact ((getStrNum_lt_iff hca hcb).mp hnum).1

/-- The keys `A` and `B`. -/
theorem strSlice_mono_letters :
    let o : MdhimOptions := ⟨.string, 1, 10, by decide, by decide, by decide⟩
    getSliceNum o (some [65]) ≤ getSliceNum o (some [66, 0]) :=
  (strSlice_mono ⟨.string, 1, 10, by decide, by decide, by decide⟩ rfl (by decide)
    (by decide)).1 (by decide)

/-! ## Byte keys -/

/-- `cmp_empty`; 2 where the lengths are the same. -/
def cmpEmpty : Option (List UInt8) → Option (List UInt8) → ℤ
  | some _, none => 1
  | none, some _ => -1
  | none, none => 0
  | some a, some b => if a.length > b.length then 1 else if b.length > a.length then -1 else 2

/-- `memcmp`, with one value for each sign. -/
def memcmp : List UInt8 → List UInt8 → ℕ → ℤ
  | c :: a, d :: b, n + 1 => if c < d then -1 else if d < c then 1 else memcmp a b n
  | _, _, _ => 0

/-- `cmp_byte_compare`. -/
def cmpByteCompare (a b : Option (List UInt8)) : ℤ :=
  let ret := cmpEmpty a b
  if ret ≠ 2 then ret else memcmp (a.getD []) (b.getD []) (a.getD []).length

theorem memcmp_neg_iff (h : a.length = b.length) : memcmp a b a.length < 0 ↔ a < b := by
  induction a generalizing b with
  | nil =>
    rw [List.length_eq_zero_iff.mp h.symm]
    simp [memcmp]
  | cons c a ih =>
    cases b with
    | nil => cases h
    | cons d b =>
      rw [List.length_cons, memcmp, List.cons_lt_cons_iff]
      split_ifs with hlt hgt
      · exact iff_of_true (by decide) (Or.inl hlt)
      · refine iff_of_false (by decide) ?_
        rintro (hlt' | ⟨rfl, -⟩)
        · exact hlt hlt'
        · exact hlt hgt
      · have heq : c = d := by
          rw [← UInt8.toNat_inj]
          rw [UInt8.lt_iff_toNat_lt] at hlt hgt
          omega
        rw [ih (Nat.succ.inj h)]
        simp [heq]

/-- The length of a byte key comes before its bytes. -/
theorem cmpByteCompare_neg_iff : cmpByteCompare (some a) (some b) < 0 ↔
    a.length < b.length ∨ a.length = b.length ∧ a < b := by
  unfold cmpByteCompare cmpEmpty
  dsimp only [Option.getD_some]
  rcases lt_trichotomy a.length b.length with hlt | heq | hgt
  · rw [if_neg (by omega : ¬ a.length > b.length), if_pos hlt]
    simp [hlt]
  · rw [if_neg (by omega : ¬ a.length > b.length), if_neg (by omega : ¬ b.length > a.length)]
    simp [heq, ← memcmp_neg_iff heq]
  · rw [if_pos hgt]
    simp [hgt.not_gt, hgt.ne']

theorem verifyKey_byte (hbyte : o.dbKeyType = .byte) (h : a.length ≤ maxKeyLen) :
    verifyKey o (some a) = mdhimSuccess := by
  have hikey : ikey o a = 0 := by
    rw [ikey, hbyte]
  simp [verifyKey, hbyte, hikey, not_lt.mpr h, mdhimMaxSlices]

theorem byteSlice_eq (hbyte : o.dbKeyType = .byte) (h : a.length ≤ maxKeyLen) :
    getSliceNum o (some a) =
      (⌊getByteNum a * totalKeys o⌋.toNat / o.maxRecsPerSlice : ℕ) := by
  rw [getSliceNum_eq (verifyKey_byte hbyte h), keyNum, hbyte]

theorem byteDigit_lt (a : List UInt8) : ∀ d ∈ a.map UInt8.toNat, d < 2 ^ 8 := by
  intro d hd
  obtain ⟨c, _, rfl⟩ := List.mem_map.mp hd
  exact c.toNat_lt

/-- Of two keys that are in the order of their bytes, the first has no greater number. -/
theorem getByteNum_le (h : a < b) : getByteNum a ≤ getByteNum b := by
  refine expand_le_of_lt (byteDigit_lt a) (byteDigit_lt b) ?_
  rw [map_lt_map_iff fun x _ y _ => ⟨UInt8.lt_iff_toNat_lt.symm, UInt8.toNat_inj⟩]
  exact h

/-- A slice starts behind the position of `b` and not behind that of `a`. -/
def SliceStartsBetween (o : MdhimOptions) (b a : List UInt8) : Prop :=
  ∃ s : ℕ, getByteNum b * totalKeys o < s * o.maxRecsPerSlice ∧
    (s * o.maxRecsPerSlice : ℚ) ≤ getByteNum a * totalKeys o

/-- Two shares of all keys are in different slices when a slice starts between them. -/
theorem share_lt_iff {x y : ℚ} (hx : 0 ≤ x) :
    ⌊x⌋.toNat / o.maxRecsPerSlice < ⌊y⌋.toNat / o.maxRecsPerSlice ↔
      ∃ s : ℕ, x < s * o.maxRecsPerSlice ∧ (s * o.maxRecsPerSlice : ℚ) ≤ y := by
  have hpos := o.maxRecsPerSlice_pos
  have hfloor : 0 ≤ ⌊x⌋ := Int.floor_nonneg.mpr hx
  have hlt (n : ℕ) : ⌊x⌋.toNat < n ↔ x < n := by
    have := Int.floor_lt (a := x) (z := (n : ℤ))
    push_cast at this
    rw [← this]
    omega
  have hle (n : ℕ) (hn : 0 < n) : n ≤ ⌊y⌋.toNat ↔ (n : ℚ) ≤ y := by
    have := Int.le_floor (a := y) (z := (n : ℤ))
    push_cast at this
    rw [← this]
    omega
  constructor
  · intro h
    refine ⟨⌊y⌋.toNat / o.maxRecsPerSlice, ?_, ?_⟩
    · have := (hlt _).mp ((Nat.div_lt_iff_lt_mul hpos).mp h)
      exact_mod_cast this
    · have hmul := Nat.div_mul_le_self ⌊y⌋.toNat o.maxRecsPerSlice
      have := (hle _ (Nat.mul_pos ((Nat.zero_le _).trans_lt h) hpos)).mp hmul
      exact_mod_cast this
  · rintro ⟨s, hxs, hsy⟩
    have h1 : ⌊x⌋.toNat < s * o.maxRecsPerSlice := (hlt _).mpr (by exact_mod_cast hxs)
    have h2 : s * o.maxRecsPerSlice ≤ ⌊y⌋.toNat := (hle _ (by omega)).mpr (by exact_mod_cast hsy)
    exact lt_of_lt_of_le ((Nat.div_lt_iff_lt_mul hpos).mpr h1)
      ((Nat.le_div_iff_mul_le hpos).mpr h2)

/-- A key that the database has before another one is in no higher slice. -/
def SlicesFollow (o : MdhimOptions) (a b : List UInt8) : Prop :=
  cmpByteCompare (some a) (some b) < 0 → getSliceNum o (some a) ≤ getSliceNum o (some b)

theorem byteSlice_lt_iff (hbyte : o.dbKeyType = .byte) (ha : a.length ≤ maxKeyLen)
    (hb : b.length ≤ maxKeyLen) :
    getSliceNum o (some b) < getSliceNum o (some a) ↔ SliceStartsBetween o b a := by
  have hnonneg : 0 ≤ getByteNum b * totalKeys o :=
    mul_nonneg (expandFrom_nonneg _ _ _) (Nat.cast_nonneg _)
  rw [byteSlice_eq hbyte ha, byteSlice_eq hbyte hb, Nat.cast_lt, share_lt_iff hnonneg]
  rfl

/-- The slices follow the order of two byte keys exactly when the first is not both shorter and
behind the start of a slice that the second one is before. -/
theorem slicesFollow_iff (o : MdhimOptions) (hbyte : o.dbKeyType = .byte) {a b : List UInt8}
    (ha : a.length ≤ maxKeyLen) (hb : b.length ≤ maxKeyLen) :
    SlicesFollow o a b ↔ ¬ (a.length < b.length ∧ SliceStartsBetween o b a) := by
  rw [SlicesFollow, cmpByteCompare_neg_iff, ← byteSlice_lt_iff hbyte ha hb, not_and, not_lt]
  constructor
  · exact fun h hlt => h (Or.inl hlt)
  · rintro h (hlt | ⟨-, hlt⟩)
    · exact h hlt
    · rw [byteSlice_eq hbyte ha, byteSlice_eq hbyte hb]
      exact_mod_cast share_le (getByteNum_le hlt) o

/-- Keys of one byte. -/
theorem slicesFollow_bytes :
    SlicesFollow ⟨.byte, 1, 10, by decide, by decide, by decide⟩ [1] [2] :=
  (slicesFollow_iff _ rfl (by decide) (by decide)).mpr fun h => absurd h.1 (by decide)

/-- `FF` is shorter than `00 00`, and in the second half of the slices. -/
theorem not_slicesFollow_short :
    ¬ SlicesFollow ⟨.byte, 1, 10, by decide, by decide, by decide⟩ [255] [0, 0] := by
  intro h
  have hbefore := h (cmpByteCompare_neg_iff.mpr (Or.inl (by decide)))
  refine absurd hbefore (not_le.mpr ((byteSlice_lt_iff rfl (by decide) (by decide)).mpr ⟨1, ?_, ?_⟩))
  · norm_num [getByteNum, expand, expandFrom]
  · have htotal : totalKeys ⟨.byte, 1, 10, by decide, by decide, by decide⟩ = 21474836470 := rfl
    have hbyte : UInt8.toNat 255 = 255 := rfl
    norm_num [htotal, hbyte, getByteNum, expand, expandFrom, weight]

end

end MpiToShmem
