import MpiToShmem.Kit.CInt

/-!
# Bytes of integers

Little-endian two's complement images, as a little-endian machine copies them.

`leNat_leBytes` reads an unsigned integer back, `decodeInt_encodeInt` an `int`; `leBytes_leNat` and
`encodeInt_decodeInt` give the bytes back.
-/

namespace Kit

/-- The `w` low bytes of `n`, lowest first. -/
def leBytes : ℕ → ℕ → List UInt8
  | 0, _ => []
  | w + 1, n => UInt8.ofNat n :: leBytes w (n / 256)

/-- The unsigned integer whose bytes are `bs`, lowest first. -/
def leNat : List UInt8 → ℕ
  | [] => 0
  | b :: bs => b.toNat + 256 * leNat bs

/-- The signed integer whose bytes are `bs`. -/
def leInt (bs : List UInt8) : ℤ := (leNat bs : ℤ).bmod (256 ^ bs.length)

@[simp] theorem length_leBytes (w n : ℕ) : (leBytes w n).length = w := by
  induction w generalizing n with
  | zero => rfl
  | succ w ih => rw [leBytes, List.length_cons, ih]

theorem leNat_leBytes {w n : ℕ} (h : n < 256 ^ w) : leNat (leBytes w n) = n := by
  induction w generalizing n with
  | zero => rw [pow_zero] at h; show 0 = n; omega
  | succ w ih =>
    have hn : n / 256 < 256 ^ w := by
      rw [pow_succ] at h
      exact Nat.div_lt_of_lt_mul (by omega)
    rw [leBytes, leNat, ih hn, UInt8.toNat_ofNat']
    omega

theorem leNat_lt (bs : List UInt8) : leNat bs < 256 ^ bs.length := by
  induction bs with
  | nil => exact Nat.one_pos
  | cons b bs ih =>
    have hb := b.toNat_lt
    rw [leNat, List.length_cons, pow_succ]
    omega

theorem leBytes_leNat (bs : List UInt8) : leBytes bs.length (leNat bs) = bs := by
  induction bs with
  | nil => rfl
  | cons b bs ih =>
    have hb := b.toNat_lt
    rw [leNat, List.length_cons, leBytes]
    congr 1
    · apply UInt8.toNat_inj.mp
      rw [UInt8.toNat_ofNat']
      omega
    · have hdiv : (b.toNat + 256 * leNat bs) / 256 = leNat bs := by omega
      rw [hdiv, ih]

/-! ## `int` -/

/-- The four bytes of an `int`. -/
def encodeInt (z : ℤ) : List UInt8 := leBytes 4 (toUInt32 z)

/-- The `int` with these bytes. -/
def decodeInt (bs : List UInt8) : ℤ := wrapInt (leNat bs)

@[simp] theorem length_encodeInt (z : ℤ) : (encodeInt z).length = 4 := length_leBytes _ _

theorem decodeInt_encodeInt {z : ℤ} (h : IsInt z) : decodeInt (encodeInt z) = z := by
  unfold decodeInt encodeInt
  rw [leNat_leBytes (by simpa using toUInt32_lt z), wrapInt_toUInt32 h]

theorem encodeInt_decodeInt {bs : List UInt8} (h : bs.length = 4) :
    encodeInt (decodeInt bs) = bs := by
  have hlt := leNat_lt bs
  rw [h] at hlt
  have hnat : toUInt32 (decodeInt bs) = leNat bs := by
    have hmod : ((leNat bs : ℤ).bmod 4294967296) % ((4294967296 : ℕ) : ℤ) =
        (leNat bs : ℤ) % ((4294967296 : ℕ) : ℤ) := Int.bmod_emod
    unfold toUInt32 decodeInt wrapInt
    omega
  unfold encodeInt
  rw [hnat, ← h, leBytes_leNat]

/-- An `int` has one image. -/
theorem decodeInt_inj {bs bs' : List UInt8} (h : bs.length = 4) (h' : bs'.length = 4) :
    decodeInt bs = decodeInt bs' ↔ bs = bs' := by
  refine ⟨fun heq => ?_, fun heq => heq ▸ rfl⟩
  rw [← encodeInt_decodeInt h, ← encodeInt_decodeInt h', heq]

theorem leInt_eq_decodeInt {bs : List UInt8} (h : bs.length = 4) : leInt bs = decodeInt bs := by
  unfold leInt decodeInt wrapInt
  rw [h]
  norm_num

theorem leInt_encodeInt {z : ℤ} (h : IsInt z) : leInt (encodeInt z) = z := by
  rw [leInt_eq_decodeInt (length_encodeInt z), decodeInt_encodeInt h]

end Kit
