import MpiToShmem.Kit.Layout

/-!
# Known bytes, and zeros behind them

`Covered bs zs`: the two start with the same known bytes; behind these `bs` has bytes that nobody
knows, and `zs` has zeros, at least as many. What is read from `zs` is never longer than what is
read from `bs`: an `int` comes out the same or smaller (`covered_decodeInt`), and it is the same
unless the reading has left the known bytes (`Covered.eq_or_beyond`).
-/

namespace Kit

/-- `zs` has zeros where `bs` has unknown bytes. -/
def Covered (bs zs : List UInt8) : Prop :=
  ∃ u t n, bs = u ++ t ∧ zs = u ++ List.replicate n 0 ∧ t.length ≤ n

/-- No known bytes are left. -/
def Beyond (bs zs : List UInt8) : Prop := ∃ n, zs = List.replicate n 0 ∧ bs.length ≤ n

variable {bs zs : List UInt8} {n m : ℕ}

theorem Beyond.covered (h : Beyond bs zs) : Covered bs zs := by
  obtain ⟨n, rfl, hn⟩ := h
  exact ⟨[], bs, n, rfl, rfl, hn⟩

theorem Covered.length_le (h : Covered bs zs) : bs.length ≤ zs.length := by
  obtain ⟨u, t, n, rfl, rfl, hn⟩ := h
  rw [List.length_append, List.length_append, List.length_replicate]
  omega

theorem Covered.take (h : Covered bs zs) (k : ℕ) : Covered (bs.take k) (zs.take k) := by
  obtain ⟨u, t, n, rfl, rfl, hn⟩ := h
  refine ⟨u.take k, t.take (k - u.length), min (k - u.length) n, List.take_append, ?_, ?_⟩
  · rw [List.take_append, List.take_replicate]
  · rw [List.length_take]
    omega

theorem Covered.drop (h : Covered bs zs) (k : ℕ) : Covered (bs.drop k) (zs.drop k) := by
  obtain ⟨u, t, n, rfl, rfl, hn⟩ := h
  refine ⟨u.drop k, t.drop (k - u.length), n - (k - u.length), List.drop_append, ?_, ?_⟩
  · rw [List.drop_append, List.drop_replicate]
  · rw [List.length_drop]
    omega

/-- Beyond the known bytes it does not matter how much is read, if it is not more. -/
theorem Beyond.drop (h : Beyond bs zs) (hm : m ≤ n) : Beyond (bs.drop n) (zs.drop m) := by
  obtain ⟨k, rfl, hk⟩ := h
  refine ⟨k - m, List.drop_replicate, ?_⟩
  rw [List.length_drop]
  omega

/-- What is read is known, or no known bytes are left behind it. -/
theorem Covered.eq_or_beyond (h : Covered bs zs) (k : ℕ) :
    zs.take k = bs.take k ∨ Beyond (bs.drop k) (zs.drop k) := by
  obtain ⟨u, t, n, rfl, rfl, hn⟩ := h
  by_cases hk : k ≤ u.length
  · left
    rw [List.take_append_of_le_length hk, List.take_append_of_le_length hk]
  · right
    refine ⟨n - (k - u.length), ?_, ?_⟩
    · rw [List.drop_append, List.drop_eq_nil_of_le (by omega), List.nil_append, List.drop_replicate]
    · rw [List.drop_append, List.drop_eq_nil_of_le (by omega), List.nil_append, List.length_drop]
      omega

/-! ## Integers -/

theorem leNat_append (u t : List UInt8) : leNat (u ++ t) = leNat u + 256 ^ u.length * leNat t := by
  induction u with
  | nil => simp [leNat]
  | cons b u ih =>
    rw [List.cons_append, leNat, leNat, ih, List.length_cons, pow_succ]
    ring

theorem leNat_replicate_zero (n : ℕ) : leNat (List.replicate n 0) = 0 := by
  induction n with
  | zero => rfl
  | succ n ih =>
    rw [List.replicate_succ, leNat, ih]
    rfl

theorem Covered.leNat_le (h : Covered bs zs) : leNat zs ≤ leNat bs := by
  obtain ⟨u, t, n, rfl, rfl, -⟩ := h
  rw [leNat_append, leNat_append, leNat_replicate_zero]
  omega

/-- The four bytes of an `int` that is not negative. -/
theorem decodeInt_nonneg (hlen : bs.length = 4) :
    0 ≤ decodeInt bs ↔ (leNat bs : ℤ) ≤ intMax := by
  have hlt := leNat_lt bs
  rw [hlen] at hlt
  unfold decodeInt wrapInt intMax Int.bmod
  dsimp only
  split_ifs <;> omega

theorem decodeInt_of_le (h : (leNat bs : ℤ) ≤ intMax) : decodeInt bs = leNat bs :=
  wrapInt_of_isInt ⟨by omega, h⟩

theorem covered_decodeInt (h : Covered bs zs) (hbs : bs.length = 4) (hnonneg : 0 ≤ decodeInt bs) :
    0 ≤ decodeInt zs ∧ decodeInt zs ≤ decodeInt bs := by
  have hle := h.leNat_le
  have hmax := (decodeInt_nonneg hbs).mp hnonneg
  rw [decodeInt_of_le hmax, decodeInt_of_le (by omega)]
  omega

/-- The members of a struct that is only partly known. -/
theorem covered_scan {l : List Slot} (h : Covered bs zs) (hlen : bs.length = layoutSize l) :
    List.Forall₂ (fun z z' => 0 ≤ z → 0 ≤ z' ∧ z' ≤ z) (scan l bs) (scan l zs) := by
  induction l generalizing bs zs with
  | nil => exact .nil
  | cons s l ih =>
    have hsize : layoutSize (s :: l) = s.size + layoutSize l := rfl
    rw [hsize] at hlen
    cases s with
    | int =>
      have h4 : Slot.int.size = 4 := rfl
      refine .cons (fun hz => covered_decodeInt (h.take 4) ?_ hz) (ih (h.drop 4) ?_)
      · rw [List.length_take]
        omega
      · rw [List.length_drop]
        omega
    | gap n =>
      have hn : (Slot.gap n).size = n := rfl
      refine ih (h.drop n) ?_
      rw [List.length_drop]
      omega

end Kit
