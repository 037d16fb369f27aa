import Mathlib.Data.List.Basic
import Mathlib.Data.Int.Order.Basic
import Mathlib.Tactic.Common

/-!
# Gathering blocks into one buffer

`gatherv` writes blocks into a buffer, each at its displacement, when each has the length that the
receiver expects and lies inside the buffer. Blocks that are laid out one behind the other replace
that stretch of the buffer by their concatenation (`gatherv_cons_append`).
-/

namespace Kit

variable {α : Type*}

/-- A block, with the displacement and the length that the receiver gives it. -/
structure Block (α : Type*) where
  data : List α
  displ : ℤ
  count : ℤ

/-- `buf` with `data` from position `pos` on. -/
def writeAt (buf data : List α) (pos : ℕ) : List α :=
  buf.take pos ++ data ++ buf.drop (pos + data.length)

/-- The root's buffer after all blocks came in. -/
def gatherv : List (Block α) → List α → Option (List α)
  | [], buf => some buf
  | b :: bs, buf =>
    if b.data.length = b.count ∧ 0 ≤ b.displ ∧ b.displ + b.count ≤ buf.length then
      gatherv bs (writeAt buf b.data b.displ.toNat)
    else none

theorem writeAt_append {pre data old rest : List α} (h : old.length = data.length) :
    writeAt (pre ++ (old ++ rest)) data pre.length = pre ++ (data ++ rest) := by
  unfold writeAt
  rw [List.take_left, ← h, ← List.drop_drop, List.drop_left, List.drop_left, List.append_assoc]

/-- A gather that succeeds writes its first block inside the buffer. -/
theorem gatherv_cons {b : Block α} {bs : List (Block α)} {buf out : List α}
    (h : gatherv (b :: bs) buf = some out) :
    (b.data.length = b.count ∧ 0 ≤ b.displ ∧ b.displ + b.count ≤ buf.length) ∧
      gatherv bs (writeAt buf b.data b.displ.toNat) = some out := by
  rw [gatherv] at h
  split_ifs at h with hb
  exact ⟨hb, h⟩

/-- The first block, right behind what is written already. -/
theorem gatherv_cons_append {b : Block α} {bs : List (Block α)} {pre zs out : List α}
    (hd : b.displ = pre.length) (h : gatherv (b :: bs) (pre ++ zs) = some out) :
    b.data.length ≤ zs.length ∧
      gatherv bs ((pre ++ b.data) ++ zs.drop b.data.length) = some out := by
  obtain ⟨⟨hc, -, hfit⟩, h⟩ := gatherv_cons h
  rw [List.length_append] at hfit
  have hle : b.data.length ≤ zs.length := by omega
  have hsplit : pre ++ zs = pre ++ (zs.take b.data.length ++ zs.drop b.data.length) := by
    rw [List.take_append_drop]
  rw [hsplit, hd, Int.toNat_natCast, writeAt_append (List.length_take_of_le hle),
    ← List.append_assoc] at h
  exact ⟨hle, h⟩

end Kit
