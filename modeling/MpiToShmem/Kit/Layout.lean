import MpiToShmem.Kit.Bytes
import Mathlib.Data.List.Basic

/-!
# Struct images

A C struct is copied to the wire as its bytes. A layout lists its `int` members and, between them,
the bytes whose value no reader uses: padding, and pointers, which mean nothing to a receiver.

`scan_fill`: reading the image of a struct gives its `int` members back.
-/

namespace Kit

/-- A member that is read, or bytes that are not. -/
inductive Slot where
  | int
  | gap (n : ℕ)
deriving DecidableEq

/-- `sizeof` a member. -/
def Slot.size : Slot → ℕ
  | int => 4
  | gap n => n

/-- `sizeof` a struct. -/
def layoutSize (l : List Slot) : ℕ := (l.map Slot.size).sum

/-- How many `int` members a struct has. -/
def intCount : List Slot → ℕ
  | [] => 0
  | .int :: l => intCount l + 1
  | .gap _ :: l => intCount l

/-- The image of a struct with these `int` members. -/
def fill : List Slot → List ℤ → List UInt8
  | .int :: l, z :: zs => encodeInt z ++ fill l zs
  | .int :: l, [] => encodeInt 0 ++ fill l []
  | .gap n :: l, zs => List.replicate n 0 ++ fill l zs
  | [], _ => []

/-- The `int` members of the struct with this image. -/
def scan : List Slot → List UInt8 → List ℤ
  | [], _ => []
  | .int :: l, bs => decodeInt (bs.take 4) :: scan l (bs.drop 4)
  | .gap n :: l, bs => scan l (bs.drop n)

@[simp] theorem length_fill (l : List Slot) (zs : List ℤ) : (fill l zs).length = layoutSize l := by
  induction l generalizing zs with
  | nil => rfl
  | cons s l ih =>
    cases s with
    | int => cases zs <;> simp [fill, ih, layoutSize, Slot.size]
    | gap n => simp [fill, ih, layoutSize, Slot.size]

theorem scan_fill {l : List Slot} {zs : List ℤ} (hc : zs.length = intCount l)
    (hz : ∀ z ∈ zs, IsInt z) : scan l (fill l zs) = zs := by
  induction l generalizing zs with
  | nil =>
    cases zs with
    | nil => rfl
    | cons z zs => cases hc
  | cons s l ih =>
    cases s with
    | int =>
      cases zs with
      | nil => cases hc
      | cons z zs =>
        have hz' := hz z List.mem_cons_self
        have hrec : scan l (fill l zs) = zs := ih (by simpa [intCount] using hc)
          fun z hz₁ => hz z (List.mem_cons_of_mem _ hz₁)
        rw [fill, scan, List.take_left' (length_encodeInt z), List.drop_left' (length_encodeInt z),
          decodeInt_encodeInt hz', hrec]
    | gap n =>
      rw [fill, scan, List.drop_left' (List.length_replicate ..), ih hc hz]

end Kit
