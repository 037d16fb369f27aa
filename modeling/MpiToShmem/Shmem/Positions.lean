import MpiToShmem.Shmem.Collectives
import Mathlib.Algebra.Order.BigOperators.Group.List

/-!
# Calls that hand on a position

`MPI_Pack` and `MPI_Unpack` take a position in a buffer and leave the next one, so that the calls on
one buffer form a program.

1. `callOps`, `callPos`: the calls one after the other, and the position after them.
2. `Moves`: a call that succeeds moves the position by the bytes of the call.
3. `span_of_initial`: where each call starts and ends, when everything fits an `int`;
   `fits_of_ordered`: it does when no position comes out smaller than the one before.
-/

namespace MpiToShmem.Shmem

open Kit OneSided

variable {C : Type} (call : ℤ → C → List (Op Region) × MpiRet × ℤ) (bytes : C → ℤ)

def callOps (position : ℤ) : List C → List (Op Region)
  | [] => []
  | c :: calls => (call position c).1 ++ callOps (call position c).2.2 calls

def callPos (position : ℤ) : List C → ℤ
  | [] => position
  | c :: calls => callPos (call position c).2.2 calls

/-- All calls return `MPI_SUCCESS`. -/
def Succeed (position : ℤ) : List C → Prop
  | [] => True
  | c :: calls => (call position c).2.1 = .success ∧ Succeed (call position c).2.2 calls

/-- The bytes of all the calls. -/
def totalBytes (calls : List C) : ℤ := (calls.map bytes).sum

/-- A call that succeeds leaves a position that is its bytes further on and within the buffer. -/
structure Moves (size : ℤ) : Prop where
  next : ∀ position c, (call position c).2.1 = .success →
    (call position c).2.2 = wrapInt (position + bytes c)
  room : ∀ position c, (call position c).2.1 = .success → wrapInt (position + bytes c) ≤ size

variable {call bytes} {position size : ℤ} {calls calls' pre : List C} {c : C}

/-! ## Parts of a sequence -/

theorem callOps_append :
    callOps call position (calls ++ calls') =
      callOps call position calls ++ callOps call (callPos call position calls) calls' := by
  induction calls generalizing position with
  | nil => rfl
  | cons c calls ih =>
    rw [List.cons_append, callOps, ih, ← List.append_assoc]
    rfl

theorem callPos_append :
    callPos call position (calls ++ calls') = callPos call (callPos call position calls) calls' := by
  induction calls generalizing position with
  | nil => rfl
  | cons c calls ih => exact ih

theorem callPos_cons :
    callPos call position (c :: calls) = callPos call (call position c).2.2 calls := rfl

theorem Succeed.initial (h : Succeed call position calls) (hpre : pre <+: calls) :
    Succeed call position pre := by
  induction pre generalizing position calls with
  | nil => trivial
  | cons c pre ih =>
    obtain ⟨rest, rfl⟩ := hpre
    exact ⟨h.1, ih h.2 ⟨rest, rfl⟩⟩

theorem Succeed.of_initial (h : Succeed call position calls) (hpre : pre ++ [c] <+: calls) :
    (call (callPos call position pre) c).2.1 = .success := by
  induction pre generalizing position calls with
  | nil =>
    obtain ⟨rest, rfl⟩ := hpre
    exact h.1
  | cons c' pre ih =>
    obtain ⟨rest, rfl⟩ := hpre
    exact ih h.2 ⟨rest, rfl⟩

theorem Succeed.suffix (h : Succeed call position (calls ++ calls')) :
    Succeed call (callPos call position calls) calls' := by
  induction calls generalizing position with
  | nil => exact h
  | cons c calls ih => exact ih h.2

/-- Every operation belongs to a call. -/
theorem mem_callOps {op : Op Region} (h : op ∈ callOps call position calls) :
    ∃ pre c, pre ++ [c] <+: calls ∧ op ∈ (call (callPos call position pre) c).1 := by
  induction calls generalizing position with
  | nil => cases h
  | cons c calls ih =>
    rcases List.mem_append.mp h with h | h
    · exact ⟨[], c, ⟨calls, rfl⟩, h⟩
    · obtain ⟨pre, c', ⟨rest, hpre⟩, hop⟩ := ih h
      exact ⟨c :: pre, c', ⟨rest, by rw [← hpre]; rfl⟩, hop⟩

theorem callOps_initial (hpre : pre <+: calls) {op : Op Region}
    (hop : op ∈ callOps call position pre) : op ∈ callOps call position calls := by
  obtain ⟨rest, rfl⟩ := hpre
  rw [callOps_append]
  exact List.mem_append_left _ hop

theorem mem_of_initial (hpre : pre ++ [c] <+: calls) : c ∈ calls := hpre.subset (by simp)

theorem exists_initial_of_mem (hc : c ∈ calls) : ∃ pre, pre ++ [c] <+: calls := by
  obtain ⟨pre, post, hsplit⟩ := List.append_of_mem hc
  exact ⟨pre, post, by rw [hsplit, List.append_assoc, List.singleton_append]⟩

/-! ## Bytes and positions -/

theorem totalBytes_append :
    totalBytes bytes (calls ++ calls') = totalBytes bytes calls + totalBytes bytes calls' := by
  unfold totalBytes
  rw [List.map_append, List.sum_append]

theorem totalBytes_cons : totalBytes bytes (c :: calls) = bytes c + totalBytes bytes calls :=
  List.sum_cons

theorem totalBytes_singleton : totalBytes bytes [c] = bytes c := List.sum_singleton

theorem totalBytes_nonneg (h : ∀ c ∈ calls, 0 ≤ bytes c) : 0 ≤ totalBytes bytes calls := by
  apply List.sum_nonneg
  intro z hz
  obtain ⟨c, hc, rfl⟩ := List.mem_map.mp hz
  exact h c hc

theorem bytes_le_totalBytes (h : ∀ c ∈ calls, 0 ≤ bytes c) (hc : c ∈ calls) :
    bytes c ≤ totalBytes bytes calls := by
  refine List.single_le_sum (fun z hz => ?_) _ (List.mem_map_of_mem hc)
  obtain ⟨c', hc', rfl⟩ := List.mem_map.mp hz
  exact h c' hc'

/-- Two calls whose bytes have a place in common are the same. -/
theorem eq_of_overlap (h : ∀ c ∈ calls, 0 ≤ bytes c) {pre' : List C} {c' : C}
    (hpre : pre ++ [c] <+: calls) (hpre' : pre' ++ [c'] <+: calls) {z : ℤ}
    (hz : totalBytes bytes pre ≤ z ∧ z < totalBytes bytes pre + bytes c)
    (hz' : totalBytes bytes pre' ≤ z ∧ z < totalBytes bytes pre' + bytes c') :
    pre = pre' ∧ c = c' := by
  have hbehind : ∀ {l l' : List C} {d : C}, l ++ [d] <+: l' → l' <+: calls →
      totalBytes bytes l + bytes d ≤ totalBytes bytes l' := by
    rintro l l' d ⟨rest, rfl⟩ hl'
    have hrest := totalBytes_nonneg fun e he => h e (hl'.subset (List.mem_append_right (l ++ [d]) he))
    rw [totalBytes_append, totalBytes_append, totalBytes_singleton]
    omega
  have hsub : ∀ {l : List C} {d : C}, l ++ [d] <+: calls → l <+: calls := fun hl =>
    (List.prefix_append _ _).trans hl
  rcases List.prefix_or_prefix_of_prefix hpre hpre' with hle | hle
  · rcases List.prefix_concat_iff.mp hle with heq | hlt
    · exact ⟨List.append_inj_left' heq rfl, by simpa using List.append_inj_right' heq rfl⟩
    · have := hbehind hlt (hsub hpre')
      omega
  · rcases List.prefix_concat_iff.mp hle with heq | hlt
    · exact ⟨(List.append_inj_left' heq rfl).symm,
        by simpa using (List.append_inj_right' heq rfl).symm⟩
    · have := hbehind hlt (hsub hpre)
      omega

/-- Positions add up as long as they fit an `int`. -/
theorem callPos_eq (hm : Moves call bytes size) (hposition : 0 ≤ position)
    (hs : Succeed call position calls) (hbytes : ∀ c ∈ calls, 0 ≤ bytes c)
    (hfits : position + totalBytes bytes calls ≤ intMax) :
    callPos call position calls = position + totalBytes bytes calls := by
  induction calls generalizing position with
  | nil => exact (add_zero _).symm
  | cons c calls ih =>
    have hc := hbytes c List.mem_cons_self
    have hrest : ∀ c ∈ calls, 0 ≤ bytes c := fun c hc => hbytes c (List.mem_cons_of_mem _ hc)
    have hpos := totalBytes_nonneg hrest
    rw [totalBytes_cons] at hfits ⊢
    have hnext := hm.next position c hs.1
    rw [wrapInt_of_isInt ⟨by omega, by omega⟩] at hnext
    rw [callPos_cons, hnext, ih (by omega) (hnext ▸ hs.2) hrest (by omega), add_assoc]

/-- Where a call starts and ends. -/
theorem span_of_initial (hm : Moves call bytes size) (hposition : 0 ≤ position)
    (hs : Succeed call position calls) (hbytes : ∀ c ∈ calls, 0 ≤ bytes c)
    (hfits : position + totalBytes bytes calls ≤ intMax) (hpre : pre ++ [c] <+: calls) :
    0 ≤ totalBytes bytes pre ∧ callPos call position pre = position + totalBytes bytes pre ∧
      callPos call position (pre ++ [c]) = position + totalBytes bytes pre + bytes c ∧
      position + totalBytes bytes pre + bytes c ≤ size := by
  obtain ⟨rest, rfl⟩ := hpre
  rw [totalBytes_append, totalBytes_append, totalBytes_singleton] at hfits
  have hprebytes : ∀ c' ∈ pre, 0 ≤ bytes c' := fun c' hc' => hbytes c' (by simp [hc'])
  have hpre := totalBytes_nonneg hprebytes
  have hrest := totalBytes_nonneg fun c' hc' => hbytes c' (List.mem_append_right (pre ++ [c]) hc')
  have hc := hbytes c (by simp)
  have hbefore : callPos call position pre = position + totalBytes bytes pre :=
    callPos_eq hm hposition (hs.initial ⟨[c] ++ rest, by simp⟩) hprebytes (by omega)
  have hsuccess := hs.of_initial ⟨rest, rfl⟩
  have hend := hm.room _ c hsuccess
  have hafter := hm.next _ c hsuccess
  rw [hbefore, wrapInt_of_isInt ⟨by omega, by omega⟩] at hend hafter
  refine ⟨hpre, hbefore, ?_, hend⟩
  rw [callPos_append, hbefore]
  exact hafter

theorem fits_of_ordered (hm : Moves call bytes size) (hposition : 0 ≤ position)
    (hmax : position ≤ intMax) (hs : Succeed call position calls)
    (hbytes : ∀ c ∈ calls, 0 ≤ bytes c ∧ bytes c ≤ intMax)
    (hordered : ∀ pre c, pre ++ [c] <+: calls →
      callPos call position pre ≤ callPos call position (pre ++ [c])) :
    position + totalBytes bytes calls ≤ intMax := by
  induction calls generalizing position with
  | nil => exact (add_zero position).trans_le hmax
  | cons c calls ih =>
    obtain ⟨hc, hcmax⟩ := hbytes c List.mem_cons_self
    have hfirst : position ≤ (call position c).2.2 := hordered [] c ⟨calls, rfl⟩
    have hnext := hm.next position c hs.1
    rw [hnext] at hfirst
    have hle : position + bytes c ≤ intMax := le_intMax_of_le_wrapInt hmax hcmax hfirst
    rw [wrapInt_of_isInt ⟨by omega, hle⟩] at hnext
    have hrest := ih (show 0 ≤ position + bytes c by omega) hle (hnext ▸ hs.2)
      (fun c' hc' => hbytes c' (List.mem_cons_of_mem _ hc')) fun pre c' ⟨rest, hpre⟩ => by
        have hsteps := hordered (c :: pre) c' ⟨rest, by rw [← hpre]; rfl⟩
        rw [List.cons_append, callPos_cons, callPos_cons, hnext] at hsteps
        exact hsteps
    rw [totalBytes_cons]
    omega

end MpiToShmem.Shmem
