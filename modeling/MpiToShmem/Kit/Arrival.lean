import MpiToShmem.Kit.Undisturbed

/-!
# Bytes that arrive one by one

Nothing is promised on the order in which the bytes of a put arrive: what is in flight may come
apart, and its parts land on their own.

1. `World.part`: a put in flight comes apart.
2. `Arriving`: the memory of an element while a put to it is under way, kept by every step.
3. `exists_all_but`: all bytes but one may have arrived.
-/

namespace Kit.OneSided

open scoped List

variable {ρ : Type} [DecidableEq ρ]

/-- The first `i` bytes of a put, and the others. -/
def Put.front (p : Put ρ) (i : ℕ) : Put ρ := ⟨p.pe, p.dst, p.bytes.take i⟩

def Put.back (p : Put ρ) (i : ℕ) : Put ρ := ⟨p.pe, p.dst + (i : ℤ), p.bytes.drop i⟩

/-- A put in flight comes apart at byte `i`. -/
def World.part (w : World ρ) (k i : ℕ) : Option (World ρ) :=
  (w.flight[k]?).map fun p => { w with flight := w.flight.eraseIdx k ++ [p.front i, p.back i] }

/-- `bs` is under way to `dst` at `pe`, which held `m` and runs nothing; a byte has arrived, or is in
flight and not written yet. -/
structure Arriving (pe : ℕ) (m : Mem ρ) (dst : Ptr ρ) (bs : List UInt8) (w : World ρ) : Prop where
  undisturbed : Undisturbed pe w
  still : w.prog pe = []
  piece : ∀ p ∈ w.toward pe, ∀ (i : ℕ) (h : i < p.bytes.length), ∃ (j : ℕ) (hj : j < bs.length),
    p.dst + (i : ℤ) = dst + (j : ℤ) ∧ p.bytes[i] = bs[j]
  kept : ∀ q, ¬ dst.Covers bs.length q → w.mem pe q = m q
  arrived : ∀ (j : ℕ) (h : j < bs.length), w.mem pe (dst + (j : ℤ)) = bs[j] ∨
    w.mem pe (dst + (j : ℤ)) = m (dst + (j : ℤ)) ∧
      ∃ p ∈ w.toward pe, p.dst.Covers p.bytes.length (dst + (j : ℤ))

variable {M : Machine ρ} {w w' : World ρ} {pe : ℕ} {m : Mem ρ} {dst : Ptr ρ} {bs : List UInt8}

omit [DecidableEq ρ] in
theorem add_natCast_inj {p : Ptr ρ} {i j : ℕ} (h : p + (i : ℤ) = p + (j : ℤ)) : i = j := by
  have hoff : p.offset + (i : ℤ) = p.offset + (j : ℤ) := congrArg Ptr.offset h
  omega

omit [DecidableEq ρ] in
theorem Arriving.start (hothers : Undisturbed pe w) (hprog : w.prog pe = [])
    (ht : w.toward pe = [⟨pe, dst, bs⟩]) : Arriving pe (w.mem pe) dst bs w where
  undisturbed := hothers
  still := hprog
  piece p hp i hi := by
    rw [ht, List.mem_singleton] at hp
    subst hp
    exact ⟨i, hi, rfl, rfl⟩
  kept _ _ := rfl
  arrived j hj := by
    refine Or.inr ⟨rfl, ⟨pe, dst, bs⟩, ?_, covers_iff.mpr ⟨j, by exact_mod_cast hj, rfl⟩⟩
    rw [ht]
    exact List.mem_singleton_self _

omit [DecidableEq ρ] in
/-- Nothing is under way. -/
theorem Arriving.nothing (hothers : Undisturbed pe w) (hprog : w.prog pe = [])
    (ht : w.toward pe = []) (dst : Ptr ρ) : Arriving pe (w.mem pe) dst [] w where
  undisturbed := hothers
  still := hprog
  piece p hp := by
    rw [ht] at hp
    exact absurd hp List.not_mem_nil
  kept _ _ := rfl
  arrived _ hj := absurd hj (Nat.not_lt_zero _)

omit [DecidableEq ρ] in
theorem Arriving.congr (h : Arriving pe m dst bs w) (hmem : w'.mem = w.mem) (hprog : w'.prog = w.prog)
    (hflight : w'.flight = w.flight) : Arriving pe m dst bs w' := by
  have ht : w'.toward pe = w.toward pe := by
    unfold World.toward
    rw [hflight]
  refine ⟨?_, by rw [hprog]; exact h.still, by rw [ht]; exact h.piece, by rw [hmem]; exact h.kept,
    by rw [hmem, ht]; exact h.arrived⟩
  unfold Undisturbed
  rw [hprog]
  exact h.undisturbed

omit [DecidableEq ρ] in
/-- Where nothing is under way, memory is as it was. -/
theorem Arriving.mem_eq (h : Arriving pe m dst [] w) : w.mem pe = m := by
  funext q
  refine h.kept q fun hc => ?_
  obtain ⟨-, hle, hlt⟩ := hc
  rw [List.length_nil, Nat.cast_zero, add_zero] at hlt
  omega

omit [DecidableEq ρ] in
/-- When nothing is in flight any more, all has arrived. -/
theorem Arriving.all (h : Arriving pe m dst bs w) (ht : w.toward pe = []) {j : ℕ}
    (hj : j < bs.length) : w.mem pe (dst + (j : ℤ)) = bs[j] := by
  rcases h.arrived j hj with harr | ⟨-, p, hp, -⟩
  · exact harr
  · rw [ht] at hp
    exact absurd hp List.not_mem_nil

/-! ## Steps -/

/-- A part of what is under way lands. -/
theorem Arriving.landed (h : Arriving pe m dst bs w) {p : Put ρ} (hothers : Undisturbed pe w')
    (hprog : w'.prog pe = w.prog pe) (ht : w.toward pe ~ p :: w'.toward pe)
    (hmem : w'.mem pe = write (w.mem pe) p.dst p.bytes) : Arriving pe m dst bs w' := by
  have hp : p ∈ w.toward pe := ht.symm.subset List.mem_cons_self
  have hcovers : ∀ q, p.dst.Covers p.bytes.length q →
      ∃ (j : ℕ) (hj : j < bs.length), q = dst + (j : ℤ) ∧ w'.mem pe q = bs[j] := by
    intro q hc
    obtain ⟨i, hi, rfl⟩ := covers_iff.mp hc
    have hi : i < p.bytes.length := by omega
    obtain ⟨j, hj, hplace, hbyte⟩ := h.piece p hp i hi
    exact ⟨j, hj, hplace, by rw [hmem, write_add i hi, hbyte]⟩
  refine ⟨hothers, hprog.trans h.still,
    fun p' hp' => h.piece p' (ht.symm.subset (List.mem_cons_of_mem _ hp')), fun q hq => ?_,
    fun j hj => ?_⟩
  · rw [hmem, write_of_not_covers]
    · exact h.kept q hq
    · intro hc
      obtain ⟨j, hj, rfl, -⟩ := hcovers q hc
      exact hq (covers_iff.mpr ⟨j, by omega, rfl⟩)
  · by_cases hc : p.dst.Covers p.bytes.length (dst + (j : ℤ))
    · obtain ⟨j', hj', hplace, hbyte⟩ := hcovers _ hc
      obtain rfl := add_natCast_inj hplace
      exact Or.inl hbyte
    · rw [hmem, write_of_not_covers hc]
      refine (h.arrived j hj).imp_right fun ⟨hold, p', hp', hc'⟩ => ⟨hold, p', ?_, hc'⟩
      rcases List.mem_cons.mp (ht.subset hp') with rfl | hp'
      · exact absurd hc' hc
      · exact hp'

theorem Arriving.step {a : Label} (hpe : pe < M.npes) (h : Arriving pe m dst bs w)
    (hs : step M w a = some w') : Arriving pe m dst bs w' := by
  have hb : w.atBarrier pe = false := atBarrier_eq_false fun op hop => by
    rw [h.still] at hop
    cases hop
  obtain ⟨hothers, ⟨hprog, hmem, ht⟩ | ⟨op, rest, w₁, -, hprog, -⟩ | ⟨p, ht, hprog, hmem⟩⟩ :=
    step_cases hpe h.undisturbed hb hs
  · refine ⟨hothers, hprog.trans h.still, fun p hp => h.piece p (ht.subset hp), ?_, fun j hj => ?_⟩
    · rw [hmem]
      exact h.kept
    · rw [hmem]
      exact (h.arrived j hj).imp_right fun ⟨hold, p, hp, hc⟩ => ⟨hold, p, ht.symm.subset hp, hc⟩
  · rw [h.still] at hprog
    cases hprog
  · exact h.landed hothers hprog ht hmem

omit [DecidableEq ρ] in
/-- What is in flight after a put has come apart. -/
theorem part_eq_some {k i : ℕ} (hs : w.part k i = some w') : ∃ p ∈ w.flight, w'.mem = w.mem ∧
    w'.prog = w.prog ∧
    (∀ p' ∈ w'.flight, p' ∈ w.flight ∨ p' = p.front i ∨ p' = p.back i) ∧
    (∀ p' ∈ w.flight, p' = p ∨ p' ∈ w'.flight) ∧ p.front i ∈ w'.flight ∧ p.back i ∈ w'.flight := by
  obtain ⟨p, hp, rfl⟩ := Option.map_eq_some_iff.mp hs
  refine ⟨p, List.mem_of_getElem? hp, rfl, rfl, fun p' hp' => ?_, fun p' hp' => ?_, by simp, by simp⟩
  · rcases List.mem_append.mp hp' with hp' | hp'
    · exact Or.inl (List.mem_of_mem_eraseIdx hp')
    · exact Or.inr (by simpa using hp')
  · obtain ⟨l, hl⟩ := List.getElem?_of_mem hp'
    by_cases hk : l = k
    · subst hk
      exact Or.inl (Option.some.inj (hl.symm.trans hp))
    · exact Or.inr (List.mem_append_left _ (List.mem_eraseIdx_iff_getElem?.mpr ⟨l, hk, hl⟩))

omit [DecidableEq ρ] in
theorem mem_toward {p : Put ρ} : p ∈ w.toward pe ↔ p ∈ w.flight ∧ p.pe = pe := by
  unfold World.toward
  rw [List.mem_filter, decide_eq_true_iff]

omit [DecidableEq ρ] in
/-- A place of a put is one of its front or of its back. -/
theorem Put.covers_front_or_back {p : Put ρ} {q : Ptr ρ} (i : ℕ)
    (h : p.dst.Covers p.bytes.length q) : (p.front i).dst.Covers (p.front i).bytes.length q ∨
      (p.back i).dst.Covers (p.back i).bytes.length q := by
  obtain ⟨hregion, hle, hlt⟩ := h
  have hfront : (p.front i).bytes.length = min i p.bytes.length := List.length_take
  have hback : (p.back i).bytes.length = p.bytes.length - i := List.length_drop
  rw [hfront, hback]
  by_cases hi : q.offset < p.dst.offset + i
  · exact Or.inl ⟨hregion, hle, by show _ < p.dst.offset + _; omega⟩
  · refine Or.inr ⟨hregion, by show p.dst.offset + (i : ℤ) ≤ _; omega, ?_⟩
    show _ < p.dst.offset + (i : ℤ) + _
    omega

omit [DecidableEq ρ] in
theorem Arriving.part {k i : ℕ} (h : Arriving pe m dst bs w) (hs : w.part k i = some w') :
    Arriving pe m dst bs w' := by
  obtain ⟨p, hp, hmem, hprog, hnew, hold, hfront, hback⟩ := part_eq_some hs
  refine ⟨?_, by rw [hprog]; exact h.still, fun p' hp' l hl => ?_, by rw [hmem]; exact h.kept,
    fun j hj => ?_⟩
  · unfold Undisturbed
    rw [hprog]
    exact h.undisturbed
  · obtain ⟨hp', hpe⟩ := mem_toward.mp hp'
    rcases hnew p' hp' with hp' | rfl | rfl
    · exact h.piece p' (mem_toward.mpr ⟨hp', hpe⟩) l hl
    · obtain ⟨hlt, hlen⟩ := lt_min_iff.mp (List.length_take ▸ hl)
      obtain ⟨j, hj, hplace, hbyte⟩ := h.piece p (mem_toward.mpr ⟨hp, hpe⟩) l hlen
      exact ⟨j, hj, hplace, List.getElem_take.trans hbyte⟩
    · have hlen : l < p.bytes.length - i := List.length_drop ▸ hl
      obtain ⟨j, hj, hplace, hbyte⟩ := h.piece p (mem_toward.mpr ⟨hp, hpe⟩) (i + l) (by omega)
      refine ⟨j, hj, ?_, List.getElem_drop.trans hbyte⟩
      rw [← hplace, Nat.cast_add]
      exact add_add _ _ _
  · rw [hmem]
    refine (h.arrived j hj).imp_right fun ⟨hsame, p', hp', hc⟩ => ⟨hsame, ?_⟩
    obtain ⟨hp', hpe⟩ := mem_toward.mp hp'
    rcases hold p' hp' with rfl | hp'
    · rcases Put.covers_front_or_back i hc with hc | hc
      · exact ⟨_, mem_toward.mpr ⟨hfront, hpe⟩, hc⟩
      · exact ⟨_, mem_toward.mpr ⟨hback, hpe⟩, hc⟩
    · exact ⟨p', mem_toward.mpr ⟨hp', hpe⟩, hc⟩

/-! ## All bytes but one -/

omit [DecidableEq ρ] in
theorem part_append {l ps : List (Put ρ)} {p : Put ρ} {k : ℕ} (i : ℕ)
    (hflight : w.flight = l ++ p :: ps) (hk : l.length = k) :
    w.part k i = some { w with flight := l ++ (ps ++ [p.front i, p.back i]) } := by
  subst hk
  unfold World.part
  rw [hflight, List.getElem?_append_right le_rfl, Nat.sub_self, List.getElem?_cons_zero,
    Option.map_some, List.eraseIdx_append_of_length_le le_rfl, Nat.sub_self, List.eraseIdx_cons_zero,
    List.append_assoc]

theorem land_append {l ps : List (Put ρ)} {p : Put ρ} {k : ℕ} (hflight : w.flight = l ++ p :: ps)
    (hk : l.length = k) :
    step M w (.land k) = some ({ w with flight := l ++ ps }.store p.pe p.dst p.bytes) := by
  subst hk
  unfold step
  dsimp only
  rw [hflight, List.getElem?_append_right le_rfl, Nat.sub_self, List.getElem?_cons_zero,
    Option.map_some, List.eraseIdx_append_of_length_le le_rfl, Nat.sub_self, List.eraseIdx_cons_zero]

/-- All bytes but `k` are written. -/
theorem write_take_drop (m : Mem ρ) (bs : List UInt8) (k : ℕ) :
    let m' := write (write m dst (bs.take k)) (dst + ((k + 1 : ℕ) : ℤ)) (bs.drop (k + 1))
    m' (dst + (k : ℤ)) = m (dst + (k : ℤ)) ∧
      ∀ (j : ℕ) (h : j < bs.length), j ≠ k → m' (dst + (j : ℤ)) = bs[j] := by
  intro m'
  have htake : (bs.take k).length ≤ k := List.length_take_le _ _
  have hdrop : (bs.drop (k + 1)).length = bs.length - (k + 1) := List.length_drop
  have hbehind : ∀ j ≤ k, ¬ (dst + ((k + 1 : ℕ) : ℤ)).Covers (bs.drop (k + 1)).length
      (dst + (j : ℤ)) := by
    rintro j hj ⟨-, hle, -⟩
    rw [add_offset, add_offset] at hle
    omega
  refine ⟨?_, fun j hj hne => ?_⟩
  · show write _ _ _ _ = _
    rw [write_of_not_covers (hbehind k le_rfl), write_of_not_covers]
    rintro ⟨-, -, hlt⟩
    rw [add_offset] at hlt
    omega
  · show write _ _ _ _ = _
    rcases Nat.lt_or_gt_of_ne hne with hlt | hgt
    · have hj' : j < (bs.take k).length := by
        rw [List.length_take]
        omega
      rw [write_of_not_covers (hbehind j hlt.le), write_add j hj', List.getElem_take]
    · have hplace : dst + (j : ℤ) = dst + ((k + 1 : ℕ) : ℤ) + ((j - (k + 1) : ℕ) : ℤ) := by
        rw [add_add]
        congr 1
        omega
      have hbyte : (bs.drop (k + 1))[j - (k + 1)]? = bs[j]? := by
        rw [List.getElem?_drop]
        congr 1
        omega
      rw [hplace, write_add _ (by omega), ← Option.some_inj, ← List.getElem?_eq_getElem, hbyte,
        List.getElem?_eq_getElem hj]

/-- What has been put last comes apart into byte `k` and those before and behind it, and these
land. -/
theorem exists_all_but {l : List (Put ρ)} (hflight : w.flight = l ++ [⟨pe, dst, bs⟩]) (k : ℕ) :
    ∃ w₁ w₂ w₃ w₄, w.part l.length k = some w₁ ∧ w₁.part (l.length + 1) 1 = some w₂ ∧
      step M w₂ (.land l.length) = some w₃ ∧ step M w₃ (.land (l.length + 1)) = some w₄ ∧
      w₁.prog = w.prog ∧ w₂.prog = w.prog ∧ w₃.prog = w.prog ∧ w₄.prog = w.prog ∧
      w₄.mem pe (dst + (k : ℤ)) = w.mem pe (dst + (k : ℤ)) ∧
      ∀ (j : ℕ) (h : j < bs.length), j ≠ k → w₄.mem pe (dst + (j : ℤ)) = bs[j] := by
  let p : Put ρ := ⟨pe, dst, bs⟩
  let one := (p.back k).front 1
  let rest := (p.back k).back 1
  have hlength : ∀ p' : Put ρ, (l ++ [p']).length = l.length + 1 := fun _ => List.length_append
  have hparted : l ++ ([] ++ [p.front k, p.back k]) = (l ++ [p.front k]) ++ p.back k :: [] := by simp
  have hthree : (l ++ [p.front k]) ++ ([] ++ [one, rest]) = l ++ p.front k :: [one, rest] := by simp
  have htwo : l ++ [one, rest] = (l ++ [one]) ++ rest :: [] := by simp
  refine ⟨_, _, _, _, part_append k hflight rfl, part_append 1 hparted (hlength _),
    land_append hthree rfl, land_append htwo (hlength _), rfl, rfl, rfl, rfl, ?_⟩
  have hdrop : rest.bytes = bs.drop (k + 1) := List.drop_drop
  have hdst : rest.dst = dst + ((k + 1 : ℕ) : ℤ) := by
    show dst + (k : ℤ) + ((1 : ℕ) : ℤ) = _
    rw [add_add]
    rfl
  have hmem : ∀ q, Function.update (Function.update w.mem pe (write (w.mem pe) dst (bs.take k))) pe
      (write (Function.update w.mem pe (write (w.mem pe) dst (bs.take k)) pe) rest.dst rest.bytes) pe q =
        write (write (w.mem pe) dst (bs.take k)) (dst + ((k + 1 : ℕ) : ℤ)) (bs.drop (k + 1)) q := by
    intro q
    rw [Function.update_self, Function.update_self, hdrop, hdst]
  exact ⟨(hmem _).trans (write_take_drop _ _ k).1,
    fun j hj hne => (hmem _).trans ((write_take_drop _ _ k).2 j hj hne)⟩

end Kit.OneSided
