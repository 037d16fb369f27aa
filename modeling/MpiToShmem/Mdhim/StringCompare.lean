import MpiToShmem.Mdhim.SliceOrder

/-!
# The comparator of string keys

`cmp_string_compare` is given two pointers and two lengths. Its loop looks at a character of both
strings before it looks at the lengths, so it stops within both strings only where they differ or end
with a NUL.

1. `stop_cases`: where the loop stops.
2. `strCompare_eq`: where it stops within both strings, the result is that of the lexicographic
   order up to the NUL.
3. `totalOrderOn_iff`: the keys that are in order, whatever is in memory behind them.
-/

namespace MpiToShmem

/-- What is in memory at a `char *`. -/
abbrev CharPtr := ℕ → UInt8

/-! ## The function -/

section

variable (a b : CharPtr) (alen blen idx : ℕ)

/-- The condition of the loop, which reads `*a` and `*b` first. -/
def CmpGoes : Prop := a idx = b idx ∧ a idx ≠ 0 ∧ b idx ≠ 0 ∧ idx < alen ∧ idx < blen

instance : Decidable (CmpGoes a b alen blen idx) := by unfold CmpGoes; infer_instance

/-- The loop: `idx` behind it. -/
def cmpLoop (idx : ℕ) : ℕ := if CmpGoes a b alen blen idx then cmpLoop (idx + 1) else idx
termination_by alen - idx
decreasing_by
  rename_i h
  have := h.2.2.2.1
  omega

/-- The cases behind the loop, for the two characters it stopped at. -/
def cmpExit (x y : UInt8) (alen blen idx : ℕ) : ℤ :=
  if (x = 0 ∧ y = 0) ∨ (alen = blen ∧ idx = alen) then 0
  else if (alen = idx ∨ x = 0) ∧ alen < blen then -1
  else if (blen = idx ∨ y = 0) ∧ blen < alen then 1
  else if charId x > charId y then 1
  else -1

end

/-- `cmp_string_compare`: what it returns, and how many bytes it reads at each pointer. -/
def cmpStringCompare : Option CharPtr → ℕ → Option CharPtr → ℕ → ℤ × ℕ
  | some _, _, none, _ => (1, 0)
  | none, _, some _, _ => (-1, 0)
  | none, _, none, _ => (0, 0)
  | some a, alen, some b, blen =>
    let idx := cmpLoop a b alen blen 0
    (cmpExit (a idx) (b idx) alen blen idx, idx + 1)

/-- A key in memory, in front of other things. -/
def inMemory (key : List UInt8) (behind : CharPtr) : CharPtr := fun i => key.getD i (behind i)

/-- Two keys, given by their bytes and lengths. -/
def strCompare (a : List UInt8) (ma : CharPtr) (b : List UInt8) (mb : CharPtr) : ℤ × ℕ :=
  cmpStringCompare (some (inMemory a ma)) a.length (some (inMemory b mb)) b.length

/-! ## Orders of keys -/

/-- What a comparison should do, whatever is behind the keys. -/
structure PairSound (a b : List UInt8) : Prop where
  inBounds : ∀ ma mb, (strCompare a ma b mb).2 ≤ a.length ∧ (strCompare a ma b mb).2 ≤ b.length
  determined : ∀ ma mb ma' mb', (strCompare a ma b mb).1 = (strCompare a ma' b mb').1
  antisymm : ∀ ma mb, (strCompare b mb a ma).1 = -(strCompare a ma b mb).1
  zero_iff : ∀ ma mb, (strCompare a ma b mb).1 = 0 ↔ strChars a = strChars b

/-- Three keys in a total order. -/
structure TotalOrderOn (a b c : List UInt8) : Prop where
  ab : PairSound a b
  bc : PairSound b c
  ac : PairSound a c
  trans : ∀ ma mb mc, (strCompare a ma b mb).1 ≤ 0 → (strCompare b mb c mc).1 ≤ 0 →
    (strCompare a ma c mc).1 ≤ 0

/-- Neither of the keys is without a NUL and a prefix of the other. -/
def Distinguished (a b : List UInt8) : Prop :=
  ¬ (0 ∉ a ∧ a <+: b) ∧ ¬ (0 ∉ b ∧ b <+: a)

/-- The order of texts as a comparator has it. -/
def lexSign (s t : List UInt8) : ℤ := if s < t then -1 else if t < s then 1 else 0

theorem lexSign_antisymm (s t : List UInt8) : lexSign t s = -lexSign s t := by
  unfold lexSign
  split_ifs with hts hst hst
  · exact absurd hst (List.lt_asymm hts)
  · rfl
  · rfl
  · rfl

theorem lexSign_eq_zero_iff {s t : List UInt8} : lexSign s t = 0 ↔ s = t := by
  unfold lexSign
  split_ifs with hst hts
  · refine iff_of_false (by decide) ?_
    rintro rfl
    exact List.lt_irrefl s hst
  · refine iff_of_false (by decide) ?_
    rintro rfl
    exact List.lt_irrefl s hts
  · exact iff_of_true rfl (Std.Trichotomous.trichotomous s t hst hts)

theorem lexSign_nonpos_iff {s t : List UInt8} : lexSign s t ≤ 0 ↔ s ≤ t := by
  unfold lexSign
  split_ifs with hst hts
  · exact iff_of_true (by decide) (List.le_of_lt hst)
  · exact iff_of_false (by decide) fun h => h hts
  · exact iff_of_true le_rfl hts

/-- What two texts have in common at the start does not count. -/
theorem lexSign_append (p s t : List UInt8) : lexSign (p ++ s) (p ++ t) = lexSign s t := by
  have hlt (s t : List UInt8) : p ++ s < p ++ t ↔ s < t := by
    induction p with
    | nil => rfl
    | cons c p ih => rw [List.cons_append, List.cons_append, List.cons_lt_cons_self, ih]
  simp only [lexSign, hlt]

/-! ## Where the loop stops -/

theorem cmpLoop_spec (a b : CharPtr) (alen blen idx : ℕ) : idx ≤ cmpLoop a b alen blen idx ∧
    (∀ j, idx ≤ j → j < cmpLoop a b alen blen idx → CmpGoes a b alen blen j) ∧
    ¬ CmpGoes a b alen blen (cmpLoop a b alen blen idx) := by
  fun_induction cmpLoop a b alen blen idx with
  | case1 idx hgoes ih =>
    obtain ⟨hle, hbefore, hstop⟩ := ih
    refine ⟨by omega, fun j hj hlt => ?_, hstop⟩
    rcases Nat.eq_or_lt_of_le hj with rfl | hj
    · exact hgoes
    · exact hbefore j hj hlt
  | case2 idx hgoes => exact ⟨le_rfl, fun j hj hlt => absurd hlt (by omega), hgoes⟩

section

variable {a b : List UInt8} {ma mb : CharPtr} {i : ℕ}

theorem inMemory_of_lt (h : i < a.length) (ma : CharPtr) : inMemory a ma i = a[i] := by
  rw [inMemory, List.getD_eq_getElem?_getD, List.getElem?_eq_getElem h, Option.getD_some]

/-- What the loop has gone over is within both keys, the same in both, and has no NUL. -/
theorem common_of_goes
    (h : ∀ j < i, CmpGoes (inMemory a ma) (inMemory b mb) a.length b.length j) :
    (i ≤ a.length ∧ i ≤ b.length) ∧ a.take i = b.take i ∧ 0 ∉ a.take i := by
  have hsame : ∀ j (hja : j < a.length) (hjb : j < b.length), j < i → a[j] = b[j] ∧ a[j] ≠ 0 := by
    intro j hja hjb hj
    obtain ⟨heq, hne, -⟩ := h j hj
    rw [inMemory_of_lt hja] at heq hne
    rw [inMemory_of_lt hjb] at heq
    exact ⟨heq, hne⟩
  have hle : i ≤ a.length ∧ i ≤ b.length := by
    rcases Nat.eq_zero_or_pos i with rfl | hpos
    · omega
    · obtain ⟨-, -, -, hja, hjb⟩ := h (i - 1) (by omega)
      omega
  refine ⟨hle, ?_, fun hmem => ?_⟩
  · refine List.ext_getElem (by simp [hle]) fun j hj hj' => ?_
    rw [List.length_take] at hj hj'
    rw [List.getElem_take, List.getElem_take]
    exact (hsame j (by omega) (by omega) (by omega)).1
  · obtain ⟨j, hj, hzero⟩ := List.getElem_of_mem hmem
    rw [List.length_take] at hj
    rw [List.getElem_take] at hzero
    exact (hsame j (by omega) (by omega) (by omega)).2 hzero

/-- The loop stops within both keys, at a difference or a NUL, or at the end of a key that has no NUL
and is a prefix of the other. -/
theorem stop_cases (h : ∀ j < i, CmpGoes (inMemory a ma) (inMemory b mb) a.length b.length j)
    (hi : ¬ CmpGoes (inMemory a ma) (inMemory b mb) a.length b.length i) :
    (∃ p x y s t, a = p ++ x :: s ∧ b = p ++ y :: t ∧ 0 ∉ p ∧ p.length = i ∧ (x ≠ y ∨ x = 0)) ∨
      (0 ∉ a ∧ a <+: b) ∨ (0 ∉ b ∧ b <+: a) := by
  obtain ⟨hle, htake, hnul⟩ := common_of_goes h
  by_cases hia : i < a.length
  · by_cases hib : i < b.length
    · left
      refine ⟨a.take i, a[i], b[i], a.drop (i + 1), b.drop (i + 1), ?_, ?_, hnul, ?_, ?_⟩
      · rw [← List.drop_eq_getElem_cons hia, List.take_append_drop]
      · rw [htake, ← List.drop_eq_getElem_cons hib, List.take_append_drop]
      · rw [List.length_take]
        omega
      · by_contra hcon
        obtain ⟨heq, hne⟩ := not_or.mp hcon
        rw [not_not] at heq
        refine hi ⟨?_, ?_, ?_, hia, hib⟩
        · rw [inMemory_of_lt hia, inMemory_of_lt hib, heq]
        · rwa [inMemory_of_lt hia]
        · rwa [inMemory_of_lt hib, ← heq]
    · right; right
      have hb : b.take i = b := List.take_of_length_le (by omega)
      rw [htake, hb] at hnul
      refine ⟨hnul, ?_⟩
      rw [← hb, ← htake]
      exact List.take_prefix i a
  · right; left
    have ha : a.take i = a := List.take_of_length_le (by omega)
    rw [ha] at hnul
    refine ⟨hnul, ?_⟩
    rw [← ha, htake]
    exact List.take_prefix i b

/-- In a key that is a prefix of the other and has no NUL the loop does not stop. -/
theorem goes_of_isPrefix (hnul : 0 ∉ a) (hp : a <+: b) (ma mb : CharPtr) (hi : i < a.length) :
    CmpGoes (inMemory a ma) (inMemory b mb) a.length b.length i := by
  obtain ⟨t, rfl⟩ := hp
  have hib : i < (a ++ t).length := by
    rw [List.length_append]
    omega
  have hne : a[i] ≠ 0 := fun h => hnul (h ▸ List.getElem_mem hi)
  refine ⟨?_, ?_, ?_, hi, hib⟩
  · rw [inMemory_of_lt hi, inMemory_of_lt hib, List.getElem_append_left hi]
  · rwa [inMemory_of_lt hi]
  · rwa [inMemory_of_lt hib, List.getElem_append_left hi]

/-! ## What is read -/

/-- The comparison stays within both keys exactly when neither is without a NUL and a prefix of the
other. -/
theorem inBounds_iff (a b : List UInt8) (ma mb : CharPtr) :
    ((strCompare a ma b mb).2 ≤ a.length ∧ (strCompare a ma b mb).2 ≤ b.length) ↔
      Distinguished a b := by
  obtain ⟨-, hbefore, hstop⟩ :=
    cmpLoop_spec (inMemory a ma) (inMemory b mb) a.length b.length 0
  have hreads : (strCompare a ma b mb).2 =
    cmpLoop (inMemory a ma) (inMemory b mb) a.length b.length 0 + 1 := rfl
  rw [hreads]
  generalize cmpLoop (inMemory a ma) (inMemory b mb) a.length b.length 0 = idx at hbefore hstop ⊢
  constructor
  · rintro ⟨hia, hib⟩
    constructor
    · rintro ⟨hnul, hp⟩
      exact hstop (goes_of_isPrefix hnul hp ma mb (by omega))
    · rintro ⟨hnul, hp⟩
      obtain ⟨heq, hnb, hna, hib', hia'⟩ :=
        goes_of_isPrefix hnul hp mb ma (show _ < b.length from hib)
      exact hstop ⟨heq.symm, hna, hnb, hia', hib'⟩
  · rintro ⟨ha, hb⟩
    rcases stop_cases (fun j hj => hbefore j (Nat.zero_le j) hj) hstop with
      ⟨p, x, y, s, t, rfl, rfl, -, hlen, -⟩ | hp | hp
    · simp only [List.length_append, List.length_cons]
      omega
    · exact absurd hp ha
    · exact absurd hp hb

/-! ## The result -/

/-- A key that `verify_key` accepts. -/
def AlphaKey (a : List UInt8) : Prop := ∀ c ∈ strChars a, (findChar (charId c)).isSome

theorem strChars_append {p s : List UInt8} (h : s ≠ []) : strChars (p ++ s) = p ++ strChars s := by
  induction p with
  | nil => rfl
  | cons c p ih =>
    rw [List.cons_append, strChars, if_neg, ih, List.cons_append]
    simp [h]

/-- Behind a NUL there is nothing, and other characters count. -/
theorem AlphaKey.strChars_cons {p s : List UInt8} {x : UInt8} (h : AlphaKey (p ++ x :: s)) :
    (x = 0 ∧ s = [] ∧ strChars (p ++ x :: s) = p) ∨
      (x ≠ 0 ∧ charId x = x.toNat ∧ strChars (p ++ x :: s) = p ++ x :: strChars s) := by
  have happend : strChars (p ++ x :: s) = p ++ strChars (x :: s) :=
    strChars_append (List.cons_ne_nil x s)
  by_cases hend : s = [] ∧ x = 0
  · left
    obtain ⟨rfl, rfl⟩ := hend
    exact ⟨rfl, rfl, by rw [happend]; simp [strChars]⟩
  · right
    have hcons : strChars (p ++ x :: s) = p ++ x :: strChars s := by
      rw [happend, strChars, if_neg hend]
    have hx : (findChar (charId x)).isSome := h x (by rw [hcons]; simp)
    refine ⟨?_, charId_of_findChar hx, hcons⟩
    rintro rfl
    exact absurd hx (by decide)

/-- The lexicographic order, where the loop stops within both keys. -/
theorem cmpExit_eq {p s t : List UInt8} {x y : UInt8} (ha : AlphaKey (p ++ x :: s))
    (hb : AlphaKey (p ++ y :: t)) (hxy : x ≠ y ∨ x = 0) :
    cmpExit x y (p ++ x :: s).length (p ++ y :: t).length p.length =
      lexSign (strChars (p ++ x :: s)) (strChars (p ++ y :: t)) := by
  have hp (u : List UInt8) : lexSign p (p ++ u) = lexSign [] u := by
    rw [← lexSign_append p [] u, List.append_nil]
  have hq (u : List UInt8) : lexSign (p ++ u) p = lexSign u [] := by
    rw [← lexSign_append p u [], List.append_nil]
  simp only [cmpExit, List.length_append, List.length_cons]
  rcases ha.strChars_cons with ⟨rfl, rfl, hsa⟩ | ⟨hx0, hidx, hsa⟩
  · rcases hb.strChars_cons with ⟨rfl, rfl, hsb⟩ | ⟨hy0, hidy, hsb⟩
    · rw [hsa, if_pos (Or.inl ⟨rfl, rfl⟩)]
      exact (lexSign_eq_zero_iff.mpr rfl).symm
    · -- the end of the first key
      have hres : lexSign [] (y :: strChars t) = -1 := by simp [lexSign]
      have hid : ¬ charId 0 > charId y := by
        rw [hidy]
        exact not_lt.mpr (Int.natCast_nonneg _)
      rw [hsa, hsb, hp, hres, if_neg (by simp [hy0])]
      split_ifs with h₁ h₂
      · rfl
      · exact absurd h₂.1 (by simp [hy0])
      · rfl
  · rcases hb.strChars_cons with ⟨rfl, rfl, hsb⟩ | ⟨hy0, hidy, hsb⟩
    · -- the end of the second key
      have hres : lexSign (x :: strChars s) [] = 1 := by simp [lexSign]
      have hid : charId x > charId 0 := by
        have hpos : 0 < x.toNat := Nat.pos_of_ne_zero fun h => hx0 (UInt8.toNat_inj.mp h)
        rw [hidx, show charId 0 = 0 from rfl]
        exact_mod_cast hpos
      rw [hsa, hsb, hq, hres, if_neg (by simp [hx0]), if_neg (by simp [hx0])]
      split_ifs
      · rfl
      · rfl
    · -- two characters that differ
      have hne : x ≠ y := hxy.resolve_right hx0
      rw [hsa, hsb, lexSign_append, if_neg (by simp [hx0]), if_neg (by simp [hx0]),
        if_neg (by simp [hy0]), hidx, hidy]
      have hnat : x.toNat ≠ y.toNat := fun h => hne (UInt8.toNat_inj.mp h)
      unfold lexSign
      simp only [List.cons_lt_cons_iff, hne, hne.symm, false_and, or_false, UInt8.lt_iff_toNat_lt]
      split_ifs with h₁ h₂ h₃
      · omega
      · rfl
      · omega
      · rfl
      · omega
      · omega

theorem strCompare_eq (ha : AlphaKey a) (hb : AlphaKey b) (h : Distinguished a b)
    (ma mb : CharPtr) : (strCompare a ma b mb).1 = lexSign (strChars a) (strChars b) := by
  obtain ⟨-, hbefore, hstop⟩ :=
    cmpLoop_spec (inMemory a ma) (inMemory b mb) a.length b.length 0
  rw [strCompare, cmpStringCompare]
  generalize cmpLoop (inMemory a ma) (inMemory b mb) a.length b.length 0 = idx at hbefore hstop ⊢
  rcases stop_cases (fun j hj => hbefore j (Nat.zero_le j) hj) hstop with
    ⟨p, x, y, s, t, rfl, rfl, -, rfl, hxy⟩ | hp | hp
  · have hx : inMemory (p ++ x :: s) ma p.length = x := by
      rw [inMemory_of_lt (by simp)]
      simp
    have hy : inMemory (p ++ y :: t) mb p.length = y := by
      rw [inMemory_of_lt (by simp)]
      simp
    dsimp only
    rw [hx, hy]
    exact cmpExit_eq ha hb hxy
  · exact absurd hp h.1
  · exact absurd hp h.2

/-! ## When keys are in order -/

theorem Distinguished.symm (h : Distinguished a b) : Distinguished b a := ⟨h.2, h.1⟩

theorem pairSound_iff (ha : AlphaKey a) (hb : AlphaKey b) :
    PairSound a b ↔ Distinguished a b := by
  constructor
  · exact fun h => (inBounds_iff a b (fun _ => 0) fun _ => 0).mp (h.inBounds _ _)
  · intro h
    have heq := strCompare_eq ha hb h
    have heq' := strCompare_eq hb ha h.symm
    refine ⟨fun ma mb => (inBounds_iff a b ma mb).mpr h, fun ma mb ma' mb' => ?_,
      fun ma mb => ?_, fun ma mb => ?_⟩
    · rw [heq, heq]
    · rw [heq, heq']
      exact lexSign_antisymm _ _
    · rw [heq]
      exact lexSign_eq_zero_iff

end

/-- Three string keys are in a total order, by reads within their lengths, exactly when no two of them
are such that one has no NUL and is a prefix of the other. -/
theorem totalOrderOn_iff (o : MdhimOptions) (hstr : o.dbKeyType = .string) {a b c : List UInt8}
    (ha : verifyKey o (some a) = mdhimSuccess) (hb : verifyKey o (some b) = mdhimSuccess)
    (hc : verifyKey o (some c) = mdhimSuccess) :
    TotalOrderOn a b c ↔ Distinguished a b ∧ Distinguished b c ∧ Distinguished a c := by
  have hka : AlphaKey a := isSome_of_verifyKey hstr ha
  have hkb : AlphaKey b := isSome_of_verifyKey hstr hb
  have hkc : AlphaKey c := isSome_of_verifyKey hstr hc
  constructor
  · rintro ⟨hab, hbc, hac, -⟩
    exact ⟨(pairSound_iff hka hkb).mp hab, (pairSound_iff hkb hkc).mp hbc,
      (pairSound_iff hka hkc).mp hac⟩
  · rintro ⟨hab, hbc, hac⟩
    refine ⟨(pairSound_iff hka hkb).mpr hab, (pairSound_iff hkb hkc).mpr hbc,
      (pairSound_iff hka hkc).mpr hac, fun ma mb mc => ?_⟩
    rw [strCompare_eq hka hkb hab, strCompare_eq hkb hkc hbc, strCompare_eq hka hkc hac]
    simp only [lexSign_nonpos_iff]
    exact List.le_trans

/-- The keys `A`, `AB` and `B`, each with a NUL. -/
theorem totalOrderOn_terminated : TotalOrderOn [65, 0] [65, 66, 0] [66, 0] :=
  (totalOrderOn_iff ⟨.string, 1, 10, by decide, by decide, by decide⟩ rfl (by decide) (by decide)
    (by decide)).mpr (by unfold Distinguished; decide)

/-- A key without a NUL is read behind its end when it is compared with itself. -/
theorem not_totalOrderOn_unterminated : ¬ TotalOrderOn [65] [65] [65] := by
  intro h
  have hdist := (inBounds_iff _ _ (fun _ => 0) fun _ => 0).mp (h.ab.inBounds (fun _ => 0) fun _ => 0)
  exact hdist.1 ⟨by decide, List.prefix_rfl⟩

end MpiToShmem
