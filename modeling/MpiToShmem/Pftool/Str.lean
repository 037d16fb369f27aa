import Mathlib.Algebra.Group.Nat.Defs
import Mathlib.Data.List.TakeWhile
import Mathlib.Tactic.Common

/-!
# Sizes from strings

`str2Size` turns an argument such as `20MB-1` into a number. It takes the suffixes off from the
right, each at the last character of what is left, and passes the rest to `strtoul`. A string is the
list of its characters in front of the NUL.

1. `parts` takes the suffixes off; `parts_of_isSize`: a string of the grammar gives its parts.
2. `str2Size_iff`: when the result is the one that the grammar gives.
-/

namespace MpiToShmem.Str

/-! ## Characters -/

/-- `isgraph`. -/
def isgraph (c : Char) : Bool := '!' ≤ c ∧ c ≤ '~'

def strIsBlank (s : List Char) : Bool := (s.dropWhile fun c => !isgraph c).isEmpty

/-- `isspace`. -/
def isspace (c : Char) : Bool := c ∈ [' ', '\t', '\n', '\x0b', '\x0c', '\r']

/-! ## `strtoul` -/

/-- The number of a list of decimal digits. -/
def digitsNum (ds : List Char) : ℕ := ds.foldl (fun n d => 10 * n + (d.toNat - '0'.toNat)) 0

/-- What `strtoul` reads: white space, a sign, and digits. -/
def signAndDigits (s : List Char) : Bool × List Char :=
  match s.dropWhile isspace with
  | '-' :: s => (true, s.takeWhile Char.isDigit)
  | '+' :: s => (false, s.takeWhile Char.isDigit)
  | s => (false, s.takeWhile Char.isDigit)

/-- `(size_t)(-1)`. -/
def sizeMax : ℕ := 2 ^ 64 - 1

/-- `strtoul` with base 10; `none` where it sets `errno`. A number without digits is zero. -/
def strtoul (s : List Char) : Option ℕ :=
  let r := signAndDigits s
  let n := digitsNum r.2
  if sizeMax < n then none else some (if r.1 then (2 ^ 64 - n) % 2 ^ 64 else n)

/-! ## `str2Size` -/

/-- `TMP_STR_MAX`. -/
def tmpStrMax : ℕ := 64

def unitsTbl : List (Char × ℕ) :=
  [('p', 1000 ^ 5), ('t', 1000 ^ 4), ('g', 1000 ^ 3), ('m', 1000 ^ 2), ('k', 1000),
    ('P', 1024 ^ 5), ('T', 1024 ^ 4), ('G', 1024 ^ 3), ('M', 1024 ^ 2), ('K', 1024)]

/-- A string without its suffixes, the multiplier of its unit, and whether it had the suffix `-1`. -/
structure Parts where
  number : List Char
  mult : ℕ
  minusOne : Bool
deriving DecidableEq

/-- Take off the suffix `-1`. -/
def takeMinusOne (tmpStr : List Char) : List Char × Bool :=
  if tmpStr.getLast? = some '1' ∧ 1 < tmpStr.length ∧ tmpStr.dropLast.getLast? = some '-' then
    (tmpStr.dropLast.dropLast, true)
  else (tmpStr, false)

/-- Take off the suffix `B`; without a character left, the array is read in front of its start. -/
def takeB (tmpStr : List Char) : Option (List Char) :=
  tmpStr.getLast?.map fun c => if c = 'B' ∨ c = 'b' then tmpStr.dropLast else tmpStr

/-- Take off the unit and look up its multiplier. -/
def takeUnit (tmpStr : List Char) : Option (List Char × ℕ) :=
  tmpStr.getLast?.map fun c =>
    match unitsTbl.find? fun u => u.1 = c with
    | some u => (tmpStr.dropLast, u.2)
    | none => (tmpStr, 1)

/-- The suffixes taken off from the right; `none` is a read in front of the array. -/
def parts (ss : List Char) : Option Parts := do
  let (tmpStr, minusOne) := takeMinusOne ss
  let tmpStr ← takeB tmpStr
  let (number, mult) ← takeUnit tmpStr
  return ⟨number, mult, minusOne⟩

/-- The arithmetic of `str2Size`. -/
def Parts.size (p : Parts) : ℕ :=
  match strtoul p.number with
  | none => sizeMax
  | some sizeNoUnits =>
    let sizeNoUnits := sizeNoUnits * p.mult % 2 ^ 64
    if p.minusOne then (sizeNoUnits + (2 ^ 64 - 1)) % 2 ^ 64 else sizeNoUnits

/-- `str2Size`; `none` is a read outside of `tmpStr`, which has no NUL if the string does not fit. -/
def str2Size (ss : List Char) : Option ℕ :=
  if strIsBlank ss then some sizeMax
  else if tmpStrMax ≤ ss.length then none
  else (parts ss).map Parts.size

/-! ## The grammar -/

/-- Decimal digits. -/
def IsNumber (ds : List Char) : Prop := ds ≠ [] ∧ ∀ d ∈ ds, d.isDigit

instance (ds : List Char) : Decidable (IsNumber ds) := inferInstanceAs (Decidable (_ ∧ _))

/-- A string of the grammar: digits, a unit or none, a `B` or none, and `-1` or not. -/
def IsSize (s : List Char) (p : Parts) : Prop :=
  IsNumber p.number ∧
    ∃ u b, s = p.number ++ u ++ b ++ (if p.minusOne then ['-', '1'] else []) ∧
      ((u = [] ∧ p.mult = 1) ∨ ∃ c, u = [c] ∧ (c, p.mult) ∈ unitsTbl) ∧
      (b = [] ∨ b = ['B'] ∨ b = ['b'])

/-- The size of a string of the grammar; what does not fit is `(size_t)(-1)`. -/
def Parts.value (p : Parts) : ℕ :=
  let total := digitsNum p.number * p.mult
  if sizeMax < total then sizeMax
  else if p.minusOne then if total = 0 then sizeMax else total - 1
  else total

/-- `str2Size` reads no character outside of the string and accepts the grammar. -/
def Accepts (s : List Char) : Prop :=
  ∃ v, str2Size s = some v ∧ (∀ p, IsSize s p → v = p.value) ∧ ((∀ p, ¬ IsSize s p) → v = sizeMax)

/-! ## Suffixes -/

section Suffixes

variable {s t number : List Char} {m : Bool} {mult : ℕ} {p : Parts}

theorem takeMinusOne_append (h : takeMinusOne s = (t, m)) :
    s = t ++ if m then ['-', '1'] else [] := by
  unfold takeMinusOne at h
  split_ifs at h with hs
  · obtain ⟨rfl, rfl⟩ := Prod.mk.inj h
    obtain ⟨hlast, -, hdash⟩ := hs
    obtain ⟨a, rfl⟩ := List.getLast?_eq_some_iff.mp hlast
    rw [List.dropLast_concat] at hdash ⊢
    obtain ⟨b, rfl⟩ := List.getLast?_eq_some_iff.mp hdash
    rw [List.dropLast_concat]
    simp
  · obtain ⟨rfl, rfl⟩ := Prod.mk.inj h
    simp

theorem takeMinusOne_of_append (h : m = false → '-' ∉ t) :
    takeMinusOne (t ++ if m then ['-', '1'] else []) = (t, m) := by
  cases m with
  | true =>
    have hs : t ++ ['-', '1'] = t ++ ['-'] ++ ['1'] := by simp
    rw [if_pos rfl, hs]
    unfold takeMinusOne
    rw [List.dropLast_concat, List.dropLast_concat]
    exact if_pos (by simp)
  | false =>
    rw [if_neg Bool.false_ne_true, List.append_nil]
    unfold takeMinusOne
    refine if_neg fun hs => h rfl ?_
    exact List.dropLast_subset t (List.mem_of_getLast? hs.2.2)

theorem takeB_append (h : takeB s = some t) : ∃ b, s = t ++ b ∧ (b = [] ∨ b = ['B'] ∨ b = ['b']) := by
  obtain ⟨c, hc, h⟩ := Option.map_eq_some_iff.mp h
  obtain ⟨a, rfl⟩ := List.getLast?_eq_some_iff.mp hc
  rw [List.dropLast_concat] at h
  split_ifs at h with hb
  · obtain rfl := h
    refine ⟨[c], rfl, Or.inr ?_⟩
    rcases hb with rfl | rfl
    · exact Or.inl rfl
    · exact Or.inr rfl
  · exact ⟨[], by rw [← h, List.append_nil], Or.inl rfl⟩

theorem takeUnit_append (h : takeUnit s = some (number, mult)) :
    ∃ u, s = number ++ u ∧ ((u = [] ∧ mult = 1) ∨ ∃ c, u = [c] ∧ (c, mult) ∈ unitsTbl) := by
  obtain ⟨c, hc, h⟩ := Option.map_eq_some_iff.mp h
  obtain ⟨a, rfl⟩ := List.getLast?_eq_some_iff.mp hc
  rw [List.dropLast_concat] at h
  cases hf : unitsTbl.find? fun u => u.1 = c with
  | none =>
    rw [hf] at h
    obtain ⟨rfl, rfl⟩ := Prod.mk.inj h
    exact ⟨[], by rw [List.append_nil], Or.inl ⟨rfl, rfl⟩⟩
  | some u =>
    rw [hf] at h
    obtain ⟨rfl, rfl⟩ := Prod.mk.inj h
    have hu : u.1 = c := by simpa using List.find?_some hf
    refine ⟨[c], rfl, Or.inr ⟨c, rfl, ?_⟩⟩
    rw [← hu]
    exact List.mem_of_find?_eq_some hf

theorem takeB_of_append {b : List Char} (hb : b = [] ∨ b = ['B'] ∨ b = ['b']) (ht : t ≠ [])
    (hlast : ∀ c ∈ t, c ≠ 'B' ∧ c ≠ 'b') : takeB (t ++ b) = some t := by
  unfold takeB
  rcases hb with rfl | rfl | rfl
  · rw [List.append_nil, List.getLast?_eq_some_getLast ht, Option.map_some,
      if_neg fun h => h.elim (hlast _ (List.getLast_mem ht)).1 (hlast _ (List.getLast_mem ht)).2]
  · rw [List.getLast?_concat, Option.map_some, if_pos (Or.inl rfl), List.dropLast_concat]
  · rw [List.getLast?_concat, Option.map_some, if_pos (Or.inr rfl), List.dropLast_concat]

theorem takeUnit_of_append {u : List Char}
    (hu : (u = [] ∧ mult = 1) ∨ ∃ c, u = [c] ∧ (c, mult) ∈ unitsTbl) (hn : IsNumber number) :
    takeUnit (number ++ u) = some (number, mult) := by
  unfold takeUnit
  rcases hu with ⟨rfl, rfl⟩ | ⟨c, rfl, hc⟩
  · have hdigit : ∀ u ∈ unitsTbl, u.1.isDigit = false := by decide
    have hnone : (unitsTbl.find? fun u => u.1 = number.getLast hn.1) = none := by
      refine List.find?_eq_none.mpr fun u hmem hlast => ?_
      have hd := hn.2 _ (List.getLast_mem hn.1)
      rw [← of_decide_eq_true hlast, hdigit u hmem] at hd
      cases hd
    rw [List.append_nil, List.getLast?_eq_some_getLast hn.1, Option.map_some, hnone]
  · have hfind : ∀ u ∈ unitsTbl, unitsTbl.find? (fun u' => u'.1 = u.1) = some u := by decide
    rw [List.getLast?_concat, Option.map_some, hfind _ hc, List.dropLast_concat]

/-- A string of the grammar gives its parts. -/
theorem parts_of_isSize (h : IsSize s p) : parts s = some p := by
  obtain ⟨hn, u, b, rfl, hu, hb⟩ := h
  -- what the suffixes are made of
  have hdigit : ∀ c ∈ p.number, c ≠ '-' ∧ c ≠ 'B' ∧ c ≠ 'b' := by
    intro c hc
    have hd := hn.2 c hc
    refine ⟨?_, ?_, ?_⟩ <;> rintro rfl <;> exact absurd hd (by decide)
  have hunit : ∀ c ∈ u, c ≠ '-' ∧ c ≠ 'B' ∧ c ≠ 'b' := by
    rcases hu with ⟨rfl, -⟩ | ⟨c, rfl, hc⟩
    · exact fun c hc => absurd hc List.not_mem_nil
    · have hall : ∀ e ∈ unitsTbl, e.1 ≠ '-' ∧ e.1 ≠ 'B' ∧ e.1 ≠ 'b' := by decide
      intro d hd
      rw [List.mem_singleton.mp hd]
      exact hall _ hc
  have htext : ∀ c ∈ p.number ++ u, c ≠ '-' ∧ c ≠ 'B' ∧ c ≠ 'b' := fun c hc =>
    (List.mem_append.mp hc).elim (hdigit c) (hunit c)
  have hdash : '-' ∉ p.number ++ u ++ b := by
    intro hmem
    rcases List.mem_append.mp hmem with hmem | hmem
    · exact (htext _ hmem).1 rfl
    · rcases hb with rfl | rfl | rfl <;> simp at hmem
  have hne : p.number ++ u ≠ [] := fun h => hn.1 (List.append_eq_nil_iff.mp h).1
  unfold parts
  rw [takeMinusOne_of_append fun _ => hdash]
  dsimp only
  rw [takeB_of_append hb hne fun c hc => (htext c hc).2, Option.bind_eq_bind, Option.bind_some,
    takeUnit_of_append hu hn]
  rfl

theorem isSize_iff : IsSize s p ↔ parts s = some p ∧ IsNumber p.number := by
  refine ⟨fun h => ⟨parts_of_isSize h, h.1⟩, fun ⟨h, hn⟩ => ⟨hn, ?_⟩⟩
  unfold parts at h
  cases hm : takeMinusOne s with
  | mk t m =>
    rw [hm] at h
    obtain ⟨t', ht, h⟩ := Option.bind_eq_some_iff.mp h
    obtain ⟨⟨number, mult⟩, hu, h⟩ := Option.bind_eq_some_iff.mp h
    obtain rfl := Option.some.inj h
    obtain ⟨b, rfl, hb⟩ := takeB_append ht
    obtain ⟨u, rfl, hunit⟩ := takeUnit_append hu
    exact ⟨u, b, takeMinusOne_append hm, hunit, hb⟩

/-- The suffixes alone leave no character. -/
theorem parts_eq_none (hs : s ≠ []) : parts s = none ↔
    s ∈ [['-', '1'], ['B'], ['b'], ['B', '-', '1'], ['b', '-', '1']] := by
  constructor
  · intro h
    unfold parts at h
    cases hm : takeMinusOne s with
    | mk t m =>
      rw [hm] at h
      have happ := takeMinusOne_append hm
      have hunit : ∀ r, takeUnit r = none → r = [] := fun r hr =>
        List.getLast?_eq_none_iff.mp (Option.map_eq_none_iff.mp hr)
      cases hb : takeB t with
      | none =>
        have ht : t = [] := List.getLast?_eq_none_iff.mp (Option.map_eq_none_iff.mp hb)
        subst ht
        cases m <;> simp_all
      | some r =>
        dsimp only at h
        rw [hb, Option.bind_eq_bind, Option.bind_some] at h
        obtain ⟨b, rfl, hb'⟩ := takeB_append hb
        have hr : r = [] := by
          cases hu : takeUnit r with
          | none => exact hunit r hu
          | some u =>
            rw [hu] at h
            cases h
        subst hr
        rcases hb' with rfl | rfl | rfl
        · simp [takeB] at hb
        · cases m <;> simp_all
        · cases m <;> simp_all
  · have hall : ∀ r ∈ [['-', '1'], ['B'], ['b'], ['B', '-', '1'], ['b', '-', '1']],
        parts r = none := by decide
    exact hall s

end Suffixes

/-! ## Numbers -/

/-- Every multiplier but that of a string without a unit is even. -/
theorem mult_of_parts {s : List Char} {p : Parts} (h : parts s = some p) :
    0 < p.mult ∧ (p.mult = 1 ∨ 2 ∣ p.mult) := by
  obtain ⟨t, -, h⟩ := Option.bind_eq_some_iff.mp h
  obtain ⟨⟨number, mult⟩, hu, h⟩ := Option.bind_eq_some_iff.mp h
  obtain rfl := Option.some.inj h
  obtain ⟨u, -, ⟨-, h⟩ | ⟨c, -, hc⟩⟩ := takeUnit_append hu
  · exact ⟨h ▸ Nat.one_pos, Or.inl h⟩
  · have hall : ∀ e ∈ unitsTbl, 0 < e.2 ∧ 2 ∣ e.2 := by decide
    exact ⟨(hall _ hc).1, Or.inr (hall _ hc).2⟩

/-- Digits are read as they are. -/
theorem signAndDigits_of_isNumber {ds : List Char} (h : IsNumber ds) :
    signAndDigits ds = (false, ds) := by
  cases ds with
  | nil => exact absurd rfl h.1
  | cons d ds =>
    have hd := h.2 d List.mem_cons_self
    have hspace : isspace d = false := by
      by_contra hs
      rw [Bool.not_eq_false] at hs
      have hmem : d ∈ [' ', '\t', '\n', '\x0b', '\x0c', '\r'] := of_decide_eq_true hs
      simp only [List.mem_cons, List.not_mem_nil, or_false] at hmem
      rcases hmem with rfl | rfl | rfl | rfl | rfl | rfl <;> exact absurd hd (by decide)
    have htake : (d :: ds).takeWhile Char.isDigit = d :: ds := List.takeWhile_eq_self_iff.mpr h.2
    unfold signAndDigits
    rw [List.dropWhile_cons_of_neg (by rw [hspace]; exact Bool.false_ne_true)]
    split
    · next heq =>
      rw [(List.cons.inj heq).1] at hd
      exact absurd hd (by decide)
    · next heq =>
      rw [(List.cons.inj heq).1] at hd
      exact absurd hd (by decide)
    · rw [htake]

/-- What `strtoul` makes of a number in its range. -/
def negated (neg : Bool) (n : ℕ) : ℕ := if neg then (2 ^ 64 - n) % 2 ^ 64 else n

section Size

variable {p : Parts} {neg : Bool} {ds : List Char} (hread : signAndDigits p.number = (neg, ds))

include hread

theorem Parts.size_of_gt (hn : sizeMax < digitsNum ds) : p.size = sizeMax := by
  unfold size strtoul
  rw [hread]
  dsimp only
  rw [if_pos hn]

theorem Parts.size_of_le (hn : digitsNum ds ≤ sizeMax) : p.size =
    if p.minusOne then (negated neg (digitsNum ds) * p.mult % 2 ^ 64 + (2 ^ 64 - 1)) % 2 ^ 64
    else negated neg (digitsNum ds) * p.mult % 2 ^ 64 := by
  unfold size strtoul
  rw [hread]
  dsimp only
  rw [if_neg (Nat.not_lt.mpr hn)]
  rfl

end Size

/-- A multiple of `2 ^ 64` stays one with the other sign. -/
theorem negated_mul_mod {neg : Bool} {n mult : ℕ} (hn : n ≤ sizeMax) :
    negated neg n * mult % 2 ^ 64 = 0 ↔ 2 ^ 64 ∣ n * mult := by
  rw [← Nat.dvd_iff_mod_eq_zero]
  unfold negated
  split_ifs with hneg
  · rcases Nat.eq_zero_or_pos n with rfl | hpos
    · simp
    · have hlt : 2 ^ 64 - n < 2 ^ 64 := Nat.sub_lt (by decide) hpos
      have hsum : (2 ^ 64 - n) * mult + n * mult = 2 ^ 64 * mult := by
        rw [← Nat.add_mul, Nat.sub_add_cancel]
        unfold sizeMax at hn
        omega
      rw [Nat.mod_eq_of_lt hlt]
      have hdvd : 2 ^ 64 ∣ (2 ^ 64 - n) * mult + n * mult := hsum ▸ Nat.dvd_mul_right _ _
      exact ⟨fun h => (Nat.dvd_add_right h).mp hdvd, fun h => (Nat.dvd_add_left h).mp hdvd⟩
  · rfl

/-- Only one less than zero is `(size_t)(-1)`. -/
theorem pred_mod_eq_sizeMax {r : ℕ} :
    (r % 2 ^ 64 + (2 ^ 64 - 1)) % 2 ^ 64 = sizeMax ↔ r % 2 ^ 64 = 0 := by
  unfold sizeMax
  omega

/-- Without `-1`, only a string without a unit gives `(size_t)(-1)`. -/
theorem mul_mod_eq_sizeMax {v mult : ℕ} (hv : v < 2 ^ 64) (hm : mult = 1 ∨ 2 ∣ mult) :
    v * mult % 2 ^ 64 = sizeMax ↔ mult = 1 ∧ v = sizeMax := by
  rcases hm with rfl | ⟨k, rfl⟩
  · rw [Nat.mul_one, Nat.mod_eq_of_lt hv]
    exact (and_iff_right rfl).symm
  · constructor
    · intro h
      have hmod : v * (2 * k) % 2 ^ 64 % 2 = 0 := by
        rw [Nat.mod_mod_of_dvd _ (by decide), Nat.mul_left_comm, Nat.mul_mod_right]
      rw [h] at hmod
      exact absurd hmod (by decide)
    · rintro ⟨h, -⟩
      omega

theorem negated_eq_sizeMax {neg : Bool} {n : ℕ} (hn : n ≤ sizeMax) :
    negated neg n = sizeMax ↔ n = if neg then 1 else sizeMax := by
  unfold negated
  cases neg with
  | true =>
    rw [if_pos rfl, if_pos rfl]
    unfold sizeMax at hn ⊢
    rcases Nat.eq_zero_or_pos n with rfl | hpos
    · simp
    · rw [Nat.mod_eq_of_lt (by omega)]
      omega
  | false => rw [if_neg Bool.false_ne_true, if_neg Bool.false_ne_true]

/-! ## The grammar and the code -/

/-- What the arithmetic should give: the size of a string of the grammar, and `(size_t)(-1)` for any
other. -/
def Parts.expected (p : Parts) : ℕ := if IsNumber p.number then p.value else sizeMax

/-- The number is out of range, or `-1` is taken from a multiple of `2 ^ 64`, or digits alone are in
front of the unit and the product fits, or anything else reads as `(size_t)(-1)`. -/
def Parts.Converted (p : Parts) : Prop :=
  let r := signAndDigits p.number
  let n := digitsNum r.2
  sizeMax < n ∨ (p.minusOne ∧ 2 ^ 64 ∣ n * p.mult) ∨
    if IsNumber p.number then n * p.mult ≤ sizeMax
    else p.minusOne = false ∧ p.mult = 1 ∧ n = if r.1 then 1 else sizeMax

/-- The strings that are converted as the grammar says. -/
def Convertible (s : List Char) : Prop :=
  strIsBlank s ∨ s.length < tmpStrMax ∧ ∃ p ∈ parts s, p.Converted

/-- A number with its digits in front of the unit: the product decides. -/
theorem Parts.size_eq_value {p : Parts} (hm : p.mult = 1 ∨ 2 ∣ p.mult) (hnum : IsNumber p.number)
    (hle : digitsNum p.number ≤ sizeMax) :
    p.size = p.value ↔ (p.minusOne ∧ 2 ^ 64 ∣ digitsNum p.number * p.mult) ∨
      digitsNum p.number * p.mult ≤ sizeMax := by
  have hsize := size_of_le (signAndDigits_of_isNumber hnum) hle
  have hzero := @negated_mul_mod false _ p.mult hle
  have hmax := @mul_mod_eq_sizeMax (negated false (digitsNum p.number)) p.mult
    (by unfold negated; rw [if_neg Bool.false_ne_true]; unfold sizeMax at hle; omega) hm
  have hneg : negated false (digitsNum p.number) = digitsNum p.number := rfl
  rw [hneg] at hsize hzero hmax
  rw [hsize]
  unfold value
  dsimp only
  by_cases hfit : digitsNum p.number * p.mult ≤ sizeMax
  · refine iff_of_true ?_ (Or.inr hfit)
    rw [if_neg (Nat.not_lt.mpr hfit)]
    unfold sizeMax at hfit ⊢
    cases p.minusOne with
    | true =>
      rw [if_pos rfl, if_pos rfl]
      split_ifs <;> omega
    | false =>
      rw [if_neg Bool.false_ne_true, if_neg Bool.false_ne_true]
      omega
  · rw [if_pos (Nat.lt_of_not_le hfit)]
    cases hone : p.minusOne with
    | true =>
      rw [if_pos rfl, pred_mod_eq_sizeMax, hzero, or_iff_left hfit]
      exact (and_iff_right rfl).symm
    | false =>
      rw [if_neg Bool.false_ne_true, hmax]
      refine iff_of_false (fun h => hfit ?_) (by simp [hfit])
      rw [h.1, Nat.mul_one]
      exact hle

/-- Anything else has to read as `(size_t)(-1)`. -/
theorem Parts.size_eq_sizeMax {p : Parts} (hm : p.mult = 1 ∨ 2 ∣ p.mult) {neg : Bool}
    {ds : List Char} (hread : signAndDigits p.number = (neg, ds)) (hle : digitsNum ds ≤ sizeMax) :
    p.size = sizeMax ↔ (p.minusOne ∧ 2 ^ 64 ∣ digitsNum ds * p.mult) ∨
      (p.minusOne = false ∧ p.mult = 1 ∧ digitsNum ds = if neg then 1 else sizeMax) := by
  have hlt : negated neg (digitsNum ds) < 2 ^ 64 := by
    unfold negated
    unfold sizeMax at hle
    split_ifs <;> omega
  rw [size_of_le hread hle]
  cases hone : p.minusOne with
  | true =>
    rw [if_pos rfl, pred_mod_eq_sizeMax, negated_mul_mod hle]
    simp
  | false =>
    rw [if_neg Bool.false_ne_true, mul_mod_eq_sizeMax hlt hm, negated_eq_sizeMax hle]
    simp

theorem Parts.size_eq_expected {p : Parts} (hpos : 0 < p.mult) (hm : p.mult = 1 ∨ 2 ∣ p.mult) :
    p.size = p.expected ↔ p.Converted := by
  unfold expected Converted
  dsimp only
  cases hread : signAndDigits p.number with
  | mk neg ds =>
    by_cases hgt : sizeMax < digitsNum ds
    · refine iff_of_true ?_ (Or.inl hgt)
      rw [size_of_gt hread hgt]
      split_ifs with hnum
      · rw [signAndDigits_of_isNumber hnum] at hread
        obtain ⟨-, rfl⟩ := Prod.mk.inj hread
        have htotal : sizeMax < digitsNum p.number * p.mult :=
          Nat.lt_of_lt_of_le hgt (Nat.le_mul_of_pos_right _ hpos)
        exact (if_pos htotal).symm
      · rfl
    · rw [or_iff_right hgt]
      by_cases hnum : IsNumber p.number
      · rw [if_pos hnum, if_pos hnum]
        rw [signAndDigits_of_isNumber hnum] at hread
        obtain ⟨-, rfl⟩ := Prod.mk.inj hread
        exact size_eq_value hm hnum (Nat.le_of_not_lt hgt)
      · rw [if_neg hnum, if_neg hnum]
        exact size_eq_sizeMax hm hread (Nat.le_of_not_lt hgt)

/-- A string of the grammar is not blank. -/
theorem not_blank_of_isSize {s : List Char} {p : Parts} (h : IsSize s p) :
    strIsBlank s = false := by
  obtain ⟨hn, u, b, rfl, -, -⟩ := h
  obtain ⟨d, ds, hds⟩ := List.exists_cons_of_ne_nil hn.1
  have hd : d.isDigit := hn.2 d (hds ▸ List.mem_cons_self)
  have hgraph : isgraph d = true := by
    unfold isgraph
    simp only [Char.isDigit, Bool.and_eq_true, decide_eq_true_eq, Char.le_def,
      UInt32.le_iff_toNat_le] at hd ⊢
    exact ⟨Nat.le_trans (by decide) hd.1, Nat.le_trans hd.2 (by decide)⟩
  unfold strIsBlank
  rw [hds, List.cons_append, List.cons_append, List.cons_append,
    List.dropWhile_cons_of_neg (by simp [hgraph])]
  rfl

/-- `str2Size` reads no character outside of the string and accepts the grammar exactly for the
convertible strings. -/
theorem str2Size_iff (s : List Char) : Accepts s ↔ Convertible s := by
  unfold Accepts Convertible str2Size
  by_cases hblank : strIsBlank s = true
  · rw [if_pos hblank]
    refine iff_of_true ⟨sizeMax, rfl, fun p hp => ?_, fun _ => rfl⟩ (Or.inl hblank)
    rw [not_blank_of_isSize hp] at hblank
    cases hblank
  · rw [if_neg hblank, or_iff_right hblank]
    by_cases hlen : tmpStrMax ≤ s.length
    · rw [if_pos hlen]
      exact iff_of_false (by rintro ⟨v, hv, -⟩; cases hv) fun h => Nat.not_le.mpr h.1 hlen
    · rw [if_neg hlen, and_iff_right (Nat.lt_of_not_le hlen)]
      cases hp : parts s with
      | none => simp
      | some p =>
        obtain ⟨hpos, hm⟩ := mult_of_parts hp
        have hsize : ∀ q, IsSize s q ↔ q = p ∧ IsNumber p.number := by
          intro q
          rw [isSize_iff, hp, Option.some.injEq]
          constructor
          · rintro ⟨rfl, hn⟩
            exact ⟨rfl, hn⟩
          · rintro ⟨rfl, hn⟩
            exact ⟨rfl, hn⟩
        have hexp : (∀ q, IsSize s q → p.size = q.value) ∧ ((∀ q, ¬ IsSize s q) → p.size = sizeMax) ↔
            p.size = p.expected := by
          unfold Parts.expected
          by_cases hn : IsNumber p.number <;> simp [hsize, hn]
        simp only [Option.map_some, Option.some.injEq, exists_eq_left', Option.mem_def]
        rw [hexp]
        exact Parts.size_eq_expected hpos hm

/-- A string that is no size at all is converted to zero. -/
theorem not_accepts_letter : ¬ Accepts ['x'] := by
  rintro ⟨v, hv, -, hother⟩
  have hv0 : str2Size ['x'] = some 0 := by decide
  obtain rfl : v = 0 := by
    rw [hv0] at hv
    exact (Option.some.inj hv).symm
  have hnot : ∀ p, ¬ IsSize ['x'] p := by
    intro p hp
    obtain ⟨hparts, hn⟩ := isSize_iff.mp hp
    obtain rfl : (⟨['x'], 1, false⟩ : Parts) = p := Option.some.inj hparts
    exact absurd (hn.2 'x' List.mem_cons_self) (by decide)
  exact absurd (hother hnot) (by decide)

end MpiToShmem.Str
