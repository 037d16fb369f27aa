import Mathlib.Algebra.Order.Floor.Defs
import Mathlib.Algebra.Order.Field.Power
import Mathlib.Data.Rat.Floor
import Mathlib.Tactic.Linarith
import Mathlib.Tactic.Positivity
import Mathlib.Tactic.NormNum

/-!
# Expansions after the point

The value of a list of digits `d₀ d₁ …` in base `2 ^ w`, read as `0.d₀d₁…`, and the share of a
total that it stands for.

`expand_lt_one`: digits below the base give a value below one, so the share stays below the total
(`floor_expand_mul_lt`).

`expand_lt_iff`: values follow the lexicographic order of the digits, except that zeros behind them
do not count.
-/

namespace Kit

/-- The weight `2 ^ (w * -(i + 1))` of digit `i`. -/
def weight (w i : ℕ) : ℚ := (2 : ℚ) ^ ((w : ℤ) * -((i : ℤ) + 1))

/-- The value of the digits `ds`, the first of which is digit `i`. -/
def expandFrom (w : ℕ) : ℕ → List ℕ → ℚ
  | _, [] => 0
  | i, d :: ds => d * weight w i + expandFrom w (i + 1) ds

/-- The value of the digits `ds`. -/
def expand (w : ℕ) (ds : List ℕ) : ℚ := expandFrom w 0 ds

theorem weight_pos (w i : ℕ) : 0 < weight w i := by unfold weight; exact zpow_pos two_pos _

/-- A unit of one place is a base of units of the next. -/
theorem weight_succ (w i : ℕ) : 2 ^ w * weight w (i + 1) = weight w i := by
  unfold weight
  rw [← zpow_natCast, ← zpow_add₀ two_ne_zero]
  congr 1
  push_cast
  ring

theorem weight_zero (w : ℕ) : 2 ^ w * weight w 0 = 1 := by
  unfold weight
  rw [← zpow_natCast, ← zpow_add₀ two_ne_zero]
  simp

/-- Digits from place `i` on are worth less than a unit of the place before. -/
theorem expandFrom_lt {w : ℕ} {ds : List ℕ} (h : ∀ d ∈ ds, d < 2 ^ w) (i : ℕ) :
    expandFrom w i ds < 2 ^ w * weight w i := by
  induction ds generalizing i with
  | nil =>
    have := weight_pos w i
    unfold expandFrom
    positivity
  | cons d ds ih =>
    have hd : (d : ℚ) + 1 ≤ 2 ^ w := by exact_mod_cast h d List.mem_cons_self
    have hrest := ih (fun e he => h e (List.mem_cons_of_mem _ he)) (i + 1)
    rw [weight_succ] at hrest
    have hw := weight_pos w i
    calc expandFrom w i (d :: ds) = d * weight w i + expandFrom w (i + 1) ds := rfl
      _ < d * weight w i + weight w i := by linarith
      _ = (d + 1) * weight w i := by ring
      _ ≤ 2 ^ w * weight w i := by gcongr

theorem expand_lt_one {w : ℕ} {ds : List ℕ} (h : ∀ d ∈ ds, d < 2 ^ w) : expand w ds < 1 :=
  (expandFrom_lt h 0).trans_eq (weight_zero w)

/-- The share of a total, rounded down, stays below the total, or at zero where there is none. -/
theorem floor_expand_mul_lt {w : ℕ} {ds : List ℕ} (h : ∀ d ∈ ds, d < 2 ^ w) {total : ℕ}
    (ht : 0 < total) : ⌊expand w ds * total⌋.toNat < total := by
  have hpos : (0 : ℚ) < total := by exact_mod_cast ht
  have hlt : expand w ds * total < total := by
    have := expand_lt_one h
    nlinarith
  have hfloor : ⌊expand w ds * total⌋ < (total : ℤ) := by
    rw [Int.floor_lt]
    exact_mod_cast hlt
  omega

/-! ## Order -/

section Order

variable {w : ℕ} {ds es : List ℕ}

theorem expandFrom_nonneg (w i : ℕ) (ds : List ℕ) : 0 ≤ expandFrom w i ds := by
  induction ds generalizing i with
  | nil => exact le_rfl
  | cons d ds ih =>
    have hw := weight_pos w i
    have hrest := ih (i + 1)
    unfold expandFrom
    positivity

/-- Only zeros have no value. -/
theorem expandFrom_pos_iff (w i : ℕ) (ds : List ℕ) :
    0 < expandFrom w i ds ↔ ¬ ∃ n, ds = List.replicate n 0 := by
  induction ds generalizing i with
  | nil => simp [expandFrom]
  | cons d ds ih =>
    have hw := weight_pos w i
    have hrest := expandFrom_nonneg w (i + 1) ds
    rcases Nat.eq_zero_or_pos d with rfl | hd
    · rw [expandFrom, Nat.cast_zero, zero_mul, zero_add, ih (i + 1)]
      constructor
      · rintro h ⟨_ | n, hn⟩
        · cases hn
        · exact h ⟨n, (List.cons.inj hn).2⟩
      · rintro h ⟨n, rfl⟩
        exact h ⟨n + 1, rfl⟩
    · have hpos : (0 : ℚ) < d := by exact_mod_cast hd
      have hvalue : 0 < expandFrom w i (d :: ds) := by
        unfold expandFrom
        positivity
      refine iff_of_true hvalue ?_
      rintro ⟨_ | n, hn⟩
      · cases hn
      · rw [(List.cons.inj hn).1] at hd
        exact absurd hd (by simp)

/-- The first digit decides. -/
theorem expandFrom_cons_lt {d e i : ℕ} (hd : ∀ x ∈ ds, x < 2 ^ w) (h : d < e) (es : List ℕ) :
    expandFrom w i (d :: ds) < expandFrom w i (e :: es) := by
  have hw := weight_pos w i
  have hrest := expandFrom_lt hd (i + 1)
  rw [weight_succ] at hrest
  have hes := expandFrom_nonneg w (i + 1) es
  have hle : (d : ℚ) + 1 ≤ e := by exact_mod_cast h
  calc expandFrom w i (d :: ds) = d * weight w i + expandFrom w (i + 1) ds := rfl
    _ < (d + 1) * weight w i := by linarith
    _ ≤ e * weight w i := by gcongr
    _ ≤ e * weight w i + expandFrom w (i + 1) es := by linarith
    _ = expandFrom w i (e :: es) := rfl

/-- One step along digits of which some are the same. -/
theorem exists_append_replicate_cons {d e : ℕ} :
    (∃ n, e :: es = d :: ds ++ List.replicate n 0) ↔
      e = d ∧ ∃ n, es = ds ++ List.replicate n 0 := by
  constructor
  · rintro ⟨n, hn⟩
    exact ⟨(List.cons.inj hn).1, n, (List.cons.inj hn).2⟩
  · rintro ⟨rfl, n, rfl⟩
    exact ⟨n, rfl⟩

theorem expandFrom_lt_iff (hd : ∀ d ∈ ds, d < 2 ^ w) (he : ∀ e ∈ es, e < 2 ^ w) (i : ℕ) :
    expandFrom w i ds < expandFrom w i es ↔
      ds < es ∧ ¬ ∃ n, es = ds ++ List.replicate n 0 := by
  induction ds generalizing es i with
  | nil =>
    rw [expandFrom, expandFrom_pos_iff]
    constructor
    · refine fun h => ⟨?_, h⟩
      cases es with
      | nil => exact absurd ⟨0, rfl⟩ h
      | cons e es => exact List.nil_lt_cons e es
    · exact fun h => h.2
  | cons d ds ih =>
    obtain ⟨hd0, hds⟩ := List.forall_mem_cons.mp hd
    cases es with
    | nil =>
      have hnonneg := expandFrom_nonneg w i (d :: ds)
      exact iff_of_false (not_lt.mpr hnonneg) fun h => List.not_lt_nil _ h.1
    | cons e es =>
      obtain ⟨he0, hes⟩ := List.forall_mem_cons.mp he
      rw [List.cons_lt_cons_iff, exists_append_replicate_cons]
      rcases lt_trichotomy d e with hlt | rfl | hgt
      · exact iff_of_true (expandFrom_cons_lt hds hlt es) ⟨Or.inl hlt, fun h => hlt.ne' h.1⟩
      · rw [expandFrom, expandFrom, add_lt_add_iff_left, ih hds hes]
        simp
      · refine iff_of_false (not_lt.mpr (expandFrom_cons_lt hes hgt ds).le) ?_
        rintro ⟨hlt | ⟨rfl, -⟩, -⟩
        · exact lt_asymm hlt hgt
        · exact lt_irrefl _ hgt

theorem expand_lt_iff (hd : ∀ d ∈ ds, d < 2 ^ w) (he : ∀ e ∈ es, e < 2 ^ w) :
    expand w ds < expand w es ↔ ds < es ∧ ¬ ∃ n, es = ds ++ List.replicate n 0 :=
  expandFrom_lt_iff hd he 0

/-- Values follow the order of the digits. -/
theorem expand_le_of_lt (hd : ∀ d ∈ ds, d < 2 ^ w) (he : ∀ e ∈ es, e < 2 ^ w) (h : ds < es) :
    expand w ds ≤ expand w es :=
  not_lt.mp fun hlt => List.lt_asymm h ((expand_lt_iff he hd).mp hlt).1

end Order

/-! ## Digits of a text -/

section Digits

variable {α : Type*} {f : α → ℕ} {as bs : List α}

/-- A text and its digits are in the same order. -/
theorem map_lt_map_iff [LT α]
    (h : ∀ a ∈ as, ∀ b ∈ bs, (f a < f b ↔ a < b) ∧ (f a = f b ↔ a = b)) :
    as.map f < bs.map f ↔ as < bs := by
  induction as generalizing bs with
  | nil =>
    cases bs with
    | nil => simp
    | cons b bs => simp
  | cons a as ih =>
    cases bs with
    | nil => simp
    | cons b bs =>
      obtain ⟨hlt, heq⟩ := h a List.mem_cons_self b List.mem_cons_self
      rw [List.map_cons, List.map_cons, List.cons_lt_cons_iff, List.cons_lt_cons_iff, hlt, heq,
        ih fun x hx y hy => h x (List.mem_cons_of_mem _ hx) y (List.mem_cons_of_mem _ hy)]

/-- The character of the digit zero, behind a text. -/
theorem map_append_replicate_iff {z : α} (hz : ∀ b ∈ bs, f b = 0 ↔ b = z)
    (h : ∀ a ∈ as, ∀ b ∈ bs, f a = f b ↔ a = b) :
    (∃ n, bs.map f = as.map f ++ List.replicate n 0) ↔ ∃ n, bs = as ++ List.replicate n z := by
  induction as generalizing bs with
  | nil =>
    simp only [List.map_nil, List.nil_append, List.eq_replicate_iff, List.length_map,
      List.forall_mem_map]
    constructor
    · rintro ⟨n, hn, hall⟩
      exact ⟨n, hn, fun b hb => (hz b hb).mp (hall b hb)⟩
    · rintro ⟨n, hn, hall⟩
      exact ⟨n, hn, fun b hb => (hz b hb).mpr (hall b hb)⟩
  | cons a as ih =>
    cases bs with
    | nil => simp
    | cons b bs =>
      have hab := h a List.mem_cons_self b List.mem_cons_self
      have hrest := ih (fun x hx => hz x (List.mem_cons_of_mem _ hx))
        fun x hx y hy => h x (List.mem_cons_of_mem _ hx) y (List.mem_cons_of_mem _ hy)
      simp only [List.map_cons, List.cons_append, List.cons.injEq, exists_and_left, hrest]
      rw [eq_comm, hab, eq_comm]

end Digits

end Kit
