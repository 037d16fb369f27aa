import MpiToShmem.Kit.OneSided

/-!
# Places that are left alone

1. `Op.Reaches`: the operation writes a place.
2. `LeftAlone.mem_of_run`: a place that nothing writes keeps its byte.
-/

namespace Kit.OneSided

variable {ρ : Type} [DecidableEq ρ] {M : Machine ρ} {w w' : World ρ} {ls : List Label} {t : ℕ}
  {q : Ptr ρ}

omit [DecidableEq ρ] in
/-- The operation of `i` writes the place `q` of `t`. -/
def Op.Reaches (i t : ℕ) (q : Ptr ρ) : Op ρ → Prop
  | copy dst _ n => i = t ∧ dst.Covers n q
  | put pe dst _ n => pe = t ∧ dst.Covers n q
  | putInt pe dst _ => pe = t ∧ dst.Covers 4 q
  | get _ dst _ n => i = t ∧ dst.Covers n q
  | await _ _ _ _ => False
  | barrier => False

/-- Nothing that is to come or in flight writes the place `q` of `t`. -/
structure LeftAlone (t : ℕ) (q : Ptr ρ) (w : World ρ) : Prop where
  prog : ∀ i, ∀ op ∈ w.prog i, ¬ op.Reaches i t q
  flight : ∀ p ∈ w.flight, p.pe = t → ¬ p.dst.Covers p.bytes.length q

/-- A store elsewhere. -/
theorem store_of_not_covers {pe : ℕ} {p : Ptr ρ} {bs : List UInt8}
    (h : pe = t → ¬ p.Covers bs.length q) : (w.store pe p bs).mem t q = w.mem t q := by
  show Function.update w.mem pe _ t q = w.mem t q
  by_cases ht : t = pe
  · subst ht
    rw [Function.update_self, write_of_not_covers (h rfl)]
  · rw [Function.update_of_ne ht]

theorem LeftAlone.step {a : Label} (h : LeftAlone t q w)
    (hs : OneSided.step M w a = some w') : LeftAlone t q w' ∧ w'.mem t q = w.mem t q := by
  have hprog : ∀ i, ∀ op ∈ w'.prog i, ¬ op.Reaches i t q := fun i op hop =>
    h.prog i op ((prog_suffix hs i).subset hop)
  cases a with
  | run i =>
    obtain ⟨op, rest, w₁, hp, -, -, hact, rfl⟩ := step_run_eq_some hs
    have hop : ¬ op.Reaches i t q := h.prog i op (hp ▸ List.mem_cons_self)
    have hread : ∀ {m : Mem ρ} {dst src : Ptr ρ} {n : ℤ}, dst.Covers (read m src n).length q →
        dst.Covers n q := by
      intro m dst src n hc
      rw [length_read] at hc
      exact covers_toNat hc
    have hsend : ∀ p : Put ρ, (p.pe = t → ¬ p.dst.Covers p.bytes.length q) →
        ∀ p' ∈ w.flight ++ [p], p'.pe = t → ¬ p'.dst.Covers p'.bytes.length q := fun p hnew p' hp' =>
      (List.mem_append.mp hp').elim (h.flight p') fun hp' => List.mem_singleton.mp hp' ▸ hnew
    cases op with
    | barrier => cases hact
    | await pe cell width e =>
      dsimp only [World.act] at hact
      split_ifs at hact
      obtain rfl := Option.some.inj hact
      exact ⟨⟨hprog, h.flight⟩, rfl⟩
    | copy dst src n =>
      obtain rfl := Option.some.inj hact
      exact ⟨⟨hprog, h.flight⟩, store_of_not_covers fun hi hc => hop ⟨hi, hread hc⟩⟩
    | get pe dst src n =>
      obtain rfl := Option.some.inj hact
      exact ⟨⟨hprog, h.flight⟩, store_of_not_covers fun hi hc => hop ⟨hi, hread hc⟩⟩
    | put pe dst src n =>
      obtain rfl := Option.some.inj hact
      exact ⟨⟨hprog, hsend _ fun hpe hc => hop ⟨hpe, hread hc⟩⟩, rfl⟩
    | putInt pe dst z =>
      obtain rfl := Option.some.inj hact
      refine ⟨⟨hprog, hsend _ fun hpe hc => hop ⟨hpe, ?_⟩⟩, rfl⟩
      rwa [length_encodeInt] at hc
  | land k =>
    obtain ⟨p, hp, rfl⟩ := step_land_eq_some hs
    exact ⟨⟨hprog, fun p' hp' => h.flight p' (List.mem_of_mem_eraseIdx hp')⟩,
      store_of_not_covers (h.flight p (List.mem_of_getElem? hp))⟩
  | barrier =>
    obtain ⟨-, -, rfl⟩ := step_barrier_eq_some hs
    exact ⟨⟨hprog, h.flight⟩, rfl⟩

/-- It keeps its byte. -/
theorem LeftAlone.mem_of_run (h : LeftAlone t q w)
    (hexec : exec (OneSided.step M) w ls = some w') : w'.mem t q = w.mem t q := by
  induction ls generalizing w with
  | nil =>
    obtain rfl := Option.some.inj hexec
    rfl
  | cons a ls ih =>
    obtain ⟨w₁, hs, hrest⟩ := exec_cons_eq_some.mp hexec
    obtain ⟨h₁, hmem⟩ := h.step hs
    rw [ih h₁ hrest, hmem]

end Kit.OneSided
