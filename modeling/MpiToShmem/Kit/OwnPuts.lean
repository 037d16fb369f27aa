import MpiToShmem.Kit.InOrder
import MpiToShmem.Kit.Undisturbed

/-!
# An element that puts to itself

What an element puts into its own memory is in flight like any other put. Where a put to itself is
complete before the element goes on, its memory is that of a straight-line program.

1. `Prompt`: the runs in which an element goes on only when nothing is in flight to it.
2. `mem_of_prompt`: its memory after such a run; `exists_run_prompt`: there is one.
3. `mem_of_own_puts`: a place after any run of puts that agree on it.
-/

namespace Kit.OneSided

open scoped List

variable {ρ : Type} [DecidableEq ρ] {M : Machine ρ} {w w' : World ρ} {ls : List Label} {pe : ℕ}

/-! ## Prompt runs -/

/-- The element goes on only when nothing is in flight to it. -/
def Prompt (pe : ℕ) (w : World ρ) (a : Label) : Prop := a = .run pe → w.toward pe = []

/-- A copy, or a put to itself. -/
def Op.Own (pe : ℕ) : Op ρ → Prop
  | copy _ _ _ => True
  | put t _ _ _ => t = pe
  | _ => False

omit [DecidableEq ρ] in
theorem Op.Own.isBarrier {pe : ℕ} {op : Op ρ} (h : op.Own pe) : op.isBarrier = false := by
  cases op with
  | barrier => cases h
  | _ => rfl

/-- Memory after these operations, when what is put is there at once. -/
def prompt (m : Mem ρ) : List (Op ρ) → Mem ρ
  | [] => m
  | .copy dst src n :: ops => prompt (write m dst (read m src n)) ops
  | .put _ dst src n :: ops => prompt (write m dst (read m src n)) ops
  | _ :: ops => prompt m ops

theorem prompt_append (m : Mem ρ) (ops ops' : List (Op ρ)) :
    prompt m (ops ++ ops') = prompt (prompt m ops) ops' := by
  induction ops generalizing m with
  | nil => rfl
  | cons op ops ih =>
    cases op with
    | _ => exact ih _

theorem prompt_of_idle {ops : List (Op ρ)} (h : ∀ op ∈ ops, op.Idle) (m : Mem ρ) :
    prompt m ops = m := by
  induction ops generalizing m with
  | nil => rfl
  | cons op ops ih =>
    have hop := h op List.mem_cons_self
    have hrest := fun m => ih (fun o ho => h o (List.mem_cons_of_mem _ ho)) m
    cases op with
    | copy dst src n =>
      obtain rfl : n = 0 := hop
      exact (hrest _).trans (write_read_zero _ _)
    | put t dst src n =>
      obtain rfl : n = 0 := hop
      exact (hrest _).trans (write_read_zero _ _)
    | get => exact hrest _
    | _ => cases hop

/-- What has been run and landed, and what is left, make up `final`. -/
structure PromptInv (pe : ℕ) (final : Mem ρ) (w : World ρ) : Prop where
  undisturbed : Undisturbed pe w
  own : ∀ op ∈ w.prog pe, op.Own pe
  mem : (w.toward pe = [] ∧ prompt (w.mem pe) (w.prog pe) = final) ∨
    ∃ p, w.toward pe = [p] ∧ prompt (write (w.mem pe) p.dst p.bytes) (w.prog pe) = final

theorem PromptInv.step {final : Mem ρ} {a : Label} (hpe : pe < M.npes) (h : PromptInv pe final w)
    (hprompt : Prompt pe w a) (hs : step M w a = some w') : PromptInv pe final w' := by
  have hb : w.atBarrier pe = false := atBarrier_eq_false fun op hop => (h.own op hop).isBarrier
  have hown : ∀ op ∈ w'.prog pe, op.Own pe := fun op hop => h.own op ((prog_suffix hs pe).subset hop)
  obtain ⟨hothers, hcase⟩ := step_cases hpe h.undisturbed hb hs
  refine ⟨hothers, hown, ?_⟩
  rcases hcase with ⟨hp, hm, hf⟩ | ⟨op, rest, w₁, rfl, hp, hact, rfl⟩ | ⟨p, hf, hp, hm⟩
  · rw [hp, hm]
    rcases h.mem with ⟨htoward, hmem⟩ | ⟨p, htoward, hmem⟩
    · rw [htoward] at hf
      exact Or.inl ⟨hf.eq_nil, hmem⟩
    · rw [htoward] at hf
      exact Or.inr ⟨p, List.perm_singleton.mp hf, hmem⟩
  · have htoward := hprompt rfl
    rcases h.mem with ⟨-, hmem⟩ | ⟨p, hone, -⟩
    · rw [hp] at hmem
      have hop := h.own op (hp ▸ List.mem_cons_self)
      dsimp only
      rw [Function.update_self]
      cases op with
      | copy dst src n =>
        obtain rfl := Option.some.inj hact
        refine Or.inl ⟨htoward, ?_⟩
        show prompt (Function.update w.mem pe _ pe) rest = final
        rw [Function.update_self]
        exact hmem
      | put t dst src n =>
        obtain rfl : t = pe := hop
        obtain rfl := Option.some.inj hact
        refine Or.inr ⟨⟨t, dst, read (w.mem t) src n⟩, ?_, hmem⟩
        show (w.flight ++ [_]).filter _ = _
        rw [List.filter_append]
        change w.toward t ++ _ = _
        rw [htoward]
        simp
      | _ => cases hop
    · rw [htoward] at hone
      cases hone
  · rw [hp, hm]
    rcases h.mem with ⟨htoward, -⟩ | ⟨p', htoward, hmem⟩
    · rw [htoward] at hf
      cases hf.nil_eq
    · rw [htoward] at hf
      obtain ⟨rfl, hnil⟩ := List.cons.inj (List.singleton_perm.mp hf)
      exact Or.inl ⟨hnil.symm, hmem⟩

/-- The memory of an element that copies and puts to itself, after a prompt run. -/
theorem mem_of_prompt (hpe : pe < M.npes) (h : Undisturbed pe w) (ht : w.toward pe = [])
    (hown : ∀ op ∈ w.prog pe, op.Own pe) (hprompt : Meets (step M) (Prompt pe) w ls)
    (hexec : exec (step M) w ls = some w') (hdone : w'.prog pe = []) (hlanded : w'.toward pe = []) :
    w'.mem pe = prompt (w.mem pe) (w.prog pe) := by
  have hinv : PromptInv pe (prompt (w.mem pe) (w.prog pe)) w' :=
    exec_inv_meets (fun _ _ _ hu hg hs => hu.step hpe hg hs) ⟨h, hown, Or.inl ⟨ht, rfl⟩⟩ hprompt
      hexec
  rcases hinv.mem with ⟨-, hmem⟩ | ⟨p, hone, -⟩
  · rw [hdone] at hmem
    exact hmem
  · rw [hlanded] at hone
    cases hone

/-- On its own, an element that copies and puts has a run in which whatever it puts lands at once. -/
theorem exists_run_prompt (hpe : pe < M.npes) (mem : ℕ → Mem ρ) (stored : ℕ → Ptr ρ → Bool)
    {ops : List (Op ρ)} (hops : ∀ op ∈ ops, op.Ok M ∧ op.isLocal = true) :
    ∃ ls w', exec (step M) ⟨mem, Function.update (fun _ => []) pe ops, [], stored⟩ ls = some w' ∧
      w'.Done ∧
      Meets (step M) (Prompt pe) ⟨mem, Function.update (fun _ => []) pe ops, [], stored⟩ ls := by
  induction ops generalizing mem stored with
  | nil =>
    refine ⟨[], _, rfl, ⟨fun i => ?_, rfl⟩, trivial⟩
    dsimp only
    rw [Function.update_eq_self]
  | cons op ops ih =>
    obtain ⟨hok, hlocal⟩ := hops op List.mem_cons_self
    have hrest : ∀ o ∈ ops, o.Ok M ∧ o.isLocal = true := fun o ho =>
      hops o (List.mem_cons_of_mem _ ho)
    generalize hw : (⟨mem, Function.update (fun _ => []) pe (op :: ops), [], stored⟩ : World ρ) = w
    have hstep : ∀ w₁, w.act pe op = some w₁ → step M w (.run pe) =
        some { w₁ with prog := Function.update (fun _ => []) pe ops } := by
      intro w₁ hact
      subst hw
      unfold step
      dsimp only
      rw [Function.update_self]
      dsimp only
      rw [if_pos ⟨hpe, hok⟩, hact, Option.map_some, prog_act hact, Function.update_idem]
    have hfirst : Prompt pe w (.run pe) := fun _ => by
      subst hw
      rfl
    cases op with
    | copy dst src n =>
      obtain ⟨ls, w', hexec, hdone, hmeets⟩ := ih _ _ hrest
      have hs := hstep _ rfl
      subst hw
      refine ⟨.run pe :: ls, w', exec_cons_eq_some.mpr ⟨_, hs, hexec⟩, hdone, hfirst, ?_⟩
      rw [hs]
      exact hmeets
    | put t dst src n =>
      have hs := hstep _ rfl
      subst hw
      obtain ⟨ls, w', hexec, hdone, hmeets⟩ := ih _ _ hrest
      refine ⟨.run pe :: .land 0 :: ls, w',
        exec_cons_eq_some.mpr ⟨_, hs, exec_cons_eq_some.mpr ⟨_, rfl, hexec⟩⟩, hdone, hfirst, ?_⟩
      rw [hs]
      exact ⟨nofun, hmeets⟩
    | _ => cases hlocal

/-! ## Any run -/

/-- Puts to itself into `T` from outside of it, all of which leave `b` at `q`: what is left to run,
what is in flight, and memory, which was `m`. -/
structure AgreeInv (pe : ℕ) (T : Ptr ρ → Prop) (m : Mem ρ) (q : Ptr ρ) (b : UInt8) (w : World ρ) :
    Prop where
  undisturbed : Undisturbed pe w
  prog : ∀ op ∈ w.prog pe, ∃ dst src n, op = .put pe dst src n ∧ ∀ i : ℕ, (i : ℤ) < n →
    T (dst + (i : ℤ)) ∧ ¬ T (src + (i : ℤ)) ∧ (dst + (i : ℤ) = q → m (src + (i : ℤ)) = b)
  toward : ∀ p ∈ w.toward pe, ∀ (i : ℕ) (h : i < p.bytes.length),
    T (p.dst + (i : ℤ)) ∧ (p.dst + (i : ℤ) = q → p.bytes[i] = b)
  outside : ∀ q', ¬ T q' → w.mem pe q' = m q'
  there : w.mem pe q = b ∨ (∃ dst src n, .put pe dst src n ∈ w.prog pe ∧ dst.Covers n q) ∨
    ∃ p ∈ w.toward pe, p.dst.Covers p.bytes.length q

/-- Running its next put keeps it: the bytes read lie outside of `T` and so are those of `m`. -/
theorem AgreeInv.put {T : Ptr ρ → Prop} {m : Mem ρ} {q : Ptr ρ} {b : UInt8} {op : Op ρ}
    {rest : List (Op ρ)} {w₁ : World ρ} (h : AgreeInv pe T m q b w)
    (hp : w.prog pe = op :: rest) (hact : w.act pe op = some w₁)
    (hothers : Undisturbed pe { w₁ with prog := Function.update w.prog pe rest }) :
    AgreeInv pe T m q b { w₁ with prog := Function.update w.prog pe rest } := by
  obtain ⟨dst, src, n, rfl, hplaces⟩ := h.prog op (hp ▸ List.mem_cons_self)
  obtain rfl := Option.some.inj hact
  have hbyte : ∀ i : ℕ, (i : ℤ) < n → w.mem pe (src + (i : ℤ)) = m (src + (i : ℤ)) :=
    fun i hi => h.outside _ (hplaces i hi).2.1
  refine ⟨hothers, fun op hop => h.prog op ?_, fun p hp i hi => ?_, h.outside, ?_⟩
  · dsimp only at hop
    rw [Function.update_self] at hop
    exact hp ▸ List.mem_cons_of_mem _ hop
  · rcases mem_toward_send.mp hp with hp | ⟨rfl, -⟩
    · exact h.toward p hp i hi
    · dsimp only at hi ⊢
      rw [length_read] at hi
      obtain ⟨hT, -, hq⟩ := hplaces i (by omega)
      refine ⟨hT, fun heq => ?_⟩
      rw [getElem_read, hbyte i (by omega)]
      exact hq heq
  · rcases h.there with hmem | ⟨dst', src', n', hop, hc⟩ | ⟨p, hp', hc⟩
    · exact Or.inl hmem
    · rw [hp] at hop
      rcases List.mem_cons.mp hop with heq | hop
      · obtain ⟨-, rfl, rfl, rfl⟩ := Op.put.inj heq
        refine Or.inr (Or.inr ⟨⟨pe, dst', read (w.mem pe) src' n'⟩,
          mem_toward_send.mpr (Or.inr ⟨rfl, rfl⟩), ?_⟩)
        obtain ⟨i, hi, rfl⟩ := covers_iff.mp hc
        refine covers_iff.mpr ⟨i, ?_, rfl⟩
        rw [length_read]
        omega
      · refine Or.inr (Or.inl ⟨dst', src', n', ?_, hc⟩)
        dsimp only
        rwa [Function.update_self]
    · exact Or.inr (Or.inr ⟨p, mem_toward_send.mpr (Or.inl hp'), hc⟩)

/-- The landing of a put keeps it: all that are in flight leave `b` at `q`. -/
theorem AgreeInv.landing {T : Ptr ρ → Prop} {m : Mem ρ} {q : Ptr ρ} {b : UInt8} {p : Put ρ}
    (h : AgreeInv pe T m q b w) (hothers : Undisturbed pe w')
    (hf : (w.toward pe).Perm (p :: w'.toward pe)) (hp : w'.prog pe = w.prog pe)
    (hm : w'.mem pe = write (w.mem pe) p.dst p.bytes) : AgreeInv pe T m q b w' := by
  have hp' : p ∈ w.toward pe := hf.symm.subset List.mem_cons_self
  refine ⟨hothers, fun op hop => h.prog op (hp ▸ hop),
    fun p' hp' => h.toward p' (hf.symm.subset (List.mem_cons_of_mem _ hp')),
    fun q' hq' => ?_, ?_⟩
  · rw [hm, write_of_not_covers]
    · exact h.outside q' hq'
    · intro hc
      obtain ⟨i, hi, rfl⟩ := covers_iff.mp hc
      exact hq' (h.toward p hp' i (by omega)).1
  · rw [hm, hp]
    by_cases hc : p.dst.Covers p.bytes.length q
    · obtain ⟨i, hi, rfl⟩ := covers_iff.mp hc
      have hi : i < p.bytes.length := by omega
      rw [write_add i hi]
      exact Or.inl ((h.toward p hp' i hi).2 rfl)
    · rw [write_of_not_covers hc]
      refine h.there.imp_right (Or.imp_right ?_)
      rintro ⟨p', hmem, hc'⟩
      rcases List.mem_cons.mp (hf.subset hmem) with rfl | hmem
      · exact absurd hc' hc
      · exact ⟨p', hmem, hc'⟩

theorem AgreeInv.step {T : Ptr ρ → Prop} {m : Mem ρ} {q : Ptr ρ} {b : UInt8} {a : Label}
    (hpe : pe < M.npes) (h : AgreeInv pe T m q b w) (hs : step M w a = some w') :
    AgreeInv pe T m q b w' := by
  have hb : w.atBarrier pe = false := atBarrier_eq_false fun op hop => by
    obtain ⟨_, _, _, rfl, -⟩ := h.prog op hop
    rfl
  obtain ⟨hothers, hcase⟩ := step_cases hpe h.undisturbed hb hs
  rcases hcase with ⟨hp, hm, hf⟩ | ⟨op, rest, w₁, -, hp, hact, rfl⟩ | ⟨p, hf, hp, hm⟩
  · refine ⟨hothers, fun op hop => h.prog op (hp ▸ hop), fun p hp => h.toward p (hf.subset hp),
      hm ▸ h.outside, ?_⟩
    rw [hm, hp]
    refine h.there.imp_right (Or.imp_right ?_)
    rintro ⟨p, hp, hc⟩
    exact ⟨p, hf.symm.subset hp, hc⟩
  · exact h.put hp hact hothers
  · exact h.landing hothers hf hp hm

/-- After any run of puts to itself that all leave `b` at `q`, there is `b` if one of them reaches `q`
or it was there before. -/
theorem mem_of_own_puts {T : Ptr ρ → Prop} {q : Ptr ρ} {b : UInt8} (hpe : pe < M.npes)
    (h : Undisturbed pe w) (ht : w.toward pe = [])
    (hops : ∀ op ∈ w.prog pe, ∃ dst src n, op = .put pe dst src n ∧ ∀ i : ℕ, (i : ℤ) < n →
      T (dst + (i : ℤ)) ∧ ¬ T (src + (i : ℤ)) ∧ (dst + (i : ℤ) = q → w.mem pe (src + (i : ℤ)) = b))
    (hthere : w.mem pe q = b ∨ ∃ dst src n, .put pe dst src n ∈ w.prog pe ∧ dst.Covers n q)
    (hexec : exec (step M) w ls = some w') (hdone : w'.prog pe = []) (hlanded : w'.toward pe = []) :
    w'.mem pe q = b := by
  have hstart : AgreeInv pe T (w.mem pe) q b w :=
    ⟨h, hops, by rw [ht]; exact fun _ hp => absurd hp List.not_mem_nil, fun _ _ => rfl,
      hthere.imp_right Or.inl⟩
  have hinv : AgreeInv pe T (w.mem pe) q b w' :=
    exec_inv (fun _ _ _ hu hs => hu.step hpe hs) hstart hexec
  rcases hinv.there with hmem | ⟨_, _, _, hop, -⟩ | ⟨p, hp, -⟩
  · exact hmem
  · rw [hdone] at hop
    cases hop
  · rw [hlanded] at hp
    cases hp

end Kit.OneSided
