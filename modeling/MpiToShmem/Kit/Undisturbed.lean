import MpiToShmem.Kit.OneSided

/-!
# An element that nobody else writes to

As long as the others put nothing to an element, its memory depends on its own operations only,
whatever else happens.

1. `Undisturbed` and `step_cases`: what a step can do to the element.
2. `solo`: its own copies and gets, by themselves.
3. `mem_of_solo` and `mem_of_own_put`: its memory after a run.
-/

namespace Kit.OneSided

open scoped List

variable {ρ : Type} [DecidableEq ρ] {M : Machine ρ} {w w' : World ρ} {ls : List Label} {pe : ℕ}

/-! ## What others do -/

/-- The operation puts nothing to `pe`. -/
def Op.Spares (pe : ℕ) : Op ρ → Prop
  | put t _ _ _ => t ≠ pe
  | putInt t _ _ => t ≠ pe
  | _ => True

/-- The others put nothing to `pe`. -/
def Undisturbed (pe : ℕ) (w : World ρ) : Prop := ∀ i, i ≠ pe → ∀ op ∈ w.prog i, op.Spares pe

/-- What is in flight to `pe`. -/
def World.toward (w : World ρ) (pe : ℕ) : List (Put ρ) := w.flight.filter fun p => p.pe = pe

omit [DecidableEq ρ] in
theorem toward_eq_nil : w.toward pe = [] ↔ ∀ p ∈ w.flight, p.pe ≠ pe := by
  unfold World.toward
  rw [List.filter_eq_nil_iff]
  exact forall₂_congr fun p _ => by rw [decide_eq_true_eq]

/-- Another element leaves `pe` alone. -/
theorem act_of_ne {i : ℕ} {op : Op ρ} {w₁ : World ρ} (hi : i ≠ pe) (hop : op.Spares pe)
    (hact : w.act i op = some w₁) : w₁.mem pe = w.mem pe ∧ w₁.toward pe = w.toward pe := by
  have hsend : ∀ p : Put ρ, p.pe ≠ pe → (w.send p).toward pe = w.toward pe := by
    intro p hp
    show (w.flight ++ [p]).filter _ = _
    rw [List.filter_append, List.filter_cons_of_neg (by simpa using hp), List.filter_nil,
      List.append_nil]
    rfl
  cases op with
  | barrier => cases hact
  | await t cell width e =>
    dsimp only [World.act] at hact
    split_ifs at hact
    obtain rfl := Option.some.inj hact
    exact ⟨rfl, rfl⟩
  | copy dst src n =>
    obtain rfl := Option.some.inj hact
    exact ⟨Function.update_of_ne hi.symm _ _, rfl⟩
  | get t dst src n =>
    obtain rfl := Option.some.inj hact
    exact ⟨Function.update_of_ne hi.symm _ _, rfl⟩
  | put t dst src n =>
    obtain rfl := Option.some.inj hact
    exact ⟨rfl, hsend _ hop⟩
  | putInt t dst z =>
    obtain rfl := Option.some.inj hact
    exact ⟨rfl, hsend _ hop⟩

/-- A step leaves `pe` alone, or is its own, or lands there. -/
theorem step_cases {a : Label} (hpe : pe < M.npes) (h : Undisturbed pe w)
    (hb : w.atBarrier pe = false) (hs : step M w a = some w') :
    Undisturbed pe w' ∧
      ((w'.prog pe = w.prog pe ∧ w'.mem pe = w.mem pe ∧ w'.toward pe ~ w.toward pe) ∨
      (∃ op rest w₁, a = .run pe ∧ w.prog pe = op :: rest ∧ w.act pe op = some w₁ ∧
        w' = { w₁ with prog := Function.update w.prog pe rest }) ∨
      ∃ p, w.toward pe ~ p :: w'.toward pe ∧ w'.prog pe = w.prog pe ∧
        w'.mem pe = write (w.mem pe) p.dst p.bytes) := by
  have hothers : Undisturbed pe w' :=
    fun j hj o ho => h j hj o ((prog_suffix hs j).subset ho)
  cases a with
  | run i =>
    obtain ⟨op, rest, w₁, hprog, -, -, hact, rfl⟩ := step_run_eq_some hs
    refine ⟨hothers, ?_⟩
    by_cases hi : i = pe
    · subst hi
      exact Or.inr (Or.inl ⟨op, rest, w₁, rfl, hprog, hact, rfl⟩)
    · obtain ⟨hmem, hflight⟩ := act_of_ne hi (h i hi op (hprog ▸ List.mem_cons_self)) hact
      exact Or.inl ⟨Function.update_of_ne (Ne.symm hi) _ _, hmem, List.Perm.of_eq hflight⟩
  | land k =>
    obtain ⟨p, hp, rfl⟩ := step_land_eq_some hs
    obtain ⟨hk, rfl⟩ := List.getElem?_eq_some_iff.mp hp
    have hperm := (List.getElem_cons_eraseIdx_perm hk).filter fun p => decide (p.pe = pe)
    refine ⟨hothers, ?_⟩
    by_cases hpp : w.flight[k].pe = pe
    · rw [List.filter_cons_of_pos (by simpa using hpp)] at hperm
      refine Or.inr (Or.inr ⟨w.flight[k], hperm.symm, rfl, ?_⟩)
      show Function.update w.mem _ _ pe = _
      rw [hpp, Function.update_self]
    · rw [List.filter_cons_of_neg (by simpa using hpp)] at hperm
      exact Or.inl ⟨rfl, Function.update_of_ne (Ne.symm hpp) _ _, hperm⟩
  | barrier =>
    obtain ⟨hat, -, -⟩ := step_barrier_eq_some hs
    rw [hat pe hpe] at hb
    cases hb

/-! ## What it does itself -/

/-- A copy, or a get of its own memory. -/
def Op.Solo (pe : ℕ) : Op ρ → Prop
  | copy _ _ _ => True
  | get t _ _ _ => t = pe
  | _ => False

omit [DecidableEq ρ] in
theorem Op.Solo.isBarrier {op : Op ρ} (h : op.Solo pe) : op.isBarrier = false := by
  cases op with
  | barrier => cases h
  | _ => rfl

/-- Memory after these operations. -/
def solo (m : Mem ρ) : List (Op ρ) → Mem ρ
  | [] => m
  | .copy dst src n :: ops => solo (write m dst (read m src n)) ops
  | .get _ dst src n :: ops => solo (write m dst (read m src n)) ops
  | _ :: ops => solo m ops

theorem solo_append (m : Mem ρ) (ops ops' : List (Op ρ)) :
    solo m (ops ++ ops') = solo (solo m ops) ops' := by
  induction ops generalizing m with
  | nil => rfl
  | cons op ops ih =>
    cases op with
    | _ => exact ih _

/-- The operation writes the place. -/
def Op.Writes (q : Ptr ρ) : Op ρ → Prop
  | copy dst _ n => dst.Covers n q
  | get _ dst _ n => dst.Covers n q
  | _ => False

/-- A place that no operation writes keeps its byte. -/
theorem solo_of_not_writes {q : Ptr ρ} {ops : List (Op ρ)} (h : ∀ op ∈ ops, ¬ op.Writes q)
    (m : Mem ρ) : solo m ops q = m q := by
  induction ops generalizing m with
  | nil => rfl
  | cons op ops ih =>
    have hop := h op List.mem_cons_self
    have hrest := fun m => ih (fun o ho => h o (List.mem_cons_of_mem _ ho)) m
    cases op with
    | copy dst src n => exact (hrest _).trans (write_read_of_not_covers m src hop)
    | get t dst src n => exact (hrest _).trans (write_read_of_not_covers m src hop)
    | _ => exact hrest _

/-- Some of `ops` have been run; `tail` is left after them. -/
structure SoloInv (pe : ℕ) (m : Mem ρ) (ops tail : List (Op ρ)) (w : World ρ) : Prop where
  undisturbed : Undisturbed pe w
  toward : w.toward pe = []
  prog : ∃ todo, w.prog pe = todo ++ tail ∧ (∀ op ∈ todo, op.Solo pe) ∧
    solo (w.mem pe) todo = solo m ops

theorem SoloInv.start {ops tail : List (Op ρ)} (h : Undisturbed pe w) (ht : w.toward pe = [])
    (hprog : w.prog pe = ops ++ tail) (hops : ∀ op ∈ ops, op.Solo pe) :
    SoloInv pe (w.mem pe) ops tail w :=
  ⟨h, ht, ops, hprog, hops, rfl⟩

theorem SoloInv.not_atBarrier {m : Mem ρ} {ops tail : List (Op ρ)} (h : SoloInv pe m ops tail w)
    (htail : ∀ op ∈ tail.head?, op.isBarrier = false) : w.atBarrier pe = false := by
  obtain ⟨todo, hprog, hsolo, -⟩ := h.prog
  unfold World.atBarrier
  rw [hprog]
  cases todo with
  | nil =>
    rw [List.nil_append]
    cases ht : tail.head? with
    | none => rfl
    | some op => exact htail op ht
  | cons op todo => exact (hsolo op List.mem_cons_self).isBarrier

/-- A step keeps the invariant, or everything in `ops` has been run and it is the first of `tail`. -/
theorem SoloInv.step {m : Mem ρ} {ops tail : List (Op ρ)} {a : Label} (hpe : pe < M.npes)
    (htail : ∀ op ∈ tail.head?, op.isBarrier = false) (h : SoloInv pe m ops tail w)
    (hs : step M w a = some w') : SoloInv pe m ops tail w' ∨ Undisturbed pe w' ∧
      w.toward pe = [] ∧ w.mem pe = solo m ops ∧ ∃ op rest w₁, tail = op :: rest ∧
        w.act pe op = some w₁ ∧ w' = { w₁ with prog := Function.update w.prog pe rest } := by
  obtain ⟨hothers, hcase⟩ := step_cases hpe h.undisturbed (h.not_atBarrier htail) hs
  obtain ⟨todo, hprog, hsolo, hmem⟩ := h.prog
  rcases hcase with ⟨hp, hm, hf⟩ | ⟨op, rest, w₁, -, hp, hact, rfl⟩ | ⟨p, hf, -, -⟩
  · refine Or.inl ⟨hothers, ?_, todo, hp.trans hprog, hsolo, hm ▸ hmem⟩
    rw [h.toward] at hf
    exact hf.eq_nil
  · cases todo with
    | nil => exact Or.inr ⟨hothers, h.toward, hmem, op, rest, w₁, hprog.symm.trans hp, hact, rfl⟩
    | cons op' todo =>
      obtain ⟨rfl, rfl⟩ := List.cons.inj (hp.symm.trans hprog)
      have hop := hsolo op List.mem_cons_self
      refine Or.inl ⟨hothers, ?_, todo, Function.update_self _ _ _,
        fun o ho => hsolo o (List.mem_cons_of_mem _ ho), ?_⟩
      · cases op with
        | copy dst src n =>
          obtain rfl := Option.some.inj hact
          exact h.toward
        | get t dst src n =>
          obtain rfl := Option.some.inj hact
          exact h.toward
        | _ => cases hop
      · rw [← hmem]
        cases op with
        | copy dst src n =>
          obtain rfl := Option.some.inj hact
          show solo (Function.update w.mem pe _ pe) todo = _
          rw [Function.update_self]
          rfl
        | get t dst src n =>
          obtain rfl : t = pe := hop
          obtain rfl := Option.some.inj hact
          show solo (Function.update w.mem t _ t) todo = _
          rw [Function.update_self]
          rfl
        | _ => cases hop
  · rw [h.toward] at hf
    cases hf.nil_eq

/-- The memory of an element after its copies and gets. -/
theorem mem_of_solo {ops : List (Op ρ)} (hpe : pe < M.npes) (h : Undisturbed pe w)
    (ht : w.toward pe = []) (hprog : w.prog pe = ops) (hops : ∀ op ∈ ops, op.Solo pe)
    (hexec : exec (step M) w ls = some w') (hdone : w'.prog pe = []) :
    w'.mem pe = solo (w.mem pe) ops := by
  have hinv : SoloInv pe (w.mem pe) ops [] w' := by
    refine exec_inv (I := SoloInv pe (w.mem pe) ops []) (fun u a u' hu hs => ?_)
      (SoloInv.start h ht (by rw [hprog, List.append_nil]) hops) hexec
    rcases hu.step hpe (by simp) hs with hu' | ⟨-, -, -, op, rest, w₁, hnil, -⟩
    · exact hu'
    · cases hnil
  obtain ⟨todo, hp, -, hmem⟩ := hinv.prog
  rw [hdone] at hp
  obtain ⟨rfl, -⟩ := List.append_eq_nil_iff.mp hp.symm
  exact hmem

/-- The operation moves no byte. -/
def Op.Idle : Op ρ → Prop
  | copy _ _ n => n = 0
  | put _ _ _ n => n = 0
  | get _ _ _ n => n = 0
  | _ => False

omit [DecidableEq ρ] in
theorem Op.Idle.isBarrier {op : Op ρ} (h : op.Idle) : op.isBarrier = false := by
  cases op with
  | barrier => cases h
  | _ => rfl

omit [DecidableEq ρ] in
theorem mem_toward_send {p p' : Put ρ} :
    p' ∈ (w.send p).toward pe ↔ p' ∈ w.toward pe ∨ p' = p ∧ p.pe = pe := by
  unfold World.toward World.send
  rw [List.mem_filter, List.mem_filter, List.mem_append, List.mem_singleton, or_and_right,
    decide_eq_true_iff]
  refine or_congr_right (and_congr_right fun heq => ?_)
  rw [heq]

/-- Nothing that moves a byte is to be run, or on its way to the element. -/
structure IdleInv (pe : ℕ) (m : Mem ρ) (w : World ρ) : Prop where
  undisturbed : Undisturbed pe w
  toward : ∀ p ∈ w.toward pe, p.bytes = []
  idle : ∀ op ∈ w.prog pe, op.Idle
  mem : w.mem pe = m

/-- What the element does itself moves nothing. -/
theorem IdleInv.act {m : Mem ρ} {op : Op ρ} {w₁ : World ρ} (h : IdleInv pe m w) (hop : op.Idle)
    (hact : w.act pe op = some w₁) : (∀ p ∈ w₁.toward pe, p.bytes = []) ∧ w₁.mem pe = m := by
  have hstore : ∀ (dst src : Ptr ρ) (t : ℕ),
      (w.store pe dst (read (w.mem t) src 0)).mem pe = m := by
    intro dst src t
    rw [← h.mem]
    exact (Function.update_self _ _ _).trans (write_read_zero _ _)
  cases op with
  | copy dst src n =>
    obtain rfl : n = 0 := hop
    obtain rfl := Option.some.inj hact
    exact ⟨h.toward, hstore dst src pe⟩
  | get t dst src n =>
    obtain rfl : n = 0 := hop
    obtain rfl := Option.some.inj hact
    exact ⟨h.toward, hstore dst src t⟩
  | put t dst src n =>
    obtain rfl : n = 0 := hop
    obtain rfl := Option.some.inj hact
    refine ⟨fun p hp => ?_, h.mem⟩
    rcases mem_toward_send.mp hp with hp | ⟨rfl, -⟩
    · exact h.toward p hp
    · rfl
  | _ => cases hop

theorem IdleInv.step {m : Mem ρ} {a : Label} (hpe : pe < M.npes) (h : IdleInv pe m w)
    (hs : OneSided.step M w a = some w') : IdleInv pe m w' := by
  have hidle : ∀ op ∈ w'.prog pe, op.Idle := fun op hop => h.idle op ((prog_suffix hs pe).subset hop)
  obtain ⟨hothers, hcase⟩ := step_cases hpe h.undisturbed
    (atBarrier_eq_false fun op hop => (h.idle op hop).isBarrier) hs
  rcases hcase with ⟨-, hm, hf⟩ | ⟨op, rest, w₁, -, hp, hact, rfl⟩ | ⟨p, hf, -, hm⟩
  · exact ⟨hothers, fun p hp => h.toward p (hf.subset hp), hidle, hm.trans h.mem⟩
  · obtain ⟨htoward, hmem⟩ := h.act (h.idle op (hp ▸ List.mem_cons_self)) hact
    exact ⟨hothers, htoward, hidle, hmem⟩
  · refine ⟨hothers, fun p' hp' => h.toward p' (hf.symm.subset (List.mem_cons_of_mem _ hp')), hidle,
      ?_⟩
    rw [hm, h.toward p (hf.symm.subset List.mem_cons_self), h.mem]
    exact write_nil

/-- The memory of an element that moves nothing. -/
theorem mem_of_idle (hpe : pe < M.npes) (h : Undisturbed pe w) (ht : w.toward pe = [])
    (hops : ∀ op ∈ w.prog pe, op.Idle) (hexec : exec (step M) w ls = some w') :
    w'.mem pe = w.mem pe := by
  have hstart : IdleInv pe (w.mem pe) w := by
    refine ⟨h, fun p hp => ?_, hops, rfl⟩
    rw [ht] at hp
    cases hp
  exact (exec_inv (fun _ _ _ hu hs => IdleInv.step hpe hu hs) hstart hexec).mem

/-! ## On its own -/

/-- All elements but `pe` have nothing to run. -/
def alone (mem : ℕ → Mem ρ) (pe : ℕ) (ops : List (Op ρ)) : World ρ :=
  ⟨mem, Function.update (fun _ => []) pe ops, [], fun _ _ => false⟩

omit [DecidableEq ρ] in
@[simp] theorem alone_prog (mem : ℕ → Mem ρ) (pe : ℕ) (ops : List (Op ρ)) :
    (alone mem pe ops).prog pe = ops := by
  show Function.update (fun _ => []) pe ops pe = ops
  rw [Function.update_self]

omit [DecidableEq ρ] in
theorem alone_prog_of_ne {i : ℕ} (hi : i ≠ pe) (mem : ℕ → Mem ρ) (ops : List (Op ρ)) :
    (alone mem pe ops).prog i = [] := by
  show Function.update (fun _ => []) pe ops i = []
  rw [Function.update_of_ne hi]

omit [DecidableEq ρ] in
theorem undisturbed_alone (mem : ℕ → Mem ρ) (pe : ℕ) (ops : List (Op ρ)) :
    Undisturbed pe (alone mem pe ops) := by
  intro i hi op hop
  rw [alone_prog_of_ne hi] at hop
  cases hop

theorem exists_run_alone (hpe : pe < M.npes) {ops : List (Op ρ)} (mem : ℕ → Mem ρ)
    (hops : ∀ op ∈ ops, op.Ok M ∧ op.isAwait = false ∧ op.isBarrier = false) :
    ∃ ls w', exec (step M) (alone mem pe ops) ls = some w' ∧ w'.Done := by
  have hmem : ∀ i, ∀ op ∈ (alone mem pe ops).prog i, i = pe ∧ op ∈ ops := by
    intro i op hop
    by_cases hi : i = pe
    · subst hi
      rw [alone_prog] at hop
      exact ⟨rfl, hop⟩
    · rw [alone_prog_of_ne hi] at hop
      cases hop
  have hrunnable : Runnable M (alone mem pe ops) 0 := by
    refine ⟨fun i op hop => ?_, fun i _ => ?_, fun i hi => alone_prog_of_ne (by omega) mem ops⟩
    · have hop := hops op (hmem i op hop).2
      exact ⟨hop.1, hop.2.1⟩
    · rw [List.countP_eq_zero]
      intro op hop
      rw [(hops op (hmem i op hop).2).2.2]
      exact Bool.false_ne_true
  exact exists_run_done hrunnable

/-! ## A put to itself -/

/-- The put is in flight, or has landed. -/
def Putting (pe : ℕ) (md : Mem ρ) (p : Put ρ) (w : World ρ) : Prop :=
  Undisturbed pe w ∧ w.prog pe = [] ∧
    ((w.toward pe = [p] ∧ w.mem pe = md) ∨
      (w.toward pe = [] ∧ w.mem pe = write md p.dst p.bytes))

theorem Putting.step {md : Mem ρ} {p : Put ρ} {a : Label} (hpe : pe < M.npes)
    (h : Putting pe md p w) (hs : step M w a = some w') : Putting pe md p w' := by
  obtain ⟨hothers, hprog, hwhere⟩ := h
  have hb : w.atBarrier pe = false := atBarrier_eq_false fun op hop => by
    rw [hprog] at hop
    cases hop
  obtain ⟨hothers', hcase⟩ := step_cases hpe hothers hb hs
  rcases hcase with ⟨hp, hm, hf⟩ | ⟨op, rest, w₁, -, hp, -, -⟩ | ⟨p', hf, hp, hm⟩
  · refine ⟨hothers', hp.trans hprog, ?_⟩
    rcases hwhere with ⟨htoward, hmem⟩ | ⟨htoward, hmem⟩
    · rw [htoward] at hf
      exact Or.inl ⟨List.perm_singleton.mp hf, hm.trans hmem⟩
    · rw [htoward] at hf
      exact Or.inr ⟨hf.eq_nil, hm.trans hmem⟩
  · rw [hprog] at hp
    cases hp
  · refine ⟨hothers', hp.trans hprog, ?_⟩
    rcases hwhere with ⟨htoward, hmem⟩ | ⟨htoward, -⟩
    · rw [htoward] at hf
      obtain ⟨rfl, hnil⟩ := List.cons.inj (List.singleton_perm.mp hf)
      rw [hmem] at hm
      exact Or.inr ⟨hnil.symm, hm⟩
    · rw [htoward] at hf
      cases hf.nil_eq

/-- The memory of an element that copies, puts to itself, and has this landed. -/
theorem mem_of_own_put {ops : List (Op ρ)} {dst src : Ptr ρ} {n : ℤ} (hpe : pe < M.npes)
    (h : Undisturbed pe w) (ht : w.toward pe = []) (hprog : w.prog pe = ops ++ [.put pe dst src n])
    (hops : ∀ op ∈ ops, op.Solo pe) (hexec : exec (step M) w ls = some w')
    (hdone : w'.prog pe = []) (hlanded : w'.toward pe = []) :
    Undisturbed pe w' ∧
      w'.mem pe = write (solo (w.mem pe) ops) dst (read (solo (w.mem pe) ops) src n) := by
  have hinv : SoloInv pe (w.mem pe) ops [.put pe dst src n] w' ∨
      Putting pe (solo (w.mem pe) ops) ⟨pe, dst, read (solo (w.mem pe) ops) src n⟩ w' := by
    refine exec_inv (I := fun u => SoloInv pe (w.mem pe) ops [.put pe dst src n] u ∨
      Putting pe (solo (w.mem pe) ops) ⟨pe, dst, read (solo (w.mem pe) ops) src n⟩ u)
      (fun u a u' hu hs => ?_) (Or.inl (SoloInv.start h ht hprog hops)) hexec
    rcases hu with hu | hu
    · rcases hu.step hpe (by simp [Op.isBarrier]) hs with
        hu' | ⟨hothers, htoward, hmem, op, rest, w₁, htail, hact, rfl⟩
      · exact Or.inl hu'
      · obtain ⟨rfl, rfl⟩ := List.cons.inj htail
        obtain rfl := Option.some.inj hact
        refine Or.inr ⟨hothers, Function.update_self _ _ _, Or.inl ⟨?_, hmem⟩⟩
        show (u.flight ++ [_]).filter _ = _
        rw [hmem, List.filter_append]
        change u.toward pe ++ _ = _
        rw [htoward]
        simp
    · exact Or.inr (hu.step hpe hs)
  rcases hinv with hinv | ⟨hothers, -, ⟨htoward, -⟩ | ⟨-, hmem⟩⟩
  · obtain ⟨todo, hp, -, -⟩ := hinv.prog
    rw [hdone] at hp
    cases (List.append_eq_nil_iff.mp hp.symm).2
  · rw [hlanded] at htoward
    cases htoward
  · exact ⟨hothers, hmem⟩

end Kit.OneSided
