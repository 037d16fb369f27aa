import MpiToShmem.Kit.OneSided

/-!
# Programs in supersteps

Between two barriers every element runs a list of copies and puts. When no put lands where another
lands or where its target works itself, what memory holds at the next barrier does not depend on the
order in which things happen.

1. `localRun` is what an element does by itself, `After` what one superstep does to all memory.
2. `RaceFree`: the operations of a superstep do not get into each other's way.
3. `SuperInv` is the invariant within a superstep; `follows_of_run`: a run to the end follows the
   supersteps.
-/

namespace Kit.OneSided

variable {ρ : Type} [DecidableEq ρ]

/-! ## One superstep -/

/-- The memory of an element after the operations, and what it puts. -/
def localRun (m : Mem ρ) : List (Op ρ) → Mem ρ × List (Put ρ)
  | [] => (m, [])
  | .copy dst src n :: l => localRun (write m dst (read m src n)) l
  | .put t dst src n :: l => ((localRun m l).1, ⟨t, dst, read m src n⟩ :: (localRun m l).2)
  | _ :: l => localRun m l

/-- Memory before and after a superstep: what was put is there, and elsewhere is what the element
has left there. -/
structure After (npes : ℕ) (seg : ℕ → List (Op ρ)) (m m' : ℕ → Mem ρ) : Prop where
  hit : ∀ i < npes, ∀ p ∈ (localRun (m i) (seg i)).2, ∀ (k : ℕ) (h : k < p.bytes.length),
    m' p.pe (p.dst + (k : ℤ)) = p.bytes[k]
  miss : ∀ t < npes, ∀ q, (∀ i < npes, ∀ p ∈ (localRun (m i) (seg i)).2, p.pe = t →
    ¬ p.dst.Covers p.bytes.length q) → m' t q = (localRun (m t) (seg t)).1 q

/-- The places have nothing in common. -/
def Apart (p : Ptr ρ) (n : ℤ) (p' : Ptr ρ) (n' : ℤ) : Prop := ∀ q, p.Covers n q → ¬ p'.Covers n' q

omit [DecidableEq ρ] in
theorem Apart.symm {p p' : Ptr ρ} {n n' : ℤ} (h : Apart p n p' n') : Apart p' n' p n :=
  fun q hq hq' => h q hq' hq

omit [DecidableEq ρ] in
theorem apart_zero (p p' : Ptr ρ) (n : ℤ) : Apart p 0 p' n := by
  rintro q ⟨-, hle, hlt⟩
  omega

/-- Where a put lands. -/
def Op.target : Op ρ → Option (ℕ × Ptr ρ × ℤ)
  | put t dst _ n => some (t, dst, n)
  | _ => none

/-- Where the element itself reads and writes. -/
def Op.uses : Op ρ → List (Ptr ρ × ℤ)
  | copy dst src n => [(dst, n), (src, n)]
  | put _ _ src n => [(src, n)]
  | _ => []

def Op.isLocal : Op ρ → Bool
  | copy _ _ _ => true
  | put _ _ _ _ => true
  | _ => false

/-- Two puts of one element do not meet. -/
def Op.PutsApart (op op' : Op ρ) : Prop := ∀ t dst n dst' n',
  op.target = some (t, dst, n) → op'.target = some (t, dst', n') → Apart dst n dst' n'

/-- What the operation puts to `j` does not land where the other one works. -/
def Op.Avoids (j : ℕ) (op op' : Op ρ) : Prop := ∀ dst n,
  op.target = some (j, dst, n) → ∀ u ∈ op'.uses, Apart dst n u.1 u.2

/-- The operations of a superstep do not get into each other's way; what an element puts to itself
may land where it has worked before. -/
structure RaceFree (npes : ℕ) (seg : ℕ → List (Op ρ)) : Prop where
  isLocal : ∀ i < npes, ∀ op ∈ seg i, op.isLocal = true
  uses : ∀ i < npes, ∀ j < npes, i ≠ j → ∀ op ∈ seg i, ∀ op' ∈ seg j, op.Avoids j op'
  later : ∀ i < npes, (seg i).Pairwise (Op.Avoids i)
  puts : ∀ i < npes, ∀ j < npes, i ≠ j → ∀ op ∈ seg i, ∀ op' ∈ seg j, op.PutsApart op'
  own : ∀ i < npes, (seg i).Pairwise Op.PutsApart

variable {npes : ℕ} {seg : ℕ → List (Op ρ)} {m : ℕ → Mem ρ}

/-- What is put comes from an operation. -/
theorem exists_op_of_put {m : Mem ρ} {l : List (Op ρ)} {p : Put ρ} (h : p ∈ (localRun m l).2) :
    ∃ op ∈ l, ∃ n : ℤ, op.target = some (p.pe, p.dst, n) ∧ p.bytes.length = n.toNat := by
  induction l generalizing m with
  | nil => cases h
  | cons op l ih =>
    have hrest : ∀ {m : Mem ρ}, p ∈ (localRun m l).2 → ∃ op' ∈ op :: l, ∃ n : ℤ,
        op'.target = some (p.pe, p.dst, n) ∧ p.bytes.length = n.toNat := by
      intro m hp
      obtain ⟨op', hop', hn⟩ := ih hp
      exact ⟨op', List.mem_cons_of_mem _ hop', hn⟩
    cases op with
    | put t dst src n =>
      rcases List.mem_cons.mp h with rfl | h
      · exact ⟨_, List.mem_cons_self, n, rfl, length_read⟩
      · exact hrest h
    | _ => exact hrest h

theorem apart_of_avoids {m : Mem ρ} {l : List (Op ρ)} {j : ℕ} {op : Op ρ}
    (h : ∀ op' ∈ l, op'.Avoids j op) {p : Put ρ} (hp : p ∈ (localRun m l).2) (hpj : p.pe = j)
    {u : Ptr ρ × ℤ} (hu : u ∈ op.uses) : Apart p.dst p.bytes.length u.1 u.2 := by
  obtain ⟨op', hop', n, htarget, hlen⟩ := exists_op_of_put hp
  intro q hq
  rw [hlen] at hq
  rw [hpj] at htarget
  exact h op' hop' p.dst n htarget u hu q (covers_toNat hq)

theorem localRun_append (m : Mem ρ) (l l' : List (Op ρ)) :
    localRun m (l ++ l') = ((localRun (localRun m l).1 l').1,
      (localRun m l).2 ++ (localRun (localRun m l).1 l').2) := by
  induction l generalizing m with
  | nil => rfl
  | cons op l ih =>
    cases op with
    | copy dst src n => exact ih _
    | put t dst src n =>
      show ((localRun m (l ++ l')).1, _ :: (localRun m (l ++ l')).2) = _
      rw [ih]
      rfl
    | _ => exact ih m

/-- How much is put does not depend on memory. -/
theorem length_puts (m m' : Mem ρ) (l : List (Op ρ)) :
    (localRun m l).2.length = (localRun m' l).2.length := by
  induction l generalizing m m' with
  | nil => rfl
  | cons op l ih =>
    cases op with
    | copy dst src n => exact ih _ _
    | put t dst src n => exact congrArg Nat.succ (ih m m')
    | _ => exact ih m m'

/-- Of one element: what it puts to one target does not meet, unless it is the same. -/
theorem puts_own {l : List (Op ρ)} (h : l.Pairwise Op.PutsApart) {m : Mem ρ} {p p' : Put ρ}
    (hp : p ∈ (localRun m l).2) (hp' : p' ∈ (localRun m l).2) (ht : p.pe = p'.pe) :
    p = p' ∨ Apart p.dst p.bytes.length p'.dst p'.bytes.length := by
  induction l generalizing m with
  | nil => cases hp
  | cons op l ih =>
    obtain ⟨hall, hrest⟩ := List.pairwise_cons.mp h
    cases op with
    | put t dst src n =>
      have hfirst : ∀ p' ∈ (localRun m l).2, t = p'.pe →
          Apart dst (read m src n).length p'.dst p'.bytes.length := by
        intro p' hp' ht
        obtain ⟨op', hop', n', htarget, hlen⟩ := exists_op_of_put hp'
        intro q hq hq'
        rw [length_read] at hq
        rw [hlen] at hq'
        exact hall op' hop' t dst n p'.dst n' rfl (ht ▸ htarget) q (covers_toNat hq)
          (covers_toNat hq')
      rcases List.mem_cons.mp hp with rfl | hp
      · rcases List.mem_cons.mp hp' with rfl | hp'
        · exact Or.inl rfl
        · exact Or.inr (hfirst p' hp' ht)
      · rcases List.mem_cons.mp hp' with rfl | hp'
        · exact Or.inr (hfirst p hp ht.symm).symm
        · exact ih hrest hp hp'
    | _ => exact ih hrest hp hp'

theorem RaceFree.put_put (h : RaceFree npes seg) {i j : ℕ} (hi : i < npes) (hj : j < npes)
    {p p' : Put ρ} (hp : p ∈ (localRun (m i) (seg i)).2) (hp' : p' ∈ (localRun (m j) (seg j)).2)
    (ht : p.pe = p'.pe) : p = p' ∨ Apart p.dst p.bytes.length p'.dst p'.bytes.length := by
  by_cases hij : i = j
  · subst hij
    exact puts_own (h.own i hi) hp hp' ht
  · obtain ⟨op, hop, n, htarget, hlen⟩ := exists_op_of_put hp
    obtain ⟨op', hop', n', htarget', hlen'⟩ := exists_op_of_put hp'
    refine Or.inr fun q hq hq' => ?_
    rw [hlen] at hq
    rw [hlen'] at hq'
    exact h.puts i hi j hj hij op hop op' hop' p.pe p.dst n p'.dst n' htarget (ht ▸ htarget') q
      (covers_toNat hq) (covers_toNat hq')

omit [DecidableEq ρ] in
/-- Copies do not get into each other's way. -/
theorem raceFree_of_copies (h : ∀ i < npes, ∀ op ∈ seg i, op.isLocal = true ∧ op.target = none) :
    RaceFree npes seg where
  isLocal i hi op hop := (h i hi op hop).1
  uses i hi _ _ _ op hop _ _ _ _ ht := by
    rw [(h i hi op hop).2] at ht
    cases ht
  later i hi := List.pairwise_of_forall_mem_list fun op hop _ _ _ _ ht => by
    rw [(h i hi op hop).2] at ht
    cases ht
  puts i hi _ _ _ op hop _ _ t dst n _ _ ht := by
    rw [(h i hi op hop).2] at ht
    cases ht
  own i hi := List.pairwise_of_forall_mem_list fun op hop _ _ t dst n _ _ ht => by
    rw [(h i hi op hop).2] at ht
    cases ht

theorem After.eq_of_copies {m' m : ℕ → Mem ρ} (h : After npes seg m m')
    (hnone : ∀ i < npes, ∀ op ∈ seg i, op.target = none) {t : ℕ} (ht : t < npes) :
    m' t = (localRun (m t) (seg t)).1 := by
  funext q
  refine h.miss t ht q fun i hi p hp => ?_
  obtain ⟨op, hop, n, htarget, -⟩ := exists_op_of_put hp
  rw [hnone i hi op hop] at htarget
  cases htarget

/-! ## Within a superstep -/

/-- Part of a superstep has been run: `md` is the memory of the elements without what landed there,
`todo` what they still have to run, `sent` what they have put, and `landed` what has arrived. -/
structure SuperInv (npes : ℕ) (seg tail : ℕ → List (Op ρ)) (m md : ℕ → Mem ρ)
    (todo : ℕ → List (Op ρ)) (sent : ℕ → List (Put ρ)) (landed : List (Put ρ)) (w : World ρ) :
    Prop where
  prog : ∀ i < npes, w.prog i = todo i ++ tail i
  suffix : ∀ i < npes, todo i <:+ seg i
  split : ∀ i < npes, localRun (m i) (seg i) =
    ((localRun (md i) (todo i)).1, sent i ++ (localRun (md i) (todo i)).2)
  there : ∀ i < npes, ∀ p ∈ sent i, p ∈ landed ∨ p ∈ w.flight
  origin : ∀ p, p ∈ landed ∨ p ∈ w.flight → ∃ i < npes, p ∈ sent i
  hit : ∀ p ∈ landed, ∀ (k : ℕ) (h : k < p.bytes.length), w.mem p.pe (p.dst + (k : ℤ)) = p.bytes[k]
  miss : ∀ t < npes, ∀ q, (∀ p ∈ landed, p.pe = t → ¬ p.dst.Covers p.bytes.length q) →
    w.mem t q = md t q

variable {tail : ℕ → List (Op ρ)} {md : ℕ → Mem ρ} {todo : ℕ → List (Op ρ)}
  {sent : ℕ → List (Put ρ)} {landed : List (Put ρ)} {w : World ρ}

theorem superInv_start (h : ∀ i < npes, w.prog i = seg i ++ tail i) (hf : w.flight = []) :
    SuperInv npes seg tail w.mem w.mem seg (fun _ => []) [] w where
  prog := h
  suffix _ _ := List.suffix_rfl
  split _ _ := rfl
  there _ _ _ hp := absurd hp List.not_mem_nil
  origin p hp := by
    rw [hf] at hp
    rcases hp with hp | hp <;> cases hp
  hit _ hp := absurd hp List.not_mem_nil
  miss _ _ _ _ := rfl

theorem SuperInv.mem_puts (h : SuperInv npes seg tail m md todo sent landed w) {i : ℕ}
    (hi : i < npes) {p : Put ρ} (hp : p ∈ sent i) : p ∈ (localRun (m i) (seg i)).2 := by
  rw [h.split i hi]
  exact List.mem_append_left _ hp

/-- What an element has put comes from the operations that it has run. -/
theorem SuperInv.sent_eq (h : SuperInv npes seg tail m md todo sent landed w) {i : ℕ}
    (hi : i < npes) : ∃ done, seg i = done ++ todo i ∧ sent i = (localRun (m i) done).2 := by
  obtain ⟨done, hdone⟩ := h.suffix i hi
  refine ⟨done, hdone.symm, ?_⟩
  have hputs := congrArg Prod.snd (h.split i hi)
  rw [← hdone, localRun_append] at hputs
  exact (List.append_inj_left' hputs (length_puts _ _ _)).symm

/-- Where an element works nothing has landed. -/
theorem SuperInv.untouched (h : SuperInv npes seg tail m md todo sent landed w)
    (hrf : RaceFree npes seg) {t : ℕ} (ht : t < npes) {op : Op ρ} (hop : op ∈ todo t)
    {u : Ptr ρ × ℤ} (hu : u ∈ op.uses) {q : Ptr ρ} (hq : u.1.Covers u.2 q) {p : Put ρ}
    (hp : p ∈ landed) (hpt : p.pe = t) : ¬ p.dst.Covers p.bytes.length q := by
  obtain ⟨i, hi, hsent⟩ := h.origin p (Or.inl hp)
  have hapart : Apart p.dst p.bytes.length u.1 u.2 := by
    by_cases hit : i = t
    · subst hit
      obtain ⟨done, hseg, hputs⟩ := h.sent_eq ht
      have hlater := hrf.later i ht
      rw [hseg, List.pairwise_append] at hlater
      exact apart_of_avoids (fun op' hop' => hlater.2.2 op' hop' op hop) (hputs ▸ hsent) hpt hu
    · exact apart_of_avoids (fun op' hop' => hrf.uses i hi t ht hit op' hop' op
        ((h.suffix t ht).subset hop)) (h.mem_puts hi hsent) hpt hu
  exact fun hc => hapart q hc hq

/-- What it reads there is its own. -/
theorem SuperInv.read_eq (h : SuperInv npes seg tail m md todo sent landed w)
    (hrf : RaceFree npes seg) {t : ℕ} (ht : t < npes) {op : Op ρ} (hop : op ∈ todo t)
    {src : Ptr ρ} {n : ℤ} (hu : (src, n) ∈ op.uses) : read (w.mem t) src n = read (md t) src n :=
  read_congr fun _ hq => h.miss t ht _ fun _ hp hpt => h.untouched hrf ht hop hu hq hp hpt

/-- An element goes on with its program. -/
theorem SuperInv.next (h : SuperInv npes seg tail m md todo sent landed w) {i : ℕ} (hi : i < npes)
    {op : Op ρ} {rest : List (Op ρ)} (htodo : todo i = op :: rest) :
    (∀ j < npes, Function.update w.prog i (rest ++ tail i) j =
      Function.update todo i rest j ++ tail j) ∧
      ∀ j < npes, Function.update todo i rest j <:+ seg j := by
  refine ⟨fun j hj => ?_, fun j hj => ?_⟩
  · by_cases he : j = i
    · subst he
      rw [Function.update_self, Function.update_self]
    · rw [Function.update_of_ne he, Function.update_of_ne he]
      exact h.prog j hj
  · by_cases he : j = i
    · subst he
      rw [Function.update_self]
      exact (List.suffix_cons op rest).trans (htodo ▸ h.suffix j hj)
    · rw [Function.update_of_ne he]
      exact h.suffix j hj

theorem SuperInv.copy (h : SuperInv npes seg tail m md todo sent landed w)
    (hrf : RaceFree npes seg) {i : ℕ} (hi : i < npes) {dst src : Ptr ρ} {n : ℤ}
    {rest : List (Op ρ)} (htodo : todo i = .copy dst src n :: rest) :
    SuperInv npes seg tail m (Function.update md i (write (md i) dst (read (md i) src n)))
      (Function.update todo i rest) sent landed
      { w.store i dst (read (w.mem i) src n) with
        prog := Function.update w.prog i (rest ++ tail i) } := by
  have hop : Op.copy dst src n ∈ todo i := htodo ▸ List.mem_cons_self
  have hread := h.read_eq hrf hi hop (List.mem_cons_of_mem _ List.mem_cons_self)
  obtain ⟨hprog, hsuffix⟩ := h.next hi htodo
  refine ⟨hprog, hsuffix, fun j hj => ?_, h.there, h.origin, fun p hp k hk => ?_,
    fun t ht q hq => ?_⟩
  · by_cases he : j = i
    · subst he
      rw [Function.update_self, Function.update_self, h.split j hj, htodo]
      rfl
    · rw [Function.update_of_ne he, Function.update_of_ne he]
      exact h.split j hj
  · show Function.update w.mem i _ p.pe (p.dst + (k : ℤ)) = _
    by_cases he : p.pe = i
    · rw [he, Function.update_self, write_of_not_covers, ← he]
      · exact h.hit p hp k hk
      · intro hc
        rw [length_read] at hc
        exact h.untouched hrf hi hop List.mem_cons_self (covers_toNat hc) hp he
          (covers_iff.mpr ⟨k, by omega, rfl⟩)
    · rw [Function.update_of_ne he]
      exact h.hit p hp k hk
  · show Function.update w.mem i _ t q = Function.update md i _ t q
    by_cases he : t = i
    · subst he
      rw [Function.update_self, Function.update_self, hread]
      by_cases hc : dst.Covers (read (md t) src n).length q
      · obtain ⟨k, hk, rfl⟩ := covers_iff.mp hc
        rw [write_add k (by omega), write_add k (by omega)]
      · rw [write_of_not_covers hc, write_of_not_covers hc]
        exact h.miss t ht q hq
    · rw [Function.update_of_ne he, Function.update_of_ne he]
      exact h.miss t ht q hq

theorem SuperInv.put (h : SuperInv npes seg tail m md todo sent landed w)
    (hrf : RaceFree npes seg) {i t : ℕ} (hi : i < npes) {dst src : Ptr ρ} {n : ℤ}
    {rest : List (Op ρ)} (htodo : todo i = .put t dst src n :: rest) :
    SuperInv npes seg tail m md (Function.update todo i rest)
      (Function.update sent i (sent i ++ [⟨t, dst, read (md i) src n⟩])) landed
      { w.send ⟨t, dst, read (w.mem i) src n⟩ with
        prog := Function.update w.prog i (rest ++ tail i) } := by
  have hop : Op.put t dst src n ∈ todo i := htodo ▸ List.mem_cons_self
  have hread := h.read_eq hrf hi hop List.mem_cons_self
  obtain ⟨hprog, hsuffix⟩ := h.next hi htodo
  rw [hread]
  refine ⟨hprog, hsuffix, fun j hj => ?_, fun j hj p hp => ?_, fun p hp => ?_, h.hit, h.miss⟩
  · by_cases he : j = i
    · subst he
      rw [Function.update_self, Function.update_self, h.split j hj, htodo, List.append_assoc]
      rfl
    · rw [Function.update_of_ne he, Function.update_of_ne he]
      exact h.split j hj
  · show p ∈ landed ∨ p ∈ w.flight ++ _
    rw [List.mem_append, ← or_assoc]
    by_cases he : j = i
    · subst he
      rw [Function.update_self, List.mem_append] at hp
      rcases hp with hp | hp
      · exact Or.inl (h.there j hj p hp)
      · exact Or.inr hp
    · rw [Function.update_of_ne he] at hp
      exact Or.inl (h.there j hj p hp)
  · change p ∈ landed ∨ p ∈ w.flight ++ _ at hp
    rw [List.mem_append, ← or_assoc] at hp
    rcases hp with hp | hp
    · obtain ⟨j, hj, hsent⟩ := h.origin p hp
      refine ⟨j, hj, ?_⟩
      by_cases he : j = i
      · subst he
        rw [Function.update_self]
        exact List.mem_append_left _ hsent
      · rwa [Function.update_of_ne he]
    · refine ⟨i, hi, ?_⟩
      rw [Function.update_self]
      exact List.mem_append_right _ hp

theorem SuperInv.land (h : SuperInv npes seg tail m md todo sent landed w)
    (hrf : RaceFree npes seg) {k : ℕ} {p : Put ρ} (hk : w.flight[k]? = some p) :
    SuperInv npes seg tail m md todo sent (landed ++ [p])
      ({ w with flight := w.flight.eraseIdx k }.store p.pe p.dst p.bytes) := by
  have hp : p ∈ w.flight := List.mem_of_getElem? hk
  obtain ⟨i, hi, hsent⟩ := h.origin p (Or.inr hp)
  refine ⟨h.prog, h.suffix, h.split, fun j hj p' hp' => ?_, fun p' hp' => ?_,
    fun p' hp' j hj => ?_, fun t ht q hq => ?_⟩
  · show p' ∈ landed ++ [p] ∨ p' ∈ w.flight.eraseIdx k
    rcases h.there j hj p' hp' with hl | hl
    · exact Or.inl (List.mem_append_left _ hl)
    · by_cases he : p' = p
      · exact Or.inl (List.mem_append_right _ (List.mem_singleton.mpr he))
      · refine Or.inr ?_
        obtain ⟨l, hl'⟩ := List.getElem?_of_mem hl
        refine List.mem_eraseIdx_iff_getElem?.mpr ⟨l, ?_, hl'⟩
        rintro rfl
        rw [hk] at hl'
        exact he (Option.some.inj hl').symm
  · change p' ∈ landed ++ [p] ∨ p' ∈ w.flight.eraseIdx k at hp'
    rcases hp' with hp' | hp'
    · rcases List.mem_append.mp hp' with hp' | hp'
      · exact h.origin p' (Or.inl hp')
      · rw [List.mem_singleton.mp hp']
        exact ⟨i, hi, hsent⟩
    · exact h.origin p' (Or.inr (List.mem_of_mem_eraseIdx hp'))
  · show Function.update w.mem p.pe _ p'.pe (p'.dst + (j : ℤ)) = _
    by_cases heq : p' = p
    · subst heq
      rw [Function.update_self, write_add j hj]
    · have hold : p' ∈ landed := by
        rcases List.mem_append.mp hp' with hp' | hp'
        · exact hp'
        · exact absurd (List.mem_singleton.mp hp') heq
      by_cases he : p'.pe = p.pe
      · obtain ⟨i', hi', hsent'⟩ := h.origin p' (Or.inl hold)
        have hapart := (hrf.put_put hi' hi (h.mem_puts hi' hsent') (h.mem_puts hi hsent)
          he).resolve_left heq
        rw [he, Function.update_self, write_of_not_covers, ← he]
        · exact h.hit p' hold j hj
        · exact hapart _ (covers_iff.mpr ⟨j, by omega, rfl⟩)
      · rw [Function.update_of_ne he]
        exact h.hit p' hold j hj
  · show Function.update w.mem p.pe _ t q = md t q
    have hold := h.miss t ht q fun p' hp' => hq p' (List.mem_append_left _ hp')
    by_cases he : t = p.pe
    · subst he
      rw [Function.update_self, write_of_not_covers]
      · exact hold
      · exact hq p (List.mem_append_right _ (List.mem_singleton.mpr rfl)) rfl
    · rw [Function.update_of_ne he]
      exact hold

/-- At the end of the superstep. -/
theorem SuperInv.after (h : SuperInv npes seg tail m md todo sent landed w)
    (htodo : ∀ i < npes, todo i = []) (hf : w.flight = []) : After npes seg m w.mem := by
  have hputs : ∀ i < npes, localRun (m i) (seg i) = (md i, sent i) := by
    intro i hi
    rw [h.split i hi, htodo i hi]
    show (md i, sent i ++ []) = _
    rw [List.append_nil]
  have hlanded : ∀ i < npes, ∀ p ∈ sent i, p ∈ landed := by
    intro i hi p hp
    rcases h.there i hi p hp with hl | hl
    · exact hl
    · rw [hf] at hl
      cases hl
  constructor
  · intro i hi p hp
    rw [hputs i hi] at hp
    exact h.hit p (hlanded i hi p hp)
  · intro t ht q hq
    rw [hputs t ht]
    refine h.miss t ht q fun p hp => ?_
    obtain ⟨i, hi, hsent⟩ := h.origin p (Or.inl hp)
    refine hq i hi p ?_
    rw [hputs i hi]
    exact hsent

/-! ## Runs -/

/-- The program of an element, with barriers between the supersteps. -/
def joinSteps (i : ℕ) : List (ℕ → List (Op ρ)) → List (Op ρ)
  | [] => []
  | [seg] => seg i
  | seg :: segs => seg i ++ .barrier :: joinSteps i segs

/-- Memory after the supersteps. -/
def Follows (npes : ℕ) : List (ℕ → List (Op ρ)) → (ℕ → Mem ρ) → (ℕ → Mem ρ) → Prop
  | [], m, m' => m = m'
  | seg :: segs, m, m' => ∃ m₁, After npes seg m m₁ ∧ Follows npes segs m₁ m'

/-- What follows a superstep in the program. -/
def tailOf (segs : List (ℕ → List (Op ρ))) (i : ℕ) : List (Op ρ) :=
  match segs with
  | [] => []
  | segs => .barrier :: joinSteps i segs

omit [DecidableEq ρ] in
theorem joinSteps_cons (i : ℕ) (seg : ℕ → List (Op ρ)) (segs : List (ℕ → List (Op ρ))) :
    joinSteps i (seg :: segs) = seg i ++ tailOf segs i := by
  cases segs with
  | nil => exact (List.append_nil _).symm
  | cons => rfl

variable {M : Machine ρ} {w' : World ρ} {ls : List Label} {segs : List (ℕ → List (Op ρ))}

omit [DecidableEq ρ] in
theorem Op.not_waiting_of_isLocal {op : Op ρ} (h : op.isLocal = true) :
    op.isAwait = false ∧ op.isBarrier = false := by
  cases op with
  | copy => exact ⟨rfl, rfl⟩
  | put => exact ⟨rfl, rfl⟩
  | _ => cases h

omit [DecidableEq ρ] in
theorem mem_joinSteps {i : ℕ} {op : Op ρ} (h : op ∈ joinSteps i segs) :
    op = .barrier ∨ ∃ s ∈ segs, op ∈ s i := by
  induction segs with
  | nil => cases h
  | cons seg segs ih =>
    rw [joinSteps_cons] at h
    rcases List.mem_append.mp h with h | h
    · exact Or.inr ⟨seg, List.mem_cons_self, h⟩
    · cases segs with
      | nil => cases h
      | cons seg' segs =>
        rcases List.mem_cons.mp h with h | h
        · exact Or.inl h
        · exact (ih h).imp_right fun ⟨s, hs, hop⟩ => ⟨s, List.mem_cons_of_mem _ hs, hop⟩

omit [DecidableEq ρ] in
theorem mem_joinSteps_of_mem {i : ℕ} {op : Op ρ} {s : ℕ → List (Op ρ)} (hs : s ∈ segs)
    (hop : op ∈ s i) : op ∈ joinSteps i segs := by
  induction segs with
  | nil => cases hs
  | cons seg segs ih =>
    rw [joinSteps_cons]
    rcases List.mem_cons.mp hs with rfl | hs
    · exact List.mem_append_left _ hop
    · apply List.mem_append_right
      cases segs with
      | nil => cases hs
      | cons seg' segs => exact List.mem_cons_of_mem _ (ih hs)

omit [DecidableEq ρ] in
theorem countP_joinSteps {i : ℕ} (h : ∀ s ∈ seg :: segs, ∀ op ∈ s i, op.isBarrier = false) :
    (joinSteps i (seg :: segs)).countP Op.isBarrier = segs.length := by
  have hseg : ∀ s ∈ seg :: segs, (s i).countP Op.isBarrier = 0 := by
    intro s hs
    rw [List.countP_eq_zero]
    intro op hop
    rw [h s hs op hop]
    exact Bool.false_ne_true
  induction segs generalizing seg with
  | nil => exact hseg seg List.mem_cons_self
  | cons seg' segs ih =>
    show (seg i ++ .barrier :: joinSteps i (seg' :: segs)).countP Op.isBarrier = _
    rw [List.countP_append, hseg seg List.mem_cons_self, List.countP_cons_of_pos rfl,
      ih (fun s hs => h s (List.mem_cons_of_mem _ hs))
        (fun s hs => hseg s (List.mem_cons_of_mem _ hs)), zero_add, List.length_cons]

omit [DecidableEq ρ] in
/-- Programs in supersteps can be run to their end. -/
theorem runnable_joinSteps (hprog : ∀ i < M.npes, w.prog i = joinSteps i (seg :: segs))
    (hout : ∀ i, M.npes ≤ i → w.prog i = [])
    (hok : ∀ s ∈ seg :: segs, ∀ i < M.npes, ∀ op ∈ s i, op.Ok M ∧ op.isLocal = true) :
    Runnable M w segs.length := by
  refine ⟨fun i op hop => ?_, fun i hi => ?_, hout⟩
  · by_cases hi : i < M.npes
    · rw [hprog i hi] at hop
      rcases mem_joinSteps hop with rfl | ⟨s, hs, hop⟩
      · exact ⟨trivial, rfl⟩
      · obtain ⟨hop, hlocal⟩ := hok s hs i hi op hop
        exact ⟨hop, (Op.not_waiting_of_isLocal hlocal).1⟩
    · rw [hout i (by omega)] at hop
      cases hop
  · rw [hprog i hi]
    exact countP_joinSteps fun s hs op hop =>
      (Op.not_waiting_of_isLocal (hok s hs i hi op hop).2).2

/-- An element that has an operation of the superstep left is at it. -/
theorem SuperInv.head (h : SuperInv npes seg (tailOf segs) m md todo sent landed w)
    (hrf : RaceFree npes seg) {i : ℕ} (hi : i < npes) {op : Op ρ} {rest : List (Op ρ)}
    (hp : w.prog i = op :: rest) (hb : op.isBarrier = false) :
    ∃ l, todo i = op :: l ∧ rest = l ++ tailOf segs i ∧ op.isLocal = true := by
  have hprog := h.prog i hi
  rw [hp] at hprog
  cases htodo : todo i with
  | nil =>
    rw [htodo] at hprog
    cases segs with
    | nil => cases hprog
    | cons =>
      obtain ⟨rfl, -⟩ := List.cons.inj hprog
      cases hb
  | cons op' l =>
    rw [htodo] at hprog
    obtain ⟨rfl, rfl⟩ := List.cons.inj hprog
    refine ⟨l, rfl, rfl, hrf.isLocal i hi op ((h.suffix i hi).subset ?_)⟩
    rw [htodo]
    exact List.mem_cons_self

theorem SuperInv.step_run (h : SuperInv M.npes seg (tailOf segs) m md todo sent landed w)
    (hrf : RaceFree M.npes seg) {i : ℕ} (hs : step M w (.run i) = some w') :
    ∃ md todo sent, SuperInv M.npes seg (tailOf segs) m md todo sent landed w' := by
  obtain ⟨op, rest, w₁, hprog, hi, -, hact, rfl⟩ := step_run_eq_some hs
  have hb : op.isBarrier = false := by
    cases op with
    | barrier => cases hact
    | _ => rfl
  obtain ⟨l, htodo, rfl, hlocal⟩ := h.head hrf hi hprog hb
  cases op with
  | copy dst src n =>
    obtain rfl := Option.some.inj hact
    exact ⟨_, _, _, h.copy hrf hi htodo⟩
  | put t dst src n =>
    obtain rfl := Option.some.inj hact
    exact ⟨_, _, _, h.put hrf hi htodo⟩
  | _ => cases hlocal

/-- All elements at the barrier have done with the superstep. -/
theorem SuperInv.step_barrier (h : SuperInv M.npes seg (tailOf segs) m md todo sent landed w)
    (hrf : RaceFree M.npes seg) (hpos : 0 < M.npes) (hs : step M w .barrier = some w') :
    ∃ seg' segs', segs = seg' :: segs' ∧ After M.npes seg m w.mem ∧ w'.mem = w.mem ∧
      w'.flight = [] ∧ ∀ i < M.npes, w'.prog i = seg' i ++ tailOf segs' i := by
  obtain ⟨hat, hf, rfl⟩ := step_barrier_eq_some hs
  have htodo : ∀ i < M.npes, todo i = [] := by
    intro i hi
    obtain ⟨rest, hrest⟩ := prog_of_atBarrier (hat i hi)
    rw [h.prog i hi] at hrest
    cases ht : todo i with
    | nil => rfl
    | cons op l =>
      have hlocal := hrf.isLocal i hi op ((h.suffix i hi).subset (by
        rw [ht]
        exact List.mem_cons_self))
      rw [ht] at hrest
      obtain ⟨rfl, -⟩ := List.cons.inj hrest
      cases hlocal
  cases segs with
  | nil =>
    obtain ⟨rest, hrest⟩ := prog_of_atBarrier (hat 0 hpos)
    rw [h.prog 0 hpos, htodo 0 hpos] at hrest
    cases hrest
  | cons seg' segs' =>
    refine ⟨seg', segs', rfl, h.after htodo hf, rfl, hf, fun i hi => ?_⟩
    dsimp only
    rw [if_pos hi, h.prog i hi, htodo i hi, ← joinSteps_cons]
    rfl

theorem follows_append {segs' : List (ℕ → List (Op ρ))} {m' m'' : ℕ → Mem ρ}
    (h : Follows npes segs m m') (h' : Follows npes segs' m' m'') :
    Follows npes (segs ++ segs') m m'' := by
  induction segs generalizing m with
  | nil =>
    obtain rfl : m = m' := h
    exact h'
  | cons seg segs ih =>
    obtain ⟨m₁, hafter, hrest⟩ := h
    exact ⟨m₁, hafter, ih hrest⟩

/-- In every state of a run some supersteps are over, and the elements are within the next one. -/
theorem SuperInv.exists_of_run (hpos : 0 < M.npes) (hrf : ∀ s ∈ seg :: segs, RaceFree M.npes s)
    (h : SuperInv M.npes seg (tailOf segs) m md todo sent landed w)
    (hexec : exec (step M) w ls = some w') :
    ∃ passed seg' segs' m' md' todo' sent' landed', seg :: segs = passed ++ seg' :: segs' ∧
      Follows M.npes passed m m' ∧
      SuperInv M.npes seg' (tailOf segs') m' md' todo' sent' landed' w' := by
  induction ls generalizing seg segs m md todo sent landed w with
  | nil =>
    obtain rfl := Option.some.inj hexec
    exact ⟨[], seg, segs, m, md, todo, sent, landed, rfl, rfl, h⟩
  | cons a ls ih =>
    obtain ⟨w₁, hs, hrest⟩ := exec_cons_eq_some.mp hexec
    have hrf' := hrf seg List.mem_cons_self
    cases a with
    | run i =>
      obtain ⟨md', todo', sent', h'⟩ := h.step_run hrf' hs
      exact ih hrf h' hrest
    | land k =>
      obtain ⟨p, hp, rfl⟩ := step_land_eq_some hs
      exact ih hrf (h.land hrf' hp) hrest
    | barrier =>
      obtain ⟨seg', segs', rfl, hafter, hmem, hf, hprog⟩ := h.step_barrier hrf' hpos hs
      obtain ⟨passed, seg'', segs'', m', md', todo', sent', landed', hsplit, hfollows, h'⟩ :=
        ih (fun s hs => hrf s (List.mem_cons_of_mem _ hs)) (superInv_start hprog hf) hrest
      rw [hmem] at hfollows
      exact ⟨seg :: passed, seg'', segs'', m', md', todo', sent', landed',
        congrArg (List.cons seg) hsplit, ⟨w.mem, hafter, hfollows⟩, h'⟩

/-- Of a run of programs in supersteps. -/
theorem exists_superInv_of_run (hpos : 0 < M.npes) (hrf : ∀ s ∈ seg :: segs, RaceFree M.npes s)
    (hprog : ∀ i < M.npes, w.prog i = joinSteps i (seg :: segs)) (hf : w.flight = [])
    (hexec : exec (step M) w ls = some w') :
    ∃ passed seg' segs' m' md' todo' sent' landed', seg :: segs = passed ++ seg' :: segs' ∧
      Follows M.npes passed w.mem m' ∧
      SuperInv M.npes seg' (tailOf segs') m' md' todo' sent' landed' w' := by
  refine SuperInv.exists_of_run hpos hrf (superInv_start (fun i hi => ?_) hf) hexec
  rw [hprog i hi, joinSteps_cons]

/-- How many supersteps are to come, an element knows from its barriers. -/
theorem SuperInv.countP_eq (h : SuperInv npes seg (tailOf segs) m md todo sent landed w)
    (hrf : ∀ s ∈ seg :: segs, RaceFree npes s) {i : ℕ} (hi : i < npes) :
    (w.prog i).countP Op.isBarrier = segs.length := by
  have htodo : (todo i).countP Op.isBarrier = 0 := by
    rw [List.countP_eq_zero]
    intro op hop
    have hlocal := (hrf seg List.mem_cons_self).isLocal i hi op ((h.suffix i hi).subset hop)
    rw [(Op.not_waiting_of_isLocal hlocal).2]
    exact Bool.false_ne_true
  rw [h.prog i hi, List.countP_append, htodo, zero_add]
  cases segs with
  | nil => rfl
  | cons seg' segs =>
    refine (List.countP_cons_of_pos rfl).trans (congrArg Nat.succ (countP_joinSteps ?_))
    intro s hs op hop
    exact (Op.not_waiting_of_isLocal
      ((hrf s (List.mem_cons_of_mem _ hs)).isLocal i hi op hop)).2

/-- In a superstep of copies nothing lands: what an element still has to run takes its memory to
where the superstep takes it. -/
theorem SuperInv.localRun_todo (h : SuperInv npes seg tail m md todo sent landed w)
    (hnone : ∀ i < npes, ∀ op ∈ seg i, op.target = none) {i : ℕ} (hi : i < npes) :
    (localRun (w.mem i) (todo i)).1 = (localRun (m i) (seg i)).1 := by
  have hlanded : ∀ p, p ∉ landed := by
    intro p hp
    obtain ⟨j, hj, hsent⟩ := h.origin p (Or.inl hp)
    obtain ⟨op, hop, n, htarget, -⟩ := exists_op_of_put (h.mem_puts hj hsent)
    rw [hnone j hj op hop] at htarget
    cases htarget
  have hmem : w.mem i = md i := funext fun q => h.miss i hi q fun p hp => absurd hp (hlanded p)
  rw [h.split i hi, hmem]

/-- A run of the programs to their end follows the supersteps. -/
theorem follows_of_run (hpos : 0 < M.npes) (hrf : ∀ s ∈ seg :: segs, RaceFree M.npes s)
    (hprog : ∀ i < M.npes, w.prog i = joinSteps i (seg :: segs)) (hf : w.flight = [])
    (hexec : exec (step M) w ls = some w') (hdone : w'.Done) :
    Follows M.npes (seg :: segs) w.mem w'.mem := by
  obtain ⟨passed, seg', segs', m', md', todo', sent', landed', hsplit, hfollows, h⟩ :=
    exists_superInv_of_run hpos hrf hprog hf hexec
  obtain ⟨hnil, hf'⟩ := hdone
  have hend : ∀ i < M.npes, todo' i = [] ∧ tailOf segs' i = [] := fun i hi =>
    List.append_eq_nil_iff.mp ((h.prog i hi).symm.trans (hnil i))
  rw [hsplit]
  refine follows_append hfollows ⟨w'.mem, h.after (fun i hi => (hend i hi).1) hf', ?_⟩
  cases segs' with
  | nil => rfl
  | cons => cases (hend 0 hpos).2

end Kit.OneSided
