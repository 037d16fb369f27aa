import MpiToShmem.Shmem.HashUtils

/-!
# The tag table as a map

1. `TagMap` is what the calls are for: a map from tags to the buffer last added; `Owes` says what a
   call answers, and `MapLike` that every call of a sequence returns, answers so, and leaves the
   table of the map and its mutex unlocked.
2. `Inv` is what the calls keep as long as none deletes; `mapLike_iff` is the exact condition.
3. `deleteHashEntry_deadlock`, `deleteHashEntry_matching`: a delete leaves its mutex locked, and
   `comm->hashPtr` at a freed entry if that was the first.
-/

namespace MpiToShmem.HashUtils

/-! ## The map -/

/-- The last addition for each tag that is not deleted. -/
abbrev TagMap := ℤ → Option Added

/-- The map after a call with its reply. -/
def TagMap.after (m : TagMap) (c : Call) (r : Reply) : TagMap :=
  match c with
  | .addBufferEntry tag q _ _ => Function.update m tag (r.bufPtr.map fun b => ⟨q, b⟩)
  | .deleteHashEntry tag q =>
    if (m tag).map Added.request = some q then Function.update m tag none else m
  | _ => m

/-- The code is the error for something in which the arguments differ. -/
def Mismatched (q p : Request) : ReturnCode → Prop
  | .hashErrMismatchedCount => q.count ≠ p.count
  | .hashErrMismatchedRequestType => q.requestType ≠ p.requestType
  | .hashErrMismatchedDatatype => q.datatype ≠ p.datatype
  | _ => False

/-- What `HASH_FIND_INT` finds through `comm->hashPtr` is what the map has. -/
def Holds (t : Table) (m : TagMap) : Prop :=
  ∀ tag, ∃ found, hashFindInt t t.hashPtr tag = .ok found ∧
    found.map (fun p => p.2.added) = m tag

/-- A call that compares its arguments with those of the entry `p`: on a match it does `Q`,
otherwise it returns the matching error and leaves the table as it was. -/
def Compared (q p : Request) (s : State) (r : Reply) (s' : State) (Q : Prop) : Prop :=
  if q = p then Q else (∃ code, r.result = some code ∧ Mismatched q p code) ∧ s'.table = s.table

/-- What a call made with the map `m` owes to its caller. -/
def Owes (m : TagMap) (s : State) (c : Call) (r : Reply) (s' : State) : Prop :=
  match c with
  | .addBufferEntry .. => r.bufPtr.isSome
  | .getBufferPtrFromHash tag q =>
    match m tag with
    | none => r.result = some .hashErrIdNotFound
    | some e => Compared q e.request s r s'
        (r.result = some .mpiSuccess ∧ r.bufPtr = some e.bufPtr)
  | .findTagInHash tag =>
    match m tag with
    | none => r.result = some .hashErrIdNotFound
    | some e => r.bufPtr = some e.bufPtr
  | .deleteHashEntry tag q =>
    match m tag with
    | none => True
    | some e => Compared q e.request s r s' (r.result = some .mpiSuccess)

/-- A call answers like the map, leaves the table of the map after it, and its mutex unlocked. -/
structure Answers (m : TagMap) (s : State) (c : Call) (r : Reply) (s' : State) : Prop where
  owes : Owes m s c r s'
  holds : Holds s'.table (m.after c r)
  unlocked : s'.held c.mutex = false

/-- Every call of a sequence returns and answers like the map. -/
def MapLike (s : State) (m : TagMap) : List Call → Prop
  | [] => True
  | c :: cs => ∃ r s', call s c = .ok (r, s') ∧ Answers m s c r s' ∧ MapLike s' (m.after c r) cs

/-! ## What the calls keep -/

variable {t : Table} {a n : ℕ} {e : MpidHash} {tag : ℤ}

theorem Table.Sound.holds (h : t.Sound n) : Holds t t.contents :=
  fun _ => ⟨_, h.hashFindInt, rfl⟩

/-- No mutex is held, and the table is sound and has what the map has. -/
structure Inv (s : State) (m : TagMap) : Prop where
  multi : s.isMultiThreads = true
  free : ∀ x, s.held x = false
  sound : s.table.Sound s.next
  contents : ∀ tag, s.table.contents tag = m tag

variable {s s' : State} {m : TagMap} {q : Request} {r : Reply} {c : Call} {cs : List Call}

theorem inv_init : Inv State.init fun _ => none :=
  ⟨rfl, fun _ => rfl,
    ⟨rfl, fun _ h => absurd h List.not_mem_nil, fun _ h => absurd h List.not_mem_nil, .nil⟩,
    fun _ => rfl⟩

theorem Inv.holds (h : Inv s m) : Holds s.table m := by
  intro tag
  rw [← h.contents tag]
  exact h.sound.holds tag

/-- The state while a mutex is held. -/
def State.locked (s : State) (x : Mutex) : State :=
  { s with held := Function.update s.held x true }

theorem Inv.lock_eq (h : Inv s m) (x : Mutex) : lock x s = .ok (s.locked x) := by
  unfold lock
  rw [if_pos h.multi, if_neg (by rw [h.free x]; decide)]
  rfl

theorem Inv.unlock_eq (h : Inv s m) (x : Mutex) (t : Table) (k : ℕ) :
    unlock x { s.locked x with table := t, next := k } = { s with table := t, next := k } := by
  have hheld : Function.update (Function.update s.held x true) x false = s.held := by
    rw [Function.update_idem]
    exact Function.update_eq_self_iff.mpr (h.free x).symm
  unfold unlock State.locked
  rw [if_pos h.multi]
  simp only [hheld]

theorem Inv.unlock_locked (h : Inv s m) (x : Mutex) : unlock x (s.locked x) = s :=
  h.unlock_eq x s.table s.next

theorem Inv.find_eq (h : Inv s m) (x : Mutex) (tag : ℤ) :
    hashFindInt (s.locked x).table (s.locked x).table.hashPtr tag = .ok (s.table.find tag) :=
  h.sound.hashFindInt

theorem ok_bind {α β : Type} (x : α) (f : α → Except Halt β) : (Except.ok x >>= f) = f x := rfl

/-- Filling in the entry for a tag, found or new, adds to the map. -/
theorem Inv.newEntry (h : Inv s m) (x : Mutex) (tag : ℤ) :
    ∃ a t k, newEntry (s.locked x) (s.table.find tag) =
        (a, { s.locked x with table := t, next := k }) ∧
      ∀ e, e.id = tag → (t.write a e).Sound k ∧
        ∀ tag', (t.write a e).contents tag' = Function.update m tag (some e.added) tag' := by
  cases hf : s.table.find tag with
  | some p =>
    obtain ⟨a, e₀⟩ := p
    obtain ⟨-, he₀, hid₀⟩ := find_some hf
    refine ⟨a, s.table, s.next, rfl, fun e hid => ?_⟩
    refine ⟨h.sound.write he₀ (hid.trans hid₀.symm), fun tag' => ?_⟩
    rw [contents_write hf (hid.trans hid₀.symm), Function.update_apply, h.contents]
  | none =>
    have hfresh : s.next ∉ s.table.app := fun hmem => (h.sound.fresh _ hmem).false
    refine ⟨s.next, s.table.snoc s.next, s.next + 1, ?_, ?_⟩
    · unfold HashUtils.newEntry shmalloc
      simp only [State.locked, hashAddInt_eq h.sound]
      rfl
    · rintro e rfl
      refine ⟨h.sound.snoc hf, fun tag' => ?_⟩
      rw [Function.update_apply, ← h.contents tag']
      exact contents_snoc hfresh hf

theorem Inv.addBufferEntry (h : Inv s m) (tag : ℤ) (q : Request) (srcRank destRank : ℤ) :
    ∃ b s', addBufferEntry s tag q srcRank destRank = .ok (⟨some .mpiSuccess, some b⟩, s') ∧
      Inv s' (Function.update m tag (some ⟨q, b⟩)) := by
  obtain ⟨a, t, k, hne, hwrite⟩ := h.newEntry .lockAddBufferEntry tag
  obtain ⟨hsound, hcont⟩ := hwrite ⟨tag, tag, q, srcRank, destRank, false, k⟩ rfl
  refine ⟨k, { s with table := _, next := k + 1 }, ?_, h.multi, h.free,
    hsound.mono (Nat.le_succ k), hcont⟩
  unfold HashUtils.addBufferEntry
  simp only [h.lock_eq, ok_bind, h.find_eq, hne, shmalloc, h.unlock_eq]
  rfl

theorem verify_self : verify q q = .mpiSuccess := by simp [verify]

theorem mismatched_verify {p : Request} (h : q ≠ p) :
    verify q p ≠ .mpiSuccess ∧ Mismatched q p (verify q p) := by
  unfold verify
  split_ifs with h₁ h₂ h₃
  · exact ⟨nofun, h₁⟩
  · exact ⟨nofun, h₂⟩
  · exact ⟨nofun, h₃⟩
  · obtain ⟨_, _, _⟩ := q
    obtain ⟨_, _, _⟩ := p
    simp_all

theorem compared_of_eq {p : Request} {Q : Prop} (hq : q = p) (h : Q) : Compared q p s r s' Q := by
  unfold Compared
  rw [if_pos hq]
  exact h

theorem compared_of_ne {p : Request} {Q : Prop} (hq : q ≠ p) (hr : r.result = some (verify q p)) :
    Compared q p s r s Q := by
  unfold Compared
  rw [if_neg hq]
  exact ⟨⟨_, hr, (mismatched_verify hq).2⟩, rfl⟩

theorem Inv.tag_eq (h : Inv s m) (tag : ℤ) :
    m tag = (s.table.find tag).map fun p => p.2.added := (h.contents tag).symm

theorem Inv.getBufferPtrFromHash (h : Inv s m) (tag : ℤ) (q : Request) :
    ∃ r s', getBufferPtrFromHash s tag q = .ok (r, s') ∧
      Owes m s (.getBufferPtrFromHash tag q) r s' ∧ Inv s' m := by
  unfold HashUtils.getBufferPtrFromHash Owes
  simp only [h.lock_eq, ok_bind, h.find_eq, h.tag_eq tag]
  cases hf : s.table.find tag with
  | none =>
    simp only [h.unlock_locked]
    exact ⟨_, s, rfl, rfl, h⟩
  | some p =>
    obtain ⟨a, e⟩ := p
    simp only [Option.map_some]
    by_cases hq : q = e.request
    · obtain ⟨-, he, -⟩ := find_some hf
      have hsame : verify q e.request = .mpiSuccess := hq ▸ verify_self
      rw [if_pos hsame]
      refine ⟨⟨some (verify q e.request), some e.bufPtr⟩,
        { s with table := s.table.write a { e with isGrabbed := true } }, ?_,
        compared_of_eq hq ⟨congrArg some hsame, rfl⟩,
        h.multi, h.free, h.sound.write he rfl,
        fun tag' => (contents_grab hf).trans (h.contents tag')⟩
      exact congrArg (fun s' => Except.ok (_, s')) (h.unlock_eq .lockGetBufferPtrFromHash _ s.next)
    · rw [if_neg (mismatched_verify hq).1, h.unlock_locked]
      exact ⟨⟨_, none⟩, s, rfl, compared_of_ne hq rfl, h⟩

theorem Inv.findTagInHash (h : Inv s m) (tag : ℤ) :
    findTagInHash s tag = .ok (⟨none, (m tag).map Added.bufPtr⟩, s) := by
  unfold HashUtils.findTagInHash
  simp only [h.lock_eq, ok_bind, h.find_eq, h.tag_eq tag]
  cases s.table.find tag with
  | none =>
    simp only [h.unlock_locked]
    rfl
  | some p =>
    simp only [h.unlock_locked]
    rfl

/-- A find owes an error code for a tag that is not there, and returns none. -/
theorem owes_findTagInHash :
    Owes m s (.findTagInHash tag) ⟨none, (m tag).map Added.bufPtr⟩ s ↔ (m tag).isSome := by
  simp only [Owes]
  cases m tag with
  | none => exact iff_of_false nofun nofun
  | some e => exact iff_of_true rfl rfl

/-- A delete that returns does so with its mutex locked. -/
theorem deleteHashEntry_locked (h : s.isMultiThreads = true)
    (hc : deleteHashEntry s tag q = .ok (r, s')) :
    s'.isMultiThreads = true ∧ s'.held .lockDeleteHashEntry = true := by
  unfold deleteHashEntry lock at hc
  rw [if_pos h] at hc
  by_cases hheld : s.held .lockDeleteHashEntry = true
  · rw [if_pos hheld] at hc
    cases hc
  · rw [if_neg hheld] at hc
    simp only [ok_bind] at hc
    cases hf : HashUtils.hashFindInt s.table s.table.hashPtr tag with
    | error x =>
      rw [hf] at hc
      cases hc
    | ok found =>
      rw [hf, ok_bind] at hc
      have hself : Function.update s.held .lockDeleteHashEntry true .lockDeleteHashEntry = true :=
        Function.update_self ..
      cases found with
      | none =>
        cases hc
        exact ⟨h, hself⟩
      | some p =>
        simp only at hc
        split_ifs at hc
        · cases hc
          exact ⟨h, hself⟩
        · cases hc
          exact ⟨h, hself⟩

/-! ## Runs -/

def Call.IsDelete : Call → Prop
  | .deleteHashEntry .. => True
  | _ => False

/-- The call adds a buffer for the tag. -/
def Call.Adds (c : Call) (tag : ℤ) : Prop :=
  match c with
  | .addBufferEntry tag' .. => tag' = tag
  | _ => False

/-- Every find of the sequence is for a tag of the map or for one added before it. -/
def FindsAdded (m : TagMap) (cs : List Call) : Prop :=
  ∀ pre tag post, cs = pre ++ .findTagInHash tag :: post →
    (m tag).isSome ∨ ∃ c ∈ pre, c.Adds tag

theorem isSome_after (hc : ¬ c.IsDelete) (howes : Owes m s c r s') :
    (m.after c r tag).isSome ↔ (m tag).isSome ∨ c.Adds tag := by
  cases c with
  | addBufferEntry tag' q _ _ =>
    obtain ⟨b, hb⟩ := Option.isSome_iff_exists.mp howes
    simp only [TagMap.after, Call.Adds, hb, Option.map_some, Function.update_apply]
    by_cases h : tag = tag'
    · simp [h]
    · simp [h, Ne.symm h]
  | getBufferPtrFromHash tag' q => exact (or_iff_left id).symm
  | findTagInHash tag' => exact (or_iff_left id).symm
  | deleteHashEntry tag' q => exact absurd trivial hc

theorem findsAdded_head (h : FindsAdded m (c :: cs)) :
    ∀ tag, c = .findTagInHash tag → (m tag).isSome := by
  rintro tag rfl
  exact (h [] tag cs rfl).resolve_right fun ⟨_, hmem, _⟩ => List.not_mem_nil hmem

theorem findsAdded_cons (hc : ¬ c.IsDelete) (howes : Owes m s c r s') :
    FindsAdded m (c :: cs) ↔
      (∀ tag, c = .findTagInHash tag → (m tag).isSome) ∧ FindsAdded (m.after c r) cs := by
  constructor
  · intro h
    refine ⟨findsAdded_head h, ?_⟩
    rintro pre tag post rfl
    rw [isSome_after hc howes]
    rcases h (c :: pre) tag post rfl with hm | ⟨c', hc', hadds⟩
    · exact .inl (.inl hm)
    · rcases List.mem_cons.mp hc' with rfl | hc'
      · exact .inl (.inr hadds)
      · exact .inr ⟨c', hc', hadds⟩
  · rintro ⟨hhead, htail⟩ pre tag post hcs
    cases pre with
    | nil =>
      rw [List.nil_append, List.cons.injEq] at hcs
      exact .inl (hhead tag hcs.1)
    | cons c' pre =>
      rw [List.cons_append, List.cons.injEq] at hcs
      obtain ⟨rfl, hcs⟩ := hcs
      rcases htail pre tag post hcs with hm | ⟨c', hc', hadds⟩
      · rcases (isSome_after hc howes).mp hm with hm | hadds
        · exact .inl hm
        · exact .inr ⟨c, List.mem_cons_self, hadds⟩
      · exact .inr ⟨c', List.mem_cons_of_mem _ hc', hadds⟩

/-- A call that does not delete, from where no mutex is held: it keeps the invariant, and it
answers like the map unless it looks for a tag that is not there. -/
theorem Inv.call_eq (h : Inv s m) (hc : ¬ c.IsDelete) :
    ∃ r s', call s c = .ok (r, s') ∧ Inv s' (m.after c r) ∧
      (Owes m s c r s' ↔ ∀ tag, c = .findTagInHash tag → (m tag).isSome) := by
  cases c with
  | addBufferEntry tag q srcRank destRank =>
    obtain ⟨b, s', hcall, hinv⟩ := h.addBufferEntry tag q srcRank destRank
    exact ⟨_, s', hcall, hinv, iff_of_true rfl nofun⟩
  | getBufferPtrFromHash tag q =>
    obtain ⟨r, s', hcall, howes, hinv⟩ := h.getBufferPtrFromHash tag q
    exact ⟨r, s', hcall, hinv, iff_of_true howes nofun⟩
  | findTagInHash tag =>
    refine ⟨_, s, h.findTagInHash tag, h, owes_findTagInHash.trans ⟨?_, fun hfind => hfind tag rfl⟩⟩
    rintro hm tag' heq
    cases heq
    exact hm
  | deleteHashEntry tag q => exact absurd trivial hc

theorem Inv.answers (h : Inv s' (m.after c r)) (howes : Owes m s c r s') : Answers m s c r s' :=
  ⟨howes, h.holds, h.free _⟩

theorem mapLike_cons (hcall : call s c = .ok (r, s')) :
    MapLike s m (c :: cs) ↔ Answers m s c r s' ∧ MapLike s' (m.after c r) cs := by
  constructor
  · rintro ⟨r₁, s₁, hcall₁, hrest⟩
    rw [hcall] at hcall₁
    cases hcall₁
    exact hrest
  · exact fun hrest => ⟨r, s', hcall, hrest⟩

theorem not_mapLike_delete (h : Inv s m) : ¬ MapLike s m (.deleteHashEntry tag q :: cs) := by
  rintro ⟨r, s', hcall, hans, -⟩
  have hlocked := (deleteHashEntry_locked h.multi hcall).2
  rw [show s'.held .lockDeleteHashEntry = false from hans.unlocked] at hlocked
  cases hlocked

/-- Induction on the calls, from the states in which no mutex is held. -/
theorem Inv.mapLike_iff_findsAdded (h : Inv s m) :
    MapLike s m cs ↔ (∀ c ∈ cs, ¬ c.IsDelete) ∧ FindsAdded m cs := by
  induction cs generalizing s m with
  | nil =>
    refine iff_of_true trivial ⟨fun c hc => absurd hc List.not_mem_nil, ?_⟩
    intro pre tag post hnil
    exact absurd hnil.symm (List.append_ne_nil_of_right_ne_nil _ (List.cons_ne_nil _ _))
  | cons c cs ih =>
    rw [List.forall_mem_cons]
    by_cases hc : c.IsDelete
    · refine iff_of_false ?_ fun hcond => hcond.1.1 hc
      cases c with
      | deleteHashEntry tag q => exact not_mapLike_delete h
      | addBufferEntry | getBufferPtrFromHash | findTagInHash => exact hc.elim
    · obtain ⟨r, s', hcall, hinv, howes⟩ := h.call_eq hc
      rw [mapLike_cons hcall, ih hinv]
      by_cases hfind : ∀ tag, c = .findTagInHash tag → (m tag).isSome
      · rw [findsAdded_cons hc (howes.mpr hfind)]
        have hans := hinv.answers (howes.mpr hfind)
        exact ⟨fun ⟨_, hdel, hfinds⟩ => ⟨⟨hc, hdel⟩, hfind, hfinds⟩,
          fun ⟨⟨_, hdel⟩, _, hfinds⟩ => ⟨hans, hdel, hfinds⟩⟩
      · exact iff_of_false (fun hrest => hfind (howes.mp hrest.1.owes))
          fun hcond => hfind (findsAdded_head hcond.2)

/-- A sequence of calls gets the answers of the map and its mutexes back exactly when it does not
delete, and looks for tags with `FindTagInHash` only after they were added. -/
theorem mapLike_iff (cs : List Call) :
    MapLike State.init (fun _ => none) cs ↔
      (∀ c ∈ cs, ¬ c.IsDelete) ∧
        ∀ pre tag post, cs = pre ++ .findTagInHash tag :: post → ∃ c ∈ pre, c.Adds tag := by
  rw [inv_init.mapLike_iff_findsAdded]
  refine and_congr_right fun _ => forall₄_congr fun pre tag post _ => ?_
  exact or_iff_right nofun

/-- A buffer added and deleted: the mutex stays locked. -/
theorem not_mapLike_add_delete :
    ¬ MapLike State.init (fun _ => none)
      [.addBufferEntry 5 ⟨1, .send, .int⟩ 0 1, .deleteHashEntry 5 ⟨1, .send, .int⟩] := by
  obtain ⟨r, s, hcall, hinv, -⟩ :=
    inv_init.call_eq (c := .addBufferEntry 5 ⟨1, .send, .int⟩ 0 1) id
  rw [mapLike_cons hcall]
  exact fun h => not_mapLike_delete hinv h.2

/-! ## Deleting -/

/-- After a delete that returned, no delete returns. -/
theorem deleteHashEntry_deadlock (h : s.isMultiThreads = true)
    (hc : deleteHashEntry s tag q = .ok (r, s')) (tag' : ℤ) (q' : Request) :
    deleteHashEntry s' tag' q' = .error .deadlock := by
  obtain ⟨hmulti, hheld⟩ := deleteHashEntry_locked h hc
  unfold deleteHashEntry lock
  rw [if_pos hmulti, if_pos hheld]
  rfl

/-- A delete that matches removes the tag and no other, unless its entry is the one at
`comm->hashPtr`, which is left pointing at freed memory. -/
theorem deleteHashEntry_matching (h : Inv s m) (hf : s.table.find tag = some (a, e)) :
    ∃ s', deleteHashEntry s tag e.request = .ok (⟨some .mpiSuccess, none⟩, s') ∧
      (Holds s'.table (Function.update m tag none) ↔ s.table.hashPtr ≠ some a) := by
  refine ⟨{ s.locked .lockDeleteHashEntry with table := s.table.deleted a }, ?_, ?_⟩
  · unfold deleteHashEntry
    simp only [h.lock_eq, ok_bind, h.find_eq, hf, verify_self]
    rfl
  · constructor
    · intro hholds hptr
      obtain ⟨found, hfound, -⟩ := hholds tag
      have hfreed : HashUtils.hashFindInt (s.table.deleted a) (some a) tag = .error .freedMemory :=
        if_neg (by rw [deleted_entry_self]; decide)
      rw [← hptr] at hfreed
      exact nomatch hfreed.symm.trans hfound
    · intro hptr
      rw [h.sound.head] at hptr
      have hmap : (s.table.deleted a).contents = Function.update m tag none := by
        funext tag'
        rw [contents_deleted h.sound hptr hf, Function.update_apply, h.contents]
      exact hmap ▸ (h.sound.deleted hptr).holds

end MpiToShmem.HashUtils
